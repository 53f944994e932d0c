import RaftGroup.Proofs.Growth
import RaftGroup.Proofs.Stream

namespace RaftGroup.Resp

section

variable {limit levels : Nat} {b s p more text : Bytes}

theorem line?_of_append (h : line? (b ++ more) = some text) (hl : text.length + 2 ≤ b.length) :
    line? b = some text := by
  cases hb : line? b
  case none => exact absurd (lt_of_line?_append hb h) (Nat.not_lt.mpr hl)
  case some => rw [← (line?_append_of_eq_some hb more).left, h]

theorem parseItems_of_fault {item : Bytes → Except Error (Step Resp)} (n : Nat) (h : parseItems item k b = .error e)
    (hn : k ≤ n) : ∃ e, parseItems item n b = .error e := by
  induction n generalizing k b e
  case zero => cases Nat.le_zero.mp hn; cases h
  case succ n ih =>
    cases k
    case zero => cases h
    case succ k =>
      rcases hi : item b with e' | (⟨v, used⟩ | need)
      case error         => exact ⟨e', parseItems_of_error hi n⟩
      case ok.incomplete => rw [parseItems_of_incomplete hi] at h; cases h
      case ok.done       =>
        rw [parseItems_of_done hi] at h
        cases hk : parseItems item k (b.drop used)
        case ok    => rw [hk] at h; cases h
        case error =>
          have ⟨e, he⟩ := ih hk (Nat.le_of_succ_le_succ hn)
          exact ⟨e, by rw [parseItems_of_done hi, he]; rfl⟩

theorem parseItems_succ_of_error {item : Bytes → Except Error (Step Resp)}
    (hb : parseItems item k b = .ok (.done vs used))
    (he : item (b.drop used) = .error e) : parseItems item (k + 1) b = .error e := by
  induction k generalizing b vs used
  case zero =>
    cases hb
    exact parseItems_of_error he 0
  case succ k ih =>
    rcases hi : item b with e' | (⟨v, used⟩ | need)
    case error         => rw [parseItems_of_error hi] at hb; cases hb
    case ok.incomplete => rw [parseItems_of_incomplete hi] at hb; cases hb
    case ok.done       =>
      rw [parseItems_of_done hi] at hb ⊢
      obtain ⟨s, hs, hb⟩ := map_eq_ok_iff.mp hb
      obtain ⟨s, hk, rfl⟩ := map_eq_ok_iff.mp hs
      cases s <;> cases hb
      rw [← List.drop_drop] at he
      rw [ih hk he]
      rfl

theorem parseItems_used_le (h : parseItems (parse limit levels) k b = .ok (.done vs used)) : used ≤ b.length := by
  have hg := parseItems_grows (parse_grows limit levels) k b []
  rw [h, List.append_nil, h] at hg
  cases hg
  assumption

theorem parsePayload_array (h : (integer? text >>= length? limit) = .ok (some n)) (levels : Nat) (input : Bytes) :
    parsePayload limit (levels + 1) .array text input = Step.map .array <$> parseItems (parse limit levels) n input := by
  obtain ⟨i, hi, hl⟩ := bind_eq_ok_iff.mp h
  rw [parsePayload, hi]
  simp only [bind, Except.bind, hl]

theorem Meets.own_or_array (h : Meets limit levels (c :: rest) text) :
    line? rest = some text ∨ Symbol.ofByte? c = some .array := by
  cases h
  case own  => exact .inl ‹_›
  case item => exact .inr ‹_›

theorem Meets.cut (h : Meets limit levels s text) (hl : maxIntegerLength < text.length) :
    ∃ p, p <+: s ∧ ∃ e, parse limit levels p = .error e := by
  induction h
  case own c rest text symbol numeric line =>
    have ⟨_, ht⟩ := line?_append_of_eq_some line []
    refine ⟨c :: rest.take (maxIntegerLength + 2), (List.prefix_cons_inj c).mpr (List.take_prefix _ _), ?_⟩
    have hp : line? (rest.take (maxIntegerLength + 2)) = none := by
      cases hp : line? (rest.take (maxIntegerLength + 2))
      case none => rfl
      case some =>
        have ⟨h, hle⟩ := line?_append_of_eq_some hp (rest.drop (maxIntegerLength + 2))
        rw [List.take_append_drop, line] at h
        cases h
        rw [List.length_take] at hle
        omega
    rw [parse_of_no_line symbol hp, if_pos ⟨numeric, by rw [List.length_take]; omega⟩]
    exact ⟨_, rfl⟩
  case item n k vs used found levels c rest text symbol line count lt before _ ih =>
    obtain ⟨p, hp, e, he⟩ := ih hl
    have ⟨_, ht⟩ := line?_append_of_eq_some line []
    -- The items before, and then the part of this one that is refused.
    generalize hd : rest.drop (text.length + 2) = input at before hp
    have hq : input.take used ++ p <+: input := by
      have := (List.prefix_append_right_inj (input.take used)).mpr hp
      rwa [List.take_append_drop] at this
    have hr : rest.take (text.length + 2) ++ input = rest := hd ▸ List.take_append_drop _ _
    have hh : (rest.take (text.length + 2)).length = text.length + 2 := List.length_take_of_le ht
    have hline : line? (rest.take (text.length + 2)) = some text :=
      line?_of_append (hr.symm ▸ line) (Nat.le_of_eq hh.symm)
    refine ⟨c :: (rest.take (text.length + 2) ++ (input.take used ++ p)), ?_, ?_⟩
    case refine_1 =>
      have := (List.prefix_append_right_inj (rest.take (text.length + 2))).mpr hq
      rw [hr] at this
      exact (List.prefix_cons_inj c).mpr this
    case refine_2 =>
      rw [parse_of_line symbol (line?_append_of_eq_some hline _).left, List.drop_left' hh, parsePayload_array count]
      have hu : (input.take used).length = used := List.length_take_of_le (parseItems_used_le before)
      obtain ⟨tail, ht⟩ := hq
      have ⟨e, he⟩ : ∃ e, parseItems (parse limit levels) n (input.take used ++ p) = .error e := by
        have hg := parseItems_grows (parse_grows limit levels) k (input.take used ++ p) tail
        rw [ht, before] at hg
        obtain hk | ⟨e, hk⟩ := hg.done_or_error (by rw [List.length_append, hu]; omega)
        · exact parseItems_of_fault n (parseItems_succ_of_error hk (by rwa [List.drop_left' hu])) lt
        · exact parseItems_of_fault n hk (Nat.le_of_lt lt)
      exact ⟨e, by rw [he]; rfl⟩

end

namespace Receiver

-- Nothing that can be used is read, however many bytes are there.
def Refuses (limit : Nat) (b : Bytes) : Prop :=
  ∀ s : Step Resp, Resp.parse limit maxDepth b = .ok s → limit < s.bytes

inductive Settles (limit : Nat) : (b : Bytes) → List Resp → (faulty : Bool) → Prop
  | value (reads : Resp.parse limit maxDepth b = .ok (.done v n)) (fits : n ≤ limit)
      (later : Settles limit (b.drop n) vs faulty) : Settles limit b (v :: vs) faulty
  | refused (refuses : Refuses limit b) : Settles limit b [] true
  | waits (reads : Resp.parse limit maxDepth b = .ok (.incomplete m)) (fits : m ≤ limit) :
    Settles limit b [] false

-- Reading on comes to a line that holds a number. A value that is refused all the same does not count.
inductive Meets (limit : Nat) : (b found : Bytes) → Prop
  | first {b found : Bytes} {s : Step Resp} (reads : Resp.parse limit maxDepth b = .ok s) (fits : s.bytes ≤ limit)
      (meets : Resp.Meets limit maxDepth b found) : Meets limit b found
  | later {b found : Bytes} (reads : Resp.parse limit maxDepth b = .ok (.done v n)) (fits : n ≤ limit)
      (later : Meets limit (b.drop n) found) : Meets limit b found

-- No line that is met holds a number with more digits than any number needs.
def Brief (limit : Nat) (b : Bytes) : Prop :=
  ∀ text, Meets limit b text → text.length ≤ maxIntegerLength

-- While the buffer is too short for what it is known to need, nothing else would come of looking at it.
structure Kept (r : Receiver) : Prop where
  bound : r.need ≤ r.limit
  waits : r.Waits → Resp.parse r.limit maxDepth r.buffer = .ok (.incomplete r.need)

inductive Looks (r : Receiver) : Except Error Outcome × Receiver → Prop
  | hands (reads : Resp.parse r.limit maxDepth r.buffer = .ok (.done v n)) (fits : n ≤ r.limit) :
    Looks r (.ok (.value v), { r with buffer := r.buffer.drop n, need := 0 })
  | waits (reads : Resp.parse r.limit maxDepth r.buffer = .ok (.incomplete m)) (fits : m ≤ r.limit) :
    Looks r (.ok .needMore, { r with need := m })
  | refuses (refuses : Refuses r.limit r.buffer) : Looks r (.error e, r)

structure Idle (limit : Nat) (r : Receiver) : Prop where
  kept : r.Kept
  same : r.limit = limit
  waits : Settles limit r.buffer [] false

inductive Leaves (limit : Nat) : (b : Bytes) → Batch Empty Resp → Prop
  | value (reads : Resp.parse limit maxDepth b = .ok (.done v n)) (fits : n ≤ limit)
      (later : Leaves limit (b.drop n) batch) : Leaves limit b ⟨v :: batch.items, batch.failure, batch.receiver⟩
  | refused (refuses : Refuses limit b) : Leaves limit b ⟨[], some e, r⟩
  | waits (idle : r.Idle limit) : Leaves limit r.buffer ⟨[], none, r⟩

variable {limit levels : Nat} {r : Receiver} {b more : Bytes} {vs vs' : List Resp} {batch : Batch Empty Resp}

theorem Settles.unique (h : Settles limit b vs f) (h' : Settles limit b vs' f') : vs = vs' ∧ f = f' := by
  induction h generalizing vs' f'
  case value reads fits _ ih =>
    cases h'
    case value reads' later =>
      cases reads.symm.trans reads'
      exact ⟨congrArg _ (ih later).left, (ih later).right⟩
    case refused refuses => exact absurd (refuses _ reads) (Nat.not_lt.mpr fits)
    case waits reads'    => cases reads.symm.trans reads'
  case refused refuses =>
    cases h'
    case value fits reads _ => exact absurd (refuses _ reads) (Nat.not_lt.mpr fits)
    case refused            => exact ⟨rfl, rfl⟩
    case waits fits reads   => exact absurd (refuses _ reads) (Nat.not_lt.mpr fits)
  case waits reads fits =>
    cases h'
    case value reads' _  => cases reads.symm.trans reads'
    case refused refuses => exact absurd (refuses _ reads) (Nat.not_lt.mpr fits)
    case waits           => exact ⟨rfl, rfl⟩

theorem Settles.of_error (h : Resp.parse limit maxDepth b = .error e) : Settles limit b [] true :=
  .refused fun s hs => by rw [h] at hs; cases hs

theorem Refuses.append (h : Refuses limit b) (hb : Brief limit (b ++ more)) : Refuses limit (b ++ more) := by
  refine fun s hs => Nat.lt_of_not_le fun hf => ?_
  have hg := parse_grows limit maxDepth b more
  rw [hs] at hg
  cases hp : Resp.parse limit maxDepth b
  case error =>
    rw [hp] at hg
    cases hg
    case early he =>
      have ⟨text, hm, hl⟩ := he
      exact absurd (hb text (.first hs hf hm)) (Nat.not_le.mpr hl)
  case ok =>
    have hl := h _ hp
    rw [hp] at hg
    cases hg
    case done              => exact Nat.not_lt.mpr hf hl
    case waits short _ least => exact Nat.not_lt.mpr hf (Nat.lt_of_lt_of_le hl (least s rfl))

theorem Kept.fresh (limit : Nat) : ({ limit } : Receiver).Kept :=
  ⟨Nat.zero_le _, fun hw => absurd hw (Nat.not_lt_zero _)⟩

theorem Kept.push (h : r.Kept) (piece : Bytes) : (r.push piece).Kept := by
  refine ⟨h.bound, fun hw => ?_⟩
  have hl : r.buffer.length + piece.length < r.need := by rw [← List.length_append]; exact hw
  have hg := parse_grows r.limit maxDepth r.buffer piece
  rw [h.waits (show r.buffer.length < r.need by omega)] at hg
  cases hg
  case waits same _ => exact same hw

theorem incomplete_bounds (h : Resp.parse limit levels b = .ok (.incomplete m)) : b.length < m := by
  have hg := parse_grows limit levels b []
  rw [h] at hg
  cases hg
  assumption

theorem done_bounds (h : Resp.parse limit levels b = .ok (.done v n)) : 0 < n ∧ n ≤ b.length := by
  have hg := parse_grows limit levels b []
  rw [h, List.append_nil, h] at hg
  cases hg
  exact ⟨parse_bytes_pos h, ‹_›⟩

theorem Kept.looks (h : r.Kept) : Looks r r.parse := by
  rw [parse]
  split
  case isTrue hw =>
    rw [wait_eq_ok hw h.bound]
    exact .waits (h.waits hw) h.bound
  case isFalse =>
    rw [parseAnew]
    rcases hp : Resp.parse r.limit maxDepth r.buffer with e | (⟨v, n⟩ | m)
    case error => exact .refuses fun s hs => by rw [hp] at hs; cases hs
    case ok.done =>
      simp only
      split
      case isTrue hl  => exact .refuses fun s hs => by cases hp.symm.trans hs; exact hl
      case isFalse hl => exact .hands hp (Nat.le_of_not_lt hl)
    case ok.incomplete =>
      simp only
      split
      case isTrue hl  => exact .refuses fun s hs => by cases hp.symm.trans hs; exact hl
      case isFalse hl =>
        have hw : ({ r with need := m } : Receiver).wait = .ok .needMore :=
          wait_eq_ok (incomplete_bounds hp) (Nat.le_of_not_lt hl)
        rw [hw]
        exact .waits hp (Nat.le_of_not_lt hl)

theorem Kept.collectFor_leaves (h : r.Kept) (ht : r.buffer.length < turns) :
    Leaves r.limit r.buffer (collectFor .ok turns r) := by
  induction turns generalizing r
  case zero => exact absurd ht (Nat.not_lt_zero _)
  case succ turns ih =>
    have hl := h.looks
    rw [collectFor]
    generalize r.parse = out at hl
    cases hl
    case refuses refuses    => exact .refused refuses
    case waits m reads fits =>
      have hk : ({ r with need := m } : Receiver).Kept := ⟨fits, fun _ => reads⟩
      exact .waits ⟨hk, rfl, .waits reads fits⟩
    case hands v n reads fits =>
      obtain ⟨_, _⟩ := done_bounds reads
      have hk : ({ r with buffer := r.buffer.drop n, need := 0 } : Receiver).Kept :=
        ⟨Nat.zero_le _, fun hw => absurd hw (Nat.not_lt_zero _)⟩
      exact .value reads fits (ih hk (by simp only [List.length_drop]; omega))

theorem Leaves.settles (h : Leaves limit b batch) : Settles limit b batch.items batch.failure.isSome := by
  induction h
  case value reads fits _ ih => exact .value reads fits ih
  case refused refuses       => exact .refused refuses
  case waits idle            => exact idle.waits

theorem Brief.drop (h : Brief limit b) (reads : Resp.parse limit maxDepth b = .ok (.done v n)) (fits : n ≤ limit) :
    Brief limit (b.drop n) :=
  fun text hm => h text (.later reads fits hm)

theorem parse_append_of_done (h : Resp.parse limit levels b = .ok (.done v n)) (more : Bytes) :
    Resp.parse limit levels (b ++ more) = .ok (.done v n) ∧ (b ++ more).drop n = b.drop n ++ more := by
  have hg := parse_grows limit levels b more
  rw [h] at hg
  generalize Resp.parse limit levels (b ++ more) = out at hg
  cases hg
  case done le => exact ⟨rfl, List.drop_append_of_le_length le⟩

theorem Leaves.append (h : Leaves limit b batch) (hb : Brief limit (b ++ more)) :
    (batch.failure ≠ none → Settles limit (b ++ more) batch.items true) ∧
    (batch.failure = none → batch.receiver.Idle limit ∧ Brief limit (batch.receiver.buffer ++ more) ∧
      ∀ vs f, Settles limit (batch.receiver.buffer ++ more) vs f → Settles limit (b ++ more) (batch.items ++ vs) f) := by
  induction h
  case value reads fits _ ih =>
    have ⟨reads, hd⟩ := parse_append_of_done reads more
    have ⟨hs, hn⟩ := ih (hd ▸ hb.drop reads fits)
    refine ⟨fun hf => .value reads fits (hd ▸ hs hf), fun hf => ?_⟩
    have ⟨hi, hb, hs⟩ := hn hf
    exact ⟨hi, hb, fun vs f h => .value reads fits (hd ▸ hs vs f h)⟩
  case refused refuses => exact ⟨fun _ => .refused (refuses.append hb), nofun⟩
  case waits idle      => exact ⟨fun hf => absurd rfl hf, fun _ => ⟨idle, hb, fun _ _ h => h⟩⟩

theorem Idle.fresh (h : 1 ≤ limit) : ({ limit } : Receiver).Idle limit :=
  ⟨.fresh limit, rfl, .waits rfl h⟩

theorem Idle.leaves (h : r.Idle limit) (piece : Bytes) :
    Leaves limit (r.buffer ++ piece) ((r.push piece).collect .ok) := by
  have hc := (h.kept.push piece).collectFor_leaves (Nat.lt_succ_self _)
  rwa [show (r.push piece).limit = limit from h.same] at hc

theorem Idle.readAll_settles {pieces : List Bytes} (h : r.Idle limit) (hb : Brief limit (r.buffer ++ pieces.flatten)) :
    Settles limit (r.buffer ++ pieces.flatten) (r.readAll pieces).items (r.readAll pieces).failure.isSome := by
  induction pieces generalizing r
  case nil                  => rw [List.flatten_nil, List.append_nil]; exact h.waits
  case cons piece pieces ih =>
    rw [List.flatten_cons, ← List.append_assoc] at hb ⊢
    obtain ⟨hs, hn⟩ := (h.leaves piece).append hb
    rw [readAll]
    simp only
    split
    case h_1 e hf =>
      rw [hf]
      exact hs (by rw [hf]; exact Option.some_ne_none e)
    case h_2 hf =>
      obtain ⟨hi, hb, hs⟩ := hn hf
      exact hs _ _ (ih hi hb)

theorem Idle.readAll_singleton (h : r.Idle limit) (piece : Bytes) :
    Settles limit (r.buffer ++ piece) (r.readAll [piece]).items (r.readAll [piece]).failure.isSome := by
  have hl := (h.leaves piece).settles
  rw [readAll]
  simp only
  split
  case h_1 => exact hl
  case h_2 hf =>
    rw [hf] at hl
    rw [readAll, List.append_nil]
    exact hl

theorem Idle.readAll_of_faulty (h : r.Idle limit) (hs : Settles limit (r.buffer ++ piece) vs true)
    (pieces : List Bytes) :
    (r.readAll (piece :: pieces)).items = vs ∧ (r.readAll (piece :: pieces)).failure.isSome := by
  have ⟨hi, hf⟩ := (h.leaves piece).settles.unique hs
  rw [readAll]
  simp only
  split
  case h_1    => exact ⟨hi, hf⟩
  case h_2 hn => rw [hn] at hf; cases hf

theorem Meets.cut (h : Meets limit b text) (hl : maxIntegerLength < text.length) :
    ∃ p, p <+: b ∧ ∃ vs, Settles limit p vs true ∧ ¬ Settles limit b vs true := by
  induction h
  case first reads fits meets =>
    obtain ⟨p, hp, e, he⟩ := Resp.Meets.cut meets hl
    refine ⟨p, hp, [], .of_error he, fun hs => ?_⟩
    cases hs
    case refused refuses => exact absurd (refuses _ reads) (Nat.not_lt.mpr fits)
  case later v n b found reads fits _ ih =>
    obtain ⟨p, hp, vs, hs, hn⟩ := ih hl
    have hr : b.take n ++ p <+: b := by
      have := (List.prefix_append_right_inj (b.take n)).mpr hp
      rwa [List.take_append_drop] at this
    have ⟨_, hle⟩ := done_bounds reads
    have hd : (b.take n ++ p).drop n = p := List.drop_left' (List.length_take_of_le hle)
    refine ⟨b.take n ++ p, hr, ?_⟩
    obtain ⟨q, hq⟩ := hr
    have hg := parse_grows limit maxDepth (b.take n ++ p) q
    rw [hq, reads] at hg
    obtain hp | ⟨e, hp⟩ := hg.done_or_error (by rw [List.length_append, List.length_take_of_le hle]; omega)
    case inl =>
      refine ⟨v :: vs, .value hp fits (hd.symm ▸ hs), fun hs => ?_⟩
      cases hs
      case value reads' later => cases reads.symm.trans reads'; exact hn later
    case inr =>
      refine ⟨[], .of_error hp, fun hs => ?_⟩
      cases hs
      case refused refuses => exact absurd (refuses _ reads) (Nat.not_lt.mpr fits)

-- Two cuts of the same bytes come to the same values, and a fault ends both or neither, whatever the bytes are: but only
-- as long as no line is met that holds a number with more digits than any number needs.
theorem readAll_agree_iff (limit : Nat) (hl : 1 ≤ limit) (b : Bytes) :
    (∀ pieces pieces' : List Bytes, pieces.flatten = b → pieces'.flatten = b →
      let out := ({ limit } : Receiver).readAll pieces
      let out' := ({ limit } : Receiver).readAll pieces'
      out.items = out'.items ∧ (out.failure.isSome ↔ out'.failure.isSome)) ↔
    ∀ text, Meets limit b text → text.length ≤ maxIntegerLength := by
  have hi : ({ limit } : Receiver).Idle limit := .fresh hl
  constructor
  case mp =>
    refine fun h text hm => Nat.le_of_not_lt fun ht => ?_
    obtain ⟨p, ⟨q, hq⟩, vs, hs, hn⟩ := hm.cut ht
    have ⟨hv, hf⟩ := hi.readAll_of_faulty hs [q]
    have hw := hi.readAll_singleton b
    have ⟨ha, hb⟩ := h [p, q] [b] (by simpa using hq) (by simp)
    rw [← ha, hv, hb.mp hf] at hw
    exact hn hw
  case mpr =>
    rintro hb pieces pieces' rfl hp
    have h := hi.readAll_settles hb
    have h' := hi.readAll_settles (hp.symm ▸ hb)
    have ⟨hv, hf⟩ := h.unique (hp ▸ h')
    exact ⟨hv, by rw [hf]⟩

def paddedOne (zeros : Nat) : Bytes :=
  line .integer (List.replicate zeros 0x30 ++ [0x31])

theorem not_meets_nil : ¬ Meets limit [] text := by
  intro h
  cases h
  case first meets   => cases meets
  case later reads _ => rw [Resp.parse] at reads; cases reads

theorem meets_paddedOne (h : Meets 64 (paddedOne 19) text) : text.length ≤ maxIntegerLength := by
  have reads : Resp.parse 64 maxDepth (paddedOne 19) = .ok (.done (.integer 1) 23) := rfl
  generalize hb : paddedOne 19 = b at h reads
  cases h
  case later reads' later =>
    cases reads.symm.trans reads'
    cases hb
    exact absurd later not_meets_nil
  case first meets =>
    cases hb
    obtain line | symbol := Resp.Meets.own_or_array meets
    · cases line
      decide
    · cases symbol

-- With twenty digits it is read from all cuts.
theorem readAll_agree_of_twenty_digits :
    1 ≤ 64 ∧ ∀ pieces, pieces.flatten = paddedOne 19 → (({ limit := 64 } : Receiver).readAll pieces).items = [.integer 1] ∧
      (({ limit := 64 } : Receiver).readAll pieces).failure = none := by
  refine ⟨by decide, fun pieces hp => ?_⟩
  have ⟨hi, hf⟩ := (readAll_agree_iff 64 (by decide) (paddedOne 19)).mpr (fun _ => meets_paddedOne) pieces
    [paddedOne 19] hp (by decide)
  exact ⟨hi.trans (by decide), by simpa using mt hf.mp (by decide)⟩

-- With one digit more it is read when it comes at once, but refused when it comes byte by byte.
theorem readAll_disagree_of_more_digits :
    let pieces := (paddedOne 20).map fun b => [b]
    pieces.flatten = paddedOne 20 ∧
    (({ limit := 64 } : Receiver).readAll [paddedOne 20]).items = [.integer 1] ∧
    (({ limit := 64 } : Receiver).readAll [paddedOne 20]).failure = none ∧
    (({ limit := 64 } : Receiver).readAll pieces).items = [] ∧
    (({ limit := 64 } : Receiver).readAll pieces).failure.isSome := by
  decide

end Receiver
end RaftGroup.Resp
