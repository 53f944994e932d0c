import RaftGroup.Proofs.Parse

namespace RaftGroup.Resp

variable {limit levels : Nat} {b rest more text : Bytes} {c : UInt8}

theorem lineEnd?_of_isPrefix_crlf (h : crlf <+: b) (n : Nat) : lineEnd? n b = some n := by
  obtain ⟨tail, rfl⟩ := h
  rfl

theorem lineEnd?_bounds (h : lineEnd? n b = some k) : n ≤ k ∧ k + 2 ≤ n + b.length := by
  induction b generalizing n
  case nil => cases h
  case cons c b ih =>
    by_cases hc : crlf <+: c :: b
    case pos =>
      have := hc.length_le
      cases (lineEnd?_of_isPrefix_crlf hc n).symm.trans h
      exact ⟨Nat.le_refl _, by simpa [crlf] using this⟩
    case neg =>
      have := ih ((lineEnd?_cons hc n).symm.trans h)
      rw [List.length_cons]
      omega

theorem lineEnd?_append (h : lineEnd? n b = some k) (more : Bytes) : lineEnd? n (b ++ more) = some k := by
  induction b generalizing n
  case nil => cases h
  case cons c b ih =>
    by_cases hc : crlf <+: c :: b
    case pos =>
      rw [lineEnd?_of_isPrefix_crlf (hc.trans (List.prefix_append _ _)), ← h, lineEnd?_of_isPrefix_crlf hc]
    case neg =>
      rw [lineEnd?_cons hc] at h
      have hb := lineEnd?_bounds h
      have hc : ¬ crlf <+: c :: (b ++ more) := fun hm => hc <|
        List.prefix_of_prefix_length_le hm (List.prefix_append (c :: b) more) (by simp [crlf]; omega)
      rw [List.cons_append, lineEnd?_cons hc]
      exact ih h

theorem lt_of_lineEnd?_append (hb : lineEnd? n b = none) (h : lineEnd? n (b ++ more) = some k) :
    n + b.length < k + 2 := by
  induction b generalizing n
  case nil =>
    have := lineEnd?_bounds h
    rw [List.length_nil]
    omega
  case cons c b ih =>
    by_cases hc : crlf <+: c :: (b ++ more)
    case pos =>
      cases (lineEnd?_of_isPrefix_crlf hc n).symm.trans h
      cases b
      case nil => simp
      case cons d b =>
        have hc : crlf <+: c :: d :: b :=
          List.prefix_of_prefix_length_le hc (List.prefix_append (c :: d :: b) more) (by simp [crlf])
        cases (lineEnd?_of_isPrefix_crlf hc _).symm.trans hb
    case neg =>
      have hc' : ¬ crlf <+: c :: b := fun hm => hc (hm.trans (List.prefix_append (c :: b) more))
      rw [lineEnd?_cons hc'] at hb
      rw [List.cons_append, lineEnd?_cons hc] at h
      have := ih hb h
      rw [List.length_cons]
      omega

theorem line?_append_of_eq_some (h : line? b = some text) (more : Bytes) :
    line? (b ++ more) = some text ∧ text.length + 2 ≤ b.length := by
  obtain ⟨k, hk, rfl⟩ := Option.map_eq_some_iff.mp h
  have := lineEnd?_bounds hk
  rw [line?, lineEnd?_append hk, Option.map_some, List.take_append_of_le_length (by omega), List.length_take]
  exact ⟨rfl, by omega⟩

theorem lt_of_line?_append (hb : line? b = none) (h : line? (b ++ more) = some text) : b.length < text.length + 2 := by
  obtain ⟨k, hk, rfl⟩ := Option.map_eq_some_iff.mp h
  have := lt_of_lineEnd?_append (Option.map_eq_none_iff.mp hb) hk
  have := lineEnd?_bounds hk
  rw [List.length_take]
  omega

def parsePayload (limit : Nat) : (levels : Nat) → Symbol → (text input : Bytes) → Except Error (Step Resp)
  | _, .simple, text, _      => .ok (.done (.simple text) 0)
  | _, .error, text, _       => .ok (.done (.error text) 0)
  | _, .integer, text, _     => (fun i => .done (.integer i) 0) <$> integer? text
  | _, .bulk, text, input    => do
    match ← length? limit (← integer? text) with
    | none        => .ok (.done .nil 0)
    | some length => parseBulk length input
  | levels, .array, text, input => do
    match ← length? limit (← integer? text), levels with
    | none, _                => .ok (.done .nil 0)
    | some _, 0              => .error (.tooDeep maxDepth)
    | some count, levels + 1 => Step.map .array <$> parseItems (parse limit levels) count input

theorem parse_of_line (hs : Symbol.ofByte? c = some s) (hl : line? rest = some text) :
    parse limit levels (c :: rest) =
      Step.after (text.length + 3) <$> parsePayload limit levels s text (rest.drop (text.length + 2)) := by
  rw [parse]
  simp only [hs, hl]
  cases s
  case simple  => rfl
  case error   => rfl
  case integer => rw [parsePayload]; cases integer? text <;> rfl
  case bulk    =>
    rw [parsePayload]
    cases integer? text
    case error => rfl
    case ok i  =>
      simp only [bind, Except.bind]
      cases length? limit i
      case error => rfl
      case ok l  =>
        cases l
        case none   => rfl
        case some l => simp only; cases parseBulk l _ <;> rfl
  case array   =>
    rw [parsePayload]
    cases integer? text
    case error => rfl
    case ok i  =>
      simp only [bind, Except.bind]
      cases length? limit i
      case error => rfl
      case ok l  =>
        cases l
        case none   => rfl
        case some l =>
          cases levels
          case zero        => rfl
          case succ levels => simp only; cases parseItems (parse limit levels) l _ <;> rfl

theorem parse_of_no_line (hs : Symbol.ofByte? c = some s) (hl : line? rest = none) :
    parse limit levels (c :: rest) =
      if s.Numeric ∧ maxIntegerLength + 2 ≤ rest.length then
        .error (.invalidInteger (Bytes.lenientText (rest.take maxIntegerLength)))
      else .ok (.incomplete (rest.length + 2)) := by
  rw [parse]
  simp only [hs, hl]

def Step.bytes : Step α → Nat
  | done _ n     => n
  | incomplete n => n

@[simp]
theorem Step.bytes_map (f : α → β) (s : Step α) : (s.map f).bytes = s.bytes := by
  cases s <;> rfl

@[simp]
theorem Step.bytes_after (used : Nat) (s : Step α) : (s.after used).bytes = used + s.bytes := by
  cases s <;> rfl

-- Reading a value comes to a line that holds a number, which is that of the value itself or of one of its items, if
-- those before it can be read.
inductive Meets (limit : Nat) : (levels : Nat) → (b found : Bytes) → Prop
  | own {levels : Nat} {c : UInt8} {rest text : Bytes} (symbol : Symbol.ofByte? c = some s) (numeric : s.Numeric)
      (line : line? rest = some text) : Meets limit levels (c :: rest) text
  | item {levels : Nat} {c : UInt8} {rest text : Bytes} (symbol : Symbol.ofByte? c = some .array)
      (line : line? rest = some text) (count : (integer? text >>= length? limit) = .ok (some n)) (lt : k < n)
      (before : parseItems (parse limit levels) k (rest.drop (text.length + 2)) = .ok (.done vs used))
      (meets : Meets limit levels ((rest.drop (text.length + 2)).drop used) found) :
    Meets limit (levels + 1) (c :: rest) found

-- What is made of bytes, and of the same bytes with others after them. `early` is what has to hold for a fault that the
-- other bytes take back.
inductive Grows {α : Type} (early : Prop) (b b' : Bytes) : (out out' : Except Error (Step α)) → Prop
  | done (le : n ≤ b.length) : Grows early b b' (.ok (.done v n)) (.ok (.done v n))
  | refused : Grows early b b' (.error e) (.error e')
  | early (h : early) : Grows early b b' (.error e) out'
  | waits {out' : Except Error (Step α)} (short : b.length < need)
      (same : b'.length < need → out' = .ok (.incomplete need)) (least : ∀ s, out' = .ok s → need ≤ s.bytes) :
    Grows early b b' (.ok (.incomplete need)) out'

namespace Grows

variable {α β : Type} {early early' : Prop} {b' : Bytes} {out out' : Except Error (Step α)}

theorem imp (h : Grows early b b' out out') (hi : early → early') : Grows early' b b' out out' := by
  cases h
  case done le               => exact .done le
  case refused               => exact .refused
  case early h               => exact .early (hi h)
  case waits short same least => exact .waits short same least

theorem done_or_error (h : Grows early b b' out (.ok (.done v n))) (hn : n ≤ b.length) :
    out = .ok (.done v n) ∨ ∃ e, out = .error e := by
  cases h
  case done                 => exact .inl rfl
  case early                => exact .inr ⟨_, rfl⟩
  case waits short _ least  => exact absurd (least _ rfl) (Nat.not_le.mpr (Nat.lt_of_le_of_lt hn short))

theorem map (h : Grows early b b' out out') (f : α → β) :
    Grows early b b' (Step.map f <$> out) (Step.map f <$> out') := by
  cases h
  case done le  => exact .done le
  case refused  => exact .refused
  case early h  => exact .early h
  case waits short same least =>
    refine .waits short (fun hs => by rw [same hs]; rfl) fun s hs => ?_
    obtain ⟨s, hs', rfl⟩ := map_eq_ok_iff.mp hs
    rw [Step.bytes_map]
    exact least s hs'

theorem after (h : Grows early b b' out out') (l : Bytes) :
    Grows early (l ++ b) (l ++ b') (Step.after l.length <$> out) (Step.after l.length <$> out') := by
  cases h
  case done le  => exact .done (by rw [List.length_append]; omega)
  case refused  => exact .refused
  case early h  => exact .early h
  case waits short same least =>
    refine .waits (by rw [List.length_append]; omega) (fun hs => ?_) fun s hs => ?_
    · rw [same (by rw [List.length_append] at hs; omega)]
      rfl
    · obtain ⟨s, hs', rfl⟩ := map_eq_ok_iff.mp hs
      have := least s hs'
      rw [Step.bytes_after]
      omega

end Grows

theorem parseBulk_grows (n : Nat) (b more : Bytes) :
    Grows False b (b ++ more) (parseBulk n b) (parseBulk n (b ++ more)) := by
  by_cases hn : n + 2 ≤ b.length
  case pos =>
    obtain ⟨x, y, tail, hd⟩ : ∃ x y tail, b.drop n = x :: y :: tail := by
      match hd : b.drop n with
      | [] | [_]      => have := congrArg List.length hd; simp at this; omega
      | x :: y :: tail => exact ⟨x, y, tail, rfl⟩
    have hd' : (b ++ more).drop n = x :: y :: (tail ++ more) := by
      rw [List.drop_append_of_le_length (by omega), hd]
      rfl
    have ht : (b ++ more).take n = b.take n := List.take_append_of_le_length (by omega)
    simp only [parseBulk, hd, hd', ht]
    split
    case isTrue  => exact .done hn
    case isFalse => exact .refused
  case neg =>
    have short {b : Bytes} (h : ¬ n + 2 ≤ b.length) : parseBulk n b = .ok (.incomplete (n + 2)) := by
      rw [parseBulk]
      split
      case h_1 hd => have := congrArg List.length hd; simp at this; omega
      case h_2    => rfl
    rw [short hn]
    refine .waits (by omega) (fun h => short (by omega)) fun s hs => ?_
    rw [parseBulk] at hs
    repeat' split at hs
    all_goals cases hs
    all_goals exact Nat.le_refl _

section

variable {item : Bytes → Except Error (Step Resp)}

theorem parseItems_of_done (h : item b = .ok (.done v used)) (n : Nat) :
    parseItems item (n + 1) b = Step.after used <$> Step.map (v :: ·) <$> parseItems item n (b.drop used) := by
  rw [parseItems, h]
  simp only [bind, Except.bind]
  cases parseItems item n (b.drop used) <;> rfl

theorem parseItems_of_incomplete (h : item b = .ok (.incomplete need)) (n : Nat) :
    parseItems item (n + 1) b = .ok (.incomplete need) := by
  rw [parseItems, h]
  rfl

theorem parseItems_of_error (h : item b = .error e) (n : Nat) : parseItems item (n + 1) b = .error e := by
  rw [parseItems, h]
  rfl

theorem parseItems_grows {early : Bytes → Prop}
    (h : ∀ b more, Grows (early (b ++ more)) b (b ++ more) (item b) (item (b ++ more))) (n : Nat) (b more : Bytes) :
    Grows (∃ k < n, ∃ vs used, parseItems item k (b ++ more) = .ok (.done vs used) ∧ early ((b ++ more).drop used))
      b (b ++ more) (parseItems item n b) (parseItems item n (b ++ more)) := by
  induction n generalizing b
  case zero      => exact .done (Nat.zero_le _)
  case succ n ih =>
    have hb := h b more
    generalize hi : item b = out at hb
    generalize hi' : item (b ++ more) = out' at hb
    cases hb
    case refused =>
      rw [parseItems_of_error hi, parseItems_of_error hi']
      exact .refused
    case early h =>
      rw [parseItems_of_error hi]
      exact .early ⟨0, Nat.succ_pos n, [], 0, rfl, h⟩
    case waits need short same least =>
      rw [parseItems_of_incomplete hi]
      refine .waits short (fun hs => parseItems_of_incomplete (hi'.trans (same hs)) n) fun s hs => ?_
      obtain _ | (⟨v, used⟩ | need') := out'
      case error         => rw [parseItems_of_error hi'] at hs; cases hs
      case ok.incomplete => rw [parseItems_of_incomplete hi'] at hs; cases hs; exact least _ rfl
      case ok.done       =>
        rw [parseItems_of_done hi'] at hs
        obtain ⟨s, _, rfl⟩ := map_eq_ok_iff.mp hs
        rw [Step.bytes_after]
        exact Nat.le_add_right_of_le (least _ rfl)
    case done used v le =>
      have hd : (b ++ more).drop used = b.drop used ++ more := List.drop_append_of_le_length le
      have hl : (b.take used).length = used := by rw [List.length_take]; omega
      have ht := ((ih (b.drop used)).map (v :: ·)).after (b.take used)
      rw [← List.append_assoc, List.take_append_drop, hl] at ht
      rw [parseItems_of_done hi, parseItems_of_done hi', hd]
      refine ht.imp ?_
      rintro ⟨k, hk, vs, used', hp, he⟩
      refine ⟨k + 1, Nat.succ_lt_succ hk, v :: vs, used + used', ?_, ?_⟩
      · rw [parseItems_of_done hi', hd, hp]
        rfl
      · rwa [← List.drop_drop, hd]

end

def Overlong (limit levels : Nat) (b : Bytes) : Prop :=
  ∃ text, Meets limit levels b text ∧ maxIntegerLength < text.length

def ItemOverlong (limit levels : Nat) (text input : Bytes) : Prop :=
  ∃ l n, levels = l + 1 ∧ (integer? text >>= length? limit) = .ok (some n) ∧
    ∃ k < n, ∃ vs used, parseItems (parse limit l) k input = .ok (.done vs used) ∧ Overlong limit l (input.drop used)

theorem parsePayload_grows
    (h : ∀ l, levels = l + 1 → ∀ b more,
      Grows (Overlong limit l (b ++ more)) b (b ++ more) (parse limit l b) (parse limit l (b ++ more)))
    (s : Symbol) (text b more : Bytes) :
    Grows (s = .array ∧ ItemOverlong limit levels text (b ++ more)) b (b ++ more)
      (parsePayload limit levels s text b) (parsePayload limit levels s text (b ++ more)) := by
  cases s
  case simple  => exact .done (Nat.zero_le _)
  case error   => exact .done (Nat.zero_le _)
  case integer =>
    rw [parsePayload, parsePayload]
    cases integer? text
    case error => exact .refused
    case ok    => exact .done (Nat.zero_le _)
  case bulk =>
    rw [parsePayload, parsePayload]
    cases integer? text
    case error => exact .refused
    case ok i  =>
      simp only [bind, Except.bind]
      obtain _ | (_ | n) := length? limit i
      case error   => exact .refused
      case ok.none => exact .done (Nat.zero_le _)
      case ok.some => exact (parseBulk_grows n b more).imp False.elim
  case array =>
    rw [parsePayload, parsePayload]
    cases hi : integer? text
    case error => exact .refused
    case ok i  =>
      simp only [bind, Except.bind]
      rcases hl : length? limit i with _ | (_ | n)
      case error   => exact .refused
      case ok.none => exact .done (Nat.zero_le _)
      case ok.some =>
        cases levels
        case zero   => exact .refused
        case succ l =>
          refine ((parseItems_grows (h l rfl) n b more).map Resp.array).imp fun hk => ⟨trivial, l, n, rfl, ?_, hk⟩
          rw [hi, ← hl]
          rfl

theorem parse_bytes_pos (h : parse limit levels b = .ok s) : 0 < s.bytes := by
  cases b
  case nil => rw [parse] at h; cases h; exact Nat.one_pos
  case cons c rest =>
    cases hs : Symbol.ofByte? c
    case none => rw [parse, hs] at h; cases h
    case some symbol =>
      cases hl : line? rest
      case none =>
        rw [parse_of_no_line hs hl] at h
        split at h
        case isTrue  => cases h
        case isFalse => cases h; exact Nat.succ_pos _
      case some text =>
        rw [parse_of_line hs hl] at h
        obtain ⟨s, _, rfl⟩ := map_eq_ok_iff.mp h
        rw [Step.bytes_after]
        omega

-- Up to the line that is met all is read the same.
theorem parse_grows (limit levels : Nat) (b more : Bytes) :
    Grows (Overlong limit levels (b ++ more)) b (b ++ more) (parse limit levels b) (parse limit levels (b ++ more)) := by
  induction levels using Nat.strongRecOn generalizing b more
  case ind levels ih =>
    cases b
    case nil =>
      have hn : parse limit levels [] = .ok (.incomplete 1) := by rw [parse]
      rw [hn]
      refine .waits Nat.one_pos (fun hm => ?_) fun s hs => parse_bytes_pos hs
      rwa [List.eq_nil_of_length_eq_zero (Nat.lt_one_iff.mp hm)]
    case cons c rest =>
      rw [List.cons_append]
      cases hs : Symbol.ofByte? c
      case none =>
        rw [parse, parse, hs]
        exact .refused
      case some s =>
        cases hl : line? rest
        case some text =>
          obtain ⟨hm, ht⟩ := line?_append_of_eq_some hl more
          have hi : ∀ l, levels = l + 1 → ∀ b more,
              Grows (Overlong limit l (b ++ more)) b (b ++ more) (parse limit l b) (parse limit l (b ++ more)) :=
            fun l hl => ih l (hl ▸ Nat.lt_succ_self l)
          have hp := parsePayload_grows hi s text (rest.drop (text.length + 2)) more
          have hd : (rest ++ more).drop (text.length + 2) = rest.drop (text.length + 2) ++ more :=
            List.drop_append_of_le_length ht
          have ha := hp.after ((c :: rest).take (text.length + 3))
          have hh : ((c :: rest).take (text.length + 3)).length = text.length + 3 := by
            rw [List.length_take, List.length_cons]
            omega
          have hw : (c :: rest).take (text.length + 3) ++ rest.drop (text.length + 2) = c :: rest :=
            List.take_append_drop (text.length + 3) (c :: rest)
          rw [hh, ← List.append_assoc, hw, ← hd] at ha
          rw [parse_of_line hs hl, parse_of_line hs hm]
          refine ha.imp ?_
          rintro ⟨rfl, l, n, rfl, hn, k, hk, vs, used, hb, found, hf, ho⟩
          exact ⟨found, .item hs hm hn hk hb hf, ho⟩
        case none =>
          rw [parse_of_no_line hs hl]
          split
          case isTrue hn =>
            cases hm : line? (rest ++ more)
            case some text =>
              have := lt_of_line?_append hl hm
              exact .early ⟨text, .own hs hn.left hm, by omega⟩
            case none =>
              rw [parse_of_no_line hs hm, if_pos ⟨hn.left, by rw [List.length_append]; omega⟩]
              exact .refused
          case isFalse hn =>
            refine .waits (by rw [List.length_cons]; omega) (fun hm => ?_) fun s' hs' => ?_
            case refine_1 =>
              have hm : more = [] := by
                rw [List.length_cons, List.length_append] at hm
                exact List.eq_nil_of_length_eq_zero (by omega)
              rw [hm, List.append_nil, parse_of_no_line hs hl, if_neg hn]
            case refine_2 =>
              cases hm : line? (rest ++ more)
              case some text =>
                have := lt_of_line?_append hl hm
                rw [parse_of_line hs hm] at hs'
                obtain ⟨s', _, rfl⟩ := map_eq_ok_iff.mp hs'
                rw [Step.bytes_after]
                omega
              case none =>
                rw [parse_of_no_line hs hm] at hs'
                split at hs'
                case isTrue  => cases hs'
                case isFalse =>
                  cases hs'
                  rw [Step.bytes, List.length_append]
                  omega

end RaftGroup.Resp
