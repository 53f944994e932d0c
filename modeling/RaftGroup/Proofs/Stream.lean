import RaftGroup.Proofs.Parse
import RaftGroup.Resp.Receiver

namespace RaftGroup.Resp.Receiver

def ahead : List Resp → Nat
  | []     => 1
  | v :: _ => v.encode.length

theorem ahead_pos (vs : List Resp) : 0 < ahead vs := by
  cases vs
  case nil  => exact Nat.one_pos
  case cons => exact encode_length_pos _

-- The values that are still to come begin in the buffer, and no more is waited for than the next of them has, nor more
-- than may be buffered.
structure Awaits (r : Receiver) (vs : List Resp) (rest : Bytes) : Prop where
  bytes : r.buffer ++ rest = encodeAll vs
  bound : r.need ≤ r.limit
  due   : r.need ≤ ahead vs

inductive Advances (r : Receiver) (rest : Bytes) : List Resp → Except Error Outcome × Receiver → Prop
  | waits (await : Awaits r' vs rest) (limit : r'.limit = r.limit) (short : r'.buffer.length < ahead vs) :
    Advances r rest vs (.ok .needMore, r')
  | hands (await : Awaits r' vs rest) (limit : r'.limit = r.limit) (fits : v.encode.length ≤ r.limit)
    (less : r'.buffer.length < r.buffer.length) : Advances r rest (v :: vs) (.ok (.value v), r')
  | refuses (large : r.limit < v.encode.length) : Advances r rest (v :: vs) (.error (.frameTooLarge r.limit), r)

-- What comes of reading on: all the values whose bytes are there, or those before the first that is too large.
inductive Yields (limit : Nat) (rest : Bytes) : List Resp → Batch Empty Resp → Prop
  | all (await : Awaits r vs rest) (same : r.limit = limit) (short : r.buffer.length < ahead vs) :
    Yields limit rest vs ⟨[], none, r⟩
  | refused (large : limit < v.encode.length) : Yields limit rest (v :: vs) ⟨[], some (.inl (.frameTooLarge limit)), r⟩
  | cons (fits : v.encode.length ≤ limit) (later : Yields limit rest vs b) :
    Yields limit rest (v :: vs) ⟨v :: b.items, b.failure, b.receiver⟩

def readAll (r : Receiver) : List Bytes → Batch Empty Resp
  | []              => ⟨[], none, r⟩
  | piece :: pieces =>
    let b := (r.push piece).collect .ok
    match b.failure with
    | some _ => b
    | none   =>
      let later := readAll b.receiver pieces
      ⟨b.items ++ later.items, later.failure, later.receiver⟩

variable {r : Receiver} {vs : List Resp} {rest : Bytes} {limit : Nat} {b : Batch Empty Resp}

theorem wait_eq_ok (hs : r.buffer.length < r.need) (hn : r.need ≤ r.limit) : r.wait = .ok .needMore := by
  rw [wait, if_neg (by omega)]

theorem Awaits.needs (h : r.Awaits vs rest) (hs : r.buffer.length < n) (hn : n ≤ r.limit) (ha : n ≤ ahead vs) :
    r.Advances rest vs (({ r with need := n } : Receiver).wait, { r with need := n }) := by
  have hw : ({ r with need := n } : Receiver).wait = .ok .needMore := wait_eq_ok hs hn
  rw [hw]
  exact .waits ⟨h.bytes, hn, ha⟩ rfl (Nat.lt_of_lt_of_le hs ha)

theorem Awaits.next (h : r.Awaits (v :: vs) rest) (hw : v.encode.length ≤ r.buffer.length) :
    ({ r with buffer := r.buffer.drop v.encode.length, need := 0 } : Receiver).Awaits vs rest := by
  have ⟨more, hm, _⟩ := eq_append_of_isPrefix ⟨rest, h.bytes⟩ hw
  have hb : v.encode ++ (more ++ rest) = v.encode ++ encodeAll vs := by
    rw [← List.append_assoc, ← hm]
    exact h.bytes
  refine ⟨?_, Nat.zero_le _, Nat.zero_le _⟩
  simp only [hm, List.drop_left]
  exact List.append_cancel_left hb

theorem Awaits.parseAnew_advances (h : r.Awaits vs rest) (hs : ∀ v ∈ vs, v.Sendable maxDepth) (hl : 1 ≤ r.limit) :
    r.Advances rest vs r.parseAnew := by
  rw [parseAnew]
  cases vs
  case nil =>
    have hb : r.buffer = [] := (List.append_eq_nil_iff.mp h.bytes).left
    have hp : Resp.parse r.limit maxDepth r.buffer = .ok (.incomplete 1) := by rw [hb]; rfl
    simp only [hp, if_neg (Nat.not_lt.mpr hl)]
    exact h.needs (by simp [hb]) hl (Nat.le_refl 1)
  case cons v vs =>
    have hr := (hs v List.mem_cons_self).reads r.limit ⟨rest, h.bytes⟩
    generalize Resp.parse r.limit maxDepth r.buffer = out at hr
    cases hr
    case tooLarge large           => exact .refuses large
    case incomplete need short le =>
      by_cases hn : r.limit < need
      case pos => simp only [if_pos hn]; exact .refuses (Nat.lt_of_lt_of_le hn le)
      case neg => simp only [if_neg hn]; exact h.needs short (Nat.le_of_not_lt hn) le
    case done whole =>
      by_cases hf : r.limit < v.encode.length
      case pos => simp only [if_pos hf]; exact .refuses hf
      case neg =>
        simp only [if_neg hf]
        have := encode_length_pos v
        exact .hands (h.next whole) rfl (Nat.le_of_not_lt hf) (by simp only [List.length_drop]; omega)

theorem Awaits.advances (h : r.Awaits vs rest) (hs : ∀ v ∈ vs, v.Sendable maxDepth) (hl : 1 ≤ r.limit) :
    r.Advances rest vs r.parse := by
  rw [parse]
  split
  case isFalse  => exact h.parseAnew_advances hs hl
  case isTrue hw =>
    rw [wait_eq_ok hw h.bound]
    exact .waits h rfl (Nat.lt_of_lt_of_le hw h.due)

theorem Awaits.collectFor_yields (h : r.Awaits vs rest) (hs : ∀ v ∈ vs, v.Sendable maxDepth) (hl : 1 ≤ r.limit)
    (ht : r.buffer.length < turns) : Yields r.limit rest vs (collectFor .ok turns r) := by
  induction turns generalizing r vs
  case zero => exact absurd ht (Nat.not_lt_zero _)
  case succ turns ih =>
    have ha := h.advances hs hl
    rw [collectFor]
    generalize r.parse = out at ha
    cases ha
    case waits same hw short    => exact .all hw same short
    case refuses large          => exact .refused large
    case hands hw same fits less =>
      have hi := ih hw (fun w hm => hs w (List.mem_cons_of_mem _ hm)) (same ▸ hl) (by omega)
      exact .cons fits (same ▸ hi)

theorem Yields.append {b' : Batch Empty Resp} (h : Yields limit rest vs b) (hf : b.failure = none)
    (hb : ∀ later, later <:+ vs → b.receiver.Awaits later rest → b.receiver.limit = limit →
      b.receiver.buffer.length < ahead later → Yields limit rest' later b') :
    Yields limit rest' vs ⟨b.items ++ b'.items, b'.failure, b'.receiver⟩ := by
  induction h
  case all await same short  => exact hb _ (List.suffix_refl _) await same short
  case refused               => cases hf
  case cons vs b v fits _ ih => exact .cons fits (ih hf fun later hl => hb later (hl.trans (List.suffix_cons v vs)))

theorem Yields.of_failure (h : Yields limit rest vs b) (hf : b.failure ≠ none) :
    Yields limit rest' vs b := by
  induction h
  case all              => exact absurd rfl hf
  case refused large    => exact .refused large
  case cons fits _ ih   => exact .cons fits (ih hf)

theorem Awaits.readAll_yields {pieces : List Bytes} (h : r.Awaits vs pieces.flatten)
    (hs : ∀ v ∈ vs, v.Sendable maxDepth) (hl : 1 ≤ r.limit) (hb : r.buffer.length < ahead vs) :
    Yields r.limit [] vs (r.readAll pieces) := by
  induction pieces generalizing r vs
  case nil => exact .all h rfl hb
  case cons piece pieces ih =>
    have hp : (r.push piece).Awaits vs pieces.flatten := ⟨by simpa [push] using h.bytes, h.bound, h.due⟩
    have hc := hp.collectFor_yields hs hl (Nat.lt_succ_self _)
    rw [readAll]
    simp only
    split
    case h_1 e hf => exact hc.of_failure fun hn => absurd (hn ▸ hf) nofun
    case h_2 hf =>
      refine hc.append hf fun later hm ha same short => ?_
      exact same ▸ ih ha (fun v hv => hs v (hm.subset hv)) (same ▸ hl) short

theorem Awaits.eq_nil (h : r.Awaits vs []) (hs : r.buffer.length < ahead vs) : vs = [] ∧ r.buffer = [] := by
  have hb : r.buffer = encodeAll vs := (List.append_nil _).symm.trans h.bytes
  cases vs
  case nil => exact ⟨rfl, hb⟩
  case cons v vs =>
    rw [hb, encodeAll, List.length_append, ahead] at hs
    omega

theorem Yields.of_fits (h : Yields limit [] vs b)
    (hf : ∀ v ∈ vs, v.encode.length ≤ limit) : b.items = vs ∧ b.failure = none ∧ b.receiver.buffer = [] := by
  induction h
  case all await _ short =>
    have ⟨hv, hb⟩ := await.eq_nil short
    exact ⟨hv.symm, rfl, hb⟩
  case refused large => exact absurd (hf _ List.mem_cons_self) (Nat.not_le.mpr large)
  case cons ih =>
    have ⟨hi, he, hb⟩ := ih fun w hw => hf w (List.mem_cons_of_mem _ hw)
    exact ⟨congrArg _ hi, he, hb⟩

theorem Yields.of_large (h : Yields limit [] vs b)
    (hf : ∃ v ∈ vs, limit < v.encode.length) :
    b.items = vs.takeWhile (·.encode.length ≤ limit) ∧ b.failure = some (.inl (.frameTooLarge limit)) := by
  induction h
  case all await _ short =>
    have ⟨v, hv, _⟩ := hf
    rw [(await.eq_nil short).left] at hv
    cases hv
  case refused large =>
    rw [List.takeWhile_cons_of_neg (by simpa using large)]
    exact ⟨rfl, rfl⟩
  case cons vs _ v fits _ ih =>
    have hf : ∃ v ∈ vs, limit < v.encode.length := by
      have ⟨w, hw, hl⟩ := hf
      cases hw
      case head    => omega
      case tail hw => exact ⟨w, hw, hl⟩
    have ⟨hi, he⟩ := ih hf
    rw [List.takeWhile_cons_of_pos (by simpa using fits)]
    exact ⟨congrArg _ hi, he⟩

-- However the bytes of the values are cut, the values come out as they went in if each fits the limit. Otherwise those
-- before the first that does not fit come out, and then the fault that says so.
theorem readAll_encodeAll (hs : ∀ v ∈ vs, v.Sendable maxDepth) (limit : Nat) (hl : 1 ≤ limit) (pieces : List Bytes)
    (hp : pieces.flatten = encodeAll vs) :
    let b := ({ limit } : Receiver).readAll pieces
    ((∀ v ∈ vs, v.encode.length ≤ limit) → b.items = vs ∧ b.failure = none ∧ b.receiver.buffer = []) ∧
    ((∃ v ∈ vs, limit < v.encode.length) →
      b.items = vs.takeWhile (·.encode.length ≤ limit) ∧ b.failure = some (.inl (.frameTooLarge limit))) := by
  have ha : ({ limit } : Receiver).Awaits vs pieces.flatten := ⟨hp, Nat.zero_le _, Nat.zero_le _⟩
  have hy := ha.readAll_yields hs hl (ahead_pos vs)
  exact ⟨hy.of_fits, hy.of_large⟩

def mixed : List Resp :=
  [.array [.integer (-7), .simple [111, 107]], .bulk [13, 10], .bulk (List.replicate 20 0)]

theorem mixed_sendable : ∀ v ∈ mixed, v.Sendable maxDepth := by
  simp only [mixed, List.forall_mem_cons]
  refine ⟨.array (by decide) ?_, .bulk (by decide), .bulk (by decide), nofun⟩
  simp only [List.forall_mem_cons]
  exact ⟨.integer, .simple (by decide), nofun⟩

theorem readAll_encodeAll_of_bytewise :
    let pieces := (encodeAll mixed).map fun b => [b]
    (∀ v ∈ mixed, v.Sendable maxDepth) ∧ pieces.flatten = encodeAll mixed ∧
    (({ limit := 27 } : Receiver).readAll pieces).items = mixed ∧
    (({ limit := 26 } : Receiver).readAll pieces).items = mixed.take 2 ∧
    (({ limit := 26 } : Receiver).readAll pieces).failure = some (.inl (.frameTooLarge 26)) := by
  intro pieces
  have hp : pieces.flatten = encodeAll mixed := by decide
  have ⟨hf, _⟩ := readAll_encodeAll mixed_sendable 27 (by decide) pieces hp
  have ⟨_, hl⟩ := readAll_encodeAll mixed_sendable 26 (by decide) pieces hp
  have ⟨hi, he⟩ := hl ⟨.bulk (List.replicate 20 0), by decide, by decide⟩
  exact ⟨mixed_sendable, hp, (hf (by decide)).left, hi.trans (by decide), he⟩

end RaftGroup.Resp.Receiver
