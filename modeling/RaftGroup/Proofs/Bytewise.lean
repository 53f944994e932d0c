import RaftGroup.Proofs.Rereading

namespace RaftGroup.Resp

theorem lineEnd?_append_of_notMem (hb : lineEnd? n b = none) (hm : (0x0A : UInt8) ∉ more) :
    lineEnd? n (b ++ more) = none := by
  have hc {c : UInt8} {b : Bytes} (h : (0x0A : UInt8) ∉ b) : ¬ crlf <+: c :: b := by
    rintro ⟨_, he⟩
    cases he
    exact h List.mem_cons_self
  induction b generalizing n
  case nil =>
    clear hb
    induction more generalizing n
    case nil            => rfl
    case cons c more ih =>
      have hn : (0x0A : UInt8) ∉ more := fun h => hm (List.mem_cons_of_mem c h)
      rw [List.nil_append, lineEnd?_cons (hc hn)]
      exact ih hn
  case cons c b ih =>
    by_cases hp : crlf <+: c :: (b ++ more)
    case neg =>
      have hp' : ¬ crlf <+: c :: b := fun h => hp (h.trans (List.prefix_append (c :: b) more))
      rw [lineEnd?_cons hp'] at hb
      rw [List.cons_append, lineEnd?_cons hp]
      exact ih hb
    case pos =>
      cases b
      case nil => exact absurd hp (hc hm)
      case cons d b =>
        have hp' : crlf <+: c :: d :: b :=
          List.prefix_of_prefix_length_le hp (List.prefix_append (c :: d :: b) more) (by simp [crlf])
        cases (lineEnd?_of_isPrefix_crlf hp' n).symm.trans hb

theorem parse_of_open_line (hs : Symbol.ofByte? s = some symbol) (hv : ¬symbol.Numeric) (hb : lineEnd? 0 b = none)
    (hm : (0x0A : UInt8) ∉ more) :
    parse limit maxDepth (s :: (b ++ more)) = .ok (.incomplete ((b ++ more).length + 2)) := by
  have hl : line? (b ++ more) = none := by rw [line?, lineEnd?_append_of_notMem hb hm]; rfl
  rw [parse_of_no_line hs hl, if_neg fun h => hv h.left]

namespace Rereader

variable {r : Rereader} {b more : Bytes}

theorem push_nil (r : Rereader) : r.push [] = r := by
  rw [push, List.append_nil]

theorem push_push (r : Rereader) (b more : Bytes) : (r.push b).push more = r.push (b ++ more) := by
  rw [push, push, push, List.append_assoc]

theorem parse_of_needMore (h : r.parse.1 = .ok .needMore) : r.parse = (.ok .needMore, r) := by
  refine Prod.ext h ?_
  rw [parse] at h ⊢
  split
  case h_1        => rfl
  case h_2 hp     => rw [hp] at h; simp only at h; split at h <;> cases h
  case h_3 need _ => split <;> rfl

end Rereader

namespace Receiver

variable {r r' : Receiver} {init bytes more : Bytes} {fed : Nat}

def feedSingly (r : Receiver) (fed : Nat) : Bytes → Nat × Except Error Outcome × Receiver
  | []      => (fed, .ok .needMore, r)
  | b :: bs =>
    match r.feed [b] with
    | (.ok .needMore, next) => next.feedSingly (fed + 1) bs
    | out                   => (fed + 1, out)

structure Alike (r r' : Receiver) : Prop where
  left    : r.Kept
  right   : r'.Kept
  forget  : r.forget = r'.forget
  missing : r.missing = r'.missing

theorem Kept.alike (h : r.Kept) : Alike r r :=
  ⟨h, h, rfl, rfl⟩

theorem Kept.parse_missing (h : r.Kept) (ha : r.parse.1 ≠ .ok .needMore) : r.parse.2.missing = 0 := by
  rw [parse] at ha ⊢
  split at ha
  case isTrue hw  => rw [wait_eq_ok hw h.bound] at ha; exact absurd rfl ha
  case isFalse hw =>
    have hr : r.missing = 0 := Nat.sub_eq_zero_of_le (Nat.le_of_not_lt hw)
    rw [if_neg hw]
    rw [parseAnew] at ha ⊢
    rcases hp : Resp.parse r.limit maxDepth r.buffer with e | (⟨v, n⟩ | need)
    case error => exact hr
    case ok.done =>
      simp only
      split
      case isTrue  => exact hr
      case isFalse => exact Nat.zero_sub _
    case ok.incomplete =>
      rw [hp] at ha
      simp only at ha ⊢
      split
      case isTrue     => exact hr
      case isFalse hl =>
        rw [if_neg hl] at ha
        exact absurd (wait_eq_ok (incomplete_bounds hp) (Nat.le_of_not_lt hl)) ha

theorem Kept.need_eq (h : r.Kept) (h' : r'.Kept) (hf : r.forget = r'.forget) (hs : r.Stalls) (hs' : r'.Stalls) :
    r.need = r'.need := by
  have hp := h.waits (Nat.lt_of_sub_pos hs.left)
  have hp' := h'.waits (Nat.lt_of_sub_pos hs'.left)
  rw [show r.limit = r'.limit from congrArg Rereader.limit hf,
    show r.buffer = r'.buffer from congrArg Rereader.buffer hf] at hp
  exact Step.incomplete.inj (Except.ok.inj (hp.symm.trans hp'))

theorem Kept.feed_alike (h : r.Kept) (h' : r'.Kept) (hf : r.forget.push bytes = r'.forget.push more) :
    (r.feed bytes).1 = (r'.feed more).1 ∧ Alike (r.feed bytes).2 (r'.feed more).2 := by
  have ha : Agrees (r.feed bytes) (r.forget.push bytes).parse := h.poll_agrees (.feed bytes)
  have ha' : Agrees (r'.feed more) (r.forget.push bytes).parse := hf ▸ h'.poll_agrees (.feed more)
  have he := ha.answer.symm.trans ha'.answer
  have h₁ : (r.feed bytes).1 = (r'.feed more).1 := (Prod.mk.inj he).left
  have h₂ : (r.feed bytes).2.forget = (r'.feed more).2.forget := (Prod.mk.inj he).right
  refine ⟨h₁, ha.kept, ha'.kept, h₂, ?_⟩
  by_cases hn : (r.feed bytes).1 = .ok .needMore
  case pos =>
    rw [missing, missing, ha.kept.need_eq ha'.kept h₂ (ha.stalls hn) (ha'.stalls (h₁ ▸ hn)),
      show (r.feed bytes).2.buffer = (r'.feed more).2.buffer from congrArg Rereader.buffer h₂]
  case neg =>
    exact ((h.push bytes).parse_missing hn).trans ((h'.push more).parse_missing (h₁ ▸ hn)).symm

def Quiet (r : Rereader) (init : Bytes) : Prop :=
  ∀ more, more <+: init → more ≠ [] → (r.push more).parse.1 = .ok .needMore

theorem Kept.feedSingly_quiet (h : r.Kept) (hq : Quiet r.forget init) (fed : Nat) (later : Bytes) :
    ∃ r' : Receiver, r'.Kept ∧ r'.forget = r.forget.push init ∧
      r.feedSingly fed (init ++ later) = r'.feedSingly (fed + init.length) later := by
  induction init generalizing r fed
  case nil            => exact ⟨r, h, (Rereader.push_nil _).symm, rfl⟩
  case cons b init ih =>
    have ha : Agrees (r.feed [b]) (r.forget.push [b]).parse := h.poll_agrees (.feed [b])
    have hp := Rereader.parse_of_needMore (hq [b] ⟨init, rfl⟩ (List.cons_ne_nil b []))
    have hn : (r.feed [b]).1 = .ok .needMore := congrArg Prod.fst (ha.answer.symm.trans hp)
    have hf : (r.feed [b]).2.forget = r.forget.push [b] := congrArg Prod.snd (ha.answer.symm.trans hp)
    have hq' : Quiet (r.feed [b]).2.forget init := by
      intro more hm _
      rw [hf, Rereader.push_push]
      exact hq (b :: more) (List.prefix_cons_inj b |>.mpr hm) (List.cons_ne_nil b more)
    obtain ⟨r', hk, hr, he⟩ := ih ha.kept hq' (fed + 1)
    refine ⟨r', hk, by rw [hr, hf, Rereader.push_push]; rfl, ?_⟩
    rw [List.cons_append, feedSingly, List.length_cons, Nat.add_comm init.length, ← Nat.add_assoc, ← he]
    generalize r.feed [b] = out at hn
    obtain ⟨_, next⟩ := out
    cases hn
    rfl

theorem Kept.quiet_of_restOfLine (hm : more <+: bytes) (hl : more.length ≤ r.restOfLine bytes)
    (hn : more ≠ []) (hb : r.buffer.length + more.length < r.limit) :
    (r.forget.push more).parse.1 = .ok .needMore := by
  have h₀ : 0 < more.length := List.length_pos_iff.mpr hn
  rw [restOfLine] at hl
  split at hl
  case h_1 => omega
  case h_2 s b hr =>
    split at hl
    case isFalse => omega
    case isTrue hc =>
      obtain ⟨symbol, hs, hv⟩ : ∃ symbol, Symbol.ofByte? s = some symbol ∧ ¬symbol.Numeric := by
        simpa [Option.any_eq_true] using hc.left
      have he : lineEnd? 0 b = none := hc.right
      have ht : more <+: bytes.takeWhile (· ≠ 0x0A) :=
        List.prefix_of_prefix_length_le hm (List.takeWhile_prefix _) hl
      have hx : (0x0A : UInt8) ∉ more := fun hx => by
        simpa using List.all_eq_true.mp List.all_takeWhile _ (ht.subset hx)
      have hp : Resp.parse (r.forget.push more).limit maxDepth (r.forget.push more).buffer =
          .ok (.incomplete ((b ++ more).length + 2)) := by
        rw [show (r.forget.push more).buffer = r.buffer ++ more from rfl, hr]
        exact parse_of_open_line hs hv he hx
      rw [Rereader.parse_of_incomplete hp ?_]
      rw [hr, List.length_cons] at hb
      rw [List.length_append]
      change _ ≤ r.limit
      omega

theorem Kept.quiet (h : r.Kept) (hi : init <+: bytes) (hl : init.length ≤ r.quiet bytes) : Quiet r.forget init := by
  intro more hm hn
  have h₀ : 0 < more.length := List.length_pos_iff.mpr hn
  have hq := Nat.le_trans hm.length_le hl
  rw [Receiver.quiet] at hq
  by_cases hs : more.length < r.missing
  case pos => exact (h.stalls (Nat.lt_of_sub_pos (by rw [← missing]; omega))).right more hs
  case neg => exact quiet_of_restOfLine (hm.trans hi) (by omega) hn (by omega)

-- Of a piece whose bytes are quiet but for the last one only the outcome of the last one counts.
theorem Alike.feedSingly_piece (h : Alike r r') (hn : piece ≠ []) (hq : Quiet r.forget piece.dropLast) (fed : Nat)
    (later : Bytes) :
    ∃ next, Alike (r.feed piece).2 next ∧
      r'.feedSingly fed (piece ++ later) =
        if (r.feed piece).1 = .ok .needMore then next.feedSingly (fed + piece.length) later
        else (fed + piece.length, (r.feed piece).1, next) := by
  obtain ⟨r₁, hk, hf, he⟩ := h.right.feedSingly_quiet (h.forget ▸ hq) fed (piece.getLast hn :: later)
  have hp : r.forget.push piece = r₁.forget.push [piece.getLast hn] := by
    rw [hf, Rereader.push_push, List.dropLast_concat_getLast, h.forget]
  have hs : piece.dropLast ++ piece.getLast hn :: later = piece ++ later := by
    rw [← List.singleton_append, ← List.append_assoc, List.dropLast_concat_getLast]
  have hl : fed + piece.dropLast.length + 1 = fed + piece.length := by
    have := List.length_pos_iff.mpr hn
    rw [List.length_dropLast]
    omega
  obtain ⟨ha, hx⟩ := h.left.feed_alike hk hp
  refine ⟨_, hx, ?_⟩
  rw [← hs, he, feedSingly, hl, ha]
  generalize r₁.feed [piece.getLast hn] = out
  obtain ⟨answer, next⟩ := out
  split
  case h_1 hm   => cases hm; rfl
  case h_2 _ hm => rw [if_neg fun hn => hm next (by rw [← hn])]

theorem Alike.feedSingly_cons (h : Alike r r') (fed : Nat) (b : UInt8) (bs : Bytes) :
    let piece := b :: bs.take (r.quiet (b :: bs))
    ∃ next, Alike (r.feed piece).2 next ∧ r'.feedSingly fed (b :: bs) =
      if (r.feed piece).1 = .ok .needMore then next.feedSingly (fed + piece.length) (bs.drop (r.quiet (b :: bs)))
      else (fed + piece.length, (r.feed piece).1, next) := by
  intro piece
  have hb : piece ++ bs.drop (r.quiet (b :: bs)) = b :: bs := by rw [List.cons_append, List.take_append_drop]
  have hl : piece.dropLast.length ≤ r.quiet (b :: bs) := by
    rw [List.length_dropLast, List.length_cons, Nat.add_sub_cancel]
    exact List.length_take_le ..
  have hq : Quiet r.forget piece.dropLast := h.left.quiet ((List.dropLast_prefix piece).trans ⟨_, hb⟩) hl
  have hs := h.feedSingly_piece (List.cons_ne_nil b _) hq fed (bs.drop (r.quiet (b :: bs)))
  rwa [hb] at hs

theorem Alike.feedEach (h : Alike r r') (fed : Nat) (bytes : Bytes) :
    (r.feedEach fed bytes).1 = (r'.feedSingly fed bytes).1 ∧
    (r.feedEach fed bytes).2.1 = (r'.feedSingly fed bytes).2.1 ∧
    Alike (r.feedEach fed bytes).2.2 (r'.feedSingly fed bytes).2.2 := by
  fun_induction r.feedEach fed bytes generalizing r'
  case case1 => exact ⟨rfl, rfl, h⟩
  case case2 r fed b bs quiet piece next hf ih =>
    obtain ⟨next', ha, he⟩ := h.feedSingly_cons fed b bs
    rw [he, if_pos (congrArg Prod.fst hf)]
    have hn : (r.feed piece).2 = next := congrArg Prod.snd hf
    exact ih (hn ▸ ha)
  case case3 r fed b bs quiet piece hf =>
    obtain ⟨next', ha, he⟩ := h.feedSingly_cons fed b bs
    rw [he, if_neg fun hn => hf (r.feed piece).2 (Prod.ext hn rfl)]
    exact ⟨rfl, rfl, ha⟩

-- So quiet bytes can be fed at once: as many bytes are fed in the end, the answer is the same, and nobody can tell the
-- receivers apart.
theorem feedEach_eq_feedSingly (h : r.Kept) (fed : Nat) (bytes : Bytes) :
    (r.feedEach fed bytes).1 = (r.feedSingly fed bytes).1 ∧
    (r.feedEach fed bytes).2.1 = (r.feedSingly fed bytes).2.1 ∧
    (r.feedEach fed bytes).2.2.forget = (r.feedSingly fed bytes).2.2.forget ∧
    (r.feedEach fed bytes).2.2.missing = (r.feedSingly fed bytes).2.2.missing := by
  have ⟨hf, ha, hr⟩ := h.alike.feedEach fed bytes
  exact ⟨hf, ha, hr.forget, hr.missing⟩

end Receiver
end RaftGroup.Resp
