import RaftGroup.Engine.Follow

namespace RaftGroup

namespace Entries

def term? (es : List Entry) (n : Nat) : Option Nat :=
  es[n]?.map Entry.term

theorem term?_eq_some {es : List Entry} (h : n < es.length) : term? es n = some es[n].term := by
  rw [term?, List.getElem?_eq_getElem h, Option.map_some]

theorem lt_length_of_term? (h : term? es n = some t) : n < es.length := by
  have ⟨_, he, _⟩ := Option.map_eq_some_iff.mp h
  exact (List.getElem?_eq_some_iff.mp he).choose

theorem prefix_term?_eq (h : es <+: es') (hn : n < es.length) : term? es n = term? es' n := by
  obtain ⟨_, rfl⟩ := h
  rw [term?, term?, List.getElem?_append_left hn]

theorem term?_drop (es : List Entry) (k n : Nat) : term? (es.drop k) n = term? es (k + n) := by
  rw [term?, term?, List.getElem?_drop]

theorem prefix_term?_eq_some (h : es <+: es') (ht : term? es n = some t) : term? es' n = some t :=
  (prefix_term?_eq h (lt_length_of_term? ht)).symm.trans ht

theorem prefix_take_eq (h : es <+: es') (hn : n ≤ es.length) : es'.take n = es.take n := by
  obtain ⟨_, rfl⟩ := h
  exact List.take_append_of_le_length hn

theorem term?_take (es : List Entry) (h : n < k) : term? (es.take k) n = term? es n := by
  rw [term?, List.getElem?_take_of_lt h, term?]

theorem term?_concat {e : Entry} (h : term? (es ++ [e]) n = some t) :
    term? es n = some t ∨ (n = es.length ∧ e.term = t) := by
  have hl := lt_length_of_term? h
  rw [List.length_append, List.length_singleton] at hl
  by_cases hn : n < es.length
  case pos => exact .inl ((prefix_term?_eq (List.prefix_append ..) hn).trans h)
  case neg =>
    obtain rfl : n = es.length := by omega
    exact .inr ⟨rfl, by simpa [term?] using h⟩

def Comparable (es es' : List Entry) : Prop :=
  es <+: es' ∨ es' <+: es

namespace Comparable

theorem symm : Comparable es es' → Comparable es' es := Or.symm

theorem of_isPrefix (h : Comparable log log') (he : es <+: log) (he' : es' <+: log') : Comparable es es' := by
  cases h
  case inl h => exact List.prefix_or_prefix_of_prefix (he.trans h) he'
  case inr h => exact List.prefix_or_prefix_of_prefix he (he'.trans h)

theorem prefix_of_length_le (h : Comparable es es') (hl : es.length ≤ es'.length) : es <+: es' := by
  cases h
  case inl h => exact h
  case inr h => exact h.eq_of_length_le hl ▸ List.prefix_refl _

end Comparable

-- The first `n` entries end with one of the term. No entries end with term 0.
def Ends (es : List Entry) : Nat → Nat → Prop
  | 0,     t => t = 0
  | n + 1, t => term? es n = some t

theorem Ends.le_length (h : Ends es n t) : n ≤ es.length := by
  cases n
  case zero => exact Nat.zero_le _
  case succ => exact lt_length_of_term? h

theorem Ends.of_take (h : Ends es n t) (ht : es.take n = es'.take n) : Ends es' n t := by
  cases n
  case zero   => exact h
  case succ n =>
    have he := congrArg (·[n]?) ht
    simp only [List.getElem?_take_of_lt (Nat.lt_succ_self n)] at he
    rwa [Ends, term?, ← he]

def lastTerm (es : List Entry) : Nat :=
  (es.getLast?.map Entry.term).getD 0

theorem ends_lastTerm (es : List Entry) : Ends es es.length (lastTerm es) := by
  cases es
  case nil       => rfl
  case cons e es => simp [Ends, term?, lastTerm, List.getLast?_eq_getElem?]

def NoBetter (es log : List Entry) : Prop :=
  lastTerm es < lastTerm log ∨ (lastTerm log = lastTerm es ∧ es.length ≤ log.length)

-- The entries are in the log, or others of the same terms, after its first `prev`.
def Within (log : List Entry) (prev : Nat) (es : List Entry) : Prop :=
  ∀ j < es.length, term? log (prev + j) = term? es j

theorem Within.le_length (h : Within log prev es) (hp : prev ≤ log.length) : prev + es.length ≤ log.length := by
  cases he : es.length
  case zero   => exact hp
  case succ n =>
    have hn : n < es.length := by omega
    have := lt_length_of_term? ((h n hn).trans (term?_eq_some hn))
    omega

def Consecutive (prev : Nat) (es : List Entry) : Prop :=
  ∀ j e, es[j]? = some e → e.index = prev + j + 1

theorem Consecutive.tail {e : Entry} (h : Consecutive prev (e :: es)) : Consecutive (prev + 1) es :=
  fun j e' he => by rw [h (j + 1) e' he]; omega

theorem Consecutive.head {e : Entry} (h : Consecutive prev (e :: es)) : e.index = prev + 1 :=
  h 0 e rfl

theorem Consecutive.concat {e : Entry} (h : Consecutive 0 es) (hi : e.index = es.length + 1) :
    Consecutive 0 (es ++ [e]) := by
  intro n x hx
  rw [List.getElem?_append] at hx
  split at hx
  case isTrue  => exact h n x hx
  case isFalse =>
    obtain ⟨hn, rfl⟩ := List.getElem?_eq_some_iff.mp hx
    rw [List.length_singleton] at hn
    rw [List.getElem_singleton, hi]
    omega

end Entries

open Entries

theorem contiguousAfter_eq_true (h : contiguousAfter prev es = .ok true) : Consecutive prev es := by
  induction es generalizing prev
  case nil => exact fun _ _ he => absurd he (by simp)
  case cons e es hi =>
    rw [contiguousAfter] at h
    cases ha : advance .index prev 1 <;> simp only [ha, bind, Except.bind, reduceCtorEq] at h
    case ok next =>
      have ⟨hn, _⟩ := advance_eq_ok_iff.mp ha
      split at h
      case isFalse => simp [pure, Except.pure] at h
      case isTrue he =>
        intro j e' hj
        cases j
        case zero => simp_all
        case succ j =>
          rw [hi h j e' hj]
          omega

-- The logs that merging entries after the first `prev` can lead to. Whoever has merged them all holds them all.
inductive Merged (log : List Entry) (commit prev : Nat) (es : List Entry) (success : Bool) : List Entry → Prop
  | kept (within : success = true → Within log prev es) : Merged log commit prev es success log
  | grafted (j k : Nat) (lt : j < es.length) (le : j ≤ k)
      (agrees  : ∀ x < j, term? log (prev + x) = term? es x)
      (differs : term? log (prev + j) ≠ term? es j)
      (free    : commit ≤ log.length → commit ≤ prev + j)
      (whole   : success = true → es.length ≤ k) :
      Merged log commit prev es success (log.take (prev + j) ++ (es.take k).drop j)

theorem Merged.cons {e : Entry} (ht : term? log prev = some e.term) (h : Merged log commit (prev + 1) es success log') :
    Merged log commit prev (e :: es) success log' := by
  cases h
  case kept hw =>
    refine .kept fun hs j hj => ?_
    cases j
    case zero   => exact ht
    case succ j => exact (Nat.add_right_comm .. ▸ hw hs j (by simpa using hj) :)
  case grafted j k lt le ha hd hf hw =>
    have hg : Merged log commit prev (e :: es) success
        (log.take (prev + (j + 1)) ++ ((e :: es).take (k + 1)).drop (j + 1)) := by
      refine .grafted (j + 1) (k + 1) (by simpa) (by omega) (fun x hx => ?_) ?_ (by omega) (by simpa)
      case refine_1 =>
        cases x
        case zero   => exact ht
        case succ x => exact (Nat.add_right_comm .. ▸ ha x (by omega) :)
      case refine_2 => exact (Nat.add_right_comm .. ▸ hd :)
    rw [Nat.add_right_comm]
    exact hg

namespace Merged

variable {log log' leader part : List Entry}

theorem length_take (h : ∀ x < j, term? log (prev + x) = term? es x) (hj : j < es.length) (hp : prev ≤ log.length) :
    (log.take (prev + j)).length = prev + j := by
  cases j
  case zero   => simp [hp]
  case succ j =>
    have := lt_length_of_term? ((h j (Nat.lt_succ_self j)).trans (term?_eq_some (Nat.lt_of_succ_lt hj)))
    rw [List.length_take]
    omega

theorem take_commit (h : Merged log commit prev es success log') (hc : commit ≤ log.length) :
    log'.take commit = log.take commit := by
  cases h
  case kept => rfl
  case grafted free _ =>
    have := free hc
    rw [List.take_append_of_le_length (by rw [List.length_take]; omega), List.take_take, Nat.min_eq_left this]

theorem commit_le_length (h : Merged log commit prev es success log') (hc : commit ≤ log.length) :
    commit ≤ log'.length := by
  have hl := congrArg List.length (h.take_commit hc)
  simp only [List.length_take] at hl
  omega

theorem take_prev (h : Merged log commit prev es success log') (hp : prev ≤ log.length) :
    log'.take prev = log.take prev := by
  cases h
  case kept => rfl
  case grafted j _ lt _ agrees _ _ _ =>
    have hl := length_take agrees lt hp
    rw [List.take_append_of_le_length (by omega), List.take_take, Nat.min_eq_left (Nat.le_add_right ..)]

theorem within (h : Merged log commit prev es true log') (hp : prev ≤ log.length) : Within log' prev es := by
  cases h
  case kept hw => exact hw rfl
  case grafted j k lt _ agrees _ _ whole =>
    intro x hx
    have hl := length_take agrees lt hp
    have hk := whole rfl
    by_cases hj : x < j
    case pos =>
      rw [← agrees x hj, term?, List.getElem?_append_left (by omega), List.getElem?_take_of_lt (by omega), term?]
    case neg =>
      rw [term?, List.getElem?_append_right (by omega), hl, List.getElem?_drop, List.getElem?_take_of_lt (by omega),
        show j + (prev + x - (prev + j)) = x by omega, term?]

theorem last_le_length (h : Merged log commit prev es true log') (hp : prev ≤ log.length) :
    prev + es.length ≤ log'.length := by
  have hl := congrArg List.length (h.take_prev hp)
  simp only [List.length_take] at hl
  exact (h.within hp).le_length (by omega)

theorem mem (h : Merged log commit prev es success log') (hx : x ∈ log') : x ∈ log ∨ x ∈ es := by
  cases h
  case kept     => exact .inl hx
  case grafted  => exact (List.mem_append.mp hx).imp List.mem_of_mem_take (List.mem_of_mem_take ∘ List.mem_of_mem_drop)

theorem consecutive (h : Merged log commit prev es success log') (hl : Consecutive 0 log) (he : Consecutive prev es)
    (hp : prev ≤ log.length) : Consecutive 0 log' := by
  cases h
  case kept => exact hl
  case grafted j k lt _ agrees _ _ _ =>
    have ht := length_take agrees lt hp
    intro n x hx
    by_cases hn : n < prev + j
    case pos =>
      rw [List.getElem?_append_left (by omega), List.getElem?_take_of_lt hn] at hx
      exact hl n x hx
    case neg =>
      rw [List.getElem?_append_right (by omega), ht, List.getElem?_drop, List.getElem?_take] at hx
      split at hx
      case isFalse => cases hx
      case isTrue  =>
        have := he _ x hx
        omega

theorem prefix_of_comparable (h : Merged log commit prev es success log') (he : es <+: leader.drop prev)
    (hp : part <+: log) (hc : Comparable part leader) : part <+: log' := by
  cases h
  case kept => exact hp
  case grafted j k lt _ _ differs _ _ =>
    have hs : term? es j = term? leader (prev + j) := (prefix_term?_eq he lt).trans (term?_drop ..)
    have hlt : prev + j < leader.length := by
      have := he.length_le
      rw [List.length_drop] at this
      omega
    have hl : part.length ≤ prev + j := by
      refine Nat.le_of_not_lt fun hl => differs ?_
      rw [hs, ← prefix_term?_eq hp hl]
      cases hc
      case inl hc => exact prefix_term?_eq hc hl
      case inr hc => exact (prefix_term?_eq hc hlt).symm
    exact (List.prefix_take_iff.mpr ⟨hp, hl⟩).trans (List.prefix_append _ _)

-- Where equal terms mean equal logs, the log becomes a part of the one that the entries are from.
theorem eq_or_eq_take (h : Merged log commit prev es success log') (he : es <+: leader.drop prev)
    (hm : ∀ n t, term? log n = some t → term? leader n = some t → log.take (n + 1) = leader.take (n + 1))
    (hp : log.take prev = leader.take prev) : log' = log ∨ ∃ k, log' = leader.take k := by
  cases h
  case kept => exact .inl rfl
  case grafted j k lt le agrees _ _ _ =>
    have hj : log.take (prev + j) = leader.take (prev + j) := by
      obtain _ | i := j
      · exact hp
      · have hs : term? es i = term? leader (prev + i) := (prefix_term?_eq he (by omega)).trans (term?_drop ..)
        have ht := term?_eq_some (Nat.lt_of_succ_lt lt)
        exact hm _ _ ((agrees i (Nat.lt_succ_self i)).trans ht) (hs.symm.trans ht)
    have hk : (es.take k).drop j = (leader.drop (prev + j)).take (min k es.length - j) := by
      have hs := congrArg (List.take k) (List.prefix_iff_eq_take.mp he)
      rw [hs, List.take_take, List.drop_take, List.drop_drop]
    refine .inr ⟨prev + min k es.length, ?_⟩
    rw [hj, hk, ← List.take_add]
    congr 1
    omega

end Merged

namespace Storage

variable {s s' : Storage} {e : Entry} {sender : Server}

def put (s : Storage) (es : List Entry) : Storage :=
  { s with log := { s.log with entries := es } }

@[simp]
theorem put_entries (s : Storage) (es : List Entry) : (s.put es).log.entries = es := rfl

@[simp]
theorem put_taken (s : Storage) (es : List Entry) : (s.put es).log.taken = s.log.taken := rfl

@[simp]
theorem put_put (s : Storage) (es es' : List Entry) : (s.put es).put es' = s.put es' := rfl

@[simp]
theorem put_self (s : Storage) : s.put s.log.entries = s := rfl

theorem append_eq_ok (h : s.append e = .ok s') : s' = s.put (s.log.entries ++ [e]) ∧ e.index = s.lastIndex + 1 := by
  rw [append] at h
  split at h
  case isTrue => contradiction
  case isFalse =>
    by_cases hi : e.index = s.log.lastIndex + 1
    case neg => simp [Log.append, hi] at h
    case pos =>
      simp only [Log.append, hi, ↓reduceIte, Except.ok.injEq] at h
      exact ⟨h.symm, hi⟩

theorem cancelFrom_eq_ok (h : s.cancelFrom i = .ok (s', n)) : s' = s.put (s.log.entries.take (i - 1)) := by
  rw [cancelFrom] at h
  split at h
  case isTrue => contradiction
  case isFalse =>
    by_cases ht : i ≤ s.log.taken
    case pos => simp [Log.cancelFrom, ht] at h
    case neg =>
      by_cases hl : s.log.lastIndex < i <;> simp [Log.cancelFrom, ht, hl] at h
      exact h.left.symm

theorem appendEntry_storage (s : Storage) (e : Entry) :
    ((s.appendEntry e).storage = s ∧ (s.appendEntry e).success = false) ∨
    ((s.appendEntry e).storage = s.put (s.log.entries ++ [e]) ∧ (s.appendEntry e).success = true) := by
  cases h : s.append e <;> rw [appendEntry, h]
  case error => exact .inl ⟨rfl, rfl⟩
  case ok    => exact .inr ⟨(append_eq_ok h).left, rfl⟩

theorem replaceFrom_storage (s : Storage) (e : Entry) :
    ((s.replaceFrom e).storage = s ∧ (s.replaceFrom e).success = false) ∨
    ((s.replaceFrom e).storage = s.put (s.log.entries.take (e.index - 1)) ∧ (s.replaceFrom e).success = false) ∨
    (s.replaceFrom e).storage = s.put (s.log.entries.take (e.index - 1) ++ [e]) := by
  cases h : s.cancelFrom e.index <;> rw [replaceFrom, h]
  case error => exact .inl ⟨rfl, rfl⟩
  case ok c  =>
    obtain ⟨_, _⟩ := c
    cases cancelFrom_eq_ok h
    exact .inr <| (appendEntry_storage _ e).imp id And.left

theorem term?_of_termAt? (h : s.termAt? (n + 1) = some t) : term? s.log.entries n = some t := by
  simp only [termAt?, get?, Log.get?] at h
  split at h <;> simp_all [term?]
  exact h.imp fun _ h => ⟨h.left.right, h.right⟩

theorem ends_of_termAt? (h : s.termAt? n = some t) : Ends s.log.entries n t := by
  cases n
  case zero => exact (by simpa [termAt?] using h : 0 = t).symm
  case succ => exact term?_of_termAt? h

theorem mergeEntry_storage (h : s.mergeEntry commit sender e = .ok m) (hi : e.index = prev + 1) :
    (m.storage = s ∧ (m.success = true → term? s.log.entries prev = some e.term)) ∨
    (term? s.log.entries prev ≠ some e.term ∧ (commit ≤ s.log.entries.length → commit ≤ prev) ∧
      ((m.storage = s.put (s.log.entries.take prev) ∧ m.success = false) ∨
        m.storage = s.put (s.log.entries.take prev ++ [e]))) := by
  cases ha : advance .index s.lastIndex 1 <;>
    simp only [mergeEntry, ha, bind, Except.bind, reduceCtorEq] at h
  case ok next =>
    have ⟨hn, _⟩ := advance_eq_ok_iff.mp ha
    split at h
    case isTrue he =>
      cases h
      have hl : prev = s.log.entries.length := by simp only [lastIndex, Log.lastIndex] at hn; omega
      cases appendEntry_storage s e
      case inl ha => exact .inl ⟨ha.left, by simp [ha.right]⟩
      case inr ha =>
        refine .inr ⟨by simp [term?, hl], fun hc => hl ▸ hc, .inr ?_⟩
        rw [ha.left, hl, List.take_length]
    case isFalse he =>
      split at h
      case h_1 => cases h; exact .inl ⟨rfl, by simp⟩
      case h_2 ours ho =>
        have ht := term?_of_termAt? (hi ▸ ho)
        repeat' split at h
        case isTrue heq         => cases h; exact .inl ⟨rfl, fun _ => heq ▸ ht⟩
        case isFalse.isTrue     => cases h; exact .inl ⟨rfl, by simp⟩
        case isFalse.isFalse hd hc =>
          cases h
          have hr := replaceFrom_storage s e
          rw [hi, Nat.add_sub_cancel] at hr
          cases hr
          case inl hr => exact .inl ⟨hr.left, by simp [hr.right]⟩
          case inr hr => exact .inr ⟨by simpa [ht] using hd, fun _ => by omega, hr⟩

theorem merge_cons_eq_ok (h : s.merge commit sender (e :: es) = .ok m) :
    ∃ m₁, s.mergeEntry commit sender e = .ok m₁ ∧
      ((m₁.success = false ∧ m = m₁) ∨
        (m₁.success = true ∧ ∃ m₂, m₁.storage.merge commit sender es = .ok m₂ ∧
          m.storage = m₂.storage ∧ m.success = m₂.success)) := by
  rw [merge] at h
  cases h₁ : s.mergeEntry commit sender e <;> simp only [h₁, bind, Except.bind, reduceCtorEq] at h
  case ok m₁ =>
    refine ⟨m₁, rfl, ?_⟩
    split at h
    case isFalse hs => cases h; exact .inl ⟨by simpa using hs, rfl⟩
    case isTrue hs  =>
      cases h₂ : m₁.storage.merge commit sender es <;> simp only [h₂, reduceCtorEq] at h
      case ok m₂ => cases h; exact .inr ⟨hs, m₂, rfl, rfl, rfl⟩

theorem merge_at_end (h : s.merge commit sender es = .ok m) (hc : Consecutive s.log.entries.length es) :
    ∃ k, m.storage = s.put (s.log.entries ++ es.take k) ∧ (m.success = true → es.length ≤ k) := by
  induction es generalizing s m
  case nil =>
    cases h
    exact ⟨0, by simp⟩
  case cons e es hi =>
    have ⟨m₁, h₁, h⟩ := merge_cons_eq_ok h
    have hn : term? s.log.entries s.log.entries.length = none := by simp [term?]
    cases mergeEntry_storage h₁ hc.head
    case inl h₁ =>
      have hf : m₁.success = false := by simpa [hn] using h₁.right
      simp only [hf, Bool.false_eq_true, false_and, or_false, true_and] at h
      exact ⟨0, by simp [h, h₁.left, hf]⟩
    case inr h₁ =>
      have ⟨_, _, h₁⟩ := h₁
      rw [List.take_length] at h₁
      cases h₁
      case inl h₁ =>
        simp only [h₁.right, Bool.false_eq_true, false_and, or_false, true_and] at h
        exact ⟨0, by simp [h, h₁]⟩
      case inr h₁ =>
        cases h
        case inl h => exact ⟨1, by simp [h, h₁]⟩
        case inr h =>
          have ⟨_, m₂, h₂, hs, hm⟩ := h
          have ⟨k, hk, hl⟩ := hi h₂ (by simpa [h₁] using hc.tail)
          exact ⟨k + 1, by simp [hs, hk, h₁], fun h => by have := hl (hm ▸ h); simpa⟩

theorem merge_storage (h : s.merge commit sender es = .ok m) (hc : Consecutive prev es)
    (hp : prev ≤ s.log.entries.length) :
    ∃ log, m.storage = s.put log ∧ Merged s.log.entries commit prev es m.success log := by
  induction es generalizing s m prev
  case nil =>
    cases h
    exact ⟨_, rfl, .kept fun _ _ hj => absurd hj (Nat.not_lt_zero _)⟩
  case cons e es hi =>
    have ⟨m₁, h₁, h⟩ := merge_cons_eq_ok h
    cases mergeEntry_storage h₁ hc.head
    case inl h₁ =>
      cases h
      case inl h => exact ⟨_, by rw [h.right, h₁.left, put_self], .kept (by simp [h])⟩
      case inr h =>
        have ⟨h₁s, m₂, h₂, hs, hm⟩ := h
        have ht := h₁.right h₁s
        have ⟨log, hl, hg⟩ := hi (h₁.left ▸ h₂) hc.tail (lt_length_of_term? ht)
        exact ⟨log, hs ▸ hl, hm ▸ hg.cons ht⟩
    case inr h₁ =>
      have ⟨hd, hf, h₁⟩ := h₁
      -- From here on the entries of the request count, up to the one before which the medium fails.
      have graft (k : Nat) (hs : m.storage = s.put (s.log.entries.take prev ++ (e :: es).take k))
          (hw : m.success = true → (e :: es).length ≤ k) :
          ∃ log, m.storage = s.put log ∧ Merged s.log.entries commit prev (e :: es) m.success log :=
        ⟨_, hs, .grafted 0 k (by simp) (Nat.zero_le _) (by simp) hd hf hw⟩
      cases h₁
      case inl h₁ =>
        simp only [h₁.right, Bool.false_eq_true, false_and, or_false, true_and] at h
        exact graft 0 (by simp [h, h₁]) (by simp [h, h₁])
      case inr h₁ =>
        cases h
        case inl h => exact graft 1 (by simp [h, h₁]) (by simp [h])
        case inr h =>
          have ⟨_, m₂, h₂, hs, hm⟩ := h
          have hl : (s.log.entries.take prev ++ [e]).length = prev + 1 := by simp [hp]
          have ⟨k, hk, hw⟩ := merge_at_end h₂ (by rw [h₁, put_entries, hl]; exact hc.tail)
          exact graft (k + 1) (by simp [hs, hk, h₁]) fun h => by simpa using hw (hm ▸ h)

end Storage
end RaftGroup
