import RaftGroup.Engine.Step
import RaftGroup.Proofs.Merge

namespace RaftGroup

namespace Entries

variable {log : List Entry} {e : Entry} {prev commit : Nat}

-- From the first entry on that the log does not hold after its first `prev`, the entries take the place of the log's.
def overlay (log : List Entry) (prev : Nat) (es : List Entry) : List Entry :=
  match (List.range es.length).find? fun j => term? log (prev + j) ≠ term? es j with
  | none   => log
  | some j => log.take (prev + j) ++ es.drop j

theorem overlay_cons_of_ne (h : term? log prev ≠ some e.term) (es : List Entry) :
    overlay log prev (e :: es) = log.take prev ++ e :: es := by
  rw [overlay, List.length_cons, List.range_succ_eq_map, List.find?_cons_of_pos (by simpa [term?] using h)]
  rfl

theorem overlay_cons_of_eq (h : term? log prev = some e.term) (es : List Entry) :
    overlay log prev (e :: es) = overlay log (prev + 1) es := by
  have hj (j : Nat) : prev + (j + 1) = prev + 1 + j := by omega
  have hd (j : Nat) : decide (term? log (prev + (j + 1)) ≠ term? (e :: es) (j + 1)) =
      decide (term? log (prev + 1 + j) ≠ term? es j) := by rw [hj]; rfl
  rw [overlay, List.length_cons, List.range_succ_eq_map, List.find?_cons_of_neg (by simpa [term?] using h),
    List.find?_map, show (fun j => decide (term? log (prev + j) ≠ term? (e :: es) j)) ∘ Nat.succ = _ from funext hd,
    overlay]
  cases (List.range es.length).find? _
  case none   => rfl
  case some j =>
    dsimp only [Option.map_some]
    rw [Nat.succ_eq_add_one, hj, List.drop_succ_cons]

variable {es : List Entry}

def Respects (log : List Entry) (commit prev : Nat) (es : List Entry) : Prop :=
  ∀ j t t', prev + j < commit → term? log (prev + j) = some t → term? es j = some t' → t = t'

theorem respects_of_commit_le (h : commit ≤ prev) : Respects log commit prev es :=
  fun _ _ _ hj => absurd hj (by omega)

theorem respects_of_length_le (h : log.length ≤ prev) : Respects log commit prev es :=
  fun _ _ _ _ ht => absurd (lt_length_of_term? ht) (by omega)

theorem not_respects_of_ne (hc : prev < commit) (ht : term? log prev = some t) (h : t ≠ e.term) :
    ¬Respects log commit prev (e :: es) :=
  fun hr => h (hr 0 t e.term hc ht rfl)

theorem respects_cons_iff_of_eq (h : term? log prev = some e.term) :
    Respects log commit prev (e :: es) ↔ Respects log commit (prev + 1) es := by
  have hj (j : Nat) : prev + (j + 1) = prev + 1 + j := by omega
  constructor
  case mp =>
    intro hr j t t' hc ht ht'
    exact hr (j + 1) t t' (hj j ▸ hc) (hj j ▸ ht) ht'
  case mpr =>
    rintro hr (_ | j) t t' hc ht ht'
    · cases h.symm.trans ht
      cases ht'
      rfl
    · exact hr j t t' (hj j ▸ hc) (hj j ▸ ht) ht'

theorem consecutive_cons_iff : Consecutive prev (e :: es) ↔ e.index = prev + 1 ∧ Consecutive (prev + 1) es := by
  constructor
  case mp  => exact fun h => ⟨h.head, h.tail⟩
  case mpr =>
    rintro ⟨he, h⟩ (_ | j) x hx
    · cases hx
      exact he
    · rw [h j x hx]
      omega

end Entries

open Entries

theorem contiguousAfter_eq_ok (hs : prev + es.length < wordSize) :
    ∃ b, contiguousAfter prev es = .ok b ∧ (b = true ↔ Consecutive prev es) := by
  induction es generalizing prev
  case nil          => exact ⟨true, rfl, iff_of_true rfl fun _ _ hk => by cases hk⟩
  case cons e es hi =>
    rw [List.length_cons] at hs
    have ha : advance .index prev 1 = .ok (prev + 1) := advance_eq_ok_iff.mpr ⟨rfl, by omega⟩
    simp only [contiguousAfter, ha, bind, Except.bind, consecutive_cons_iff]
    split
    case isTrue h  =>
      have hs : prev + 1 + es.length < wordSize := by omega
      obtain ⟨b, hb, hc⟩ := hi hs
      exact ⟨b, hb, by rw [hc, and_iff_right h]⟩
    case isFalse h => exact ⟨false, rfl, iff_of_false Bool.false_ne_true fun hc => h hc.left⟩

namespace Storage

variable {s s' : Storage} {e : Entry} {es : List Entry} {sender : Server} {prev commit : Nat} {m : Merge}

theorem get?_of_plain (h : s.faults = {}) (n : Nat) : s.get? (n + 1) = s.log.entries[n]? := by
  rw [get?, if_neg, Log.get?, if_neg (Nat.succ_ne_zero n), Nat.add_sub_cancel]
  rw [Hidden, h]
  rintro ⟨_, ⟨⟩, _⟩

theorem termAt?_eq_some_iff (h : s.faults = {}) : s.termAt? n = some t ↔ Ends s.log.entries n t := by
  cases n
  case zero   => rw [termAt?, if_pos rfl, Option.some.injEq, Ends, eq_comm]
  case succ n => rw [termAt?, if_neg (Nat.succ_ne_zero n), get?_of_plain h, Ends, term?]

theorem append_of_plain (h : s.faults = {}) (hi : e.index = s.lastIndex + 1) :
    s.append e = .ok (s.put (s.log.entries ++ [e])) := by
  rw [append, if_neg (by rw [h]; exact Bool.false_ne_true), Log.append,
    if_pos (show e.index = s.log.lastIndex + 1 from hi)]
  rfl

theorem cancelFrom_of_plain (h : s.faults = {}) (ht : s.log.taken < i) (hi : i ≤ s.lastIndex) :
    ∃ n, s.cancelFrom i = .ok (s.put (s.log.entries.take (i - 1)), n) := by
  rw [cancelFrom, if_neg (by rw [h]; exact Bool.false_ne_true), Log.cancelFrom, if_neg (Nat.not_le_of_lt ht),
    if_neg (show ¬ s.log.lastIndex < i from Nat.not_lt_of_le hi)]
  exact ⟨_, rfl⟩

theorem appendEntry_of_plain (h : s.faults = {}) (hi : e.index = s.lastIndex + 1) :
    s.appendEntry e = ⟨s.put (s.log.entries ++ [e]), true, []⟩ := by
  rw [appendEntry, append_of_plain h hi]

theorem replaceFrom_of_plain (h : s.faults = {}) (hi : e.index = prev + 1) (ht : s.log.taken ≤ prev)
    (hl : prev < s.lastIndex) : ∃ ns, s.replaceFrom e = ⟨s.put (s.log.entries.take prev ++ [e]), true, ns⟩ := by
  obtain ⟨n, hc⟩ := cancelFrom_of_plain h (i := prev + 1) (Nat.lt_succ_of_le ht) hl
  have hp : (s.put (s.log.entries.take prev)).lastIndex = prev := by
    rw [lastIndex, Log.lastIndex, put_entries, List.length_take]
    exact Nat.min_eq_left (Nat.le_of_lt hl)
  have ha := appendEntry_of_plain (s := s.put (s.log.entries.take prev)) h (hp ▸ hi)
  rw [replaceFrom, hi, hc, Nat.add_sub_cancel]
  dsimp only
  rw [ha]
  exact ⟨_, rfl⟩

theorem mergeEntry_of_eq (he : e.index = s.lastIndex + 1) (hs : s.lastIndex + 1 < wordSize) (commit : Nat)
    (sender : Server) : s.mergeEntry commit sender e = .ok (s.appendEntry e) := by
  have ha : advance .index s.lastIndex 1 = .ok (s.lastIndex + 1) := advance_eq_ok_iff.mpr ⟨rfl, hs⟩
  simp only [mergeEntry, ha, bind, Except.bind]
  exact if_pos he

theorem mergeEntry_of_lt (h : s.faults = {}) (he : e.index = prev + 1) (hl : prev < s.log.entries.length)
    (hs : s.lastIndex + 1 < wordSize) (commit : Nat) (sender : Server) :
    s.mergeEntry commit sender e = .ok (
      if s.log.entries[prev].term = e.term then ⟨s, true, []⟩
      else if prev < commit then
        ⟨s, false, [.keptCommitted e.index s.log.entries[prev].term sender e.term]⟩
      else s.replaceFrom e) := by
  have ha : advance .index s.lastIndex 1 = .ok (s.lastIndex + 1) := advance_eq_ok_iff.mpr ⟨rfl, hs⟩
  have ho : s.termAt? e.index = some s.log.entries[prev].term :=
    he ▸ (termAt?_eq_some_iff h).mpr (term?_eq_some hl)
  have hn : e.index ≠ s.lastIndex + 1 := he ▸ Nat.ne_of_lt (Nat.succ_lt_succ hl)
  have hc : e.index ≤ commit ↔ prev < commit := he ▸ Nat.succ_le_iff
  simp only [mergeEntry, ha, bind, Except.bind, if_neg hn, ho, hc]
  repeat' split
  all_goals rfl

theorem merge_cons_of_success (h : s.mergeEntry commit sender e = .ok ⟨s', true, ns⟩)
    (hm : s'.merge commit sender es = .ok m) : s.merge commit sender (e :: es) = .ok (m.noting ns) := by
  simp only [merge, h, hm, bind, Except.bind, if_true]
  rfl

theorem merge_cons_of_failure (h : s.mergeEntry commit sender e = .ok ⟨s', false, ns⟩) :
    s.merge commit sender (e :: es) = .ok ⟨s', false, ns⟩ := by
  simp only [merge, h, bind, Except.bind, Bool.false_eq_true, if_false]
  rfl

theorem merge_after (h : s.faults = {}) (hc : Consecutive s.lastIndex es) (hs : s.lastIndex + es.length < wordSize)
    (commit : Nat) (sender : Server) :
    ∃ ns, s.merge commit sender es = .ok ⟨s.put (s.log.entries ++ es), true, ns⟩ := by
  induction es generalizing s
  case nil          => exact ⟨[], by rw [List.append_nil]; rfl⟩
  case cons e es hi =>
    rw [List.length_cons] at hs
    have he := mergeEntry_of_eq hc.head (by omega) commit sender
    rw [appendEntry_of_plain h hc.head] at he
    have hl : (s.put (s.log.entries ++ [e])).lastIndex = s.lastIndex + 1 := List.length_append
    obtain ⟨ns, hm⟩ := hi (s := s.put (s.log.entries ++ [e])) h (hl ▸ hc.tail) (by omega)
    rw [put_entries, put_put, List.append_assoc] at hm
    exact ⟨_, merge_cons_of_success he hm⟩

theorem merge_instead (h : s.faults = {}) (ht : s.log.taken ≤ commit) (hk : commit ≤ prev)
    (hc : Consecutive prev (e :: es)) (hl : prev < s.log.entries.length) (hd : s.log.entries[prev].term ≠ e.term)
    (hs : s.lastIndex + 1 < wordSize) (hs' : prev + (es.length + 1) < wordSize) (sender : Server) :
    ∃ ns, s.merge commit sender (e :: es) = .ok ⟨s.put (s.log.entries.take prev ++ e :: es), true, ns⟩ := by
  have he := mergeEntry_of_lt h hc.head hl hs commit sender
  obtain ⟨ns, hr⟩ := replaceFrom_of_plain h hc.head (Nat.le_trans ht hk) hl
  rw [if_neg hd, if_neg (Nat.not_lt_of_le hk), hr] at he
  have hq : (s.put (s.log.entries.take prev ++ [e])).lastIndex = prev + 1 := by
    rw [lastIndex, Log.lastIndex, put_entries, List.length_append, List.length_take, Nat.min_eq_left (Nat.le_of_lt hl)]
    rfl
  obtain ⟨ns', hm⟩ :=
    merge_after (s := s.put (s.log.entries.take prev ++ [e])) h (hq ▸ hc.tail) (by omega) commit sender
  rw [put_entries, put_put, List.append_assoc] at hm
  exact ⟨_, merge_cons_of_success he hm⟩

-- What can come of entries that follow the first `prev` of the log.
inductive Lays (s : Storage) (commit prev : Nat) (es : List Entry) : Merge → Prop
  | whole (respects : Respects s.log.entries commit prev es) :
    Lays s commit prev es ⟨s.put (overlay s.log.entries prev es), true, ns⟩
  | nothing (contradicts : ¬Respects s.log.entries commit prev es) : Lays s commit prev es ⟨s, false, ns⟩

theorem Lays.cons (ht : term? s.log.entries prev = some e.term) (h : s.Lays commit (prev + 1) es m) :
    s.Lays commit prev (e :: es) (m.noting ns) := by
  cases h
  case whole hr   => exact overlay_cons_of_eq ht es ▸ .whole ((respects_cons_iff_of_eq ht).mpr hr)
  case nothing hr => exact .nothing fun h => hr ((respects_cons_iff_of_eq ht).mp h)

-- The log is changed at the first difference at the earliest. If that is not committed nothing can go wrong any more.
theorem merge_lays (h : s.faults = {}) (ht : s.log.taken ≤ commit) (hc : Consecutive prev es) (hp : prev ≤ s.lastIndex)
    (hs : s.lastIndex + 1 < wordSize) (hs' : prev + es.length < wordSize) (sender : Server) :
    ∃ m, s.merge commit sender es = .ok m ∧ s.Lays commit prev es m := by
  induction es generalizing prev
  case nil          => exact ⟨_, rfl, .whole nofun⟩
  case cons e es hi =>
    rw [List.length_cons] at hs'
    by_cases hl : prev < s.log.entries.length
    case neg =>
      obtain rfl : prev = s.lastIndex := Nat.le_antisymm hp (Nat.le_of_not_lt hl)
      obtain ⟨ns, hm⟩ := merge_after h hc (by rwa [List.length_cons]) commit sender
      have ho := overlay_cons_of_ne (e := e) (mt lt_length_of_term? hl) es
      rw [show s.log.entries.take s.lastIndex = s.log.entries from List.take_length] at ho
      exact ⟨_, hm, ho ▸ .whole (respects_of_length_le (Nat.le_refl _))⟩
    case pos =>
      have he := mergeEntry_of_lt h hc.head hl hs commit sender
      have ho := term?_eq_some hl
      by_cases hd : s.log.entries[prev].term = e.term
      case pos =>
        rw [if_pos hd] at he
        obtain ⟨m, hm, hy⟩ := hi hc.tail hl (by omega)
        exact ⟨_, merge_cons_of_success he hm, hy.cons (hd ▸ ho)⟩
      case neg =>
        by_cases hk : prev < commit
        case pos =>
          rw [if_neg hd, if_pos hk] at he
          exact ⟨_, merge_cons_of_failure he, .nothing (not_respects_of_ne hk ho hd)⟩
        case neg =>
          have hk := Nat.le_of_not_lt hk
          obtain ⟨ns, hm⟩ := merge_instead h ht hk hc hl hd hs hs' sender
          have ho := overlay_cons_of_ne (fun h => hd (Option.some.inj (ho.symm.trans h))) es
          exact ⟨_, hm, ho ▸ .whole (respects_of_commit_le hk)⟩

end Storage

structure AppendRequest.Fits (r : AppendRequest) (log : List Entry) (commit : Nat) : Prop where
  ends     : Ends log r.prevIndex r.prevTerm
  row      : Consecutive r.prevIndex r.entries
  respects : Respects log commit r.prevIndex r.entries

-- What a request for entries does to a log and to how much of it is committed.
inductive Storage.Absorbs (r : AppendRequest) (s : Storage) (commit : Nat) : Bool → Storage → Nat → Prop
  | refused (misfit : ¬r.Fits s.log.entries commit) : Absorbs r s commit false s commit
  | laid (fits : r.Fits s.log.entries commit) :
    Absorbs r s commit true (s.put (overlay s.log.entries r.prevIndex r.entries))
      (max commit (min r.commit r.lastIndex))

namespace Engine

open Storage

variable {e : Engine} {r : AppendRequest} {s : Server}

theorem noteCommit_eq (e : Engine) (n : Nat) : (e.noteCommit n).1 = { e with commit := max e.commit n } := by
  rw [noteCommit]
  split
  case isTrue h  => rw [Nat.max_eq_right (Nat.le_of_lt h)]; rfl
  case isFalse h => rw [Nat.max_eq_left (Nat.le_of_not_lt h)]

theorem mergeRequest_absorbs (h : e.storage.faults = {}) (ht : e.applied ≤ e.commit)
    (hs : e.storage.lastIndex + 1 < wordSize) (hr : r.prevIndex ≤ e.storage.lastIndex → r.lastIndex < wordSize)
    (s : Server) : ∃ turn, e.mergeRequest r s = .ok turn ∧
      turn.engine = { e with storage := turn.engine.storage, commit := turn.engine.commit } ∧
      Absorbs r e.storage e.commit turn.result turn.engine.storage turn.engine.commit := by
  rw [mergeRequest]
  split
  case isFalse hd =>
    have hd : ¬r.Fits e.storage.log.entries e.commit := fun hf => hd ((termAt?_eq_some_iff h).mpr hf.ends)
    split <;> exact ⟨_, rfl, rfl, .refused hd⟩
  case isTrue he =>
    have he := (termAt?_eq_some_iff h).mp he
    have hr := hr he.le_length
    obtain ⟨b, hb, hc⟩ := contiguousAfter_eq_ok hr
    have ha : advance .index r.prevIndex r.entries.length = .ok r.lastIndex := advance_eq_ok_iff.mpr ⟨rfl, hr⟩
    simp only [hb, ha, bind, Except.bind]
    cases b
    case false => exact ⟨_, rfl, rfl, .refused fun hf => absurd (hc.mpr hf.row) nofun⟩
    case true  =>
      have hc := hc.mp rfl
      obtain ⟨m, hm, hl⟩ := merge_lays h ht hc he.le_length hs hr s
      simp only [hm, if_true, noteCommit_eq]
      cases hl
      case whole hk   => exact ⟨_, rfl, rfl, .laid ⟨he, hc, hk⟩⟩
      case nothing hk => exact ⟨_, rfl, rfl, .refused fun hf => hk hf.respects⟩

theorem follow_eq (h : ∀ l, e.standing ≠ .leader l) (s : Server) :
    ∃ random f ns, e.follow s = (true, { e with random, standing := .follower f }, ns) := by
  rw [follow]
  split
  case h_1      => exact ⟨_, _, _, rfl⟩
  case h_2      => exact ⟨e.random, _, _, rfl⟩
  case h_3 l hl => exact absurd hl (h l)

theorem adoptTerm_eq (ht : e.term ≤ m.term) (hl : e.role = .leader → e.term < m.term) (s : Server) :
    ∃ random vote standing, (e.adoptTerm s m).1 = { e with term := m.term, random, vote, standing } ∧
      ∀ l, standing ≠ .leader l := by
  rw [adoptTerm]
  split
  case isTrue     => exact ⟨_, _, _, rfl, nofun⟩
  case isFalse hn =>
    have ht : e.term = m.term := Nat.le_antisymm ht (Nat.le_of_not_lt hn)
    exact ⟨e.random, e.vote, e.standing, by rw [← ht], fun l hs => hn (hl (by rw [role, hs]))⟩

theorem becomeLeader_of_role (h : e.role ≠ .candidate) : e.becomeLeader = .ok (e, []) := by
  rw [becomeLeader]
  split
  case h_1 hc => exact absurd (by rw [role, hc]) h
  case h_2    => rfl

theorem advanceCommit_of_role (h : e.role ≠ .leader) : e.advanceCommit = (e, []) := by
  rw [advanceCommit]
  split
  case h_1 hl => exact absurd (by rw [role, hl]) h
  case h_2    => rfl

structure Obliges (e : Engine) (s : Server) (term : Nat) (r : AppendRequest) (turn : Turn (Option Outgoing))
    (success : Bool) : Prop where
  result  : turn.result = some ⟨.to s, term, .appendReply success⟩
  id      : turn.engine.id = e.id
  peers   : turn.engine.peers = e.peers
  term    : turn.engine.term = term
  role    : turn.engine.role = .follower
  absorbs : Absorbs r e.storage e.commit success turn.engine.storage turn.engine.commit

theorem answerAppend_obliges (hf : ∀ l, e.standing ≠ .leader l) (h : e.storage.faults = {}) (ht : e.applied ≤ e.commit)
    (hs : e.storage.lastIndex + 1 < wordSize) (hr : r.prevIndex ≤ e.storage.lastIndex → r.lastIndex < wordSize)
    (s : Server) : ∃ turn success, e.answerAppend e.term r s = .ok turn ∧ e.Obliges s e.term r turn success := by
  obtain ⟨random, f, ns, hf⟩ := follow_eq hf s
  obtain ⟨turn, hm, he, hk⟩ := mergeRequest_absorbs (e := { e with random, standing := .follower f }) h ht hs hr s
  simp only [answerAppend, takeRequest, Nat.lt_irrefl, if_false, hf, hm, bind, Except.bind]
  exact ⟨_, turn.result, rfl, rfl, by rw [he], by rw [he], by rw [he], by rw [he]; rfl, hk⟩

theorem receive_obliges (hp : s.asPeer ∈ e.peers) (hT : e.term ≤ T) (hl : e.role = .leader → e.term < T)
    (h : e.storage.faults = {}) (ht : e.applied ≤ e.commit) (hs : e.storage.lastIndex + 1 < wordSize)
    (hr : r.prevIndex ≤ e.storage.lastIndex → r.lastIndex < wordSize) :
    ∃ turn success, e.receive ⟨T, .appendRequest r⟩ s = .ok turn ∧ e.Obliges s.asPeer T r turn success := by
  obtain ⟨random, vote, standing, ha, hf⟩ := adoptTerm_eq (m := ⟨T, .appendRequest r⟩) hT hl s.asPeer
  obtain ⟨turn, success, ht, he⟩ :=
    answerAppend_obliges (e := { e with term := T, random, vote, standing }) hf h ht hs hr s.asPeer
  have hc : turn.engine.role ≠ .candidate := by rw [he.role]; nofun
  have hl : turn.engine.role ≠ .leader := by rw [he.role]; nofun
  simp only [receive, if_pos hp, ha, handle, Rpc.isReply, Bool.false_eq_true, false_and, if_false, ht,
    becomeLeader_of_role hc, advanceCommit_of_role hl, bind, Except.bind]
  exact ⟨_, success, rfl, { he with }⟩

end Engine
end RaftGroup
