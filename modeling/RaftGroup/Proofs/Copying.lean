import RaftGroup.Proofs.Overlay
import RaftGroup.Proofs.World

namespace RaftGroup

namespace Entries

variable {log log' log'' leader part : List Entry}

def Coherent (log leader : List Entry) : Prop :=
  ∀ n t, term? log n = some t → term? leader n = some t → log.take (n + 1) = leader.take (n + 1)

theorem coherent_take (leader : List Entry) (k : Nat) : Coherent (leader.take k) leader := by
  intro n t hn _
  have hk := lt_length_of_term? hn
  rw [List.length_take] at hk
  rw [List.take_take, Nat.min_eq_left (by omega)]

theorem Coherent.take_eq (h : Coherent log leader) (hl : Ends log n t) (hl' : Ends leader n t) :
    log.take n = leader.take n := by
  cases n
  case zero   => rfl
  case succ n => exact h n t hl hl'

theorem Consecutive.of_drop (h : Consecutive 0 leader) (hp : part <+: leader.drop n) : Consecutive n part := by
  intro j e he
  have hd := prefix_getElem?_eq_some hp he
  rw [List.getElem?_drop] at hd
  rw [h _ e hd, Nat.zero_add]

-- What a log can become that takes in parts of the leader's.
structure Nears (leader log log' : List Entry) : Prop where
  keeps  : ∀ part, part <+: log → part <+: leader → part <+: log'
  copies : log' = log ∨ ∃ k, log' = leader.take k

namespace Nears

theorem refl (leader log : List Entry) : Nears leader log log where
  keeps _ h _ := h
  copies      := .inl rfl

theorem trans (h : Nears leader log log') (h' : Nears leader log' log'') : Nears leader log log'' where
  keeps part hp hl := h'.keeps part (h.keeps part hp hl) hl
  copies           := by
    obtain rfl | hk := h'.copies
    · exact h.copies
    · exact .inr hk

theorem coherent (h : Nears leader log log') (hc : Coherent log leader) : Coherent log' leader := by
  obtain rfl | ⟨k, rfl⟩ := h.copies
  · exact hc
  · exact coherent_take leader k

theorem length_lt (h : Nears leader log log') (hl : log.length < n) (hn : leader.length < n) : log'.length < n := by
  obtain rfl | ⟨k, rfl⟩ := h.copies
  · exact hl
  · exact Nat.lt_of_le_of_lt (List.length_take_le' ..) hn

end Nears

theorem nears_take_of_differs (h : term? log n ≠ term? leader n) (hk : n ≤ k) : Nears leader log (leader.take k) where
  keeps part hp hl := by
    refine List.prefix_take_iff.mpr ⟨hl, Nat.le_trans (Nat.le_of_not_lt fun hn => h ?_) hk⟩
    exact (prefix_term?_eq hp hn).symm.trans (prefix_term?_eq hl hn)
  copies           := .inr ⟨k, rfl⟩

theorem overlay_copies (hc : Coherent log leader) (hp : log.take prev = leader.take prev)
    (he : es <+: leader.drop prev) :
    Nears leader log (overlay log prev es) ∧
      (overlay log prev es).take (prev + es.length) = leader.take (prev + es.length) := by
  induction es generalizing prev
  case nil          => exact ⟨.refl .., hp⟩
  case cons e es hi =>
    have hn : term? leader prev = some e.term := by
      have hd := prefix_term?_eq_some he (n := 0) rfl
      rwa [term?_drop, Nat.add_zero] at hd
    by_cases ht : term? log prev = some e.term
    case pos =>
      have he : es <+: leader.drop (prev + 1) := by
        obtain ⟨rest, hr⟩ := he
        exact ⟨rest, by rw [← List.drop_drop, ← hr]; rfl⟩
      rw [overlay_cons_of_eq ht, List.length_cons, Nat.add_comm es.length, ← Nat.add_assoc]
      exact hi (hc prev _ ht hn) he
    case neg =>
      have hk : overlay log prev (e :: es) = leader.take (prev + (e :: es).length) := by
        rw [overlay_cons_of_ne ht, hp, List.take_add, ← List.prefix_iff_eq_take.mp he]
      rw [hk, List.take_take, Nat.min_self]
      exact ⟨nears_take_of_differs (hn ▸ ht) (Nat.le_add_right ..), rfl⟩

end Entries

open Entries

namespace Storage

variable {s : Storage} {leader : List Entry}

-- A log to which the leader's can be copied: nothing that differs is committed, and nothing else is handed out.
structure Copyable (s : Storage) (commit : Nat) (leader : List Entry) : Prop where
  plain     : s.faults = {}
  coherent  : Coherent s.log.entries leader
  committed : s.log.entries.take commit <+: leader
  taken     : s.log.taken ≤ commit
  size      : s.lastIndex + 1 < wordSize

theorem Copyable.put (h : s.Copyable commit leader) (hn : Nears leader s.log.entries es)
    (hl : leader.length + 1 < wordSize) (hc : es.take commit' <+: leader) (ht : commit ≤ commit') :
    (s.put es).Copyable commit' leader where
  plain     := h.plain
  coherent  := hn.coherent h.coherent
  committed := hc
  taken     := Nat.le_trans h.taken ht
  size      := Nat.add_lt_of_lt_sub (hn.length_lt (Nat.lt_sub_of_add_lt h.size) (Nat.lt_sub_of_add_lt hl))

theorem Copyable.take_commit (h : s.Copyable commit leader) (hn : Nears leader s.log.entries es) :
    es.take commit <+: leader := by
  obtain rfl | ⟨k, rfl⟩ := hn.copies
  · exact h.committed
  · exact (List.take_prefix ..).trans (List.take_prefix ..)

inductive Takes (leader : List Entry) (r : AppendRequest) (s : Storage) (commit : Nat) : Bool → Storage → Nat → Prop
  | refused (differs : ¬Ends s.log.entries r.prevIndex r.prevTerm) : Takes leader r s commit false s commit
  | copied (nears : Nears leader s.log.entries es) (take : es.take r.lastIndex = leader.take r.lastIndex) :
    Takes leader r s commit true (s.put es) (max commit (min r.commit r.lastIndex))

variable {r : AppendRequest} {s' : Storage} {commit commit' : Nat} {success : Bool}

theorem Takes.copyable (h : Takes leader r s commit success s' commit') (hs : s.Copyable commit leader)
    (hl : leader.length + 1 < wordSize) : s'.Copyable commit' leader := by
  cases h
  case refused            => exact hs
  case copied es hn ht =>
    refine hs.put hn hl ?_ (Nat.le_max_left ..)
    have hc : es.take (min r.commit r.lastIndex) <+: leader := by
      rw [← List.take_take, ht]
      exact (List.take_prefix ..).trans (List.take_prefix ..)
    cases Nat.le_total commit (min r.commit r.lastIndex)
    case inl hm => rwa [Nat.max_eq_right hm]
    case inr hm => rw [Nat.max_eq_left hm]; exact hs.take_commit hn

end Storage

structure AppendRequest.From (r : AppendRequest) (log : List Entry) : Prop where
  ends : Ends log r.prevIndex r.prevTerm
  part : r.entries <+: log.drop r.prevIndex

theorem AppendRequest.From.last_le {r : AppendRequest} {log : List Entry} (h : r.From log) :
    r.lastIndex ≤ log.length := by
  have := h.ends.le_length
  have := h.part.length_le
  rw [List.length_drop] at this
  rw [lastIndex]
  omega

open Storage

theorem Storage.Absorbs.takes {s s' : Storage} {r : AppendRequest} {leader : List Entry}
    (h : Absorbs r s commit success s' commit') (hs : s.Copyable commit leader) (hn : Consecutive 0 leader)
    (hr : r.From leader) : Takes leader r s commit success s' commit' := by
  cases h
  case refused hd =>
    refine .refused fun he => hd ⟨he, hn.of_drop hr.part, fun j t t' hj ht ht' => ?_⟩
    have hc : term? (s.log.entries.take commit) (r.prevIndex + j) = some t := (term?_take _ hj).trans ht
    have hl := prefix_term?_eq_some hr.part ht'
    rw [term?_drop] at hl
    exact Option.some.inj ((prefix_term?_eq_some hs.committed hc).symm.trans hl)
  case laid hf    =>
    obtain ⟨hc, ht⟩ := overlay_copies hs.coherent (hs.coherent.take_eq hf.ends hr.ends) hr.part
    exact .copied hc ht

namespace Engine

variable {e : Engine} {r : AppendRequest} {leader : List Entry} {i : String}

structure Heeds (e : Engine) (i : String) (term : Nat) (leader : List Entry) (r : AppendRequest)
    (turn : Turn (Option Outgoing)) (success : Bool) : Prop where
  result : turn.result = some ⟨.to (.peer i), term, .appendReply success⟩
  id     : turn.engine.id = e.id
  peers  : turn.engine.peers = e.peers
  term   : turn.engine.term = term
  role   : turn.engine.role = .follower
  takes  : Takes leader r e.storage e.commit success turn.engine.storage turn.engine.commit

theorem receive_heeds (hp : .peer i ∈ e.peers) (ht : e.term ≤ T) (hl : e.role = .leader → e.term < T)
    (h : e.storage.Copyable e.commit leader) (hs : leader.length + 1 < wordSize) (hn : Consecutive 0 leader)
    (hr : r.From leader) : ∃ turn success, e.receive ⟨T, .appendRequest r⟩ (.peer i) = .ok turn ∧
      e.Heeds i T leader r turn success := by
  obtain ⟨turn, success, hm, ho⟩ := receive_obliges (s := .peer i) (r := r) hp ht hl h.plain h.taken h.size
    fun _ => Nat.lt_of_le_of_lt hr.last_le (Nat.lt_of_succ_lt hs)
  exact ⟨turn, success, hm, { ho with takes := ho.absorbs.takes h hn hr }⟩

end Engine

end RaftGroup
