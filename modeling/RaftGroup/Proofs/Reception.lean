import RaftGroup.Proofs.Bookkeeping
import RaftGroup.Proofs.Copying

namespace RaftGroup

open Entries Storage

namespace Entries

variable {log log' leader : List Entry}

def shared : List Entry → List Entry → Nat
  | e :: es, e' :: es' => if e = e' then shared es es' + 1 else 0
  | _,       _         => 0

theorem take_shared (log leader : List Entry) : log.take (shared log leader) = leader.take (shared log leader) := by
  induction log generalizing leader
  case nil          => rfl
  case cons e es hi =>
    cases leader
    case nil         => rfl
    case cons e' es' =>
      rw [shared]
      split
      case isTrue h  => rw [h, List.take_succ_cons, List.take_succ_cons, hi]
      case isFalse   => rfl

theorem length_le_shared {part : List Entry} (h : part <+: log) (h' : part <+: leader) :
    part.length ≤ shared log leader := by
  induction part generalizing log leader
  case nil          => exact Nat.zero_le _
  case cons e es hi =>
    obtain ⟨rest, rfl⟩ := h
    obtain ⟨rest', rfl⟩ := h'
    rw [List.cons_append, List.cons_append, shared, if_pos rfl]
    exact Nat.succ_le_succ (hi (List.prefix_append ..) (List.prefix_append ..))

theorem shared_le_length (log leader : List Entry) : shared log leader ≤ log.length := by
  induction log generalizing leader
  case nil          => exact Nat.zero_le _
  case cons e es hi =>
    cases leader
    case nil         => exact Nat.zero_le _
    case cons e' es' =>
      rw [shared]
      split
      case isTrue  => exact Nat.succ_le_succ (hi es')
      case isFalse => exact Nat.zero_le _

theorem Nears.shared_le (h : Nears leader log log') : shared log leader ≤ shared log' leader := by
  have hp : log.take (shared log leader) <+: leader := take_shared log leader ▸ List.take_prefix ..
  have hl := length_le_shared (h.keeps _ (List.take_prefix ..) hp) hp
  rwa [List.length_take, Nat.min_eq_left (shared_le_length log leader)] at hl

theorem Nears.take_eq (h : Nears leader log log') (hn : n ≤ leader.length) (ht : log.take n = leader.take n) :
    log'.take n = leader.take n := by
  have hp : leader.take n <+: log' := h.keeps _ (ht ▸ List.take_prefix ..) (List.take_prefix ..)
  have hl : (leader.take n).length = n := by rw [List.length_take, Nat.min_eq_left hn]
  have he := List.prefix_iff_eq_take.mp hp
  rw [hl] at he
  exact he.symm

end Entries

namespace Storage.Absorbs

variable {s s' : Storage} {r : AppendRequest} {leader : List Entry} {commit commit' : Nat} {success : Bool}

theorem faults_eq (h : Absorbs r s commit success s' commit') : s'.faults = s.faults := by
  cases h <;> rfl

theorem taken_eq (h : Absorbs r s commit success s' commit') : s'.log.taken = s.log.taken := by
  cases h <;> rfl

theorem commit_le (h : Absorbs r s commit success s' commit') : commit ≤ commit' := by
  cases h
  case refused => exact Nat.le_refl _
  case laid    => exact Nat.le_max_left ..

theorem nears (h : Absorbs r s commit success s' commit') (hc : Coherent s.log.entries leader) (hr : r.From leader) :
    Nears leader s.log.entries s'.log.entries ∧
      (success = true → s'.log.entries.take r.lastIndex = leader.take r.lastIndex) := by
  cases h
  case refused => exact ⟨.refl .., nofun⟩
  case laid hf => exact (overlay_copies hc (hc.take_eq hf.ends hr.ends) hr.part).imp_right fun h _ => h

end Storage.Absorbs

namespace Engine

variable {e f : Engine} {s : Server} {r : AppendRequest} {rs : List AppendRequest} {log : List Entry}

-- A request of a term that the member does not lead is taken in if the entry before it is the same, its entries are
-- numbered in a row from there, and none of them contradicts what is committed. Then the log keeps all entries up to
-- the first one that the request has another one for, or up to its end, and goes on with those of the request. Else
-- it stays as it is. The positions in question fit their words.
theorem request_overlays (h : e.Reachable) (hp : s.asPeer ∈ e.peers) (ht : e.term ≤ T)
    (hl : e.role = .leader → e.term ≠ T) (hs : e.storage.lastIndex + r.entries.length + 1 < wordSize) :
    ∃ turn success, e.receive ⟨T, .appendRequest r⟩ s = .ok turn ∧
      turn.result = some ⟨.to s.asPeer, T, .appendReply success⟩ ∧
      (success = true ↔ r.Fits e.storage.log.entries e.commit) ∧
      (success = true →
        turn.engine.storage = e.storage.put (overlay e.storage.log.entries r.prevIndex r.entries) ∧
        turn.engine.commit = max e.commit (min r.commit (r.prevIndex + r.entries.length))) ∧
      (success = false → turn.engine.storage = e.storage ∧ turn.engine.commit = e.commit) := by
  obtain ⟨turn, success, hm, ho⟩ := receive_obliges (r := r) hp ht (fun hr => Nat.lt_of_le_of_ne ht (hl hr)) h.plain
    h.applied_le (by omega) fun hr => by rw [AppendRequest.lastIndex]; omega
  refine ⟨turn, success, hm, ho.result, ?_⟩
  have ha := ho.absorbs
  generalize turn.engine.storage = s', turn.engine.commit = c at ha
  cases ha
  case refused hd =>
    exact ⟨iff_of_false Bool.false_ne_true hd, fun hs => absurd hs Bool.false_ne_true, fun _ => ⟨rfl, rfl⟩⟩
  case laid hf    => exact ⟨iff_of_true rfl hf, fun _ => ⟨rfl, rfl⟩, fun hs => absurd hs.symm Bool.false_ne_true⟩

-- A member that has entries of a term after the first one, and knows only the first entry to be committed.
def outpaced : Engine :=
  ((Career.start "a" [.peer "b"]
    ⟨⟨[⟨1, 1, .text [119]⟩, ⟨2, 2, .text [120]⟩, ⟨2, 3, .text [121]⟩], 0⟩, {}⟩ ⟨fun _ => 0, 0⟩ {}).after
    [⟨.message ⟨2, .appendRequest ⟨"b", 1, 1, 1, []⟩⟩ (.peer "b"), {}⟩]).engine.withFaults {}

theorem reachable_outpaced : outpaced.Reachable :=
  ⟨_, _, [⟨1, 1, .text [119]⟩, ⟨2, 2, .text [120]⟩, ⟨2, 3, .text [121]⟩], _, _, _, _, rfl, rfl⟩

theorem entries_outpaced :
    outpaced.storage.log.entries = [⟨1, 1, .text [119]⟩, ⟨2, 2, .text [120]⟩, ⟨2, 3, .text [121]⟩] := by
  decide +kernel

theorem lastIndex_outpaced : outpaced.storage.lastIndex = 3 :=
  congrArg List.length entries_outpaced

theorem request_overlays_of_outpaced :
    outpaced.Reachable ∧ outpaced.commit = 1 ∧
    (∃ turn, outpaced.receive
        ⟨3, .appendRequest ⟨"b", 1, 1, 9, [⟨2, 2, .text [120]⟩, ⟨3, 3, .text [122]⟩, ⟨3, 4, .text []⟩]⟩⟩ (.peer "b") =
          .ok turn ∧
      turn.result = some ⟨.to (.peer "b"), 3, .appendReply true⟩ ∧
      turn.engine.storage.log.entries =
        [⟨1, 1, .text [119]⟩, ⟨2, 2, .text [120]⟩, ⟨3, 3, .text [122]⟩, ⟨3, 4, .text []⟩] ∧
      turn.engine.commit = 4) ∧
    ∃ turn, outpaced.receive ⟨3, .appendRequest ⟨"b", 0, 0, 9, [⟨3, 1, .text [122]⟩]⟩⟩ (.peer "b") = .ok turn ∧
      turn.result = some ⟨.to (.peer "b"), 3, .appendReply false⟩ ∧
      turn.engine.storage = outpaced.storage ∧ turn.engine.commit = 1 := by
  have hp : (Server.peer "b").asPeer ∈ outpaced.peers := by decide +kernel
  have ht : outpaced.term ≤ 3 := by decide +kernel
  have hl : outpaced.role = .leader → outpaced.term ≠ 3 := by decide +kernel
  have hc : outpaced.commit = 1 := by decide +kernel
  have he := entries_outpaced
  have hn := lastIndex_outpaced
  refine ⟨reachable_outpaced, hc, ?_, ?_⟩
  case refine_1 =>
    obtain ⟨turn, success, hr, ho, hs, ha, -⟩ := request_overlays
      (r := ⟨"b", 1, 1, 9, [⟨2, 2, .text [120]⟩, ⟨3, 3, .text [122]⟩, ⟨3, 4, .text []⟩]⟩) reachable_outpaced hp ht hl
      (by rw [hn]; decide)
    have hs := hs.mpr {
      ends     := by rw [he]; rfl
      row      := by rintro (_ | _ | _ | j) e ⟨⟩ <;> rfl
      respects := respects_of_commit_le (by rw [hc]) }
    obtain ⟨hl, hm⟩ := ha hs
    exact ⟨turn, hr, hs ▸ ho, by rw [hl, he]; rfl, by rw [hm, hc]; rfl⟩
  case refine_2 =>
    obtain ⟨turn, success, hr, ho, hs, -, ha⟩ := request_overlays
      (r := ⟨"b", 0, 0, 9, [⟨3, 1, .text [122]⟩]⟩) reachable_outpaced hp ht hl (by rw [hn]; decide)
    have hs : success = false := Bool.eq_false_iff.mpr fun ht => by
      refine not_respects_of_ne (t := 1) ?_ ?_ ?_ (hs.mp ht).respects
      · rw [hc]; exact Nat.one_pos
      · rw [he]; rfl
      · decide
    exact ⟨turn, hr, hs ▸ ho, (ha hs).left, hc ▸ (ha hs).right⟩

def heed (s : Server) (T : Nat) : List AppendRequest → Engine → Except Overflow (List (Turn (Option Outgoing)))
  | [],      _ => return []
  | r :: rs, e => do
    let turn ← e.receive ⟨T, .appendRequest r⟩ s
    return turn :: (← heed s T rs turn.engine)

-- A member that can take in what has been made with a log, in a term that it does not lead.
structure Listens (e : Engine) (s : Server) (T : Nat) (log : List Entry) : Prop where
  peer     : s.asPeer ∈ e.peers
  term     : e.term ≤ T
  follows  : e.role = .leader → e.term < T
  plain    : e.storage.faults = {}
  applied  : e.applied ≤ e.commit
  size     : e.storage.lastIndex + 1 < wordSize
  coherent : Coherent e.storage.log.entries log

def Attests (s : Server) (T : Nat) (log : List Entry) (r : AppendRequest) (turn : Turn (Option Outgoing)) : Prop :=
  turn.result = some ⟨.to s.asPeer, T, .appendReply true⟩ →
    turn.engine.storage.log.entries.take r.lastIndex = log.take r.lastIndex

namespace Listens

theorem receive (h : e.Listens s T log) (hs : log.length + 1 < wordSize) (hr : r.From log) :
    ∃ turn, e.receive ⟨T, .appendRequest r⟩ s = .ok turn ∧ turn.engine.Listens s T log ∧
      Nears log e.storage.log.entries turn.engine.storage.log.entries ∧ Attests s T log r turn := by
  obtain ⟨turn, success, hm, ho⟩ := receive_obliges h.peer h.term h.follows h.plain h.applied h.size
    fun _ => Nat.lt_of_le_of_lt hr.last_le (Nat.lt_of_succ_lt hs)
  obtain ⟨hn, hk⟩ := ho.absorbs.nears h.coherent hr
  refine ⟨turn, hm, ?_, hn, fun ht => hk ?_⟩
  case refine_1 => exact {
    peer     := ho.peers ▸ h.peer
    term     := Nat.le_of_eq ho.term
    follows  := by rw [ho.role]; nofun
    plain    := ho.absorbs.faults_eq.trans h.plain
    applied  := Nat.le_trans (Nat.le_of_eq ho.absorbs.taken_eq) (Nat.le_trans h.applied ho.absorbs.commit_le)
    size     := Nat.add_lt_of_lt_sub (hn.length_lt (Nat.lt_sub_of_add_lt h.size) (Nat.lt_sub_of_add_lt hs))
    coherent := hn.coherent h.coherent }
  case refine_2 =>
    cases ho.result.symm.trans ht
    rfl

theorem heed (h : e.Listens s T log) (hs : log.length + 1 < wordSize) (hr : ∀ r ∈ rs, r.From log) :
    ∃ turns, heed s T rs e = .ok turns ∧ rs.Forall₂ (Attests s T log) turns ∧
      ((e :: turns.map Turn.engine).map fun e => e.storage.log.entries).Pairwise (Nears log) := by
  induction rs generalizing e
  case nil          => exact ⟨[], rfl, .nil, List.pairwise_singleton ..⟩
  case cons r rs hi =>
    obtain ⟨turn, hm, hl, hn, ha⟩ := h.receive hs (hr r List.mem_cons_self)
    obtain ⟨turns, ht, hf, hp⟩ := hi hl fun r hm => hr r (List.mem_cons_of_mem _ hm)
    refine ⟨turn :: turns, ?_, .cons ha hf, List.pairwise_cons.mpr ⟨fun log' hl => ?_, hp⟩⟩
    case refine_1 =>
      simp only [Engine.heed, hm, ht, bind, Except.bind]
      rfl
    case refine_2 =>
      obtain rfl | hl := List.mem_cons.mp hl
      · exact hn
      · exact hn.trans (List.rel_of_pairwise_cons hp hl)

end Listens

-- The requests of one term can come in any order and any number of times. What the member has in common with the log
-- that they have been made with never gets less, and once one of them has been taken in, the member has all of the
-- log up to its last entry, whatever of them comes later. At first the two logs agree wherever they have entries of
-- the same term. The positions that follow the logs fit their words.
theorem requests_in_any_order (h : f.Reachable) (hp : s.asPeer ∈ f.peers) (ht : f.term ≤ T)
    (hl : f.role = .leader → f.term ≠ T) (hc : Coherent f.storage.log.entries log)
    (hs : f.storage.lastIndex + 1 < wordSize) (hs' : log.length + 1 < wordSize) (hr : ∀ r ∈ rs, r.From log) :
    ∃ turns, heed s T rs f = .ok turns ∧ turns.length = rs.length ∧
      ((f :: turns.map Turn.engine).map fun e => shared e.storage.log.entries log).Pairwise (· ≤ ·) ∧
      ∀ (i j : Nat) (r : AppendRequest) (turn turn' : Turn (Option Outgoing)), i ≤ j →
        rs[i]? = some r → turns[i]? = some turn → turns[j]? = some turn' →
        turn.result = some ⟨.to s.asPeer, T, .appendReply true⟩ →
        turn'.engine.storage.log.entries.take r.lastIndex = log.take r.lastIndex := by
  have hk : f.Listens s T log := {
    peer     := hp
    term     := ht
    follows  := fun hr => Nat.lt_of_le_of_ne ht (hl hr)
    plain    := h.plain
    applied  := h.applied_le
    size     := hs
    coherent := hc }
  obtain ⟨turns, hm, hf, hn⟩ := hk.heed hs' hr
  rw [List.pairwise_map] at hn
  refine ⟨turns, hm, hf.length_eq.symm, List.pairwise_map.mpr (hn.imp Nears.shared_le), ?_⟩
  intro i j r turn turn' hij hi ht hj ho
  have hr := (hr r (List.mem_of_getElem? hi)).last_le
  obtain ⟨hx, rfl⟩ := List.getElem?_eq_some_iff.mp hi
  obtain ⟨hy, rfl⟩ := List.getElem?_eq_some_iff.mp ht
  obtain ⟨hz, rfl⟩ := List.getElem?_eq_some_iff.mp hj
  have ha := hf.get hx hy ho
  obtain rfl | hij := Nat.eq_or_lt_of_le hij
  · exact ha
  · have hn := List.pairwise_iff_getElem.mp (List.pairwise_map.mp hn.of_cons) i j hy hz hij
    exact hn.take_eq hr ha

-- The last entry comes first, then all that is new, and after that only what has been there before.
def jumbled : List AppendRequest := [
  ⟨"b", 2, 3, 0, [⟨3, 3, .text []⟩]⟩,
  ⟨"b", 1, 1, 1, [⟨3, 2, .text [122]⟩, ⟨3, 3, .text []⟩]⟩,
  ⟨"b", 0, 0, 0, [⟨1, 1, .text [119]⟩]⟩,
  ⟨"b", 1, 1, 1, [⟨3, 2, .text [122]⟩]⟩,
  ⟨"b", 1, 1, 1, [⟨3, 2, .text [122]⟩, ⟨3, 3, .text []⟩]⟩
]

theorem requests_in_any_order_of_jumbled :
    let log : List Entry := [⟨1, 1, .text [119]⟩, ⟨3, 2, .text [122]⟩, ⟨3, 3, .text []⟩]
    outpaced.Reachable ∧ shared outpaced.storage.log.entries log = 1 ∧
    ∃ turns, heed (.peer "b") 3 jumbled outpaced = .ok turns ∧ turns.length = 5 ∧
      ∀ turn ∈ turns.drop 1, turn.engine.storage.log.entries.take 3 = log := by
  intro log
  have hc : Coherent outpaced.storage.log.entries log := by
    rw [entries_outpaced]
    rintro (_ | _ | _ | n) t ht ht'
    · rfl
    · cases ht
      exact absurd ht' (by decide)
    · cases ht
      exact absurd ht' (by decide)
    · cases ht
  have hr : ∀ r ∈ jumbled, r.From log := by
    intro r hr
    simp only [jumbled, List.mem_cons, List.not_mem_nil, or_false] at hr
    obtain rfl | rfl | rfl | rfl | rfl := hr
    all_goals exact ⟨rfl, by decide⟩
  obtain ⟨turns, hm, hl, -, hk⟩ := requests_in_any_order (s := .peer "b") (T := 3) reachable_outpaced
    (by decide +kernel) (by decide +kernel) (by decide +kernel) hc (by rw [lastIndex_outpaced]; decide) (by decide) hr
  have ho : (heed (.peer "b") 3 jumbled outpaced).map (List.map Turn.result) = .ok
      ([false, true, true, true, true].map fun success => some ⟨.to (.peer "b"), 3, .appendReply success⟩) := by
    decide +kernel
  rw [hm] at ho
  have ho := congrArg (·[1]?) (Except.ok.inj ho)
  obtain ⟨first, hf, ho⟩ := Option.map_eq_some_iff.mp (List.getElem?_map.symm.trans ho)
  refine ⟨reachable_outpaced, by rw [entries_outpaced]; rfl, turns, hm, hl, fun turn ht => ?_⟩
  obtain ⟨j, hj⟩ := List.getElem?_of_mem ht
  rw [List.getElem?_drop] at hj
  exact hk 1 (1 + j) _ first turn (Nat.le_add_right ..) rfl hf hj ho

end Engine
end RaftGroup
