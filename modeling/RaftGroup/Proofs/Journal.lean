import Mathlib.Data.List.Chain
import RaftGroup.Replica
import RaftGroup.Proofs.Bookkeeping

namespace RaftGroup

open Entries

namespace Engine

variable {e e' e'' : Engine}

-- Calls make the one of the other, and nothing is handed out by them.
def Reaches (e e' : Engine) : Prop :=
  ∃ incidents, ∀ handed, (⟨e, handed⟩ : Career).after incidents = ⟨e', handed⟩

namespace Reaches

theorem refl (e : Engine) : e.Reaches e :=
  ⟨[], fun _ => rfl⟩

theorem trans : e.Reaches e' → e'.Reaches e'' → e.Reaches e''
  | ⟨before, hb⟩, ⟨later, hl⟩ => ⟨before ++ later, fun handed => by
    rw [Career.after, List.foldl_append]
    exact (congrArg (Career.after · later) (hb handed)).trans (hl handed)⟩

-- The medium is as faulty as the engine finds it.
theorem answer (h : e.answer c = .ok e') (hc : ∀ n, c ≠ .command (.take n)) : e.Reaches e' := by
  refine ⟨[⟨c, e.storage.faults⟩], fun handed => ?_⟩
  have hs : e.withFaults e.storage.faults = e := rfl
  have hy : e.yields c = [] := by
    rw [yields]
    exact hc
  simp only [Career.after, List.foldl_cons, List.foldl_nil, Career.step, hs, h, hy, List.append_nil]

theorem obey (h : e.obey c = .ok out) (hc : ∀ n, c ≠ .take n) : e.Reaches out.1 :=
  answer (c := .command c) (map_eq_ok_iff.mpr ⟨out, h, rfl⟩) fun n hn => hc n (Call.command.inj hn)

theorem replicateToAll {ps : List Server} (h : e.replicateToAll ps = .ok turn) : e.Reaches turn.engine := by
  induction ps generalizing e turn
  case nil          => cases h; exact .refl e
  case cons p ps ih =>
    obtain ⟨first, hp, h⟩ := bind_eq_ok_iff.mp h
    obtain ⟨rest, hr, h⟩ := bind_eq_ok_iff.mp h
    cases h
    have hf : e.Reaches first.engine := obey (c := .replicate p) (map_eq_ok_iff.mpr ⟨first, hp, rfl⟩) nofun
    exact hf.trans (ih hr :)

end Reaches
end Engine

namespace Node

variable {e : Engine}

theorem reaches_andFlush {turn : Turn (Option Outgoing)} (h : andFlush turn = .ok flushed) :
    turn.engine.Reaches flushed.engine := by
  obtain ⟨rest, hr, h⟩ := bind_eq_ok_iff.mp h
  cases h
  exact (Engine.Reaches.replicateToAll hr :)

theorem reaches_tick (h : tick e = .ok turn) : e.Reaches turn.engine := by
  obtain ⟨first, ho, h⟩ := bind_eq_ok_iff.mp h
  have ht : e.Reaches first.engine := .obey (c := .tick) (map_eq_ok_iff.mpr ⟨first, ho, rfl⟩) nofun
  exact ht.trans (reaches_andFlush h)

theorem reaches_receive (h : receive e m s = .ok turn) : e.Reaches turn.engine := by
  obtain ⟨first, ho, h⟩ := bind_eq_ok_iff.mp h
  have hm : e.Reaches first.engine := .answer (c := .message m s) (map_eq_ok_iff.mpr ⟨first, ho, rfl⟩) nofun
  exact hm.trans (reaches_andFlush h)

theorem reaches_submit (h : submit e payload = .ok turn) : e.Reaches turn.engine := by
  obtain ⟨first, ho, h⟩ := bind_eq_ok_iff.mp h
  have hs : e.Reaches first.engine := .obey (c := .submit payload) (map_eq_ok_iff.mpr ⟨first, ho, rfl⟩) nofun
  split at h
  case h_1 => cases h; exact hs
  case h_2 =>
    obtain ⟨rest, hr, h⟩ := bind_eq_ok_iff.mp h
    cases h
    exact (hs.trans (.replicateToAll hr) :)

end Node

namespace Replica

variable {r : Replica} {told : Replica × Output}

theorem step_eq_ok (h : r.step i = .ok told) :
    (told.1.engine = r.engine ∧ told.1.status = r.status ∧ told.2.committed = [] ∧ told.2.events = []) ∨
    ∃ e out, r.engine.Reaches e ∧ told = r.publish e out := by
  rw [step.eq_def] at h
  split at h
  case h_1 => cases h; exact .inl ⟨rfl, rfl, rfl, rfl⟩
  case h_2 => cases h; exact .inl ⟨rfl, rfl, rfl, rfl⟩
  case h_3 =>
    obtain ⟨turn, ht, h⟩ := bind_eq_ok_iff.mp h
    cases h
    exact .inr ⟨_, _, Node.reaches_tick ht, rfl⟩
  case h_4 =>
    obtain ⟨turn, ht, h⟩ := bind_eq_ok_iff.mp h
    cases h
    exact .inr ⟨_, _, Node.reaches_receive ht, rfl⟩
  case h_5 =>
    obtain ⟨turn, ht, h⟩ := bind_eq_ok_iff.mp h
    split at h
    case h_1 => cases h; exact .inr ⟨_, _, Node.reaches_submit ht, rfl⟩
    case h_2 => cases h; exact .inr ⟨_, _, Node.reaches_submit ht, rfl⟩
  case h_6 => cases h; exact .inl ⟨rfl, rfl, rfl, rfl⟩

end Replica

namespace Career

variable {c : Career}

theorem Settled.drained (h : c.Settled) : c.engine.takeAllCommitted.2.applied = c.engine.commit := by
  obtain ⟨-, ha, he⟩ := Engine.takeCommitted_spec c.engine.committedCount c.engine
  have ht := congrArg List.length he
  rw [List.length_append, Engine.length_takeCommitted h.le, List.length_take, List.length_take, Nat.min_self] at ht
  have hl : c.engine.commit ≤ c.engine.storage.log.entries.length := h.le
  have hc := h.hands.le
  have hn : c.engine.committedCount = c.engine.commit - c.engine.applied := rfl
  rw [Engine.takeAllCommitted]
  omega

end Career

namespace Event

def entry? : Event → Option Entry
  | .committed entry => some entry
  | _                => none

def role? : Event → Option Role
  | .roleChanged role => some role
  | _                 => none

def leader? : Event → Option (Option Server)
  | .leaderChanged leader => some leader
  | _                     => none

def replay (known : Role × Option Server) : Event → Role × Option Server
  | .roleChanged role     => (role, known.2)
  | .leaderChanged leader => (known.1, leader)
  | .committed _          => known

variable (es : List Entry) (old new : Status)

theorem entries_told : (es.map committed ++ Replica.changes old new).filterMap entry? = es := by
  have hc : (Replica.changes old new).filterMap entry? = [] := by
    rw [Replica.changes]
    split <;> split <;> rfl
  rw [List.filterMap_append, hc, List.append_nil, List.filterMap_map]
  exact List.filterMap_some

theorem roles_told :
    (es.map committed ++ Replica.changes old new).filterMap role? = if old.role = new.role then [] else [new.role] := by
  have he : (es.map committed).filterMap role? = [] := by
    rw [List.filterMap_map]
    exact List.filterMap_eq_nil_iff.mpr fun _ _ => rfl
  rw [List.filterMap_append, he, Replica.changes]
  split <;> split <;> rfl

theorem leaders_told :
    (es.map committed ++ Replica.changes old new).filterMap leader? =
      if old.leader = new.leader then [] else [new.leader] := by
  have he : (es.map committed).filterMap leader? = [] := by
    rw [List.filterMap_map]
    exact List.filterMap_eq_nil_iff.mpr fun _ _ => rfl
  rw [List.filterMap_append, he, Replica.changes]
  split <;> split <;> rfl

theorem replay_told :
    (es.map committed ++ Replica.changes old new).foldl replay (old.role, old.leader) = (new.role, new.leader) := by
  have he : (es.map committed).foldl replay (old.role, old.leader) = (old.role, old.leader) := by
    rw [List.foldl_map]
    exact List.foldl_fixed' (fun _ => rfl) es
  rw [List.foldl_append, he, Replica.changes]
  split <;> split <;> simp_all [replay]

end Event

-- Every report differs from the one before, and the last one still holds. The first value counts as reported.
structure Reported (first : α) (reports : List α) (current : α) : Prop where
  last    : (first :: reports).getLast? = some current
  differs : (first :: reports).IsChain (· ≠ ·)

theorem reported_nil (first : α) : Reported first [] first :=
  ⟨rfl, .singleton first⟩

theorem Reported.report [DecidableEq α] {first old : α} {reports : List α} (h : Reported first reports old) (new : α) :
    Reported first (reports ++ if old = new then [] else [new]) new := by
  split
  case isTrue hn  => rw [List.append_nil]; exact hn ▸ h
  case isFalse hn =>
    refine ⟨List.getLast?_concat (l := first :: reports), List.isChain_append.mpr ⟨h.differs, .singleton new, ?_⟩⟩
    intro last hl next hx
    cases h.last.symm.trans hl
    cases hx
    exact hn

structure Journal where
  replica : Replica
  committed : List Entry := []
  events : List Event := []

namespace Journal

def start (id : String) (peers : List String) (random : RandomSource) (config : Config) : Journal where
  replica := .start id peers random config

def step (j : Journal) (i : Replica.Input) : Journal :=
  match j.replica.step i with
  | .ok (replica, out) => ⟨replica, j.committed ++ out.committed, j.events ++ out.events⟩
  | .error _           => { j with replica := { j.replica with stopped := true } }

def after (j : Journal) (inputs : List Replica.Input) : Journal :=
  inputs.foldl step j

def career (j : Journal) : Career :=
  ⟨j.replica.engine, j.committed⟩

-- What is told is all there is to tell.
structure Complete (j : Journal) : Prop where
  settled  : j.career.Settled
  numbered : Consecutive 0 j.career.log.entries
  drained  : j.replica.engine.applied = j.replica.engine.commit
  status   : j.replica.status = Replica.statusOf j.replica.engine
  entries  : j.events.filterMap Event.entry? = j.committed
  known    : j.events.foldl Event.replay (.follower, none) = (j.replica.status.role, j.replica.status.leader)
  roles    : Reported .follower (j.events.filterMap Event.role?) j.replica.status.role
  leaders  : Reported none (j.events.filterMap Event.leader?) j.replica.status.leader

variable {j : Journal}

theorem complete_start (id : String) (peers : List String) (random : RandomSource) (config : Config) :
    (start id peers random config).Complete where
  settled  := Career.settled_start (show Log.ofEntries [] = .ok {} from rfl) id _ {} random config
  numbered := nofun
  drained  := rfl
  status   := rfl
  entries  := rfl
  known    := rfl
  roles    := reported_nil _
  leaders  := reported_nil _

theorem Complete.publish (h : j.Complete) (hr : j.replica.engine.Reaches e) (out : Replica.Output) :
    let told := j.replica.publish e out
    Complete ⟨told.1, j.committed ++ told.2.committed, j.events ++ told.2.events⟩ := by
  obtain ⟨incidents, hi⟩ := hr
  let take : Incident := ⟨.command (.take e.committedCount), e.storage.faults⟩
  have hi : j.career.after incidents = ⟨e, j.committed⟩ := hi j.committed
  have hs : (⟨e, j.committed⟩ : Career).Settled := hi ▸ (h.settled.after incidents).left
  have hn : Consecutive 0 e.storage.log.entries :=
    (congrArg (fun c : Career => Consecutive 0 c.log.entries) hi).mp (Career.after_consecutive h.numbered incidents)
  have hc : e.takeAllCommitted.2.commit = e.commit := congrArg Gist.commit (Engine.takeCommitted_spec _ e).left
  have hv : (j.replica.publish e out).2.events = e.takeAllCommitted.1.map .committed ++
    Replica.changes j.replica.status (Replica.statusOf e.takeAllCommitted.2) := rfl
  exact {
    settled  := (hs.step take).left
    numbered := Career.step_consecutive (c := ⟨e, j.committed⟩) hn take
    drained  := hs.drained.trans hc.symm
    status   := rfl
    entries  := by rw [List.filterMap_append, h.entries, hv, Event.entries_told]; rfl
    known    := by rw [List.foldl_append, h.known, hv, Event.replay_told]; rfl
    roles    := by rw [List.filterMap_append, hv, Event.roles_told]; exact h.roles.report _
    leaders  := by rw [List.filterMap_append, hv, Event.leaders_told]; exact h.leaders.report _ }

theorem Complete.idle (h : j.Complete) (he : r.engine = j.replica.engine) (hs : r.status = j.replica.status) :
    Complete { j with replica := r } := by
  obtain ⟨engine, status, stopped⟩ := r
  cases he
  cases hs
  exact { h with }

theorem Complete.step (h : j.Complete) (i : Replica.Input) : (j.step i).Complete := by
  rw [Journal.step]
  split
  case h_2 => exact h.idle rfl rfl
  case h_1 replica out hs =>
    obtain ⟨he, hs, hc, hv⟩ | ⟨e, out', hr, ht⟩ := Replica.step_eq_ok hs
    case inl =>
      rw [hc, hv, List.append_nil, List.append_nil]
      exact h.idle he hs
    case inr =>
      cases ht
      exact h.publish hr out'

theorem Complete.after (h : j.Complete) (inputs : List Replica.Input) : (j.after inputs).Complete := by
  induction inputs generalizing j
  case nil              => exact h
  case cons i inputs ih => exact ih (h.step i)

-- After any inputs: what the application has been given, and what the subscribers have been told to be committed, is
-- the log from its first entry up to the commit position of the status, each entry once and in order. Whoever follows
-- the other events, starting from a follower without a leader, ends at the role and the leader of the status, and none
-- of these events repeats the value before it.
theorem events_reproduce_status (id : String) (peers : List String) (random : RandomSource) (config : Config)
    (inputs : List Replica.Input) :
    let j := (start id peers random config).after inputs
    let status := j.replica.status
    let log := j.replica.engine.storage.log
    status = Replica.statusOf j.replica.engine ∧ status.commit ≤ log.lastIndex ∧
    j.committed = log.entries.take status.commit ∧
    (∀ n e, j.committed[n]? = some e → e.index = n + 1) ∧
    j.events.filterMap Event.entry? = j.committed ∧
    j.events.foldl Event.replay (.follower, none) = (status.role, status.leader) ∧
    (.follower :: j.events.filterMap Event.role?).IsChain (· ≠ ·) ∧
    (none :: j.events.filterMap Event.leader?).IsChain (· ≠ ·) := by
  intro j status log
  have h : j.Complete := (complete_start id peers random config).after inputs
  have hc : status.commit = j.replica.engine.commit := congrArg Status.commit h.status
  have ht : j.committed = log.entries.take status.commit := by
    rw [hc, ← h.drained]
    exact h.settled.hands.eq
  refine ⟨h.status, hc ▸ h.settled.le, ht, fun n e he => ?_, h.entries, h.known, h.roles.differs, h.leaders.differs⟩
  rw [ht, List.getElem?_take] at he
  split at he
  case isTrue  => rw [h.numbered n e he, Nat.zero_add]
  case isFalse => cases he

-- A member is elected, commits a command, and then hears from a leader of a later term, which has committed one more.
-- What it has told adds up to the status that it ends with.
theorem events_reproduce_status_of_deposed :
    let inputs : List Replica.Input :=
      [.tick, .message (.peer "b") ⟨1, .voteReply true⟩, .submit (.text [119]),
        .message (.peer "b") ⟨1, .appendReply true⟩, .message (.peer "b") ⟨1, .appendReply true⟩,
        .message (.peer "c") ⟨2, .appendRequest ⟨"c", 1, 1, 2, [⟨2, 2, .text [120]⟩]⟩⟩]
    let j := (start "a" ["b", "c"] ⟨fun _ => 0, 0⟩ { electionTimeout := .ofNat 1 }).after inputs
    j.replica.status = ⟨.follower, some (.peer "c"), 2, 2⟩ ∧
    j.events = [.roleChanged .candidate, .roleChanged .leader, .leaderChanged (some (.me "a")),
      .committed ⟨1, 1, .text [119]⟩, .committed ⟨2, 2, .text [120]⟩, .roleChanged .follower,
      .leaderChanged (some (.peer "c"))] ∧
    j.events.foldl Event.replay (.follower, none) = (.follower, some (.peer "c")) ∧
    j.committed = [⟨1, 1, .text [119]⟩, ⟨2, 2, .text [120]⟩] ∧
    j.committed = j.replica.engine.storage.log.entries.take 2 := by
  intro inputs j
  have hs : j.replica.status = ⟨.follower, some (.peer "c"), 2, 2⟩ := by decide +kernel
  have ⟨_, _, hc, _, _, hf, _⟩ :=
    events_reproduce_status "a" ["b", "c"] ⟨fun _ => 0, 0⟩ { electionTimeout := .ofNat 1 } inputs
  rw [show Journal.replica _ = j.replica from rfl, hs] at hc hf
  exact ⟨hs, by decide +kernel, hf, by decide +kernel, hc⟩

end Journal
end RaftGroup
