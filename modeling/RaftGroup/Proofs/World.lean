import Mathlib.Logic.Function.Basic
import RaftGroup.Group

namespace RaftGroup

inductive Command
  | tick
  | timeout
  | submit (payload : Payload)
  | replicate (peer : Server)
  | take (limit : Nat)

def Turn.outcome (turn : Turn (Option Outgoing)) : Engine × List Outgoing :=
  (turn.engine, turn.result.toList)

namespace Engine

def obey (e : Engine) : Command → Except Overflow (Engine × List Outgoing)
  | .tick           => Turn.outcome <$> e.tick
  | .timeout        => Turn.outcome <$> e.timeout
  | .replicate peer => Turn.outcome <$> e.replicateTo peer
  | .submit payload => (fun turn => (turn.engine, [])) <$> e.submit payload
  | .take limit     => .ok ((e.takeCommitted limit).2, [])

def hear (e : Engine) (l : Letter) : Except Overflow (Engine × List Outgoing) :=
  Turn.outcome <$> e.receive l.message (.peer l.sender)

-- The last positions of the requests to a follower that no reply has been matched with.
def unanswered? (e : Engine) (s : Server) : Option (List Nat) :=
  (e.replication? s).map Replication.unanswered

-- The position up to which a leader credits a follower on its letter.
def credit? (e : Engine) (l : Letter) : Option Nat :=
  if l.message = ⟨e.term, .appendReply true⟩ then
    match e.unanswered? (.peer l.sender) with
    | some (oldest :: rest) => some (Replication.acknowledge oldest rest)
    | _                     => none
  else none

end Engine

-- A letter that was sent, and the place in the post of the letter on whose receipt it was sent, if there is one.
structure Posted where
  letter : Letter
  cause : Option Nat
  deriving DecidableEq

def Posted.Answers (p : Posted) (post : List Posted) (q : Posted) : Prop :=
  ∃ k, p.cause = some k ∧ post[k]? = some q

theorem prefix_getElem?_eq_some {l l' : List α} {n : Nat} (hp : l <+: l') (h : l[n]? = some a) : l'[n]? = some a := by
  obtain ⟨_, rfl⟩ := hp
  exact (List.getElem?_append_left (List.getElem?_eq_some_iff.mp h).choose).trans h

theorem Posted.Answers.unique {p q q' : Posted} {post : List Posted} :
    p.Answers post q → p.Answers post q' → q = q'
  | ⟨k, hk, hq⟩, ⟨k', hk', hq'⟩ => by
    cases hk.symm.trans hk'
    exact Option.some.inj (hq.symm.trans hq')

theorem Posted.Answers.mem {p q : Posted} {post : List Posted} : p.Answers post q → q ∈ post
  | ⟨_, _, hq⟩ => List.mem_of_getElem? hq

theorem Posted.Answers.mono {p q : Posted} {post : List Posted} (hp : post <+: post') :
    p.Answers post q → p.Answers post' q
  | ⟨k, hk, hq⟩ => ⟨k, hk, prefix_getElem?_eq_some hp hq⟩

theorem Group.sender_of_mem_letters (h : l ∈ Group.letters e i o) : l.sender = i ∧ l.message = o.message := by
  rw [letters] at h
  split at h
  case h_1 => cases List.mem_singleton.mp h; exact ⟨rfl, rfl⟩
  case h_2 =>
    obtain ⟨_, _, rfl⟩ := List.mem_map.mp h
    exact ⟨rfl, rfl⟩

-- The members, and all letters that they have sent so far, oldest first. A letter never leaves the post, so that it can
-- arrive at any time after it was sent, any number of times, or never.
structure World where
  engine : String → Engine
  post : List Posted := []

namespace World

-- What an overflow interrupts is never seen.
def record (w : World) (id : String) (cause : Option Nat) : Except Overflow (Engine × List Outgoing) → World
  | .error _   => w
  | .ok (e, os) => {
      engine := Function.update w.engine id e
      post   := w.post ++ (os.flatMap (Group.letters e id)).map (⟨·, cause⟩) }

@[simp]
theorem record_engine_self (w : World) (i : String) : (w.record i cause (.ok (e, os))).engine i = e :=
  Function.update_self ..

theorem record_engine_of_ne (w : World) (h : j ≠ i) : (w.record i cause (.ok (e, os))).engine j = w.engine j :=
  Function.update_of_ne h ..

theorem mem_post_record {w : World} {i : String} (h : p ∈ (w.record i cause (.ok (e, os))).post) :
    p ∈ w.post ∨ ∃ o ∈ os, p.letter.sender = i ∧ p.letter.message = o.message ∧ p.cause = cause := by
  refine (List.mem_append.mp h).imp_right fun h => ?_
  obtain ⟨l, hl, rfl⟩ := List.mem_map.mp h
  have ⟨o, ho, hl⟩ := List.mem_flatMap.mp hl
  have ⟨hs, hm⟩ := Group.sender_of_mem_letters hl
  exact ⟨o, ho, hs, hm, rfl⟩

def entries (w : World) (id : String) : List Entry :=
  (w.engine id).storage.log.entries

def Leads (w : World) (id : String) (term : Nat) : Prop :=
  (w.engine id).role = .leader ∧ (w.engine id).term = term

instance (w : World) (id : String) (term : Nat) : Decidable (w.Leads id term) :=
  inferInstanceAs (Decidable (_ ∧ _))

end World

inductive Action
  | command (id : String) (c : Command)
  | deliver (place : Nat)

-- Who founds a group: members with different names, who are told of each other. Whether the own name is among those
-- that a member is told makes no difference. Their number fits a word, as that of all things held in memory.
structure Founding where
  members : List String
  peers : String → List Server
  storage : String → Storage
  random : String → RandomSource
  config : String → Config
  nodup : members.Nodup
  fits : members.length < wordSize
  mem_peers_iff : ∀ i ∈ members, ∀ j, (j = i ∨ ∃ p ∈ peers i, p.id = j) ↔ j ∈ members

namespace Founding

def world (f : Founding) : World where
  engine i := .start i (f.peers i) (f.storage i) (f.random i) (f.config i)

def Blank (f : Founding) : Prop :=
  ∀ i ∈ f.members, f.storage i = {}

def fresh (members : List String) (nodup : members.Nodup) (fits : members.length < wordSize) (config : Config) :
    Founding where
  members
  peers _   := members.map .peer
  storage _ := {}
  random _  := ⟨fun _ => 0, 0⟩
  config _  := config
  nodup
  fits
  mem_peers_iff i hi j := by
    constructor
    case mpr => exact fun hj => .inr ⟨.peer j, List.mem_map_of_mem hj, rfl⟩
    case mp =>
      rintro (rfl | ⟨p, hp, rfl⟩)
      · exact hi
      · obtain ⟨k, hk, rfl⟩ := List.mem_map.mp hp
        exact hk

theorem fresh_blank : (fresh ms hn hf c).Blank :=
  fun _ _ => rfl

def step (f : Founding) (w : World) : Action → World
  | .command i c => if i ∈ f.members then w.record i none ((w.engine i).obey c) else w
  | .deliver k   =>
    match w.post[k]? with
    | none   => w
    | some p =>
      let i := p.letter.receiver
      if i ∈ f.members then w.record i (some k) ((w.engine i).hear p.letter) else w

end Founding

structure Run where
  founding : Founding
  actions : List Action

namespace Run

def world (r : Run) (t : Nat) : World :=
  (r.actions.take t).foldl r.founding.step r.founding.world

theorem world_succ {r : Run} {a : Action} (h : r.actions[t]? = some a) :
    r.world (t + 1) = r.founding.step (r.world t) a := by
  simp [world, List.take_add_one, h]

theorem world_succ_of_none {r : Run} (h : r.actions[t]? = none) : r.world (t + 1) = r.world t := by
  simp [world, List.take_add_one, h]

def delivery? (r : Run) (t : Nat) : Option (Nat × Posted) :=
  match r.actions[t]? with
  | some (.deliver k) => (r.world t).post[k]?.map (k, ·)
  | _                 => none

theorem delivery?_eq_some_iff {r : Run} :
    r.delivery? t = some (k, p) ↔ r.actions[t]? = some (.deliver k) ∧ (r.world t).post[k]? = some p := by
  rw [delivery?]
  constructor
  case mp =>
    intro h
    split at h
    case h_2 => cases h
    case h_1 ha =>
      obtain ⟨_, hp, h⟩ := Option.map_eq_some_iff.mp h
      cases h
      exact ⟨ha, hp⟩
  case mpr =>
    intro ⟨ha, hp⟩
    rw [ha]
    dsimp only
    rw [hp, Option.map_some]

def taken (r : Run) (w : World) (id : String) : Action → List Entry
  | .command i (.take limit) =>
    if i = id ∧ i ∈ r.founding.members then ((w.engine id).takeCommitted limit).1 else []
  | _ => []

def handed (r : Run) (t : Nat) (id : String) : List Entry :=
  (List.range t).flatMap fun s => (r.actions[s]?.map (r.taken (r.world s) id)).getD []

def pair : Founding :=
  .fresh ["a", "b"] (by decide) (by decide) { heartbeatInterval := .ofNat 1 }

-- Both of two members lead one after the other, and commit an entry.
def handover : Run where
  founding := pair
  actions  := [
    .command "a" .timeout, .deliver 0, .deliver 1, .command "a" (.submit (.text [120])),
    .command "a" (.replicate (.peer "b")), .deliver 2, .deliver 3, .command "a" (.take 1),
    .command "b" .timeout, .deliver 4, .deliver 5, .command "b" (.submit (.text [121])),
    .command "b" (.replicate (.peer "a")), .deliver 6, .deliver 7, .command "b" (.take 2)]

end Run
end RaftGroup
