import RaftGroup.Log

namespace RaftGroup

structure Config where
  electionTimeout : UInt32 := 10
  heartbeatInterval : UInt32 := 3
  chunkSize : Nat := 64 * 1024
  deriving DecidableEq, Repr

structure RandomSource where
  draw : Nat → UInt32
  drawn : Nat := 0

namespace RandomSource

def next (r : RandomSource) : UInt32 × RandomSource :=
  (r.draw r.drawn, { r with drawn := r.drawn + 1 })

-- At least the election timeout, and less than twice as many ticks.
def electionTicks (r : RandomSource) (c : Config) : Nat × RandomSource :=
  let (n, r) := r.next
  let timeout := c.electionTimeout.toNat
  (addTicks timeout (if timeout = 0 then 0 else n.toNat % timeout), r)

end RandomSource

-- What a leader knows about one of its followers. `unanswered` holds the last position of each request that no reply
-- has been matched with, oldest first. A reply does not say which request it answers, and any request can be lost, so
-- that a success counts for no more than the smallest of them.
structure Replication where
  next : Nat
  matched : Nat := 0
  unanswered : List Nat := []
  probing : Bool := false
  heartbeatDue : Bool := true
  awaiting : Bool := false
  waited : Nat := 0
  deriving DecidableEq, Repr

-- A reply that trails this many later requests is not told apart from theirs.
def maxUnanswered : Nat := 64

structure Following where
  leader : Option Server := none
  ticks : Nat
  timeout : Nat
  deriving DecidableEq, Repr

structure Candidacy where
  votes : List Server
  ticks : Nat
  deriving DecidableEq, Repr

structure Leadership where
  followers : List (Server × Replication)
  ticks : Nat
  deriving DecidableEq, Repr

namespace Leadership

def replication? (l : Leadership) (s : Server) : Option Replication :=
  l.followers.lookup s

def update (l : Leadership) (s : Server) (r : Replication) : Leadership :=
  { l with followers := l.followers.map fun f => if f.1 = s then (s, r) else f }

theorem update_followers_keys (l : Leadership) (s : Server) (r : Replication) :
    (l.update s r).followers.map Prod.fst = l.followers.map Prod.fst := by
  simp only [update, List.map_map]
  refine List.map_congr_left fun f _ => ?_
  simp only [Function.comp_apply]
  split
  case isTrue h => exact h.symm
  case isFalse _ => rfl

end Leadership

inductive Standing
  | follower (f : Following)
  | candidate (c : Candidacy)
  | leader (l : Leadership)
  deriving DecidableEq, Repr

inductive Role
  | follower
  | candidate
  | leader
  deriving DecidableEq, Repr

def Role.name : Role → String
  | follower  => "Follower"
  | candidate => "Candidate"
  | leader    => "Leader"

structure Engine where
  id : String
  peers : List Server
  config : Config
  random : RandomSource
  term : Nat := 0
  vote : Option Server := none
  standing : Standing
  storage : Storage
  commit : Nat := 0

def quorumSize (peers : Nat) : Nat :=
  min (peers + 1) (wordSize - 1) / 2 + 1

namespace Engine

def me (e : Engine) : Server := .me e.id

-- Names of peers are taken from the list in any form. The local id among them does not count.
def start (id : String) (peers : List Server) (storage : Storage) (random : RandomSource) (config : Config) : Engine :=
  let (ticks, random) := random.electionTicks config
  { id, config, random, storage
    peers := Server.sort ((peers.filter fun p => p.id ≠ id).map Server.asPeer)
    standing := .follower { ticks, timeout := ticks } }

def role (e : Engine) : Role :=
  match e.standing with
  | .follower _  => .follower
  | .candidate _ => .candidate
  | .leader _    => .leader

def leader? (e : Engine) : Option Server :=
  match e.standing with
  | .follower f  => f.leader
  | .candidate _ => none
  | .leader _    => some e.me

def replication? (e : Engine) (s : Server) : Option Replication :=
  match e.standing with
  | .leader l => l.replication? s
  | _         => none

def applied (e : Engine) : Nat := e.storage.log.taken

def quorum (e : Engine) : Nat := quorumSize e.peers.length

def committedCount (e : Engine) : Nat := e.commit - e.applied

def takeOne (e : Engine) : Option (Entry × Engine) :=
  if e.applied < e.commit then
    e.storage.takeNext.map fun (entry, storage) => (entry, { e with storage })
  else none

def takeCommitted : (limit : Nat) → Engine → List Entry × Engine
  | 0, e         => ([], e)
  | limit + 1, e =>
    match e.takeOne with
    | none            => ([], e)
    | some (entry, e) =>
      let (entries, e) := takeCommitted limit e
      (entry :: entries, e)

def takeAllCommitted (e : Engine) : List Entry × Engine :=
  takeCommitted e.committedCount e

end Engine
end RaftGroup
