import RaftGroup.Engine.Step

namespace RaftGroup

namespace Engine

def replicateToAll (e : Engine) : List Server → Except Overflow (Turn (List Outgoing))
  | []      => return ⟨e, [], []⟩
  | p :: ps => do
    let first ← e.replicateTo p
    let rest ← first.engine.replicateToAll ps
    return ⟨rest.engine, first.result.toList ++ rest.result, first.notices ++ rest.notices⟩

end Engine

namespace Node

def flush (e : Engine) : Except Overflow (Turn (List Outgoing)) :=
  e.replicateToAll e.peers

def andFlush (turn : Turn (Option Outgoing)) : Except Overflow (Turn (List Outgoing)) := do
  let sent ← flush turn.engine
  return ⟨sent.engine, turn.result.toList ++ sent.result, turn.notices ++ sent.notices⟩

def tick (e : Engine) : Except Overflow (Turn (List Outgoing)) := do
  andFlush (← e.tick)

def receive (e : Engine) (m : Message) (sender : Server) : Except Overflow (Turn (List Outgoing)) := do
  andFlush (← e.receive m sender)

abbrev Submission := Except (AppendError Storage.Error) (Nat × List Outgoing)

def submit (e : Engine) (payload : Payload) : Except Overflow (Turn Submission) := do
  let turn ← e.submit payload
  match turn.result with
  | .error cause => return { turn with result := .error cause }
  | .ok index    =>
    let sent ← flush turn.engine
    return ⟨sent.engine, .ok (index, sent.result), turn.notices ++ sent.notices⟩

end Node

structure Progress where
  next : Nat
  matched : Nat
  probing : Bool
  unanswered : List Nat
  deriving DecidableEq

def Replication.progress (r : Replication) : Progress :=
  ⟨r.next, r.matched, r.probing, r.unanswered⟩

structure Snapshot where
  role : Role
  term : Nat
  vote : Option Server
  leader : Option Server
  commit : Nat
  applied : Nat
  last : LogEnd
  followers : Option (List (Server × Progress))
  deriving DecidableEq

def Engine.snapshot (e : Engine) : Snapshot where
  role := e.role
  term := e.term
  vote := e.vote
  leader := e.leader?
  commit := e.commit
  applied := e.applied
  last := ⟨e.storage.lastIndex, e.storage.lastTerm⟩
  followers := match e.standing with
    | .leader l => some (l.followers.map fun (s, r) => (s, r.progress))
    | _         => none

end RaftGroup
