import RaftGroup.Node
import RaftGroup.Transport.Error

namespace RaftGroup

structure Status where
  role : Role := .follower
  leader : Option Server := none
  term : Nat := 0
  commit : Nat := 0
  deriving DecidableEq, Repr

inductive Event
  | roleChanged (role : Role)
  | leaderChanged (leader : Option Server)
  | committed (entry : Entry)
  deriving DecidableEq, Repr

structure Replica where
  engine : Engine
  status : Status := {}
  stopped : Bool := false

namespace Replica

inductive Input
  | tick
  | message (sender : Server) (m : Message)
  | submit (payload : Payload)
  | shutdown

structure Output where
  sent : List (Server × Message) := []
  answer : Option (Except SubmitError Nat) := none
  committed : List Entry := []
  events : List Event := []

def start (id : String) (peers : List String) (random : RandomSource) (config : Config) : Replica :=
  { engine := Engine.start id (peers.map .peer) {} random config }

def addressed (e : Engine) (o : Outgoing) : List (Server × Message) :=
  match o.dest with
  | .to s      => [(s, o.message)]
  | .broadcast => e.peers.map (·, o.message)

def send (e : Engine) (os : List Outgoing) : List (Server × Message) :=
  os.flatMap (addressed e)

def statusOf (e : Engine) : Status :=
  ⟨e.role, e.leader?, e.term, e.commit⟩

def changes (old new : Status) : List Event :=
  (if old.role = new.role then [] else [.roleChanged new.role]) ++
    (if old.leader = new.leader then [] else [.leaderChanged new.leader])

-- Hands out what has been committed, and reports a change of role or leader after it.
def publish (r : Replica) (e : Engine) (out : Output) : Replica × Output :=
  let (committed, e) := e.takeAllCommitted
  let status := statusOf e
  ({ r with engine := e, status },
    { out with committed, events := committed.map .committed ++ changes r.status status })

def refusal : AppendError Storage.Error → SubmitError
  | .notLeader _ leader => .notLeader leader
  | .log cause          => .log cause.message

def step (r : Replica) (i : Input) : Except Overflow (Replica × Output) :=
  match r.stopped, i with
  | true, .submit _ => return (r, { answer := some (.error .stopped) })
  | true, _         => return (r, {})
  | false, .tick    => do
    let turn ← Node.tick r.engine
    return r.publish turn.engine { sent := send turn.engine turn.result }
  | false, .message sender m => do
    let turn ← Node.receive r.engine m sender
    return r.publish turn.engine { sent := send turn.engine turn.result }
  | false, .submit payload => do
    let turn ← Node.submit r.engine payload
    match turn.result with
    | .error cause       => return r.publish turn.engine { answer := some (.error (refusal cause)) }
    | .ok (index, sent)  => return r.publish turn.engine { answer := some (.ok index), sent := send turn.engine sent }
  | false, .shutdown => return ({ r with stopped := true }, {})

end Replica
end RaftGroup
