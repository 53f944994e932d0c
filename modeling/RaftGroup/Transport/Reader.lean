import RaftGroup.Resp.Receiver
import RaftGroup.Transport.Links

namespace RaftGroup

-- On an accepted connection the first frame has to name the peer, and no later one may. On an opened connection the
-- peer is known.
structure Reader where
  connection : Nat
  direction : Direction
  peer : Option Server := none
  receiver : Resp.Receiver
  deriving DecidableEq, Repr

inductive Arrival
  | identified (peer : Server)
  | message (sender : Server) (m : Message)
  deriving DecidableEq, Repr

namespace Reader

def inbound (connection limit : Nat) : Reader :=
  { connection, direction := .inbound, receiver := { limit } }

def outbound (connection limit : Nat) (peer : Server) : Reader :=
  { connection, direction := .outbound, peer := some peer, receiver := { limit } }

def readFrame (r : Reader) (f : Frame) : Except ConnectionError (Reader × Arrival) :=
  match f, r.peer with
  | .identity id, none      => .ok ({ r with peer := some (.peer id) }, .identified (.peer id))
  | .identity _, some peer  => .error (.duplicateIdentity peer.id)
  | .message m, some peer   => .ok (r, .message peer m)
  | .message m, none        => .error (.unidentified m.rpc.kind)

structure Reading where
  reader : Reader
  arrivals : List Arrival := []
  failure : Option ConnectionError := none

def readFrames (r : Reader) : List Frame → Reading
  | []      => { reader := r }
  | f :: fs =>
    match r.readFrame f with
    | .error cause    => { reader := r, failure := some cause }
    | .ok (r, arrival) =>
      let rest := r.readFrames fs
      { rest with arrivals := arrival :: rest.arrivals }

def failure : Resp.Error ⊕ Frame.DecodeError → ConnectionError
  | .inl cause => .resp cause
  | .inr cause => .decode cause

-- Takes in one piece of what the other side has written. A frame that is out of place comes before a later fault.
def feed (r : Reader) (bytes : Bytes) : Reading :=
  let batch := (r.receiver.push bytes).collect Frame.decode
  let reading := { r with receiver := batch.receiver }.readFrames batch.items
  { reading with failure := reading.failure.or (batch.failure.map failure) }

def feedAll (r : Reader) : List Bytes → Reading
  | []       => { reader := r }
  | b :: bs  =>
    let first := r.feed b
    match first.failure with
    | some _ => first
    | none   =>
      let rest := first.reader.feedAll bs
      { rest with arrivals := first.arrivals ++ rest.arrivals }

-- A peer is told of the end only if it was ever told of the beginning.
def closing (r : Reader) : Option Control :=
  r.peer.map fun peer => .closed peer r.connection r.direction

def closingLine (r : Reader) (cause : ConnectionError) : String :=
  let name := (r.peer.map Server.id).getD "unidentified peer"
  s!"closing {r.direction.name} connection {r.connection} with {name}: {cause.message}"

end Reader
end RaftGroup
