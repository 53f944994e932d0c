import RaftGroup.Engine.Notice
import RaftGroup.Transport.Config
import RaftGroup.Transport.Handlers
import RaftGroup.Transport.Reader

namespace RaftGroup

-- What a station asks of its surroundings, and what it tells its handlers and its operators.
inductive Signal
  | dial (peer : Server) (connection : Nat)
  | write (connection : Nat) (message : Message)
  | close (connection : Nat)
  | connected (peer : Server)
  | failed (peer : Server) (reason : String)
  | received (sender : Server) (message : Message)
  | line (level : Level) (text : String)
  deriving DecidableEq, Repr

structure Station where
  id : String
  handlers : Handlers
  maxFrameLength : Nat
  links : Links := {}
  readers : List Reader := []
  deriving DecidableEq, Repr

namespace Station

def has (s : Station) (h : Handler) : Bool :=
  h ∈ s.handlers.registered

def signal (s : Station) : Effect → List Signal
  | .dial peer c        => [.dial peer c]
  | .write c m          => [.write c m]
  | .close c            => [.close c]
  | .connected peer     => if s.has .connected then [.connected peer] else []
  | .failed peer reason => if s.has .error then [.failed peer reason] else []

def control (s : Station) (c : Control) : Station × List Signal :=
  let (links, effects) := s.links.step c
  ({ s with links }, effects.flatMap s.signal)

def accept (s : Station) : Station × Nat :=
  let (links, c) := s.links.accept
  ({ s with links, readers := s.readers ++ [Reader.inbound c s.maxFrameLength] }, c)

def opened (s : Station) (peer : Server) (c : Nat) : Station × List Signal :=
  { s with readers := s.readers ++ [Reader.outbound c s.maxFrameLength peer] }.control (.connected peer c)

def dispatch (s : Station) (sender : Server) (m : Message) : List Signal :=
  if s.has (.message m.rpc.kind) then [.received sender m]
  else [.line .warn s!"no handler for {m.rpc.kind.name} from {sender.text}, dropped"]

def welcome (s : Station) (c : Nat) : List Arrival → Station × List Signal
  | []                      => (s, [])
  | .identified peer :: as  =>
    let (s, first) := s.control (.identified peer c)
    let (s, rest) := s.welcome c as
    (s, first ++ rest)
  | .message sender m :: as =>
    let (s, rest) := s.welcome c as
    (s, s.dispatch sender m ++ rest)

def reader? (s : Station) (c : Nat) : Option Reader :=
  s.readers.find? fun r => r.connection = c

def setReader (s : Station) (r : Reader) : Station :=
  { s with readers := s.readers.map fun q => if q.connection = r.connection then r else q }

def finish (s : Station) (r : Reader) : Station × List Signal :=
  let s := { s with readers := s.readers.filter fun q => q.connection ≠ r.connection }
  let (s, signals) := match r.closing with
    | some c => s.control c
    | none   => (s, [])
  (s, .close r.connection :: signals)

def arrive (s : Station) (c : Nat) (bytes : Bytes) : Station × List Signal :=
  match s.reader? c with
  | none   => (s, [])
  | some r =>
    let reading := r.feed bytes
    let (s, welcomed) := (s.setReader reading.reader).welcome c reading.arrivals
    match reading.failure with
    | none       => (s, welcomed)
    | some cause =>
      let (s, finished) := s.finish reading.reader
      (s, welcomed ++ .line .error (reading.reader.closingLine cause) :: finished)

def ended (s : Station) (c : Nat) : Station × List Signal :=
  match s.reader? c with
  | none   => (s, [])
  | some r => s.finish r

end Station
end RaftGroup
