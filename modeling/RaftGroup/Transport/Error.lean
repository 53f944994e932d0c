import RaftGroup.Frame.Codec
import RaftGroup.Resp.Parse

namespace RaftGroup

inductive HostError
  | invalidAddress
  | invalidPort
  | unreachable
  | other (text : String)
  deriving DecidableEq, Repr

def HostError.message : HostError → String
  | invalidAddress => "invalid socket address"
  | invalidPort    => "invalid port value"
  | unreachable    => "Network is unreachable (os error 101)"
  | other text     => text

inductive ConfigError
  | handlerAlreadySet (name : String)
  deriving DecidableEq, Repr

def ConfigError.message : ConfigError → String
  | handlerAlreadySet name => s!"a handler for {name} is already registered"

inductive TransportError
  | bind (address : String) (cause : HostError)
  | host (cause : HostError)
  | config (cause : ConfigError)
  deriving DecidableEq, Repr

def TransportError.message : TransportError → String
  | bind address cause => s!"cannot listen on {address}: {cause.message}"
  | host cause         => s!"i/o error: {cause.message}"
  | config cause       => cause.message

inductive ConnectionError
  | host (cause : HostError)
  | resp (cause : Resp.Error)
  | decode (cause : Frame.DecodeError)
  | unidentified (kind : Rpc.Kind)
  | duplicateIdentity (id : String)
  | queueFull (length : Nat)
  | writerStopped
  deriving DecidableEq, Repr

def ConnectionError.message : ConnectionError → String
  | host cause           => s!"i/o error: {cause.message}"
  | resp cause           => s!"malformed frame: {cause.message}"
  | decode cause         => s!"undecodable message: {cause.message}"
  | unidentified kind    => s!"{kind.name} received before the peer identified itself"
  | duplicateIdentity id => s!"peer {id} identified itself twice"
  | queueFull n          => s!"{n} frames already queued, the peer is not reading"
  | writerStopped        => "the writer has stopped"

inductive SubmitError
  | notLeader (leader : Option Server)
  | log (reason : String)
  | stopped
  deriving DecidableEq, Repr

def SubmitError.message : SubmitError → String
  | notLeader none          => "not the leader, last known leader is None"
  | notLeader (some leader) => s!"not the leader, last known leader is Some({leader.record})"
  | log reason              => s!"log error: {reason}"
  | stopped                 => "the node has been shut down"

end RaftGroup
