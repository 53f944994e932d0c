import RaftGroup.Transport.Error

namespace RaftGroup

inductive Handler
  | message (kind : Rpc.Kind)
  | connected
  | error
  deriving DecidableEq, Repr

def Handler.name : Handler → String
  | message kind => kind.name
  | connected    => "connected"
  | error        => "error"

-- A registration for any message registers all kinds, one after the other.
inductive Registration
  | one (handler : Handler)
  | anyMessage
  deriving DecidableEq, Repr

def Registration.handlers : Registration → List Handler
  | one h      => [h]
  | anyMessage => [.message .appendRequest, .message .appendReply, .message .voteRequest, .message .voteReply]

structure Handlers where
  registered : List Handler := []
  deriving DecidableEq, Repr

namespace Handlers

def add (hs : Handlers) (h : Handler) : Except ConfigError Handlers :=
  if h ∈ hs.registered then .error (.handlerAlreadySet h.name) else .ok ⟨hs.registered ++ [h]⟩

def addAll (hs : Handlers) (new : List Handler) : Except ConfigError Handlers :=
  new.foldlM add hs

def build (hs : Handlers) : List Registration → Except (Nat × ConfigError) Handlers
  | []      => .ok hs
  | r :: rs =>
    match hs.addAll r.handlers with
    | .error cause => .error (0, cause)
    | .ok hs       => (build hs rs).mapError fun (n, cause) => (n + 1, cause)

end Handlers
end RaftGroup
