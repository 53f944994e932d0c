import RaftGroup.Text.Bytes
import RaftGroup.Server
import RaftGroup.Word

namespace RaftGroup

inductive Payload
  | text (data : Bytes)
  | binary (data : Bytes)
  deriving DecidableEq, Repr, Inhabited

namespace Payload

def data : Payload → Bytes
  | text d   => d
  | binary d => d

def isBinary : Payload → Bool
  | text _   => false
  | binary _ => true

def ofData (binary : Bool) (data : Bytes) : Payload :=
  if binary then .binary data else .text data

end Payload

structure Entry where
  term : Nat
  index : Nat
  payload : Payload
  deriving DecidableEq, Repr, Inhabited

-- What an entry takes on the wire, roughly.
def Entry.size (e : Entry) : Nat :=
  20 + e.payload.data.length

structure AppendRequest where
  leader : String
  prevIndex : Nat
  prevTerm : Nat
  commit : Nat
  entries : List Entry
  deriving DecidableEq, Repr

def AppendRequest.lastIndex (r : AppendRequest) : Nat :=
  r.prevIndex + r.entries.length

structure VoteRequest where
  candidate : String
  lastIndex : Nat
  lastTerm : Nat
  deriving DecidableEq, Repr

inductive Rpc
  | appendRequest (request : AppendRequest)
  | appendReply (success : Bool)
  | voteRequest (request : VoteRequest)
  | voteReply (granted : Bool)
  deriving DecidableEq, Repr

-- A reply does not say which request it answers.
structure Message where
  term : Nat
  rpc : Rpc
  deriving DecidableEq, Repr

inductive Destination
  | broadcast
  | to (server : Server)
  deriving DecidableEq, Repr

structure Outgoing where
  dest : Destination
  message : Message
  deriving DecidableEq, Repr

inductive Rpc.Kind
  | appendRequest
  | appendReply
  | voteRequest
  | voteReply
  deriving DecidableEq, Repr

def Rpc.Kind.name : Rpc.Kind → String
  | appendRequest => "AppendEntriesReq"
  | appendReply   => "AppendEntriesResp"
  | voteRequest   => "RequestVoteReq"
  | voteReply     => "RequestVoteResp"

namespace Rpc

def kind : Rpc → Kind
  | appendRequest _ => .appendRequest
  | appendReply _   => .appendReply
  | voteRequest _   => .voteRequest
  | voteReply _     => .voteReply

def isReply : Rpc → Bool
  | appendRequest _ | voteRequest _ => false
  | appendReply _ | voteReply _     => true

def fields : Rpc → List (String × String)
  | appendRequest r => [
      ("leader_id", Text.quote r.leader), ("prev_log_index", indexText r.prevIndex),
      ("prev_log_term", termText r.prevTerm), ("leader_commit", indexText r.commit),
      ("entries", toString r.entries.length)]
  | appendReply success => [("success", toString success)]
  | voteRequest r => [
      ("candidate_id", Text.quote r.candidate), ("last_log_index", indexText r.lastIndex),
      ("last_log_term", termText r.lastTerm)]
  | voteReply granted => [("vote_granted", toString granted)]

def text (rpc : Rpc) : String :=
  rpc.kind.name ++ " \x7b " ++ ", ".intercalate (rpc.fields.map fun (name, value) => name ++ ": " ++ value) ++ " \x7d"

end Rpc

def Message.text (m : Message) : String :=
  "(" ++ termText m.term ++ ", " ++ m.rpc.text ++ ")"

end RaftGroup
