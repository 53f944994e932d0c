import RaftGroup.Frame.Fields
import RaftGroup.Message

namespace RaftGroup

-- A connecting member names itself first. Everything after that is a message.
inductive Frame
  | identity (id : String)
  | message (m : Message)
  deriving DecidableEq, Repr

namespace Frame

def identityName : String := "IdentityReq"

def envelopeKeys : List String := ["type", "msg"]

def identityKeys : List String := ["id"]

def entryKeys : List String := ["term", "index", "binary", "data"]

def bodyKeys : Rpc.Kind → List String
  | .appendRequest => ["term", "leaderId", "prevLogIndex", "prevLogTerm", "leaderCommit", "entries"]
  | .appendReply   => ["term", "success"]
  | .voteRequest   => ["term", "candidateId", "lastLogIndex", "lastLogTerm"]
  | .voteReply     => ["term", "voteGranted"]

def kind? (name : String) : Option Rpc.Kind :=
  [.appendRequest, .appendReply, .voteRequest, .voteReply].find? fun (k : Rpc.Kind) => k.name = name

theorem kind?_name (k : Rpc.Kind) : kind? k.name = some k := by
  cases k <;> rfl

def encodePayload : Payload → Resp
  | .text data   => .bulk data
  | .binary data => .bulk (Base64.encode data)

def entryFields (e : Entry) : Fields :=
  ⟨[("term", .ofNat e.term), ("index", .ofNat e.index), ("binary", .ofBool e.payload.isBinary),
    ("data", encodePayload e.payload)]⟩

def bodyFields (m : Message) : Fields :=
  match m.rpc with
  | .appendRequest r =>
    ⟨[("term", .ofNat m.term), ("leaderId", .ofString r.leader), ("prevLogIndex", .ofNat r.prevIndex),
      ("prevLogTerm", .ofNat r.prevTerm), ("leaderCommit", .ofNat r.commit),
      ("entries", .array (r.entries.map fun e => (entryFields e).toResp))]⟩
  | .appendReply success => ⟨[("term", .ofNat m.term), ("success", .ofBool success)]⟩
  | .voteRequest r =>
    ⟨[("term", .ofNat m.term), ("candidateId", .ofString r.candidate), ("lastLogIndex", .ofNat r.lastIndex),
      ("lastLogTerm", .ofNat r.lastTerm)]⟩
  | .voteReply granted => ⟨[("term", .ofNat m.term), ("voteGranted", .ofBool granted)]⟩

def envelope (name : String) (body : Fields) : Resp :=
  Fields.toResp ⟨[("type", .ofString name), ("msg", body.toResp)]⟩

def encode : Frame → Resp
  | .identity id => envelope identityName ⟨[("id", .ofString id)]⟩
  | .message m   => envelope m.rpc.kind.name (bodyFields m)

def toBytes (f : Frame) : Bytes :=
  f.encode.encode

def decodePayload (binary : Bool) (data : Bytes) : Except DecodeError Payload :=
  if binary then
    match Base64.decode data with
    | .ok bytes    => .ok (.binary bytes)
    | .error cause => .error (.invalidBase64 cause)
  else .ok (.text data)

def decodeEntry (value : Resp) : Except DecodeError Entry := do
  let fields ← Fields.parse entryKeys value
  let term ← fields.nat "term"
  let index ← fields.nat "index"
  let binary ← fields.bool "binary"
  let payload ← decodePayload binary (← fields.bytes "data")
  return ⟨term, index, payload⟩

def decodeRpc (fields : Fields) : Rpc.Kind → Except DecodeError Rpc
  | .appendRequest => do
    let leader ← fields.string "leaderId"
    let prevIndex ← fields.nat "prevLogIndex"
    let prevTerm ← fields.nat "prevLogTerm"
    let commit ← fields.nat "leaderCommit"
    let entries ← (← fields.array "entries").mapM decodeEntry
    return .appendRequest ⟨leader, prevIndex, prevTerm, commit, entries⟩
  | .appendReply => return .appendReply (← fields.bool "success")
  | .voteRequest => do
    let candidate ← fields.string "candidateId"
    let lastIndex ← fields.nat "lastLogIndex"
    let lastTerm ← fields.nat "lastLogTerm"
    return .voteRequest ⟨candidate, lastIndex, lastTerm⟩
  | .voteReply => return .voteReply (← fields.bool "voteGranted")

def decodeMessage (name : String) (body : Resp) : Except DecodeError Message := do
  match kind? name with
  | none      => .error (.unknownType name)
  | some kind =>
    let fields ← Fields.parse (bodyKeys kind) body
    let term ← fields.nat "term"
    return ⟨term, ← decodeRpc fields kind⟩

def decode (value : Resp) : Except DecodeError Frame := do
  let fields ← Fields.parse envelopeKeys value
  let name ← fields.string "type"
  let body ← fields.get "msg"
  if name = identityName then
    let fields ← Fields.parse identityKeys body
    return .identity (← fields.string "id")
  else return .message (← decodeMessage name body)

end Frame
end RaftGroup
