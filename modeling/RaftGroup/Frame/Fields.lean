import RaftGroup.Resp.Value
import RaftGroup.Text.Base64
import RaftGroup.Text.Quoted

namespace RaftGroup.Frame

inductive DecodeError
  | notArray (found : String)
  | keyNotString (position : Nat)
  | oddLength (length : Nat)
  | duplicateKey (key : String)
  | unknownKey (key : String)
  | missingKey (key : String)
  | wrongType (key expected found : String)
  | notBoolean (key : String) (value : Int64)
  | negative (key : String) (value : Int64)
  | notUtf8 (key : String)
  | invalidBase64 (cause : Base64.Error)
  | unknownType (kind : String)
  deriving DecidableEq, Repr

def DecodeError.message : DecodeError → String
  | notArray found               => s!"expected an array, got {found}"
  | keyNotString position        => s!"key at position {position} is not a bulk string"
  | oddLength length             => s!"key/value array has odd length {length}"
  | duplicateKey key             => s!"key {Text.quote key} appears more than once"
  | unknownKey key               => s!"unknown key {Text.quote key}"
  | missingKey key               => s!"missing key {Text.quote key}"
  | wrongType key expected found => s!"value of {Text.quote key} should be {expected}, got {found}"
  | notBoolean key value         => s!"value of {Text.quote key} should be 0 or 1, got {value.toInt}"
  | negative key value           => s!"value of {Text.quote key} must not be negative, got {value.toInt}"
  | notUtf8 key                  => s!"value of {Text.quote key} is not valid UTF-8"
  | invalidBase64 cause          => s!"binary payload is not valid base64: {cause.message}"
  | unknownType kind             => s!"unknown message type {Text.quote kind}"

structure Fields where
  values : List (String × Resp)

namespace Fields

def toResp (f : Fields) : Resp :=
  .array (f.values.flatMap fun (key, value) => [.ofString key, value])

def parseFrom (keys : List String) (position : Nat) (seen : List (String × Resp)) :
    List Resp → Except DecodeError (List (String × Resp))
  | .bulk name :: value :: rest =>
    match keys.find? fun key => .ofString key = name with
    | none     => .error (.unknownKey name.lenientText)
    | some key =>
      if key ∈ seen.map Prod.fst then .error (.duplicateKey key)
      else parseFrom keys (position + 2) (seen ++ [(key, value)]) rest
  | _ :: _ :: _ => .error (.keyNotString position)
  | _ => .ok seen

def parse (keys : List String) : Resp → Except DecodeError Fields
  | .array items =>
    if items.length % 2 = 0 then return ⟨← parseFrom keys 0 [] items⟩
    else .error (.oddLength items.length)
  | other => .error (.notArray other.kind)

def get (f : Fields) (key : String) : Except DecodeError Resp :=
  match f.values.lookup key with
  | some value => .ok value
  | none       => .error (.missingKey key)

def nat (f : Fields) (key : String) : Except DecodeError Nat := do
  match ← f.get key with
  | .integer n => if n < 0 then .error (.negative key n) else .ok n.toInt.toNat
  | other      => .error (.wrongType key "integer" other.kind)

def bool (f : Fields) (key : String) : Except DecodeError Bool := do
  match ← f.get key with
  | .integer n =>
    if n = 0 then .ok false else if n = 1 then .ok true else .error (.notBoolean key n)
  | other      => .error (.wrongType key "integer" other.kind)

def bytes (f : Fields) (key : String) : Except DecodeError Bytes := do
  match ← f.get key with
  | .bulk data => .ok data
  | other      => .error (.wrongType key "bulk string" other.kind)

def string (f : Fields) (key : String) : Except DecodeError String := do
  match (← f.bytes key).text? with
  | some text => .ok text
  | none      => .error (.notUtf8 key)

def array (f : Fields) (key : String) : Except DecodeError (List Resp) := do
  match ← f.get key with
  | .array items => .ok items
  | other        => .error (.wrongType key "array" other.kind)

end Fields
end RaftGroup.Frame
