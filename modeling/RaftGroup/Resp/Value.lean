import RaftGroup.Text.Decimal

namespace RaftGroup

inductive Resp
  | simple (line : Bytes)
  | error (line : Bytes)
  | integer (value : Int64)
  | bulk (data : Bytes)
  | array (items : List Resp)
  | nil
  deriving Repr, Inhabited

namespace Resp

mutual

def decEq : (a b : Resp) → Decidable (a = b)
  | .simple l, b => match b with
    | .simple l' => decidable_of_iff (l = l') (by simp)
    | .error _ | .integer _ | .bulk _ | .array _ | .nil => isFalse nofun
  | .error l, b => match b with
    | .error l' => decidable_of_iff (l = l') (by simp)
    | .simple _ | .integer _ | .bulk _ | .array _ | .nil => isFalse nofun
  | .integer n, b => match b with
    | .integer n' => decidable_of_iff (n = n') (by simp)
    | .simple _ | .error _ | .bulk _ | .array _ | .nil => isFalse nofun
  | .bulk d, b => match b with
    | .bulk d' => decidable_of_iff (d = d') (by simp)
    | .simple _ | .error _ | .integer _ | .array _ | .nil => isFalse nofun
  | .array vs, b => match b with
    | .array vs' =>
      have := decEqAll vs vs'
      decidable_of_iff (vs = vs') (by simp)
    | .simple _ | .error _ | .integer _ | .bulk _ | .nil => isFalse nofun
  | .nil, b => match b with
    | .nil => isTrue rfl
    | .simple _ | .error _ | .integer _ | .bulk _ | .array _ => isFalse nofun

def decEqAll : (as bs : List Resp) → Decidable (as = bs)
  | [], []       => isTrue rfl
  | [], _ :: _   => isFalse nofun
  | _ :: _, []   => isFalse nofun
  | a :: as, b :: bs =>
    have := decEq a b
    have := decEqAll as bs
    decidable_of_iff (a = b ∧ as = bs) (by simp)

end

instance : DecidableEq Resp := decEq

def kind : Resp → String
  | .simple _  => "simple string"
  | .error _   => "error"
  | .integer _ => "integer"
  | .bulk _    => "bulk string"
  | .array _   => "array"
  | .nil       => "nil"

def bulk? : Resp → Option Bytes
  | .bulk data => some data
  | _          => none

inductive Symbol
  | simple
  | error
  | integer
  | bulk
  | array
  deriving DecidableEq, Repr

namespace Symbol

def byte : Symbol → UInt8
  | simple  => 0x2B
  | error   => 0x2D
  | integer => 0x3A
  | bulk    => 0x24
  | array   => 0x2A

def ofByte? (b : UInt8) : Option Symbol :=
  if b = 0x2B then some simple
  else if b = 0x2D then some error
  else if b = 0x3A then some integer
  else if b = 0x24 then some bulk
  else if b = 0x2A then some array
  else none

theorem ofByte?_byte (s : Symbol) : ofByte? s.byte = some s := by
  cases s <;> rfl

def Numeric (s : Symbol) : Prop :=
  s = integer ∨ s = bulk ∨ s = array

instance (s : Symbol) : Decidable s.Numeric :=
  inferInstanceAs (Decidable (_ ∨ _))

end Symbol

def crlf : Bytes := [0x0D, 0x0A]

def line (s : Symbol) (text : Bytes) : Bytes :=
  s.byte :: (text ++ crlf)

mutual

def encode : Resp → Bytes
  | .simple text  => line .simple text
  | .error text   => line .error text
  | .integer n    => line .integer (Decimal.ofInt n.toInt)
  | .bulk data    => line .bulk (Decimal.ofNat data.length) ++ (data ++ crlf)
  | .array items  => line .array (Decimal.ofNat items.length) ++ encodeAll items
  | .nil          => line .bulk (Decimal.ofInt (-1))

def encodeAll : List Resp → Bytes
  | []      => []
  | v :: vs => encode v ++ encodeAll vs

end

-- A natural number keeps its lowest 64 bits, so that one from 2^63 on shows as a negative number.
def ofNat (n : Nat) : Resp :=
  .integer (.ofNat n)

def ofBool (b : Bool) : Resp :=
  .integer (if b then 1 else 0)

def ofString (s : String) : Resp :=
  .bulk (.ofString s)

end Resp
end RaftGroup
