import RaftGroup.Resp.Value
import RaftGroup.Text.Quoted

namespace RaftGroup.Resp

inductive Error
  | unknownSymbol (byte : UInt8)
  | invalidInteger (text : String)
  | invalidLength (length : Int64)
  | missingCrlf (length : Nat)
  | frameTooLarge (limit : Nat)
  | tooDeep (levels : Nat)
  deriving DecidableEq, Repr

-- Arrays inside more arrays than this are refused.
def maxDepth : Nat := 32

-- The digits of a 64-bit number and its sign.
def maxIntegerLength : Nat := 20

inductive Step (α : Type)
  | done (value : α) (consumed : Nat)
  | incomplete (need : Nat)
  deriving Repr

def Step.map (f : α → β) : Step α → Step β
  | done v n       => done (f v) n
  | incomplete n   => incomplete n

def Step.after (used : Nat) : Step α → Step α
  | done v n       => done v (used + n)
  | incomplete n   => incomplete (used + n)

def lineEnd? (n : Nat) : Bytes → Option Nat
  | []      => none
  | b :: bs =>
    match b, bs with
    | 0x0D, 0x0A :: _ => some n
    | _, _            => lineEnd? (n + 1) bs

def line? (bytes : Bytes) : Option Bytes :=
  (lineEnd? 0 bytes).map bytes.take

def integer? (text : Bytes) : Except Error Int64 :=
  match Decimal.int64? text with
  | some n => .ok n
  | none   => .error (.invalidInteger text.lenientText)

def length? (limit : Nat) (n : Int64) : Except Error (Option Nat) :=
  if n = -1 then .ok none
  else if n < 0 then .error (.invalidLength n)
  else if limit < n.toInt.toNat then .error (.frameTooLarge limit)
  else .ok (some n.toInt.toNat)

def parseBulk (length : Nat) (input : Bytes) : Except Error (Step Resp) :=
  match input.drop length with
  | a :: b :: _ =>
    if [a, b] = crlf then .ok (.done (.bulk (input.take length)) (length + 2))
    else .error (.missingCrlf length)
  | _ => .ok (.incomplete (length + 2))

def parseItems (item : Bytes → Except Error (Step Resp)) : Nat → Bytes → Except Error (Step (List Resp))
  | 0, _         => .ok (.done [] 0)
  | n + 1, input => do
    match ← item input with
    | .incomplete need => .ok (.incomplete need)
    | .done v used     =>
      let rest ← parseItems item n (input.drop used)
      .ok ((rest.map (v :: ·)).after used)

-- One value from the front of the input, inside which arrays may nest `levels` deep.
def parse (limit : Nat) : (levels : Nat) → Bytes → Except Error (Step Resp)
  | _, [] => .ok (.incomplete 1)
  | levels, b :: rest =>
    match Symbol.ofByte? b with
    | none        => .error (.unknownSymbol b)
    | some symbol =>
      match line? rest with
      | none =>
        if symbol.Numeric ∧ maxIntegerLength + 2 ≤ rest.length then
          .error (.invalidInteger (Bytes.lenientText (rest.take maxIntegerLength)))
        else .ok (.incomplete (rest.length + 2))
      | some text =>
        let header := text.length + 3
        match symbol with
        | .simple  => .ok (.done (.simple text) header)
        | .error   => .ok (.done (.error text) header)
        | .integer => do
          let n ← integer? text
          .ok (.done (.integer n) header)
        | .bulk => do
          match ← length? limit (← integer? text) with
          | none        => .ok (.done .nil header)
          | some length => return (← parseBulk length (rest.drop (text.length + 2))).after header
        | .array => do
          match ← length? limit (← integer? text) with
          | none       => .ok (.done .nil header)
          | some count =>
            match levels with
            | 0          => .error (.tooDeep maxDepth)
            | levels + 1 =>
              let items ← parseItems (parse limit levels) count (rest.drop (text.length + 2))
              .ok ((items.map .array).after header)

def Error.message : Error → String
  | unknownSymbol b  => s!"unknown type symbol {Text.hexByte b}"
  | invalidInteger t => s!"invalid integer {Text.quote t}"
  | invalidLength n  => s!"invalid length {n.toInt}"
  | missingCrlf n    => s!"bulk string of {n} bytes is not followed by CRLF"
  | frameTooLarge n  => s!"frame exceeds the limit of {n} bytes"
  | tooDeep n        => s!"values nested deeper than {n} levels"

end RaftGroup.Resp
