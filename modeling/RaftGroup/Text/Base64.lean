import RaftGroup.Text.Bytes

namespace RaftGroup.Base64

inductive Error
  | invalidSymbol (symbol : UInt8) (offset : Nat)
  | invalidLength (length : Nat)
  | invalidLastSymbol (symbol : UInt8) (offset : Nat)
  | invalidPadding
  deriving DecidableEq, Repr

def Error.message : Error → String
  | invalidSymbol b offset     => s!"Invalid symbol {b.toNat}, offset {offset}."
  | invalidLength n            => s!"Invalid input length: {n}"
  | invalidLastSymbol b offset => s!"Invalid last symbol {b.toNat}, offset {offset}."
  | invalidPadding             => "Invalid padding"

def pad : UInt8 := 0x3D

def symbol (n : Nat) : UInt8 :=
  if n < 26 then .ofNat (0x41 + n)
  else if n < 52 then .ofNat (0x61 + (n - 26))
  else if n < 62 then .ofNat (0x30 + (n - 52))
  else if n = 62 then 0x2B
  else 0x2F

def value? (b : UInt8) : Option Nat :=
  if 0x41 ≤ b ∧ b ≤ 0x5A then some (b.toNat - 0x41)
  else if 0x61 ≤ b ∧ b ≤ 0x7A then some (b.toNat - 0x61 + 26)
  else if 0x30 ≤ b ∧ b ≤ 0x39 then some (b.toNat - 0x30 + 52)
  else if b = 0x2B then some 62
  else if b = 0x2F then some 63
  else none

def encode : Bytes → Bytes
  | []      => []
  | [a]     => [symbol (a.toNat / 4), symbol (a.toNat % 4 * 16), pad, pad]
  | [a, b]  => [symbol (a.toNat / 4), symbol (a.toNat % 4 * 16 + b.toNat / 16), symbol (b.toNat % 16 * 4), pad]
  | a :: b :: c :: rest =>
    symbol (a.toNat / 4) :: symbol (a.toNat % 4 * 16 + b.toNat / 16) ::
      symbol (b.toNat % 16 * 4 + c.toNat / 64) :: symbol (c.toNat % 64) :: encode rest

def valueAt (offset : Nat) (b : UInt8) : Except Error Nat :=
  match value? b with
  | some v => .ok v
  | none   => .error (.invalidSymbol b offset)

def join (v w x y : Nat) : Bytes :=
  [.ofNat (v * 4 + w / 16), .ofNat (w % 16 * 16 + x / 4), .ofNat (x % 4 * 64 + y)]

def symbols (offset : Nat) (vs : List Nat) (pads : Nat) : Bytes → Except Error (List Nat × Nat)
  | []      => .ok (vs, pads)
  | b :: bs =>
    if b = pad then
      if vs.length < 2 then .error (.invalidSymbol pad (offset + vs.length))
      else symbols offset vs (pads + 1) bs
    else if 0 < pads then .error (.invalidSymbol pad (offset + vs.length))
    else do
      let v ← valueAt (offset + vs.length) b
      symbols offset (vs ++ [v]) pads bs

def decodeLast (offset : Nat) (group : Bytes) : Except Error Bytes := do
  let (vs, pads) ← symbols offset [] 0 group
  if vs.length < 2 then .error (.invalidLength (offset + vs.length))
  else if (vs.length + pads) % 4 ≠ 0 then .error .invalidPadding
  else match vs with
    | [v, w] =>
      if w % 16 = 0 then .ok ((join v w 0 0).take 1)
      else .error (.invalidLastSymbol (symbol w) (offset + 1))
    | [v, w, x] =>
      if x % 4 = 0 then .ok ((join v w x 0).take 2)
      else .error (.invalidLastSymbol (symbol x) (offset + 2))
    | [v, w, x, y] => .ok (join v w x y)
    | _ => .ok []

def decodeFrom (offset : Nat) : Bytes → Except Error Bytes
  | [] => .ok []
  | a :: b :: c :: d :: e :: rest => do
    let v ← valueAt offset a
    let w ← valueAt (offset + 1) b
    let x ← valueAt (offset + 2) c
    let y ← valueAt (offset + 3) d
    let bytes ← decodeFrom (offset + 4) (e :: rest)
    .ok (join v w x y ++ bytes)
  | group => decodeLast offset group

-- One symbol left over cannot be completed, so a last byte that is no symbol at all is reported first.
def strayLast? (b : Bytes) : Option UInt8 :=
  if b.length % 4 = 1 then b.getLast?.filter fun l => l ≠ pad ∧ (value? l).isNone else none

def decode (b : Bytes) : Except Error Bytes :=
  match strayLast? b with
  | some l => .error (.invalidSymbol l (b.length - 1))
  | none   => decodeFrom 0 b

end RaftGroup.Base64
