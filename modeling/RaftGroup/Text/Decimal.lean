import RaftGroup.Text.Bytes

namespace RaftGroup.Decimal

def ofNat (n : Nat) : Bytes :=
  (Nat.toDigits 10 n).map (·.toUInt8)

def ofInt : Int → Bytes
  | .ofNat n   => ofNat n
  | .negSucc n => 0x2D :: ofNat (n + 1)

def digit? (b : UInt8) : Option Nat :=
  if 0x30 ≤ b ∧ b ≤ 0x39 then some (b.toNat - 0x30) else none

def natFrom? (bound acc : Nat) : Bytes → Option Nat
  | []      => some acc
  | b :: bs => do
    let n := 10 * acc + (← digit? b)
    if n < bound then natFrom? bound n bs else none

def nat? (bound : Nat) : Bytes → Option Nat
  | [] => none
  | bs => natFrom? bound 0 bs

-- A number that does not fit the word is refused.
def int64? : Bytes → Option Int64
  | 0x2D :: bs => (nat? (UInt64.size / 2 + 1) bs).map fun n => Int64.ofInt (-n)
  | 0x2B :: bs => (nat? (UInt64.size / 2) bs).map Int64.ofNat
  | bs         => (nat? (UInt64.size / 2) bs).map Int64.ofNat

end RaftGroup.Decimal
