namespace RaftGroup

def wordSize : Nat := UInt64.size

inductive Overflow
  | term
  | index
  deriving DecidableEq, Repr

def Overflow.message (_ : Overflow) : String := "overflow"

-- Terms and log positions are counted in 64-bit words: a sum that leaves the word is an overflow, which no operation
-- survives. Positions start at 1, and position 0 stands before the first entry of a log.
def advance (counted : Overflow) (n k : Nat) : Except Overflow Nat :=
  if n + k < wordSize then .ok (n + k) else .error counted

theorem advance_eq_ok_iff {o : Overflow} {n k m : Nat} : advance o n k = .ok m ↔ n + k = m ∧ m < wordSize := by
  unfold advance
  split
  case isTrue h => simp; omega
  case isFalse h => simp; omega

theorem advance_eq_error_iff {o o' : Overflow} {n k : Nat} :
    advance o n k = .error o' ↔ o = o' ∧ wordSize ≤ n + k := by
  unfold advance
  split
  case isTrue h => simp; omega
  case isFalse h => simp; omega

theorem bind_eq_ok_iff {x : Except ε α} {f : α → Except ε β} {b : β} :
    (x >>= f) = .ok b ↔ ∃ a, x = .ok a ∧ f a = .ok b := by
  cases x <;> simp [bind, Except.bind]

theorem map_eq_ok_iff {x : Except ε α} {f : α → β} {b : β} :
    f <$> x = .ok b ↔ ∃ a, x = .ok a ∧ f a = b := by
  cases x <;> simp [Functor.map, Except.map]

def retreat? (n k : Nat) : Option Nat :=
  if k ≤ n then some (n - k) else none

-- Tick counts are 32-bit words and stay at their greatest value.
def addTicks (n k : Nat) : Nat :=
  min (n + k) (UInt32.size - 1)

def termText (term : Nat) : String := s!"TermId({term})"

def indexText (index : Nat) : String := s!"LogIdx({index})"

end RaftGroup
