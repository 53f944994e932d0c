import RaftGroup.Message

namespace RaftGroup

-- Entries at positions 1, 2, …, and how many of them have been handed out as committed. Entries leave the log only at
-- its end.
structure Log where
  entries : List Entry := []
  taken : Nat := 0
  deriving DecidableEq, Repr, Inhabited

namespace Log

inductive Error
  | notContiguous (expected actual : Nat)
  | outOfRange (index : Nat)
  | alreadyTaken (index : Nat)
  deriving DecidableEq, Repr

def Error.message : Error → String
  | notContiguous expected actual => s!"expected entry at {indexText expected} but got {indexText actual}"
  | outOfRange index              => s!"{indexText index} is out of range"
  | alreadyTaken index            => s!"{indexText index} has already been taken as committed"

def lastIndex (l : Log) : Nat :=
  l.entries.length

def lastTerm (l : Log) : Nat :=
  (l.entries.getLast?.map Entry.term).getD 0

def get? (l : Log) (i : Nat) : Option Entry :=
  if i = 0 then none else l.entries[i - 1]?

def termAt? (l : Log) (i : Nat) : Option Nat :=
  (l.get? i).map Entry.term

def append (l : Log) (e : Entry) : Except Error Log :=
  if e.index = l.lastIndex + 1 then .ok { l with entries := l.entries ++ [e] }
  else .error (.notContiguous (l.lastIndex + 1) e.index)

def ofEntries (es : List Entry) : Except Error Log :=
  es.foldlM append {}

def cancelFrom (l : Log) (i : Nat) : Except Error (Log × Nat) :=
  if i ≤ l.taken then .error (.alreadyTaken i)
  else if l.lastIndex < i then .error (.outOfRange i)
  else .ok ({ l with entries := l.entries.take (i - 1) }, l.lastIndex - (i - 1))

def takeNext (l : Log) : Option (Entry × Log) :=
  (l.get? (l.taken + 1)).map (·, { l with taken := l.taken + 1 })

end Log

-- Faults of the medium that holds a log, by position. What is refused changes nothing. Entries from `hiddenFrom` on
-- cannot be read back, although they count.
structure Faults where
  refusesAppend : Nat → Bool := fun _ => false
  refusesCancel : Nat → Bool := fun _ => false
  hiddenFrom : Option Nat := none

structure Storage where
  log : Log := {}
  faults : Faults := {}

namespace Storage

inductive Error
  | log (cause : Log.Error)
  | appendRefused
  | cancelRefused
  deriving DecidableEq, Repr

def Error.message : Error → String
  | log cause     => cause.message
  | appendRefused => "append refused"
  | cancelRefused => "cancel refused"

def Hidden (s : Storage) (i : Nat) : Prop :=
  ∃ h ∈ s.faults.hiddenFrom, h ≤ i

instance (s : Storage) (i : Nat) : Decidable (s.Hidden i) :=
  match h : s.faults.hiddenFrom with
  | none   => isFalse (by simp [Hidden, h])
  | some n => decidable_of_iff (n ≤ i) (by simp [Hidden, h])

def lastIndex (s : Storage) : Nat := s.log.lastIndex

def lastTerm (s : Storage) : Nat := s.log.lastTerm

def get? (s : Storage) (i : Nat) : Option Entry :=
  if s.Hidden i then none else s.log.get? i

-- The position before the first entry exists in every log and has term 0.
def termAt? (s : Storage) (i : Nat) : Option Nat :=
  if i = 0 then some 0 else (s.get? i).map Entry.term

def append (s : Storage) (e : Entry) : Except Error Storage :=
  if s.faults.refusesAppend e.index then .error .appendRefused
  else match s.log.append e with
    | .ok log      => .ok { s with log }
    | .error cause => .error (.log cause)

def cancelFrom (s : Storage) (i : Nat) : Except Error (Storage × Nat) :=
  if s.faults.refusesCancel i then .error .cancelRefused
  else match s.log.cancelFrom i with
    | .ok (log, n) => .ok ({ s with log }, n)
    | .error cause => .error (.log cause)

def readFrom (s : Storage) (i : Nat) : List Entry :=
  if i = 0 then []
  else
    let rest := s.log.entries.drop (i - 1)
    match s.faults.hiddenFrom with
    | none   => rest
    | some h => rest.take (h - i)

def takeNext (s : Storage) : Option (Entry × Storage) :=
  s.log.takeNext.map fun (e, log) => (e, { s with log })

end Storage
end RaftGroup
