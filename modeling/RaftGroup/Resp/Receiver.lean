import RaftGroup.Resp.Parse

namespace RaftGroup.Resp

-- Bytes are kept until a whole value has arrived. An incomplete value is not looked at again before as many bytes are
-- there as it is known to need. What is larger than the limit is refused, and a refusal leaves the receiver as it is.
structure Receiver where
  limit : Nat
  buffer : Bytes := []
  need : Nat := 0
  deriving DecidableEq, Repr

inductive Outcome
  | needMore
  | value (v : Resp)
  deriving DecidableEq, Repr

namespace Receiver

def missing (r : Receiver) : Nat :=
  r.need - r.buffer.length

def wait (r : Receiver) : Except Error Outcome :=
  if r.limit < r.buffer.length then .error (.frameTooLarge r.limit) else .ok .needMore

def parseAnew (r : Receiver) : Except Error Outcome × Receiver :=
  match Resp.parse r.limit maxDepth r.buffer with
  | .error e => (.error e, r)
  | .ok (.done v consumed) =>
    if r.limit < consumed then (.error (.frameTooLarge r.limit), r)
    else (.ok (.value v), { r with buffer := r.buffer.drop consumed, need := 0 })
  | .ok (.incomplete need) =>
    if r.limit < need then (.error (.frameTooLarge r.limit), r)
    else ({ r with need := need }.wait, { r with need := need })

def Waits (r : Receiver) : Prop :=
  r.buffer.length < r.need

instance (r : Receiver) : Decidable r.Waits :=
  decidable_of_iff (r.buffer.shorterThan r.need = true) Bytes.shorterThan_iff

def parse (r : Receiver) : Except Error Outcome × Receiver :=
  if r.Waits then (r.wait, r) else r.parseAnew

def push (r : Receiver) (bytes : Bytes) : Receiver :=
  { r with buffer := r.buffer ++ bytes }

def feed (r : Receiver) (bytes : Bytes) : Except Error Outcome × Receiver :=
  (r.push bytes).parse

structure Batch (ε α : Type) where
  items : List α
  failure : Option (Error ⊕ ε)
  receiver : Receiver

-- Each value takes at least one byte, so that many turns as there are bytes, and one more, are enough.
def collectFor (read : Resp → Except ε α) : Nat → Receiver → Batch ε α
  | 0, r        => ⟨[], none, r⟩
  | turns + 1, r =>
    match r.parse with
    | (.error e, r)          => ⟨[], some (.inl e), r⟩
    | (.ok .needMore, r)     => ⟨[], none, r⟩
    | (.ok (.value v), r)    =>
      match read v with
      | .error e => ⟨[], some (.inr e), r⟩
      | .ok a    =>
        let b := collectFor read turns r
        ⟨a :: b.items, b.failure, b.receiver⟩

def collect (read : Resp → Except ε α) (r : Receiver) : Batch ε α :=
  collectFor read (r.buffer.length + 1) r

def restOfLine (r : Receiver) (bytes : Bytes) : Nat :=
  match r.buffer with
  | []     => 0
  | s :: b =>
    if (Symbol.ofByte? s).any (¬ ·.Numeric) ∧ lineEnd? 0 b = none then (bytes.takeWhile (· ≠ 0x0A)).length else 0

-- How many of the bytes can be fed, one by one, without an answer other than a need for more.
def quiet (r : Receiver) (bytes : Bytes) : Nat :=
  min (max (r.missing - 1) (r.restOfLine bytes)) (r.limit - 1 - r.buffer.length)

-- Feeds byte by byte until something other than a need for more is answered. Gives the number of bytes fed, of which
-- `fed` went before. Quiet bytes are fed at once, together with the one after them.
def feedEach (r : Receiver) (fed : Nat) : Bytes → Nat × Except Error Outcome × Receiver
  | []      => (fed, .ok .needMore, r)
  | b :: bs =>
    let quiet := r.quiet (b :: bs)
    let piece := b :: bs.take quiet
    match r.feed piece with
    | (.ok .needMore, next) => next.feedEach (fed + piece.length) (bs.drop quiet)
    | out                   => (fed + piece.length, out)
termination_by bytes => bytes.length
decreasing_by simp only [List.length_drop, List.length_cons]; omega

end Receiver
end RaftGroup.Resp
