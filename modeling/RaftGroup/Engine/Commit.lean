import RaftGroup.Engine.Basic
import RaftGroup.Engine.Notice

namespace RaftGroup

structure Turn (α : Type) where
  engine : Engine
  result : α
  notices : List Notice := []

namespace Commit

def insertDown (n : Nat) : List Nat → List Nat
  | []      => [n]
  | m :: ms => if m ≤ n then n :: m :: ms else m :: insertDown n ms

def sortDown (ns : List Nat) : List Nat :=
  ns.foldr insertDown []

-- The greatest position that at least as many of the given ones have reached.
def agreed? (quorum : Nat) (matched : List Nat) : Option Nat :=
  (sortDown matched)[quorum - 1]?

end Commit

namespace Engine

def setCommit (e : Engine) (i : Nat) : Engine × List Notice :=
  ({ e with commit := i }, if i = e.commit then [] else [.committed e.commit i])

def matchedIndices (e : Engine) (l : Leadership) : List Nat :=
  l.followers.map (·.2.matched) ++ [e.storage.lastIndex]

def advanceCommit (e : Engine) : Engine × List Notice :=
  match e.standing with
  | .leader l =>
    match Commit.agreed? e.quorum (e.matchedIndices l) with
    | some i => if e.storage.termAt? i = some e.term then e.setCommit (max e.commit i) else (e, [])
    | none   => (e, [])
  | _ => (e, [])

end Engine
end RaftGroup
