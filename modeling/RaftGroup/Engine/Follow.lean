import RaftGroup.Engine.Commit

namespace RaftGroup

structure Merge where
  storage : Storage
  success : Bool
  notices : List Notice := []

namespace Merge

def noting (ns : List Notice) (m : Merge) : Merge :=
  { m with notices := ns ++ m.notices }

end Merge

namespace Storage

def appendEntry (s : Storage) (e : Entry) : Merge :=
  match s.append e with
  | .ok s        => ⟨s, true, []⟩
  | .error cause => ⟨s, false, [.appendFailed e.index cause]⟩

def replaceFrom (s : Storage) (e : Entry) : Merge :=
  match s.cancelFrom e.index with
  | .ok (s, n)   => (s.appendEntry e).noting [.cancelled n e.index]
  | .error cause => ⟨s, false, [.cancelFailed e.index cause]⟩

-- Takes in an entry that directly follows the log, or that has an entry in the log at its position. An entry of the
-- same term there is the same entry.
def mergeEntry (s : Storage) (commit : Nat) (sender : Server) (e : Entry) : Except Overflow Merge := do
  let next ← advance .index s.lastIndex 1
  if e.index = next then return s.appendEntry e
  else match s.termAt? e.index with
    | none      => return ⟨s, false, [.conflictUnknown e.index]⟩
    | some ours =>
      if ours = e.term then return ⟨s, true, []⟩
      else if e.index ≤ commit then return ⟨s, false, [.keptCommitted e.index ours sender e.term]⟩
      else return s.replaceFrom e

def merge (s : Storage) (commit : Nat) (sender : Server) : List Entry → Except Overflow Merge
  | []      => return ⟨s, true, []⟩
  | e :: es => do
    let m ← s.mergeEntry commit sender e
    if m.success then return (← m.storage.merge commit sender es).noting m.notices
    else return m

end Storage

def contiguousAfter (prev : Nat) : List Entry → Except Overflow Bool
  | []      => return true
  | e :: es => do
    let next ← advance .index prev 1
    if e.index = next then contiguousAfter next es else return false

namespace Engine

-- Takes the sender for the leader of the current term, unless the local member is that.
def follow (e : Engine) (leader : Server) : Bool × Engine × List Notice :=
  match e.standing with
  | .candidate _ =>
    let (ticks, random) := e.random.electionTicks e.config
    (true, { e with random, standing := .follower ⟨some leader, ticks, ticks⟩ }, [.becameFollower e.term leader])
  | .follower f =>
    (true, { e with standing := .follower { f with leader := some leader, ticks := f.timeout } },
      if f.leader = some leader then [] else [.becameFollower e.term leader])
  | .leader _ => (false, e, [.appendWhileLeader e.term leader])

def noteCommit (e : Engine) (commit : Nat) : Engine × List Notice :=
  if e.commit < commit then e.setCommit commit else (e, [])

def mergeRequest (e : Engine) (r : AppendRequest) (sender : Server) : Except Overflow (Turn Bool) := do
  if e.storage.termAt? r.prevIndex = some r.prevTerm then
    if ← contiguousAfter r.prevIndex r.entries then
      let last ← advance .index r.prevIndex r.entries.length
      let m ← e.storage.merge e.commit sender r.entries
      let e := { e with storage := m.storage }
      if m.success then
        let (e, notices) := e.noteCommit (min r.commit last)
        return ⟨e, true, m.notices ++ notices⟩
      else return ⟨e, false, m.notices⟩
    else return ⟨e, false, [.notContiguous sender r.prevIndex]⟩
  else match e.storage.termAt? r.prevIndex with
    | some ours => return ⟨e, false, [.conflictingPrevious sender r.prevIndex r.prevTerm ours]⟩
    | none      => return ⟨e, false, [.behind sender r.prevIndex e.storage.lastIndex]⟩

def takeRequest (e : Engine) (term : Nat) (r : AppendRequest) (sender : Server) : Except Overflow (Turn Bool) :=
  if term < e.term then return ⟨e, false, [.staleRequest term e.term (.appendRequest r)]⟩
  else match e.follow sender with
    | (false, e, notices) => return ⟨e, false, notices⟩
    | (true, e, notices)  => do
      let turn ← e.mergeRequest r sender
      return { turn with notices := notices ++ turn.notices }

def answerAppend (e : Engine) (term : Nat) (r : AppendRequest) (sender : Server) :
    Except Overflow (Turn (Option Outgoing)) := do
  let turn ← e.takeRequest term r sender
  return { turn with result := some ⟨.to sender, e.term, .appendReply turn.result⟩ }

end Engine
end RaftGroup
