import RaftGroup.Engine.Commit

namespace RaftGroup

inductive AppendError (ε : Type)
  | notLeader (payload : Payload) (leader : Option Server)
  | log (cause : ε)
  deriving DecidableEq, Repr

def AppendError.message (describe : ε → String) : AppendError ε → String
  | notLeader _ (some leader) => s!"not the leader, try {leader.text}"
  | notLeader _ none          => "not the leader"
  | log cause                 => s!"log error: {describe cause}"

namespace Batch

-- A sum of sizes that stops at the largest word differs from this one only for a chunk of exactly that size.
def fill (chunk size : Nat) : List Entry → List Entry
  | []      => []
  | e :: es => if chunk < size + e.size then [] else e :: fill chunk (size + e.size) es

-- As many entries as fit the chunk. The first one is sent however large it is.
def ofEntries (chunk : Nat) : List Entry → List Entry
  | []      => []
  | e :: es => e :: fill chunk e.size es

end Batch

namespace Replication

def remember (r : Replication) (last : Nat) : Replication :=
  { r with
    heartbeatDue := false
    awaiting := true
    waited := 0
    unanswered := (if maxUnanswered ≤ r.unanswered.length then r.unanswered.drop 1 else r.unanswered) ++ [last] }

def SendsEntries (r : Replication) (last : Nat) : Prop :=
  r.next ≤ last ∧ r.probing = false

instance (r : Replication) (last : Nat) : Decidable (r.SendsEntries last) :=
  inferInstanceAs (Decidable (_ ∧ _))

def Ready (r : Replication) (last : Nat) : Prop :=
  r.awaiting = false ∧ (r.SendsEntries last ∨ r.heartbeatDue = true)

instance (r : Replication) (last : Nat) : Decidable (r.Ready last) :=
  inferInstanceAs (Decidable (_ ∧ _))

def countTick (r : Replication) : Replication :=
  if r.awaiting then { r with waited := addTicks r.waited 1 } else r

def Overdue (r : Replication) (patience : Nat) : Prop :=
  r.awaiting = true ∧ patience ≤ r.waited

instance (r : Replication) (patience : Nat) : Decidable (r.Overdue patience) :=
  inferInstanceAs (Decidable (_ ∧ _))

-- A request without a reply is given up, although the reply may still come.
def beat (r : Replication) (patience : Nat) : Except Overflow Replication :=
  if r.Overdue patience then
    return { r with next := ← advance .index r.matched 1, awaiting := false, probing := true, heartbeatDue := true }
  else return { r with heartbeatDue := true }

-- What the oldest unanswered request can have reached at least, and the others.
def acknowledge (oldest : Nat) (rest : List Nat) : Nat :=
  rest.foldl min oldest

def accept (r : Replication) (acked : Nat) : Except Overflow Replication :=
  let matched := max r.matched acked
  return { r with matched, next := ← advance .index matched 1, probing := false }

def reject (r : Replication) : Except Overflow Replication :=
  return { r with next := max (r.next - 1) (← advance .index r.matched 1), probing := true, heartbeatDue := true }

end Replication

namespace Engine

def submit (e : Engine) (payload : Payload) :
    Except Overflow (Turn (Except (AppendError Storage.Error) Nat)) :=
  match e.standing with
  | .leader _ => do
    let index ← advance .index e.storage.lastIndex 1
    match e.storage.append ⟨e.term, index, payload⟩ with
    | .error cause => return ⟨e, .error (.log cause), []⟩
    | .ok storage  =>
      let (e, notices) := { e with storage }.advanceCommit
      return ⟨e, .ok index, notices⟩
  | .follower f  => return ⟨e, .error (.notLeader payload f.leader), []⟩
  | .candidate _ => return ⟨e, .error (.notLeader payload none), []⟩

def batch (e : Engine) (r : Replication) : List Entry :=
  if r.SendsEntries e.storage.lastIndex then Batch.ofEntries e.config.chunkSize (e.storage.readFrom r.next)
  else []

-- The log states more entries than can be read, and the batch has come to the first of those.
def batchNotices (e : Engine) (r : Replication) (peer : Server) : List Notice :=
  let reached := r.next + (e.batch r).length
  if r.SendsEntries e.storage.lastIndex ∧ (e.batch r).length = (e.storage.readFrom r.next).length ∧
      reached ≤ e.storage.lastIndex then [.missingEntry reached peer]
  else []

def forgetNotices (r : Replication) (peer : Server) : List Notice :=
  if maxUnanswered ≤ r.unanswered.length then [.forgotRequest peer (r.unanswered.headD 0)] else []

def appendRequest (e : Engine) (r : Replication) (prevTerm : Nat) : AppendRequest :=
  ⟨e.id, r.next - 1, prevTerm, e.commit, e.batch r⟩

def replicateTo (e : Engine) (peer : Server) : Except Overflow (Turn (Option Outgoing)) :=
  match e.standing with
  | .leader l =>
    match l.replication? peer with
    | none   => return ⟨e, none, []⟩
    | some r =>
      if r.Ready e.storage.lastIndex then
        match e.storage.termAt? (r.next - 1) with
        | none          => return ⟨e, none, [.missingPrevious (r.next - 1) peer]⟩
        | some prevTerm => do
          let request := e.appendRequest r prevTerm
          let _ ← advance .index r.next request.entries.length
          return {
            engine := { e with standing := .leader (l.update peer (r.remember request.lastIndex)) }
            result := some ⟨.to peer, e.term, .appendRequest request⟩
            notices := e.batchNotices r peer ++ forgetNotices r peer }
      else return ⟨e, none, []⟩
  | _ => return ⟨e, none, []⟩

def readAppendReply (e : Engine) (success : Bool) (peer : Server) : Except Overflow (Engine × List Notice) :=
  match e.standing with
  | .leader l =>
    match l.replication? peer with
    | none   => return (e, [])
    | some r =>
      match r.unanswered with
      | []             => return (e, [.unexpectedReply peer])
      | oldest :: rest => do
        let r := { r with unanswered := rest, awaiting := false }
        if success then
          let r ← r.accept (Replication.acknowledge oldest rest)
          return ({ e with standing := .leader (l.update peer r) }, [])
        else
          let notice := Notice.appendRejected r.probing r.next peer
          let r ← r.reject
          return ({ e with standing := .leader (l.update peer r) }, [notice])
  | _ => return (e, [])

end Engine
end RaftGroup
