import RaftGroup.Engine.Election
import RaftGroup.Engine.Follow
import RaftGroup.Engine.Lead

namespace RaftGroup.Engine

-- A leader waits for a reply for one heartbeat interval, but for two ticks at least.
def patience (e : Engine) : Nat :=
  max e.config.heartbeatInterval.toNat 2

def beatAll (patience : Nat) : List (Server × Replication) → Except Overflow (List (Server × Replication))
  | []           => return []
  | (s, r) :: fs => return (s, ← r.beat patience) :: (← beatAll patience fs)

def gaveUp (patience : Nat) (followers : List (Server × Replication)) : List Notice :=
  followers.filterMap fun (s, r) => if r.Overdue patience then some (.gaveUp s r.waited r.matched) else none

def leaderTick (e : Engine) (l : Leadership) : Except Overflow (Engine × List Notice) := do
  let followers := l.followers.map fun (s, r) => (s, r.countTick)
  if l.ticks ≤ 1 then
    let beaten ← beatAll e.patience followers
    return ({ e with standing := .leader ⟨beaten, e.config.heartbeatInterval.toNat⟩ },
      .sendingHeartbeat :: gaveUp e.patience followers)
  else return ({ e with standing := .leader ⟨followers, l.ticks - 1⟩ }, [])

def electionTick (e : Engine) (ticks : Nat) (wait : Nat → Standing) : Except Overflow (Turn (Option Outgoing)) := do
  if ticks ≤ 1 then
    let turn ← e.timeout
    return { turn with notices := .electionTimeout e.term :: turn.notices }
  else return ⟨{ e with standing := wait (ticks - 1) }, none, []⟩

def tick (e : Engine) : Except Overflow (Turn (Option Outgoing)) :=
  match e.standing with
  | .follower f  => e.electionTick f.ticks fun ticks => .follower { f with ticks }
  | .candidate c => e.electionTick c.ticks fun ticks => .candidate { c with ticks }
  | .leader l    => do
    let (e, notices) ← e.leaderTick l
    return ⟨e, none, notices⟩

-- A newer term ends every older standing, and with it the vote.
def adoptTerm (e : Engine) (sender : Server) (m : Message) : Engine × List Notice :=
  if e.term < m.term then
    let (ticks, random) := e.random.electionTicks e.config
    ({ e with term := m.term, vote := none, random, standing := .follower ⟨none, ticks, ticks⟩ },
      [.adoptedTerm m.term e.term sender m])
  else (e, [])

def handle (e : Engine) (sender : Server) (m : Message) : Except Overflow (Turn (Option Outgoing)) :=
  if m.rpc.isReply ∧ m.term < e.term then return ⟨e, none, [.staleReply e.term m]⟩
  else match m.rpc with
    | .voteRequest r     => return e.answerVote m.term r sender
    | .voteReply granted =>
      let (e, notices) := e.countVote granted sender
      return ⟨e, none, notices⟩
    | .appendRequest r   => e.answerAppend m.term r sender
    | .appendReply success => do
      let (e, notices) ← e.readAppendReply success sender
      return ⟨e, none, notices⟩

def receive (e : Engine) (m : Message) (sender : Server) : Except Overflow (Turn (Option Outgoing)) :=
  let sender := sender.asPeer
  if sender ∈ e.peers then do
    let (e, adopted) := e.adoptTerm sender m
    let turn ← e.handle sender m
    let (e, elected) ← turn.engine.becomeLeader
    let (e, committed) := e.advanceCommit
    return ⟨e, turn.result, adopted ++ turn.notices ++ elected ++ committed⟩
  else return ⟨e, none, [.wrongGroup sender]⟩

end RaftGroup.Engine
