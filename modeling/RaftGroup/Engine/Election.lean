import RaftGroup.Engine.Commit

namespace RaftGroup.Engine

-- A candidate with the votes of a majority leads. It takes each follower's log to end where its own does.
def becomeLeader (e : Engine) : Except Overflow (Engine × List Notice) :=
  match e.standing with
  | .candidate c =>
    if e.quorum ≤ c.votes.length then do
      let next ← advance .index e.storage.lastIndex 1
      let leadership : Leadership :=
        { followers := e.peers.map (·, { next }), ticks := e.config.heartbeatInterval.toNat }
      let (e, notices) := { e with standing := .leader leadership }.advanceCommit
      return (e, .becameLeader e.term :: notices)
    else return (e, [])
  | _ => return (e, [])

def voteRequest? (e : Engine) : Option Outgoing :=
  match e.standing with
  | .candidate _ => some ⟨.broadcast, e.term, .voteRequest ⟨e.id, e.storage.lastIndex, e.storage.lastTerm⟩⟩
  | _            => none

def campaign (e : Engine) : Except Overflow Engine := do
  let term ← advance .term e.term 1
  let (ticks, random) := e.random.electionTicks e.config
  return { e with term, random, vote := some e.me, standing := .candidate ⟨[e.me], ticks⟩ }

def timeout (e : Engine) : Except Overflow (Turn (Option Outgoing)) :=
  match e.standing with
  | .leader _ => return ⟨e, none, []⟩
  | _ => do
    let e ← e.campaign
    let begun := Notice.becameCandidate e.term
    let (e, notices) ← e.becomeLeader
    return ⟨e, e.voteRequest?, begun :: notices⟩

def logEnd (e : Engine) : LogEnd := ⟨e.storage.lastIndex, e.storage.lastTerm⟩

def UpToDate (e : Engine) (r : VoteRequest) : Prop :=
  e.storage.lastTerm < r.lastTerm ∨ (r.lastTerm = e.storage.lastTerm ∧ e.storage.lastIndex ≤ r.lastIndex)

instance (e : Engine) (r : VoteRequest) : Decidable (e.UpToDate r) :=
  inferInstanceAs (Decidable (_ ∨ _))

structure Grants (e : Engine) (term : Nat) (r : VoteRequest) (sender : Server) : Prop where
  term     : term = e.term
  upToDate : e.UpToDate r
  free     : e.vote = none ∨ e.vote = some sender

instance (e : Engine) (term : Nat) (r : VoteRequest) (sender : Server) : Decidable (e.Grants term r sender) :=
  decidable_of_iff (term = e.term ∧ e.UpToDate r ∧ (e.vote = none ∨ e.vote = some sender))
    ⟨fun ⟨h₁, h₂, h₃⟩ => ⟨h₁, h₂, h₃⟩, fun ⟨h₁, h₂, h₃⟩ => ⟨h₁, h₂, h₃⟩⟩

-- Whoever gives its vote waits a whole timeout before it stands itself.
def giveVote (e : Engine) (candidate : Server) : Engine :=
  { e with
    vote := some candidate
    standing := match e.standing with
      | .follower f => .follower { f with ticks := f.timeout }
      | other       => other }

def voteNotice (e : Engine) (term : Nat) (r : VoteRequest) (sender : Server) : Notice :=
  if e.Grants term r sender then .grantedVote e.term e.logEnd sender ⟨r.lastIndex, r.lastTerm⟩
  else if term < e.term then .staleRequest term e.term (.voteRequest r)
  else match e.vote with
    | some vote => .alreadyVoted e.term sender vote
    | none      => .rejectedVote e.term e.logEnd sender ⟨r.lastIndex, r.lastTerm⟩

def answerVote (e : Engine) (term : Nat) (r : VoteRequest) (sender : Server) : Turn (Option Outgoing) :=
  let granted : Bool := e.Grants term r sender
  { engine := if granted then e.giveVote sender else e
    result := some ⟨.to sender, e.term, .voteReply granted⟩
    notices := (if r.candidate = sender.id then [] else [.candidateMismatch sender r.candidate]) ++
      [e.voteNotice term r sender] }

def Candidacy.count (c : Candidacy) (voter : Server) : Candidacy :=
  if voter ∈ c.votes then c else { c with votes := c.votes ++ [voter] }

def countVote (e : Engine) (granted : Bool) (voter : Server) : Engine × List Notice :=
  match e.standing with
  | .candidate c =>
    if granted then ({ e with standing := .candidate (Candidacy.count c voter) }, [.receivedVote voter e.term])
    else (e, [.receivedVoteRejection voter e.term])
  | _ => (e, [])

end RaftGroup.Engine
