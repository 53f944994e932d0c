import RaftGroup.Log

namespace RaftGroup

inductive Level
  | debug
  | info
  | warn
  | error
  deriving DecidableEq, Repr

def Level.name : Level → String
  | debug => "DEBUG"
  | info  => "INFO"
  | warn  => "WARN"
  | error => "ERROR"

structure LogEnd where
  index : Nat
  term : Nat
  deriving DecidableEq, Repr

def LogEnd.text (l : LogEnd) : String := s!"{indexText l.index} at {termText l.term}"

inductive Notice
  | electionTimeout (term : Nat)
  | becameCandidate (term : Nat)
  | becameLeader (term : Nat)
  | becameFollower (term : Nat) (leader : Server)
  | adoptedTerm (term old : Nat) (sender : Server) (message : Message)
  | wrongGroup (sender : Server)
  | staleRequest (term current : Nat) (request : Rpc)
  | staleReply (current : Nat) (message : Message)
  | candidateMismatch (sender : Server) (candidate : String)
  | grantedVote (term : Nat) (ours : LogEnd) (candidate : Server) (theirs : LogEnd)
  | alreadyVoted (term : Nat) (candidate vote : Server)
  | rejectedVote (term : Nat) (ours : LogEnd) (candidate : Server) (theirs : LogEnd)
  | receivedVote (voter : Server) (term : Nat)
  | receivedVoteRejection (voter : Server) (term : Nat)
  | sendingHeartbeat
  | gaveUp (peer : Server) (ticks matched : Nat)
  | missingPrevious (index : Nat) (peer : Server)
  | missingEntry (index : Nat) (peer : Server)
  | forgotRequest (peer : Server) (last : Nat)
  | unexpectedReply (peer : Server)
  | appendRejected (probing : Bool) (next : Nat) (peer : Server)
  | appendWhileLeader (term : Nat) (sender : Server)
  | conflictingPrevious (sender : Server) (index term ours : Nat)
  | behind (sender : Server) (index last : Nat)
  | notContiguous (sender : Server) (index : Nat)
  | appendFailed (index : Nat) (cause : Storage.Error)
  | cancelFailed (index : Nat) (cause : Storage.Error)
  | conflictUnknown (index : Nat)
  | keptCommitted (index ours : Nat) (sender : Server) (term : Nat)
  | cancelled (count index : Nat)
  | committed (old new : Nat)
  deriving DecidableEq, Repr

namespace Notice

def level : Notice → Level
  | sendingHeartbeat | unexpectedReply .. | appendRejected true .. | committed .. => .debug
  | candidateMismatch .. | gaveUp .. | forgotRequest .. | conflictingPrevious .. => .warn
  | wrongGroup .. | missingPrevious .. | missingEntry .. | appendWhileLeader .. | notContiguous ..
  | appendFailed .. | cancelFailed .. | conflictUnknown .. | keptCommitted .. => .error
  | _ => .info

def text : Notice → String
  | electionTimeout t          => s!"election timeout at {termText t}"
  | becameCandidate t          => s!"became candidate at {termText t}"
  | becameLeader t             => s!"became leader at {termText t}"
  | becameFollower t l         => s!"became follower at {termText t} of {l.text}"
  | adoptedTerm t old s m      =>
    s!"became follower at {termText t} (from {termText old}) due to message from {s.text}: {m.text}"
  | wrongGroup s               => s!"received raft message from {s.text} for wrong group"
  | staleRequest t current r   => s!"ignored message with {termText t} < current {termText current}: {r.text}"
  | staleReply current m       =>
    s!"ignored message with {termText m.term} < current {termText current}: {m.text}"
  | candidateMismatch s c      => s!"vote request from {s.text} names candidate {c}"
  | grantedVote t ours s theirs =>
    s!"granted vote at {termText t} with {ours.text} for node {s.text} with {theirs.text}"
  | alreadyVoted t s vote      =>
    s!"rejected vote at {termText t} for node {s.text} as already voted for {vote.text}"
  | rejectedVote t ours s theirs =>
    s!"rejected vote at {termText t} with {ours.text} for node {s.text} with {theirs.text}"
  | receivedVote s t           => s!"received vote granted from {s.text} at {termText t}"
  | receivedVoteRejection s t  => s!"received vote rejected from {s.text} at {termText t}"
  | sendingHeartbeat           => "sending heartbeat"
  | gaveUp p ticks i           =>
    s!"no append response from {p.text} after {ticks} ticks, probing from {indexText i}"
  | missingPrevious i p        => s!"missing log {indexText i} to send to {p.text}!"
  | missingEntry i p           => s!"error fetching raft log {indexText i} to send to {p.text}!"
  | forgotRequest p i          => s!"forgetting unanswered append request to {p.text} up to {indexText i}"
  | unexpectedReply p          => s!"discarded unexpected append response from {p.text}"
  | appendRejected _ i p       => s!"received append rejection at {indexText i} from {p.text}"
  | appendWhileLeader t s      => s!"received append request as leader at {termText t} from {s.text}"
  | conflictingPrevious s i t ours =>
    s!"rejected append from {s.text} with {indexText i} at {termText t}, we have {termText ours}"
  | behind s i last            =>
    s!"rejected append from {s.text} with {indexText i}, we are behind at {indexText last}"
  | notContiguous s i          =>
    s!"rejected append from {s.text} with non-contiguous entries after {indexText i}"
  | appendFailed i cause       => s!"failed to append {indexText i}: {cause.message}"
  | cancelFailed i cause       => s!"failed to cancel from {indexText i}: {cause.message}"
  | conflictUnknown i          => s!"failed to fetch log index {indexText i} to find conflicts for append!"
  | keptCommitted i ours s t   =>
    s!"refusing to overwrite committed {indexText i} at {termText ours} with entry from {s.text} at {termText t}"
  | cancelled n i              => s!"cancelled {n} transactions from {indexText i}"
  | committed old new          => s!"committed transactions from {indexText old} to {indexText new}"

def line (n : Notice) : String :=
  n.level.name ++ " " ++ n.text

end Notice
end RaftGroup
