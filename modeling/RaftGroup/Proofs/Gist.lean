import Mathlib.Logic.Relation
import RaftGroup.Proofs.Merge
import RaftGroup.Proofs.World

namespace RaftGroup

open Entries

inductive Rank
  | follower (leader : Option Server)
  | candidate (votes : List Server)
  | leader (matched : List (Server × Nat))

-- What of a member's state counts for agreement. Clocks are left out, and what decides when which request is sent.
structure Gist where
  id : String
  peers : List Server
  term : Nat
  vote : Option Server
  rank : Rank
  log : List Entry
  taken : Nat
  commit : Nat

def matchedOf (followers : List (Server × Replication)) : List (Server × Nat) :=
  followers.map fun f => (f.1, f.2.matched)

def Standing.rank : Standing → Rank
  | .follower f  => .follower f.leader
  | .candidate c => .candidate c.votes
  | .leader l    => .leader (matchedOf l.followers)

def Engine.gist (e : Engine) : Gist where
  id     := e.id
  peers  := e.peers
  term   := e.term
  vote   := e.vote
  rank   := e.standing.rank
  log    := e.storage.log.entries
  taken  := e.storage.log.taken
  commit := e.commit

def Rank.role : Rank → Role
  | follower _  => .follower
  | candidate _ => .candidate
  | leader _    => .leader

namespace Gist

variable {g g' g'' : Gist} {sound : Prop} {post : List Posted}

def role (g : Gist) : Role := g.rank.role

def Told (g : Gist) (post : List Posted) (sender : String) (rpc : Rpc) : Prop :=
  ∃ p ∈ post, p.letter = ⟨sender, g.id, ⟨g.term, rpc⟩⟩

-- A success of the term has been posted that answers a request which goes at least as far as the position.
def Covered (g : Gist) (post : List Posted) (sender : String) (n : Nat) : Prop :=
  ∃ p ∈ post, p.letter = ⟨sender, g.id, ⟨g.term, .appendReply true⟩⟩ ∧
    ∃ q r, p.Answers post q ∧ q.letter.message.rpc = .appendRequest r ∧ n ≤ r.lastIndex

theorem Told.mono (hp : post <+: post') : g.Told post i rpc → g.Told post' i rpc
  | ⟨p, hm, hl⟩ => ⟨p, hp.subset hm, hl⟩

theorem Covered.mono (hp : post <+: post') : g.Covered post i n → g.Covered post' i n
  | ⟨p, hm, hl, q, r, ha, hr⟩ => ⟨p, hp.subset hm, hl, q, r, ha.mono hp, hr⟩

def UpToDate (g : Gist) (r : VoteRequest) : Prop :=
  lastTerm g.log < r.lastTerm ∨ (r.lastTerm = lastTerm g.log ∧ g.log.length ≤ r.lastIndex)

-- What a member says is true of its state, and of what it has been told.
structure Says (g : Gist) (post : List Posted) (p : Posted) : Prop where
  sender : p.letter.sender = g.id
  term   : p.letter.message.term = g.term
  stands : ∀ r, p.letter.message.rpc = .voteRequest r →
    g.role = .candidate ∧ r.lastIndex = g.log.length ∧ r.lastTerm = lastTerm g.log
  votes  : p.letter.message.rpc = .voteReply true →
    g.vote = some (.peer p.letter.receiver) ∧
      ∃ r, g.Told post p.letter.receiver (.voteRequest r) ∧ g.UpToDate r
  leads  : ∀ r, p.letter.message.rpc = .appendRequest r →
    g.role = .leader ∧ Ends g.log r.prevIndex r.prevTerm ∧ r.entries <+: g.log.drop r.prevIndex ∧ r.commit = g.commit
  holds  : p.letter.message.rpc = .appendReply true →
    ∃ q r, p.Answers post q ∧ q.letter = ⟨p.letter.receiver, g.id, ⟨g.term, .appendRequest r⟩⟩ ∧
      Ends g.log r.prevIndex r.prevTerm ∧ Within g.log r.prevIndex r.entries

-- If `sound` holds, then no follower is credited with more than what one of its successes is about.
inductive Move (sound : Prop) (post : List Posted) (g : Gist) : Gist → Prop
  | campaign (role : g.role ≠ .leader) :
    Move sound post g { g with term := g.term + 1, vote := some (.me g.id), rank := .candidate [.me g.id] }
  | adopt (lt : g.term < t) :
    Move sound post g { g with term := t, vote := none, rank := .follower none }
  | grant (free : g.vote = none ∨ g.vote = some (.peer i)) :
    Move sound post g { g with vote := some (.peer i) }
  | count (rank : g.rank = .candidate votes) (peer : .peer i ∈ g.peers) (new : .peer i ∉ votes)
      (told : g.Told post i (.voteReply true)) :
    Move sound post g { g with rank := .candidate (votes ++ [.peer i]) }
  | elect (rank : g.rank = .candidate votes) (most : quorumSize g.peers.length ≤ votes.length) :
    Move sound post g { g with rank := .leader (g.peers.map (·, 0)) }
  | append (role : g.role = .leader) :
    Move sound post g { g with log := g.log ++ [⟨g.term, g.log.length + 1, payload⟩] }
  | credit (rank : g.rank = .leader matched) (mem : (s, m) ∈ matched)
      (covered : sound → n ≤ m ∨ g.Covered post s.id n) :
    Move sound post g { g with rank := .leader (matched.map fun f => if f.1 = s then (s, max m n) else f) }
  | agree (rank : g.rank = .leader matched) (own : term? g.log n = some g.term)
      (most : quorumSize g.peers.length ≤ (matched.map Prod.snd ++ [g.log.length]).countP (n < ·)) :
    Move sound post g { g with commit := max g.commit (n + 1) }
  | follow (role : g.role ≠ .leader) (told : g.Told post i (.appendRequest r)) :
    Move sound post g { g with rank := .follower (some (.peer i)) }
  | absorb (role : g.role = .follower) (told : g.Told post i (.appendRequest r))
      (ends : Ends g.log r.prevIndex r.prevTerm) (consecutive : Consecutive r.prevIndex r.entries)
      (merged : Merged g.log g.commit r.prevIndex r.entries success es) :
    Move sound post g
      { g with log := es, commit := if success then max g.commit (min r.commit r.lastIndex) else g.commit }

inductive Writes (post : List Posted) (g g' : Gist) : Prop
  | kept (log : g'.log = g.log)
  | appended (role : g'.role = .leader) (eq : g'.term = g.term) (term : e.term = g.term)
      (index : e.index = g.log.length + 1) (log : g'.log = g.log ++ [e])
  | absorbed (role : g'.role = .follower) (eq : g'.term = g.term) (told : g.Told post i (.appendRequest r))
      (ends : Ends g.log r.prevIndex r.prevTerm)
      (merged : Merged g.log g.commit r.prevIndex r.entries success g'.log)

inductive Commits (post : List Posted) (g g' : Gist) : Prop
  | kept (commit : g'.commit = g.commit)
  | agreed (eq : g'.term = g.term) (log : g'.log = g.log) (rank : g.rank = .leader matched)
      (own : term? g.log n = some g.term)
      (most : quorumSize g.peers.length ≤ (matched.map Prod.snd ++ [g.log.length]).countP (n < ·))
      (commit : g'.commit = n + 1)
  | heard (eq : g'.term = g.term) (told : g.Told post i (.appendRequest r)) (ends : Ends g'.log r.prevIndex r.prevTerm)
      (within : Within g'.log r.prevIndex r.entries) (commit : g'.commit = min r.commit r.lastIndex)

-- What stays of a state in all later ones.
structure Evolves (g g' : Gist) : Prop where
  id      : g'.id = g.id
  peers   : g'.peers = g.peers
  term    : g.term ≤ g'.term
  vote    : g'.term = g.term → g.vote ≠ none → g'.vote = g.vote
  follows : g'.term = g.term → g.role = .follower → g'.role = .follower
  leads   : g'.term = g.term → g.role = .leader → g'.role = .leader
  stands  : g'.term = g.term → g'.role = .candidate → g'.log = g.log
  grows   : g'.term = g.term → g'.role ≠ .follower → g.log <+: g'.log
  commit  : g.commit ≤ g'.commit
  keeps   : g.commit ≤ g.log.length → g'.commit ≤ g'.log.length ∧ g'.log.take g.commit = g.log.take g.commit

namespace Evolves

theorem refl (g : Gist) : g.Evolves g where
  id      := rfl
  peers   := rfl
  term    := Nat.le_refl _
  vote    := fun _ _ => rfl
  follows := fun _ h => h
  leads   := fun _ h => h
  stands  := fun _ _ => rfl
  grows   := fun _ _ => List.prefix_refl _
  commit  := Nat.le_refl _
  keeps   := fun h => ⟨h, rfl⟩

theorem of_log_eq (hi : g'.id = g.id) (hp : g'.peers = g.peers) (hl : g'.log = g.log) (hc : g'.commit = g.commit)
    (term    : g.term ≤ g'.term)
    (vote    : g'.term = g.term → g.vote ≠ none → g'.vote = g.vote)
    (follows : g'.term = g.term → g.role = .follower → g'.role = .follower)
    (leads   : g'.term = g.term → g.role = .leader → g'.role = .leader) : g.Evolves g' where
  id      := hi
  peers   := hp
  term    := term
  vote    := vote
  follows := follows
  leads   := leads
  stands  := fun _ _ => hl
  grows   := fun _ _ => hl ▸ List.prefix_refl _
  commit  := Nat.le_of_eq hc.symm
  keeps   := fun h => by rw [hl, hc]; exact ⟨h, rfl⟩

theorem of_term_lt (hi : g'.id = g.id) (hp : g'.peers = g.peers) (hl : g'.log = g.log) (hc : g'.commit = g.commit)
    (ht : g.term < g'.term) : g.Evolves g' :=
  .of_log_eq hi hp hl hc (Nat.le_of_lt ht) (fun h => absurd h (Nat.ne_of_gt ht)) (fun h => absurd h (Nat.ne_of_gt ht))
    (fun h => absurd h (Nat.ne_of_gt ht))

theorem role_of_stands (h : g.Evolves g') (ht : g'.term = g.term) (hr : g'.role = .candidate) :
    g.role = .candidate := by
  cases hg : g.role
  case candidate => rfl
  case follower  => exact absurd (hr.symm.trans (h.follows ht hg)) (by decide)
  case leader    => exact absurd (hr.symm.trans (h.leads ht hg)) (by decide)

theorem trans (h : g.Evolves g') (h' : g'.Evolves g'') : g.Evolves g'' := by
  -- Within one term there is only that term.
  have hm (ht : g''.term = g.term) : g'.term = g.term ∧ g''.term = g'.term := by
    have := h.term
    have := h'.term
    omega
  constructor
  case id      => exact h'.id.trans h.id
  case peers   => exact h'.peers.trans h.peers
  case term    => exact Nat.le_trans h.term h'.term
  case commit  => exact Nat.le_trans h.commit h'.commit
  case follows => exact fun ht hg => h'.follows (hm ht).right (h.follows (hm ht).left hg)
  case leads   => exact fun ht hg => h'.leads (hm ht).right (h.leads (hm ht).left hg)
  case vote =>
    intro ht hv
    have hv' := h.vote (hm ht).left hv
    exact (h'.vote (hm ht).right (hv' ▸ hv)).trans hv'
  case stands =>
    intro ht hr
    exact (h'.stands (hm ht).right hr).trans (h.stands (hm ht).left (h'.role_of_stands (hm ht).right hr))
  case grows =>
    intro ht hr
    exact (h.grows (hm ht).left fun hf => hr (h'.follows (hm ht).right hf)).trans (h'.grows (hm ht).right hr)
  case keeps =>
    intro hc
    have ⟨hc₁, h₁⟩ := h.keeps hc
    have ⟨hc₂, h₂⟩ := h'.keeps hc₁
    refine ⟨hc₂, ?_⟩
    rw [← h₁, ← Nat.min_eq_left h.commit, ← List.take_take, h₂, List.take_take]

end Evolves

namespace Move

theorem evolves (h : Move sound post g g') : g.Evolves g' := by
  cases h
  case campaign => exact .of_term_lt rfl rfl rfl rfl (Nat.lt_succ_self _)
  case adopt hl => exact .of_term_lt rfl rfl rfl rfl hl
  case grant hf =>
    exact .of_log_eq rfl rfl rfl rfl (Nat.le_refl _) (fun _ hv => (hf.resolve_left hv).symm) (fun _ h => h)
      (fun _ h => h)
  case count hr _ _ _ =>
    exact .of_log_eq rfl rfl rfl rfl (Nat.le_refl _) (fun _ _ => rfl) (fun _ h => by simp [role, hr, Rank.role] at h)
      (fun _ h => by simp [role, hr, Rank.role] at h)
  case elect hr _ =>
    exact .of_log_eq rfl rfl rfl rfl (Nat.le_refl _) (fun _ _ => rfl) (fun _ h => by simp [role, hr, Rank.role] at h)
      (fun _ _ => rfl)
  case credit hr _ _ =>
    exact .of_log_eq rfl rfl rfl rfl (Nat.le_refl _) (fun _ _ => rfl) (fun _ h => by simp [role, hr, Rank.role] at h)
      (fun _ _ => rfl)
  case follow hr _ =>
    exact .of_log_eq rfl rfl rfl rfl (Nat.le_refl _) (fun _ _ => rfl) (fun _ _ => rfl) (fun _ h => absurd h hr)
  case append hr =>
    exact { Evolves.refl g with
      stands := fun _ h => absurd (hr.symm.trans h) (by decide)
      grows  := fun _ _ => List.prefix_append _ _
      keeps  := fun hc => ⟨by simp; omega, List.take_append_of_le_length hc⟩ }
  case agree ho _ =>
    have := lt_length_of_term? ho
    exact { Evolves.refl g with
      commit := Nat.le_max_left ..
      keeps  := fun hc => ⟨by simp; omega, rfl⟩ }
  case absorb success es hr _ he _ hm =>
    exact { Evolves.refl g with
      stands := fun _ h => absurd (hr.symm.trans h) (by decide)
      grows  := fun _ h => absurd hr h
      commit := by
        dsimp only
        split
        · exact Nat.le_max_left ..
        · exact Nat.le_refl _
      keeps  := fun hc => by
        refine ⟨?_, hm.take_commit hc⟩
        have := hm.commit_le_length hc
        cases success
        case false => exact this
        case true  =>
          have := hm.last_le_length he.le_length
          simp only [AppendRequest.lastIndex, ↓reduceIte]
          omega }

theorem taken (h : Move sound post g g') : g'.taken = g.taken := by
  cases h <;> rfl

theorem writes (h : Move sound post g g') : g.Writes post g' := by
  cases h
  case append hr            => exact .appended hr rfl rfl rfl rfl
  case absorb hr ht he _ hm => exact .absorbed hr rfl ht he hm
  all_goals exact .kept rfl

theorem commits (h : Move sound post g g') : g.Commits post g' := by
  cases h
  case agree n hr ho hm =>
    cases Nat.le_total (n + 1) g.commit
    case inl h => exact .kept (Nat.max_eq_left h)
    case inr h => exact .agreed rfl rfl hr ho hm (Nat.max_eq_right h)
  case absorb success es hr ht he _ hm =>
    cases success
    case false => exact .kept rfl
    case true  =>
      cases Nat.le_total (min _ _) g.commit
      case inl h => exact .kept (Nat.max_eq_left h)
      case inr h =>
        have hl := he.le_length
        exact .heard rfl ht (he.of_take (hm.take_prev hl).symm) (hm.within hl) (Nat.max_eq_right h)
  all_goals exact .kept rfl

theorem knows (h : Move sound post g g') (hr : g'.rank = .leader matched) (hs : sound) (hm : (s, n) ∈ matched) :
    g'.term = g.term ∧ (n = 0 ∨ (∃ known, g.rank = .leader known ∧ (s, n) ∈ known) ∨
      (g'.log = g.log ∧ g.role = .leader ∧ g.Covered post s.id n)) := by
  cases h
  case campaign => simp at hr
  case adopt    => simp at hr
  case count    => simp at hr
  case follow   => simp at hr
  case grant    => exact ⟨rfl, .inr (.inl ⟨_, hr, hm⟩)⟩
  case append   => exact ⟨rfl, .inr (.inl ⟨_, hr, hm⟩)⟩
  case agree    => exact ⟨rfl, .inr (.inl ⟨_, hr, hm⟩)⟩
  case absorb   => exact ⟨rfl, .inr (.inl ⟨_, hr, hm⟩)⟩
  case elect    =>
    cases hr
    have ⟨_, _, hm⟩ := List.mem_map.mp hm
    cases hm
    exact ⟨rfl, .inl rfl⟩
  case credit known t k l hr' hk hc =>
    cases hr
    refine ⟨rfl, .inr ?_⟩
    have ⟨f, hf, hm⟩ := List.mem_map.mp hm
    split at hm
    case isFalse => exact .inl ⟨known, hr', hm ▸ hf⟩
    case isTrue  =>
      cases hm
      have hr : g.role = .leader := congrArg Rank.role hr'
      cases hc hs
      case inl hl => exact .inl ⟨known, hr', by rwa [Nat.max_eq_left hl]⟩
      case inr hc =>
        cases Nat.le_total k l
        case inl hl => exact .inr ⟨rfl, hr, by rwa [Nat.max_eq_right hl]⟩
        case inr hl => exact .inl ⟨known, hr', by rwa [Nat.max_eq_left hl]⟩

theorem followers (h : Move sound post g g') (hr : g'.rank = .leader matched) :
    matched.map Prod.fst = g.peers ∨ ∃ known, g.rank = .leader known ∧ matched.map Prod.fst = known.map Prod.fst := by
  cases h
  case campaign => simp at hr
  case adopt    => simp at hr
  case count    => simp at hr
  case follow   => simp at hr
  case grant    => exact .inr ⟨_, hr, rfl⟩
  case append   => exact .inr ⟨_, hr, rfl⟩
  case agree    => exact .inr ⟨_, hr, rfl⟩
  case absorb   => exact .inr ⟨_, hr, rfl⟩
  case elect    => cases hr; exact .inl (by simp [Function.comp_def])
  case credit known s _ _ hk _ _ =>
    cases hr
    refine .inr ⟨known, hk, ?_⟩
    rw [List.map_map]
    refine List.map_congr_left fun f _ => ?_
    simp only [Function.comp_apply]
    split
    case isTrue h => exact h.symm
    case isFalse  => rfl

theorem consecutive (h : Move sound post g g') (hl : Consecutive 0 g.log) : Consecutive 0 g'.log := by
  cases h
  case append              => exact hl.concat rfl
  case absorb _ _ he hc hm => exact hm.consecutive hl hc he.le_length
  all_goals exact hl

theorem mono (hp : post <+: post') (h : Move sound post g g') : Move sound post' g g' := by
  cases h
  case campaign hr         => exact .campaign hr
  case adopt hl            => exact .adopt hl
  case grant hf            => exact .grant hf
  case count hr hi hn ht   => exact .count hr hi hn (ht.mono hp)
  case elect hr hm         => exact .elect hr hm
  case append hr           => exact .append hr
  case credit hr hm hc     => exact .credit hr hm fun h => (hc h).imp_right (Covered.mono hp)
  case agree hr ho hm      => exact .agree hr ho hm
  case follow hr ht        => exact .follow hr (ht.mono hp)
  case absorb hr ht he hc hm => exact .absorb hr (ht.mono hp) he hc hm

end Move

def Moves (sound : Prop) (post : List Posted) : Gist → Gist → Prop :=
  Relation.ReflTransGen (Move sound post)

theorem Moves.taken (h : Moves sound post g g') : g'.taken = g.taken := by
  induction h
  case refl           => rfl
  case tail _ hm hi => exact hm.taken.trans hi

theorem Moves.mono (hp : post <+: post') (h : Moves sound post g g') : Moves sound post' g g' := by
  induction h
  case refl         => exact .refl
  case tail _ hm hi => exact hi.tail (hm.mono hp)

theorem Moves.consecutive (h : Moves sound post g g') (hl : Consecutive 0 g.log) : Consecutive 0 g'.log := by
  induction h
  case refl         => exact hl
  case tail _ hm hi => exact hm.consecutive hi

theorem Moves.evolves (h : Moves sound post g g') : g.Evolves g' := by
  induction h
  case refl         => exact .refl g
  case tail _ hm hi => exact hi.trans hm.evolves

end Gist
end RaftGroup
