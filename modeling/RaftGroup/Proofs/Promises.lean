import RaftGroup.Proofs.Audible
import RaftGroup.Proofs.Capacity

namespace RaftGroup

open Gist

def Outgoing.GrantsVote (o : Outgoing) : Prop :=
  o.message.rpc = .voteReply true

namespace Gist

variable {g g' : Gist} {o o' : Outgoing}

-- A vote that has been given in the state's term, to the peer that the state names.
def Votes (g : Gist) (o : Outgoing) : Prop :=
  o.message.term = g.term ∧ ∃ i, o.dest = .to (.peer i) ∧ .peer i ∈ g.peers ∧ g.vote = some (.peer i)

theorem Votes.stays (h : g.Votes o) (he : g.Evolves g') (ht : o.message.term = g'.term) : g'.vote = g.vote := by
  obtain ⟨hn, i, -, -, hv⟩ := h
  exact he.vote (ht.symm.trans hn) (by rw [hv]; nofun)

theorem Votes.agree (h : g.Votes o) (h' : g'.Votes o') (he : g.Evolves g') (ht : o.message.term = o'.message.term) :
    ∃ p ∈ g.peers, o.dest = .to p ∧ o'.dest = .to p := by
  obtain ⟨hn', j, hd', -, hv'⟩ := h'
  have hk := h.stays he (ht.trans hn')
  obtain ⟨-, i, hd, hi, hv⟩ := h
  cases hv.symm.trans (hk.symm.trans hv')
  exact ⟨.peer j, hi, hd, hd'⟩

theorem Loyal.vote (hg : g.Loyal) (hr : g.role ≠ .follower) (he : g.Evolves g') (ht : g'.term = g.term) :
    g'.vote = some (.me g.id) := by
  rw [he.vote ht (by rw [hg hr]; nofun), hg hr]

theorem Loyal.not_votes (hg : g.Loyal) (hr : g.role ≠ .follower) (he : g.Evolves g') (h : g'.Votes o) :
    o.message.term ≠ g.term := by
  intro ht
  obtain ⟨hn, i, -, -, hv⟩ := h
  cases hv.symm.trans (hg.vote hr he (hn.symm.trans ht))

theorem Votes.term_ne (h : g.Votes o) (hg : g'.Loyal) (hr : g'.role ≠ .follower) (he : g.Evolves g') :
    o.message.term ≠ g'.term := by
  intro ht
  have hk := h.stays he ht
  obtain ⟨-, i, -, -, hv⟩ := h
  cases hv.symm.trans (hk.symm.trans (hg hr))

end Gist

namespace Engine

variable {e e' : Engine} {os : List Outgoing} {c : Call}

theorem act_evolves (h : e.act c = .ok (e', os)) (hl : e.gist.Loyal) : e.gist.Evolves e'.gist ∧ e'.gist.Loyal := by
  by_cases ht : ∃ n, c = .command (.take n)
  case pos =>
    obtain ⟨n, rfl⟩ := ht
    cases h
    refine ⟨takeCommitted_evolves e n, ?_⟩
    rw [(takeCommitted_spec n e).left]
    exact hl
  case neg =>
    obtain ⟨_, ha⟩ := act_acts h fun n hn => ht ⟨n, hn⟩
    obtain ⟨_, hb, hm, _⟩ := ha.turn
    exact ⟨ha.evolves, Moves.loyal (hb.trans hm) hl⟩

theorem act_votes (h : e.act c = .ok (e', os)) :
    ∃ g, e.gist.Evolves g ∧ g.Evolves e'.gist ∧ ∀ o ∈ os, o.GrantsVote → g.Votes o := by
  by_cases ht : ∃ n, c = .command (.take n)
  case pos =>
    obtain ⟨n, rfl⟩ := ht
    cases h
    exact ⟨_, .refl _, takeCommitted_evolves e n, nofun⟩
  case neg =>
    obtain ⟨cause, ha⟩ := act_acts h fun n hn => ht ⟨n, hn⟩
    obtain ⟨g, hb, hm, hs⟩ := ha.turn
    refine ⟨g, hb.evolves, hm.evolves, fun o ho hv => ?_⟩
    obtain ⟨l, hl⟩ := act_letters h ho
    have hg := hs o ho l hl
    have hr : l.message = o.message := (Group.sender_of_mem_letters hl).right
    obtain ⟨hv, r, ⟨p, hp, _⟩, _⟩ := hg.votes (by rw [hr]; exact hv)
    cases c
    -- Nobody gives a vote without being told of a request.
    case command     => cases hp
    case message m s =>
      have hd := (act_replies h ho).left
      rw [Group.letters, hd, List.mem_singleton] at hl
      subst hl
      have hi : s.asPeer ∈ e.peers := by
        by_contra hn
        obtain ⟨_, hr, h⟩ := map_eq_ok_iff.mp h
        cases (receive_of_not_peer hn).symm.trans hr
        cases h
        cases ho
      have hi : .peer s.id ∈ g.peers := hb.evolves.peers ▸ hi
      exact ⟨hg.term, s.id, hd, hi, hv⟩

end Engine

namespace Career

variable {c : Career} {incidents : List Incident}

def sends (c : Career) (i : Incident) : List Outgoing :=
  match (c.engine.withFaults i.faults).act i.call with
  | .ok (_, os) => os
  | .error _    => []

def sent (c : Career) : List Incident → List Outgoing
  | []             => []
  | i :: incidents => c.sends i ++ (c.step i).sent incidents

theorem sent_append (c : Career) (before later : List Incident) :
    c.sent (before ++ later) = c.sent before ++ (c.after before).sent later := by
  induction before generalizing c
  case nil               => rfl
  case cons i before ih =>
    rw [List.cons_append, sent, sent, ih, List.append_assoc]
    rfl

theorem step_cases (c : Career) (i : Incident) :
    (c.engine.withFaults i.faults).act i.call = .ok ((c.step i).engine, c.sends i) ∨
    (c.sends i = [] ∧ c.step i = c) := by
  rw [sends, step, Engine.answer_eq_act]
  cases (c.engine.withFaults i.faults).act i.call
  case ok out  => exact .inl rfl
  case error e => exact .inr ⟨rfl, rfl⟩

theorem step_evolves (hl : c.engine.gist.Loyal) (i : Incident) :
    c.engine.gist.Evolves (c.step i).engine.gist ∧ (c.step i).engine.gist.Loyal := by
  obtain ha | ⟨-, hs⟩ := c.step_cases i
  case inl => exact Engine.act_evolves (e := c.engine.withFaults i.faults) ha hl
  case inr => rw [hs]; exact ⟨.refl _, hl⟩

theorem step_votes (c : Career) (i : Incident) :
    ∃ g, c.engine.gist.Evolves g ∧ g.Evolves (c.step i).engine.gist ∧
      ∀ o ∈ c.sends i, o.GrantsVote → g.Votes o := by
  obtain ha | ⟨hn, hs⟩ := c.step_cases i
  case inl => exact Engine.act_votes (e := c.engine.withFaults i.faults) ha
  case inr => rw [hn, hs]; exact ⟨_, .refl _, .refl _, nofun⟩

theorem after_evolves (hl : c.engine.gist.Loyal) (incidents : List Incident) :
    c.engine.gist.Evolves (c.after incidents).engine.gist ∧ (c.after incidents).engine.gist.Loyal := by
  induction incidents generalizing c
  case nil                 => exact ⟨.refl _, hl⟩
  case cons i incidents ih =>
    have ⟨he, hl⟩ := step_evolves hl i
    exact (ih hl).imp_left he.trans

theorem sent_votes (hl : c.engine.gist.Loyal) (ho : o ∈ c.sent incidents) (hv : o.GrantsVote) :
    ∃ g, c.engine.gist.Evolves g ∧ g.Evolves (c.after incidents).engine.gist ∧ g.Votes o := by
  induction incidents generalizing c
  case nil                 => cases ho
  case cons i incidents ih =>
    have ⟨he, hl⟩ := step_evolves hl i
    obtain ho | ho := List.mem_append.mp ho
    case inl =>
      obtain ⟨g, hb, ha, hg⟩ := c.step_votes i
      exact ⟨g, hb, ha.trans (after_evolves hl incidents).left, hg o ho hv⟩
    case inr =>
      obtain ⟨g, hb, ha, hg⟩ := ih hl ho
      exact ⟨g, he.trans hb, ha, hg⟩

-- The later one of two votes is given in the same state as the earlier one, or in a state that has come of it.
theorem sent_agree (hl : c.engine.gist.Loyal) (ho : o ∈ c.sent incidents) (ho' : o' ∈ c.sent incidents)
    (hv : o.GrantsVote) (hv' : o'.GrantsVote) (ht : o.message.term = o'.message.term) :
    ∃ p ∈ c.engine.peers, o.dest = .to p ∧ o'.dest = .to p := by
  induction incidents generalizing c
  case nil                 => cases ho
  case cons i incidents ih =>
    have ⟨he, hl⟩ := step_evolves hl i
    obtain ⟨g, hb, ha, hg⟩ := c.step_votes i
    have hp : g.peers = c.engine.peers := hb.peers
    have hn : (c.step i).engine.peers = c.engine.peers := he.peers
    obtain ho | ho := List.mem_append.mp ho
    case inl =>
      obtain ho' | ho' := List.mem_append.mp ho'
      case inl => exact hp ▸ (hg o ho hv).agree (hg o' ho' hv') (.refl g) ht
      case inr =>
        obtain ⟨g', hb', _, hg'⟩ := sent_votes hl ho' hv'
        exact hp ▸ (hg o ho hv).agree hg' (ha.trans hb') ht
    case inr =>
      obtain ho' | ho' := List.mem_append.mp ho'
      case inr => exact hn ▸ ih hl ho ho'
      case inl =>
        obtain ⟨g', hb', _, hg'⟩ := sent_votes hl ho hv
        obtain ⟨p, hm, hd, hd'⟩ := (hg o' ho' hv').agree hg' (ha.trans hb') ht.symm
        exact ⟨p, hp ▸ hm, hd', hd⟩

-- Whatever a member is asked and told: its term does not fall, and after what it has been told by a peer it is the
-- greater one of its own and the stated term. Nothing that it is told fails as long as the log is not as long as a word
-- can count. A vote that is set stays for the term. All votes that the member gives in one term go to one peer. If it
-- stands or leads at any time, it gives none in that term, neither before nor after, and keeps its own for the rest of
-- the term, even when it follows somebody then.
theorem promises_kept (id : String) (peers : List Server) (storage : Storage) (random : RandomSource) (config : Config)
    (before later : List Incident) :
    let c₀ := start id peers storage random config
    let c  := c₀.after before
    let c' := c.after later
    let os := c₀.sent (before ++ later)
    c.engine.term ≤ c'.engine.term ∧
    (∀ faults m s, s.asPeer ∈ c.engine.peers →
      (c.log.lastIndex + m.rpc.entries.length + 1 < wordSize →
        ∃ turn, (c.engine.withFaults faults).receive m s = .ok turn) ∧
      ∀ turn, (c.engine.withFaults faults).receive m s = .ok turn → turn.engine.term = max c.engine.term m.term) ∧
    (c'.engine.term = c.engine.term → c.engine.vote ≠ none → c'.engine.vote = c.engine.vote) ∧
    (∀ o ∈ os, ∀ o' ∈ os, o.GrantsVote → o'.GrantsVote → o.message.term = o'.message.term →
      ∃ p ∈ c.engine.peers, o.dest = .to p ∧ o'.dest = .to p) ∧
    (c.engine.role ≠ .follower →
      (∀ o ∈ os, o.GrantsVote → o.message.term ≠ c.engine.term) ∧
      (c'.engine.term = c.engine.term → c'.engine.vote = some c.engine.me)) := by
  intro c₀ c c' os
  have hl₀ : c₀.engine.gist.Loyal := absurd rfl
  have ⟨he₀, hl⟩ : c₀.engine.gist.Evolves c.engine.gist ∧ c.engine.gist.Loyal := after_evolves hl₀ before
  have ⟨he, _⟩ : c.engine.gist.Evolves c'.engine.gist ∧ c'.engine.gist.Loyal := after_evolves hl later
  have hk₀ : c₀.engine.Kept := Engine.kept_of_not_leader fun _ => Standing.noConfusion
  have hk (faults : Faults) : (c.engine.withFaults faults).Kept :=
    (after_kept hk₀ before).of_standing rfl rfl (Nat.le_refl _)
  refine ⟨he.term, fun faults m s hs => ⟨fun hn => ?_, fun turn h => ?_⟩, he.vote, fun o ho o' ho' hv hv' ht => ?_,
    fun hr => ?_⟩
  case refine_1 => exact Engine.receive_ok (hk faults) hn s
  case refine_2 => exact Engine.receive_term (e := c.engine.withFaults faults) hs h
  case refine_3 =>
    have hp : c.engine.peers = c₀.engine.peers := he₀.peers
    exact hp ▸ sent_agree hl₀ ho ho' hv hv' ht
  case refine_4 =>
    have hr : c.engine.gist.role ≠ .follower := by rwa [Engine.gist_role]
    refine ⟨fun o ho hv => ?_, hl.vote hr he⟩
    rw [show os = _ from c₀.sent_append before later] at ho
    obtain ho | ho := List.mem_append.mp ho
    case inl =>
      obtain ⟨g, _, ha, hg⟩ := sent_votes hl₀ ho hv
      exact hg.term_ne hl hr ha
    case inr =>
      obtain ⟨g, hb, _, hg⟩ := sent_votes hl ho hv
      exact hl.not_votes hr hb hg

def voter : Career :=
  start "a" [.peer "b", .peer "c"] {} ⟨fun _ => 0, 0⟩ {}

-- A vote for one peer, none for another one, and then an election.
def stood : List Incident :=
  [⟨.message ⟨1, .voteRequest ⟨"b", 0, 0⟩⟩ (.peer "b"), {}⟩, ⟨.message ⟨1, .voteRequest ⟨"c", 0, 0⟩⟩ (.peer "c"), {}⟩,
    ⟨.command .timeout, {}⟩]

def deposed : List Incident :=
  [⟨.message ⟨2, .appendRequest ⟨"c", 0, 0, 0, []⟩⟩ (.peer "c"), {}⟩,
    ⟨.message ⟨2, .voteRequest ⟨"b", 9, 9⟩⟩ (.peer "b"), {}⟩]

theorem promises_kept_of_deposed :
    (voter.after stood).engine.role = .candidate ∧ (voter.after stood).engine.term = 2 ∧
    ((voter.after stood).after deposed).engine.role = .follower ∧ ((voter.after stood).after deposed).engine.term = 2 ∧
    ⟨.to (.peer "b"), 1, .voteReply true⟩ ∈ voter.sent (stood ++ deposed) ∧
    (∀ o ∈ voter.sent (stood ++ deposed), o.GrantsVote → o.message.term ≠ (voter.after stood).engine.term) ∧
    ((voter.after stood).after deposed).engine.vote = some (voter.after stood).engine.me := by
  have hc : (voter.after stood).engine.role = .candidate := by decide +kernel
  have ht : (voter.after stood).engine.term = 2 := by decide +kernel
  have ht' : ((voter.after stood).after deposed).engine.term = 2 := by decide +kernel
  have ⟨_, _, _, _, h⟩ := promises_kept "a" [.peer "b", .peer "c"] {} ⟨fun _ => 0, 0⟩ {} stood deposed
  change (voter.after stood).engine.role ≠ .follower → _ at h
  have ⟨hn, hv⟩ := h (by rw [hc]; decide)
  exact ⟨hc, ht, by decide +kernel, ht', by decide +kernel, hn, hv (ht'.trans ht.symm)⟩

end Career
end RaftGroup
