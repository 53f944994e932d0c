import RaftGroup.Proofs.Timeline

namespace RaftGroup

open Entries Gist

namespace Gist

variable {g g' : Gist} {sound : Prop} {post : List Posted}

-- Whoever is no follower has its own vote.
def Loyal (g : Gist) : Prop :=
  g.role ≠ .follower → g.vote = some (.me g.id)

theorem Move.loyal (h : Move sound post g g') (hg : g.Loyal) : g'.Loyal := by
  cases h
  case campaign       => exact fun _ => rfl
  case adopt          => exact absurd rfl
  case follow         => exact absurd rfl
  case append         => exact hg
  case agree          => exact hg
  case absorb         => exact hg
  case count hr _ _ _ => exact fun _ => hg (by simp [role, hr, Rank.role])
  case elect hr _     => exact fun _ => hg (by simp [role, hr, Rank.role])
  case credit hr _ _  => exact fun _ => hg (by simp [role, hr, Rank.role])
  case grant i hf     =>
    -- Whoever has its own vote has none to give.
    intro hr
    have hv : g.vote = some (.me g.id) := hg hr
    obtain hf | hf := hf
    · cases hf.symm.trans hv
    · cases hf.symm.trans hv

theorem Moves.loyal (h : Moves sound post g g') (hg : g.Loyal) : g'.Loyal := by
  induction h
  case refl         => exact hg
  case tail _ hm ih => exact hm.loyal ih

-- A candidate counts only votes of peers that have been posted to it, each one once.
structure Backed (g : Gist) (post : List Posted) : Prop where
  own    : g.role ≠ .follower → g.vote = some (.me g.id)
  nodup  : ∀ votes, g.rank = .candidate votes → votes.Nodup
  posted : ∀ votes, g.rank = .candidate votes → ∀ v ∈ votes,
    v = .me g.id ∨ ∃ i, v = .peer i ∧ v ∈ g.peers ∧ g.Told post i (.voteReply true)

theorem Backed.mono (hp : post <+: post') (h : g.Backed post) : g.Backed post' where
  own    := h.own
  nodup  := h.nodup
  posted := fun vs hr v hv => (h.posted vs hr v hv).imp_right fun ⟨i, hi, hm, ht⟩ => ⟨i, hi, hm, ht.mono hp⟩

theorem Backed.of_not_candidate (ho : g.role ≠ .follower → g.vote = some (.me g.id)) (hr : g.role ≠ .candidate) :
    g.Backed post where
  own    := ho
  nodup  := fun _ h => absurd (by rw [role, h]; rfl) hr
  posted := fun _ h => absurd (by rw [role, h]; rfl) hr

theorem Move.backed (h : Move sound post g g') (hb : g.Backed post) : g'.Backed post := by
  have own : g'.Loyal := h.loyal hb.own
  cases h
  case campaign =>
    exact {
      own    := own
      nodup  := fun _ h => by cases h; exact List.nodup_singleton _
      posted := fun _ h v hv => by cases h; exact .inl (List.mem_singleton.mp hv) }
  case adopt  => exact .of_not_candidate own (by simp [role, Rank.role])
  case follow => exact .of_not_candidate own (by simp [role, Rank.role])
  case append => exact ⟨own, hb.nodup, hb.posted⟩
  case agree  => exact ⟨own, hb.nodup, hb.posted⟩
  case absorb => exact ⟨own, hb.nodup, hb.posted⟩
  case grant  => exact ⟨own, hb.nodup, hb.posted⟩
  case elect  => exact .of_not_candidate own (by simp [role, Rank.role])
  case credit => exact .of_not_candidate own (by simp [role, Rank.role])
  case count hr hi hn ht =>
    exact {
      own    := own
      nodup  := fun _ h => by
        cases h
        rw [← List.concat_eq_append]
        exact (hb.nodup _ hr).concat hn
      posted := fun _ h v hv => by
        cases h
        cases List.mem_append.mp hv
        case inl hv => exact hb.posted _ hr v hv
        case inr hv => exact .inr ⟨_, List.mem_singleton.mp hv, List.mem_singleton.mp hv ▸ hi, ht⟩ }

theorem Move.leads (h : Move sound post g g') (hr : g'.role = .leader) :
    g'.term = g.term ∧ (g.role = .leader ∨
      ∃ votes, g.rank = .candidate votes ∧ quorumSize g.peers.length ≤ votes.length) := by
  cases h
  case campaign        => simp [role, Rank.role] at hr
  case adopt           => simp [role, Rank.role] at hr
  case follow          => simp [role, Rank.role] at hr
  case count           => simp [role, Rank.role] at hr
  case grant           => exact ⟨rfl, .inl hr⟩
  case append          => exact ⟨rfl, .inl hr⟩
  case agree           => exact ⟨rfl, .inl hr⟩
  case absorb          => exact ⟨rfl, .inl hr⟩
  case credit h _ _    => exact ⟨rfl, .inl (congrArg Rank.role h)⟩
  case elect votes h q => exact ⟨rfl, .inr ⟨votes, h, q⟩⟩

theorem Move.follows (h : Move sound post g g') (hr : g'.rank = .follower (some s)) :
    g'.term = g.term ∧ (g.rank = .follower (some s) ∨ ∃ r, g'.Told post s.id (.appendRequest r)) := by
  cases h
  case campaign => simp at hr
  case adopt    => simp at hr
  case count    => simp at hr
  case elect    => simp at hr
  case credit   => simp at hr
  case grant    => exact ⟨rfl, .inl hr⟩
  case append   => exact ⟨rfl, .inl hr⟩
  case agree    => exact ⟨rfl, .inl hr⟩
  case absorb   => exact ⟨rfl, .inl hr⟩
  case follow i _ _ ht =>
    cases hr
    exact ⟨rfl, .inr ⟨_, ht⟩⟩

end Gist

namespace Timeline

variable {f : Founding} {sound : Prop} (m : Timeline f sound)

theorem backed (t : Nat) (i : String) : (m.gist t i).Backed (m.scene t).post := by
  induction t
  case zero =>
    have hr : (m.gist 0 i).role = .follower := congrArg Rank.role (m.rank_zero i)
    exact .of_not_candidate (absurd hr) (by rw [hr]; decide)
  case succ t hi =>
    refine .mono (m.post_mono (Nat.le_succ t)) ?_
    cases m.gist_succ t i
    case inl h =>
      have ⟨n, h⟩ := h
      rw [h]
      exact ⟨hi.own, hi.nodup, hi.posted⟩
    case inr h => exact h.right.backed hi

structure Wins (s : Nat) (i : String) (T : Nat) : Prop where
  mem   : i ∈ f.members
  term  : (m.gist s i).term = T
  votes : ∃ votes, (m.gist s i).rank = .candidate votes ∧ quorumSize (m.gist s i).peers.length ≤ votes.length

def Leads (t : Nat) (i : String) (T : Nat) : Prop :=
  (m.gist t i).role = .leader ∧ (m.gist t i).term = T

variable {m}

theorem Leads.of_world {w : World} (hs : m.scene t = w.scene) (h : w.Leads i T) : m.Leads t i T := by
  rw [Leads, gist_of_scene hs, Engine.gist_role]
  exact h

theorem Leads.wins (h : m.Leads t i T) : ∃ s < t, m.Wins s i T := by
  induction t
  case zero =>
    have hr : (m.gist 0 i).role = .follower := congrArg Rank.role (m.rank_zero i)
    exact absurd (hr.symm.trans h.left) (by decide)
  case succ t hi =>
    have earlier (h : m.Leads t i T) : ∃ s < t + 1, m.Wins s i T := by
      have ⟨s, hs, h⟩ := hi h
      exact ⟨s, Nat.lt_succ_of_lt hs, h⟩
    cases m.gist_succ t i
    case inl hg =>
      have ⟨n, hg⟩ := hg
      rw [Leads, hg] at h
      exact earlier h
    case inr hm =>
      have ⟨ht, hl⟩ := hm.right.leads h.left
      cases hl
      case inl hl => exact earlier ⟨hl, ht.symm.trans h.right⟩
      case inr hv => exact ⟨t, Nat.lt_succ_self t, hm.left, ht.symm.trans h.right, hv⟩

theorem Leads.mem (h : m.Leads t i T) : i ∈ f.members :=
  have ⟨_, _, h⟩ := h.wins
  h.mem

theorem followers (hr : (m.gist t i).rank = .leader ms) : ms.map Prod.fst = (f.world.engine i).peers := by
  induction t generalizing ms
  case zero => cases (m.rank_zero i).symm.trans hr
  case succ t hi =>
    cases m.gist_succ t i
    case inl hg =>
      have ⟨_, hg⟩ := hg
      rw [hg] at hr
      exact hi hr
    case inr hg =>
      cases hg.right.followers hr
      case inl h => exact h.trans (m.peers_eq t i)
      case inr h =>
        have ⟨_, hr', h⟩ := h
        exact h.trans (hi hr')

theorem Wins.role (h : m.Wins s i T) : (m.gist s i).role = .candidate := by
  have ⟨_, h, _⟩ := h.votes
  rw [Gist.role, h, Rank.role]

variable (m)

-- Someone voted for a member in a term, by some time. If it did not stand itself then it was asked to, with a log that
-- is no worse than its own.
def Voted (s : Nat) (i : String) (T : Nat) (j : String) : Prop :=
  ∃ u ≤ s, (m.gist u j).term = T ∧ (m.gist u j).vote.map Server.id = some i ∧
    (j ≠ i → ∃ r, (m.gist u j).Told (m.scene u).post i (.voteRequest r) ∧ (m.gist u j).UpToDate r)

variable {m}

theorem Voted.unique (h : m.Voted s i T k) (h' : m.Voted s' j T k) : i = j := by
  have ⟨u, _, ht, hv, _⟩ := h
  have ⟨u', _, ht', hv', _⟩ := h'
  have hs : (m.gist u k).vote = (m.gist u' k).vote := by
    cases Nat.le_total u u'
    case inl hl => exact ((m.evolves k hl).vote (ht'.trans ht.symm) (by rintro h; simp [h] at hv)).symm
    case inr hl => exact (m.evolves k hl).vote (ht.trans ht'.symm) (by rintro h; simp [h] at hv')
  rw [hs, hv'] at hv
  exact (Option.some.inj hv).symm

theorem Wins.voted (h : m.Wins s i T) (hr : (m.gist s i).rank = .candidate vs) (hv : v ∈ vs) :
    (v = .me i ∨ v ∈ (f.world.engine i).peers) ∧ m.Voted s i T v.id := by
  have hb := m.backed s i
  cases m.id_eq s i ▸ hb.posted vs hr v hv
  case inl hv =>
    subst hv
    have ho := hb.own (by rw [h.role]; decide)
    exact ⟨.inl rfl, s, Nat.le_refl s, h.term, by rw [Server.id, ho, m.id_eq]; rfl, absurd rfl⟩
  case inr hv =>
    obtain ⟨j, rfl, hp, ht⟩ := hv
    obtain ⟨p, _, hl, u, hu, _, hs⟩ := m.told ht
    obtain ⟨hv, hr⟩ := hs.votes (by rw [hl])
    rw [hl] at hv hr
    refine ⟨.inr (m.peers_eq s i ▸ hp), u, Nat.le_of_lt hu, ?_, by rw [Server.id, hv]; rfl, fun _ => hr⟩
    rw [Server.id, ← hs.term, hl, ← h.term]

theorem Wins.most (h : m.Wins s i T) : f.Most (m.Voted s i T) := by
  have ⟨vs, hr, hq⟩ := h.votes
  rw [m.peers_eq] at hq
  exact .of_servers h.mem ((m.backed s i).nodup vs hr) (fun v hv => h.voted hr hv) hq

theorem Wins.unique (h : m.Wins s i T) (h' : m.Wins t j T) : i = j :=
  have ⟨_, _, hv, hv'⟩ := h.most.meet h'.most
  hv.unique hv'

theorem leader_unique (h : m.Leads s i T) (h' : m.Leads t j T) : i = j :=
  have ⟨_, _, h⟩ := h.wins
  have ⟨_, _, h'⟩ := h'.wins
  h.unique h'

theorem Wins.not_leads (h : m.Wins t i T) (hs : s ≤ t) : ¬m.Leads s j T := fun hl => by
  have ⟨_, _, h'⟩ := hl.wins
  obtain rfl := h.unique h'
  have hr := (m.evolves i hs).leads (h.term.trans hl.right.symm) hl.left
  exact absurd (hr.symm.trans h.role) (by decide)

theorem Wins.noBetter (h : m.Wins t i T) (hv : m.Voted t i T j) (hj : j ≠ i) :
    ∃ s ≤ t, (m.gist s j).term = T ∧ NoBetter (m.gist s j).log (m.gist t i).log := by
  have ⟨s, hs, ht, _, hr⟩ := hv
  have ⟨r, told, hu⟩ := hr hj
  have ⟨p, _, hl, u, _, _, hp⟩ := m.told told
  have ⟨hc, hi, hn⟩ := hp.stands r (by rw [hl])
  have hu' : (m.gist u i).term = T := by rw [← hp.term, hl, ht]
  have he : (m.gist u i).log = (m.gist t i).log := by
    cases Nat.le_total u t
    case inl hl => exact ((m.evolves i hl).stands (h.term.trans hu'.symm) h.role).symm
    case inr hl => exact (m.evolves i hl).stands (hu'.trans h.term.symm) hc
  rw [UpToDate, hi, hn, he] at hu
  exact ⟨s, hs, ht, hu⟩

theorem followed (h : (m.gist t i).rank = .follower (some s)) :
    ∃ p ∈ (m.scene t).post, p.letter.sender = s.id ∧ p.letter.message.term = (m.gist t i).term ∧
      ∃ r, p.letter.message.rpc = .appendRequest r := by
  induction t
  case zero => exact absurd (m.rank_zero i ▸ h) (by simp)
  case succ t hi =>
    have hp := m.post_mono (Nat.le_succ t)
    cases m.gist_succ t i
    case inl hg =>
      have ⟨n, hg⟩ := hg
      rw [hg] at h ⊢
      have ⟨p, hm, h⟩ := hi h
      exact ⟨p, hp.subset hm, h⟩
    case inr hm =>
      have ⟨ht, hr⟩ := hm.right.follows h
      cases hr
      case inl hr =>
        have ⟨p, hm, hs, ht', hr⟩ := hi hr
        exact ⟨p, hp.subset hm, hs, ht'.trans ht.symm, hr⟩
      case inr hr =>
        have ⟨r, p, hm, hl⟩ := hr
        exact ⟨p, hp.subset hm, by rw [hl], by rw [hl], r, by rw [hl]⟩

end Timeline

namespace Run

variable {r : Run}

theorem requested (hp : p ∈ (r.world t).post) (hr : p.letter.message.rpc = .appendRequest q) :
    ∃ s < t, (r.world s).Leads p.letter.sender p.letter.message.term := by
  induction t
  case zero => exact absurd hp (List.not_mem_nil)
  case succ t hi =>
    have earlier (hp : p ∈ (r.world t).post) :
        ∃ s < t + 1, (r.world s).Leads p.letter.sender p.letter.message.term := by
      have ⟨s, hs, h⟩ := hi hp
      exact ⟨s, Nat.lt_succ_of_lt hs, h⟩
    have h := happens_succ (fun h : False => h.elim) (r.world_id t)
    generalize r.world (t + 1) = w at h hp
    cases h
    case idle => exact earlier hp
    case take =>
      cases World.mem_post_record hp
      case inl hp => exact earlier hp
      case inr ho => exact absurd ho (by simp)
    case turn ha =>
      cases World.mem_post_record hp
      case inl hp => exact earlier hp
      case inr ho =>
        have ⟨o, ho, hs, hm, _⟩ := ho
        rw [hm] at hr
        have ⟨hl, ht⟩ := ha.leads o ho q hr
        exact ⟨t, Nat.lt_succ_self t, hs ▸ hm ▸ ⟨hl, ht.symm⟩⟩

-- Over a whole run, no term has two leaders, and whoever is reported as the leader of a term has led it.
theorem election_safety (r : Run) (T : Nat) :
    (∀ s t i j, (r.world s).Leads i T → (r.world t).Leads j T → i = j) ∧
    (∀ t i x, ((r.world t).engine i).term = T → ((r.world t).engine i).leader? = some x →
      ∃ s ≤ t, (r.world s).Leads x.id T) := by
  constructor
  case left =>
    intro s t i j hi hj
    obtain ⟨_, _, _, hs, ht⟩ := Timeline.of_worlds r False False.elim s t
    exact Timeline.leader_unique (.of_world hs hi) (.of_world ht hj)
  case right =>
    intro t i x ht hx
    cases he : ((r.world t).engine i).standing <;> simp only [Engine.leader?, he, reduceCtorEq] at hx
    case leader =>
      cases hx
      exact ⟨t, Nat.le_refl t, by rw [Engine.me, Server.id, r.world_id, World.Leads, Engine.role, he]; exact ⟨rfl, ht⟩⟩
    case follower =>
      obtain ⟨m, k, hk, _⟩ := Timeline.of_run r False False.elim t
      have hg := Timeline.gist_of_scene hk i
      have hf : (m.gist k i).rank = .follower (some x) := by rw [hg, Engine.gist, he, Standing.rank, hx]
      obtain ⟨p, hp, hs, hn, _, hr⟩ := Timeline.followed hf
      rw [hk] at hp
      obtain ⟨s, hs', hl⟩ := requested hp hr
      rw [hs, hn, hg] at hl
      exact ⟨s, Nat.le_of_lt hs', ht ▸ hl⟩

theorem election_safety_of_handover :
    (handover.world 7).Leads "a" 1 ∧ ((handover.world 7).engine "b").term = 1 ∧
    ((handover.world 7).engine "b").leader? = some (.peer "a") ∧ ∃ s ≤ 7, (handover.world s).Leads "a" 1 := by
  have ht : ((handover.world 7).engine "b").term = 1 := by decide +kernel
  have hx : ((handover.world 7).engine "b").leader? = some (.peer "a") := by decide +kernel
  exact ⟨by decide +kernel, ht, hx, (election_safety handover 1).right 7 "b" (.peer "a") ht hx⟩

end Run
end RaftGroup
