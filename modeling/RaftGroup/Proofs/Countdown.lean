import RaftGroup.Proofs.Settings

namespace RaftGroup

theorem RandomSource.electionTicks_bounds (r : RandomSource) {c : Config} (h : 0 < c.electionTimeout.toNat) :
    c.electionTimeout.toNat ≤ (r.electionTicks c).1 ∧ (r.electionTicks c).1 < 2 * c.electionTimeout.toNat := by
  have hm := Nat.mod_lt (r.draw r.drawn).toNat h
  have hs : c.electionTimeout.toNat < UInt32.size := c.electionTimeout.toNat_lt
  simp only [electionTicks, next, addTicks, if_neg (Nat.ne_of_gt h)]
  omega

def Rpc.isAppend : Rpc → Bool
  | .appendRequest _ => true
  | _                => false

def Call.ticks : Call → Nat
  | .command .tick => 1
  | _              => 0

instance (o : Outgoing) : Decidable o.GrantsVote :=
  inferInstanceAs (Decidable (_ = _))

namespace Engine

variable {e e' : Engine} {f : Following} {k : Candidacy} {m : Message} {os : List Outgoing} {c : Call}

-- What the countdown is after that many ticks since it was armed.
structure Counts (e : Engine) (span elapsed : Nat) : Prop where
  config   : e.config.electionTimeout.toNat = span
  running  : ∀ t, e.countdown? = some t → 0 < t ∧ span ≤ elapsed + t ∧ elapsed + t < 2 * span
  timeouts : ∀ f, e.standing = .follower f → span ≤ f.timeout ∧ f.timeout < 2 * span

theorem countdown?_of_standing (h : e'.standing = e.standing) : e'.countdown? = e.countdown? := by
  rw [countdown?, h, countdown?]

namespace Counts

theorem of_standing (h : e.Counts span n) (hs : e'.standing = e.standing) (hc : e'.config = e.config) :
    e'.Counts span n where
  config   := hc ▸ h.config
  running  := countdown?_of_standing hs ▸ h.running
  timeouts := hs ▸ h.timeouts

theorem of_leader (hc : e.config.electionTimeout.toNat = span) (hs : e.standing = .leader l) : e.Counts span n where
  config     := hc
  running t  := fun ht => by rw [countdown?, hs] at ht; cases ht
  timeouts f := fun hf => by cases hs.symm.trans hf

theorem of_follower (hc : e.config.electionTimeout.toNat = span) (hs : e.standing = .follower f)
    (ht : f.ticks = f.timeout) (hf : span ≤ f.timeout ∧ f.timeout < 2 * span) : e.Counts span 0 where
  config      := hc
  running t   := fun h => by rw [countdown?, hs] at h; cases h; omega
  timeouts f' := fun h => by cases hs.symm.trans h; exact hf

theorem of_candidate (hc : e.config.electionTimeout.toNat = span) (hs : e.standing = .candidate k)
    (hk : 0 < k.ticks ∧ span ≤ n + k.ticks ∧ n + k.ticks < 2 * span) : e.Counts span n where
  config     := hc
  running t  := fun h => by rw [countdown?, hs] at h; cases h; exact hk
  timeouts f := fun h => by cases hs.symm.trans h

theorem elapsed_lt (h : e.Counts span n) (hr : e.role ≠ .leader) : n + 1 < 2 * span := by
  obtain ⟨t, ht⟩ : ∃ t, e.countdown? = some t := by
    rw [countdown?]
    split
    case h_3 hl => exact absurd (by rw [role, hl]) hr
    all_goals exact ⟨_, rfl⟩
  have := h.running t ht
  omega

theorem rearmed [Decidable p] (h : e.Counts span 0) (hp : p) : e.Counts span (if p then 0 else n) := by
  rwa [if_pos hp]

theorem undisturbed [Decidable p] (h : e.Counts span n) (hp : ¬p) : e.Counts span (if p then 0 else n) := by
  rwa [if_neg hp]

theorem draw (hc : e.config.electionTimeout.toNat = span) (hp : 0 < span) (r : RandomSource) :
    span ≤ (r.electionTicks e.config).1 ∧ (r.electionTicks e.config).1 < 2 * span := by
  subst hc
  exact r.electionTicks_bounds hp

theorem adoptTerm (h : e.Counts span n) (hp : 0 < span) (ht : e.term < m.term) (s : Server) :
    (e.adoptTerm s m).1.Counts span 0 := by
  rw [Engine.adoptTerm, if_pos ht]
  exact .of_follower h.config rfl rfl (draw h.config hp e.random)

theorem giveVote (h : e.Counts span n) (s : Server) :
    (e.giveVote s).Counts span (if e.role = .follower then 0 else n) := by
  cases hs : e.standing
  case follower f =>
    have hr : e.role = .follower := by rw [role, hs]
    have hg : (e.giveVote s).standing = .follower { f with ticks := f.timeout } := by rw [Engine.giveVote, hs]
    exact (of_follower (e := e.giveVote s) h.config hg rfl (h.timeouts f hs)).rearmed hr
  all_goals
    have hr : e.role ≠ .follower := by simp [role, hs]
    have hg : (e.giveVote s).standing = e.standing := by rw [Engine.giveVote, hs]
    exact (h.of_standing hg rfl).undisturbed hr

theorem countVote (h : e.Counts span n) (granted : Bool) (s : Server) : (e.countVote granted s).1.Counts span n := by
  rw [Engine.countVote]
  split
  case h_2      => exact h
  case h_1 k hs =>
    split
    case isFalse => exact h
    case isTrue  =>
      refine .of_candidate (k := Engine.Candidacy.count k s) h.config rfl ?_
      rw [show (Engine.Candidacy.count k s).ticks = k.ticks by rw [Engine.Candidacy.count]; split <;> rfl]
      exact h.running k.ticks (by rw [countdown?, hs])

theorem follow (h : e.Counts span n) (hp : 0 < span) (hf : e.follow s = (true, e', ns)) : e'.Counts span 0 := by
  rw [Engine.follow] at hf
  split at hf
  case h_1      => cases hf; exact .of_follower h.config rfl rfl (draw h.config hp e.random)
  case h_2 f hs => cases hf; exact .of_follower h.config rfl rfl (h.timeouts f hs)
  case h_3      => cases hf

theorem mergeRequest (h : e.Counts span n) (hm : e.mergeRequest r s = .ok turn) : turn.engine.Counts span n :=
  h.of_standing (mergeRequest_standing hm) (config_of_settings (mergeRequest_settings hm))

theorem answerAppend (h : e.Counts span n) (hp : 0 < span) (ht : t ≤ e.term) (ha : e.answerAppend t r s = .ok turn) :
    turn.engine.Counts span (if e.role ≠ .leader ∧ t = e.term then 0 else n) := by
  obtain ⟨taken, hr, ha⟩ := bind_eq_ok_iff.mp ha
  cases ha
  rw [Engine.takeRequest] at hr
  split at hr
  case isTrue hn  => cases hr; exact h.undisturbed fun hr => Nat.ne_of_lt hn hr.right
  case isFalse hn =>
    have ht : t = e.term := Nat.le_antisymm ht (Nat.le_of_not_lt hn)
    split at hr
    case h_1 e₁ ns hf =>
      cases hr
      have hl : e.role = .leader := by
        by_contra hl
        obtain ⟨_, _, _, he⟩ := follow_eq (fun l hs => hl (by rw [role, hs])) s
        cases he.symm.trans hf
      obtain ⟨_, rfl⟩ := (follow_gist hf).resolve_right fun h => absurd h.left (by decide)
      exact h.undisturbed fun hn => hn.left hl
    case h_2 e₁ ns hf =>
      obtain ⟨merged, hm, hr⟩ := bind_eq_ok_iff.mp hr
      cases hr
      obtain ⟨_, hl, _⟩ := (follow_gist hf).resolve_left fun h => absurd h.left (by decide)
      exact ((h.follow hp hf).mergeRequest hm).rearmed ⟨hl, ht⟩

theorem readAppendReply (h : e.Counts span n) (hr : e.readAppendReply success s = .ok (e', ns)) :
    e'.Counts span n := by
  obtain rfl | ⟨_, _, _, _, _, _, _, rfl⟩ := readAppendReply_eq_ok hr
  case inl => exact h
  case inr => exact .of_leader h.config rfl

theorem advanceCommit (h : e.Counts span n) : e.advanceCommit.1.Counts span n :=
  h.of_standing (advanceCommit_standing e).left (config_of_settings (advanceCommit_settings e))

theorem becomeLeader (h : e.Counts span n) (hb : e.becomeLeader = .ok (e', ns)) : e'.Counts span n := by
  obtain ⟨rfl, _⟩ | ⟨_, _, _, rfl⟩ := becomeLeader_eq_ok hb
  case inl => exact h
  case inr =>
    have ha : e.asLeader.Counts span n := .of_leader h.config rfl
    exact ha.advanceCommit

end Counts

def Rearms (e : Engine) (m : Message) (os : List Outgoing) : Prop :=
  (e.role ≠ .leader ∧ m.term = e.term ∧ m.rpc.isAppend = true) ∨ (e.role = .follower ∧ ∃ o ∈ os, o.GrantsVote)

instance (e : Engine) (m : Message) (os : List Outgoing) : Decidable (e.Rearms m os) :=
  inferInstanceAs (Decidable (_ ∨ _))

theorem rearms_iff_of_not_append (ha : m.rpc.isAppend = false) :
    e.Rearms m os ↔ e.role = .follower ∧ ∃ o ∈ os, o.GrantsVote := by
  simp [Rearms, ha]

theorem not_rearms_nil (ha : m.rpc.isAppend = false) : ¬e.Rearms m [] := by
  simp [Rearms, ha]

theorem rearms_iff_of_append (ha : m.rpc.isAppend = true) (ho : ∀ o ∈ os, ¬o.GrantsVote) :
    e.Rearms m os ↔ e.role ≠ .leader ∧ m.term = e.term := by
  simp only [Rearms, ha, and_true, or_iff_left_iff_imp]
  rintro ⟨_, o, hm, hv⟩
  exact absurd hv (ho o hm)

namespace Counts

theorem answerVote (h : e.Counts span n) (ha : m.rpc.isAppend = false) :
    (e.answerVote m.term r s).engine.Counts span
      (if e.Rearms m (e.answerVote m.term r s).result.toList then 0 else n) := by
  simp only [rearms_iff_of_not_append ha, Engine.answerVote]
  by_cases hg : e.Grants m.term r s
  case pos => simpa [hg, Outgoing.GrantsVote] using h.giveVote s
  case neg => simpa [hg, Outgoing.GrantsVote] using h

theorem handle (h : e.Counts span n) (hp : 0 < span) (ht : m.term ≤ e.term) (hh : e.handle s m = .ok turn) :
    turn.engine.Counts span (if e.Rearms m turn.result.toList then 0 else n) := by
  rw [Engine.handle] at hh
  split at hh
  case isTrue hr  =>
    have ha : m.rpc.isAppend = false := by cases hm : m.rpc <;> simp_all [Rpc.isAppend, Rpc.isReply]
    cases hh
    exact h.undisturbed (not_rearms_nil ha)
  case isFalse hr =>
    split at hh
    case h_1 r hm =>
      cases hh
      exact h.answerVote (by rw [hm]; rfl)
    case h_2 granted hm =>
      have hc := h.countVote granted s
      cases hh
      exact hc.undisturbed (not_rearms_nil (by rw [hm]; rfl))
    case h_3 r hm =>
      have hc := h.answerAppend hp ht hh
      obtain ⟨taken, _, hh⟩ := bind_eq_ok_iff.mp hh
      cases hh
      have hr : e.Rearms m [⟨.to s, e.term, .appendReply taken.result⟩] ↔ e.role ≠ .leader ∧ m.term = e.term :=
        rearms_iff_of_append (by rw [hm]; rfl) (by simp [Outgoing.GrantsVote])
      simpa only [Option.toList_some, hr] using hc
    case h_4 success hm =>
      obtain ⟨⟨e', ns⟩, hr, hh⟩ := bind_eq_ok_iff.mp hh
      cases hh
      exact (h.readAppendReply hr).undisturbed (not_rearms_nil (by rw [hm]; rfl))

theorem receive (h : e.Counts span n) (hp : 0 < span) (hr : e.receive m s = .ok turn) :
    turn.engine.Counts span
      (if e.term < turn.engine.term ∨ (s.asPeer ∈ e.peers ∧ e.Rearms m turn.result.toList) then 0 else n) := by
  obtain ⟨hs, rfl⟩ | ⟨hs, replied, e₂, ns, _, hh, hb, rfl⟩ := receive_eq_ok hr
  case inl => exact h.undisturbed fun hn => hn.elim (Nat.lt_irrefl _) fun hn => hs hn.left
  case inr =>
    have ht := receive_term hs hr
    have hm := adoptTerm_le e s.asPeer m
    by_cases hn : e.term < m.term
    case pos =>
      -- A member that has adopted a term waits anew whether or not it has reason to do so again.
      have hc := (h.adoptTerm hp hn s.asPeer).handle hp hm hh
      rw [ite_self] at hc
      refine (hc.becomeLeader hb).advanceCommit.rearmed (.inl ?_)
      omega
    case neg =>
      rw [Engine.adoptTerm, if_neg hn] at hh hm
      have hc := ((h.handle hp hm hh).becomeLeader hb).advanceCommit
      have ht : e₂.advanceCommit.1.term = e.term := ht.trans (Nat.max_eq_left hm)
      simpa [ht, hs] using hc

theorem campaign (h : e.Counts span n) (hp : 0 < span) (hc : e.campaign = .ok e') :
    e'.Counts span 0 ∧ e'.term = e.term + 1 := by
  have hd := draw h.config hp e.random
  obtain ⟨_, rfl⟩ := campaign_eq_ok hc
  refine ⟨of_candidate h.config rfl ?_, rfl⟩
  dsimp only
  omega

theorem timeout (h : e.Counts span n) (hp : 0 < span) (hr : e.role ≠ .leader) (ht : e.timeout = .ok turn) :
    turn.engine.Counts span 0 ∧ turn.engine.term = e.term + 1 := by
  obtain ⟨hl, _⟩ | ⟨_, e₁, e₂, ns, hc, hb, rfl⟩ := timeout_eq_ok ht
  case inl => exact absurd hl hr
  case inr =>
    obtain ⟨hc, hn⟩ := h.campaign hp hc
    exact ⟨hc.becomeLeader hb, (becomeLeader_spec hb).left.trans hn⟩

structure Beats (e e' : Engine) (span elapsed : Nat) : Prop where
  stands : e.term < e'.term → span ≤ elapsed + 1 ∧ elapsed + 1 < 2 * span ∧ e'.Counts span 0
  waits  : ¬e.term < e'.term → e'.Counts span (elapsed + 1)

theorem electionTick (h : e.Counts span n) (hp : 0 < span) (hc : e.countdown? = some ticks)
    (hw : 1 < ticks → ({ e with standing := wait (ticks - 1) } : Engine).Counts span (n + 1))
    (ht : e.electionTick ticks wait = .ok turn) : Beats e turn.engine span n := by
  have hr := h.running ticks hc
  obtain ⟨hn, rfl⟩ | ⟨hn, out, ho, rfl⟩ := electionTick_eq_ok ht
  case inl => exact ⟨fun h => absurd h (Nat.lt_irrefl _), fun _ => hw hn⟩
  case inr =>
    have hl : e.role ≠ .leader := by
      rintro hl
      obtain ⟨l, hs⟩ := standing_of_role hl
      rw [countdown?, hs] at hc
      cases hc
    obtain ⟨he, ht⟩ := h.timeout hp hl ho
    exact ⟨fun _ => ⟨by omega, by omega, he⟩, fun h => absurd (ht ▸ Nat.lt_succ_self e.term) h⟩

theorem tick (h : e.Counts span n) (hp : 0 < span) (ht : e.tick = .ok turn) : Beats e turn.engine span n := by
  rw [Engine.tick] at ht
  split at ht
  case h_1 f hs =>
    have hc : e.countdown? = some f.ticks := by rw [countdown?, hs]
    have hr := h.running f.ticks hc
    refine h.electionTick hp hc (fun hn => ⟨h.config, fun t ht => ?_, fun f' hf => ?_⟩) ht
    case refine_1 => cases ht; dsimp only; omega
    case refine_2 => cases hf; exact h.timeouts f hs
  case h_2 k hs =>
    have hc : e.countdown? = some k.ticks := by rw [countdown?, hs]
    have hr := h.running k.ticks hc
    exact h.electionTick hp hc (fun hn => .of_candidate h.config rfl (by dsimp only; omega)) ht
  case h_3 l hs =>
    obtain ⟨⟨_, ns⟩, hl, ht⟩ := bind_eq_ok_iff.mp ht
    obtain ⟨_, rfl, _⟩ := leaderTick_eq_ok hl
    cases ht
    exact ⟨fun h => absurd h (Nat.lt_irrefl _), fun _ => .of_leader h.config rfl⟩

theorem submit (h : e.Counts span n) (hs : e.submit payload = .ok turn) : turn.engine.Counts span n :=
  h.of_standing (submit_standing hs).left (config_of_settings (submit_settings hs))

theorem replicateTo (h : e.Counts span n) (hr : e.replicateTo s = .ok turn) : turn.engine.Counts span n := by
  obtain ⟨⟨_, rfl⟩, _⟩ | ⟨_, _, _, _, _, _, _, _, rfl⟩ := replicateTo_eq_ok hr
  case inl => exact h
  case inr => exact .of_leader h.config rfl

theorem takeCommitted (h : e.Counts span n) (limit : Nat) : (takeCommitted limit e).2.Counts span n :=
  h.of_standing (takeCommitted_standing limit e).left (config_of_settings (takeCommitted_settings limit e))

end Counts

-- Whether the call, which comes to the state and is answered with the messages, arms the countdown anew. A term that
-- rises is one that has been adopted, or the one of an election that has begun.
def Resets (e : Engine) : Call → Engine → List Outgoing → Prop
  | .command _, e', _    => e.term < e'.term
  | .message m s, e', os => e.term < e'.term ∨ (s.asPeer ∈ e.peers ∧ e.Rearms m os)

instance (e : Engine) : (c : Call) → (e' : Engine) → (os : List Outgoing) → Decidable (e.Resets c e' os)
  | .command _, _, _   => inferInstanceAs (Decidable (_ < _))
  | .message _ _, _, _ => inferInstanceAs (Decidable (_ ∨ _ ∧ _))

theorem Counts.act (h : e.Counts span n) (hp : 0 < span) (hc : c = .command .timeout → e'.term = e.term)
    (ha : e.act c = .ok (e', os)) : e'.Counts span (if e.Resets c e' os then 0 else n + c.ticks) := by
  cases c
  case message m s =>
    obtain ⟨turn, hr, ha⟩ := map_eq_ok_iff.mp ha
    cases ha
    exact h.receive hp hr
  case command c =>
    cases c
    case timeout =>
      obtain ⟨turn, ht, ha⟩ := map_eq_ok_iff.mp ha
      cases ha
      by_cases hr : e.role = .leader
      case neg => exact absurd ((h.timeout hp hr ht).right.symm.trans (hc rfl)) (Nat.succ_ne_self _)
      case pos =>
        obtain ⟨_, rfl⟩ | ⟨hn, _⟩ := timeout_eq_ok ht
        case inl => exact h.undisturbed (Nat.lt_irrefl _)
        case inr => exact absurd hr hn
    case tick    =>
      obtain ⟨turn, ht, ha⟩ := map_eq_ok_iff.mp ha
      cases ha
      have hb := h.tick hp ht
      split
      case isTrue hr  => exact (hb.stands hr).right.right
      case isFalse hr => exact hb.waits hr
    case submit  =>
      obtain ⟨turn, hs, ha⟩ := map_eq_ok_iff.mp ha
      cases ha
      exact (h.submit hs).undisturbed (Nat.not_lt_of_le (Nat.le_of_eq (submit_standing hs).right))
    case replicate =>
      obtain ⟨turn, hr, ha⟩ := map_eq_ok_iff.mp ha
      cases ha
      exact (h.replicateTo hr).undisturbed (Nat.not_lt_of_le (Nat.le_of_eq (replicateTo_spec hr).left))
    case take limit =>
      cases ha
      exact (h.takeCommitted limit).undisturbed
        (Nat.not_lt_of_le (Nat.le_of_eq (takeCommitted_standing limit e).right))

theorem counts_start (id : String) (peers : List Server) (storage : Storage) (random : RandomSource) (config : Config)
    (hp : 0 < config.electionTimeout.toNat) :
    (start id peers storage random config).Counts config.electionTimeout.toNat 0 :=
  .of_follower rfl rfl rfl (random.electionTicks_bounds hp)

end Engine

namespace Career

variable {c : Career}

def clock (c : Career) (n : Nat) (i : Incident) : Nat :=
  let e := c.engine.withFaults i.faults
  match e.act i.call with
  | .ok (e', os) => if e.Resets i.call e' os then 0 else n + i.call.ticks
  | .error _     => n

def elapsed (c : Career) (n : Nat) : List Incident → Nat
  | []             => n
  | i :: incidents => (c.step i).elapsed (c.clock n i) incidents

-- Elections begin through ticks only: no term begins because the member is told to stand.
def Unhurried (c : Career) : List Incident → Prop
  | []             => True
  | i :: incidents => (i.call = .command .timeout → (c.step i).engine.term = c.engine.term) ∧
    (c.step i).Unhurried incidents

theorem step_counts (h : c.engine.Counts span n) (hp : 0 < span)
    (hi : i.call = .command .timeout → (c.step i).engine.term = c.engine.term) :
    (c.step i).engine.Counts span (c.clock n i) := by
  have hf : (c.engine.withFaults i.faults).Counts span n := h.of_standing rfl rfl
  rw [step, Engine.answer_eq_act] at hi ⊢
  rw [clock]
  cases ha : (c.engine.withFaults i.faults).act i.call
  case ok out  => rw [ha] at hi; exact hf.act hp hi ha
  case error o => exact h

theorem after_counts (h : c.engine.Counts span n) (hp : 0 < span) (hi : c.Unhurried incidents) :
    (c.after incidents).engine.Counts span (c.elapsed n incidents) := by
  induction incidents generalizing c n
  case nil                 => exact h
  case cons i incidents ih => exact ih (step_counts h hp hi.left) hi.right

-- If elections begin through ticks only: after any calls a member that does not lead has not waited twice the election
-- timeout, less one tick, since its countdown was armed, and a tick by which it stands is at least as many as the
-- election timeout after that, and no later than it may be.
theorem elections_timed (id : String) (peers : List Server) (storage : Storage) (random : RandomSource)
    (config : Config) (hp : 0 < config.electionTimeout.toNat)
    (hi : (start id peers storage random config).Unhurried incidents) :
    let c₀ := start id peers storage random config
    let c  := c₀.after incidents
    let n  := c₀.elapsed 0 incidents
    (c.engine.role ≠ .leader → n < 2 * config.electionTimeout.toNat - 1) ∧
    ∀ faults e' os, (c.engine.withFaults faults).act (.command .tick) = .ok (e', os) → c.engine.term < e'.term →
      config.electionTimeout.toNat ≤ n + 1 ∧ n + 1 ≤ 2 * config.electionTimeout.toNat - 1 := by
  intro c₀ c n
  have hc : c.engine.Counts config.electionTimeout.toNat n :=
    after_counts (Engine.counts_start id peers storage random config hp) hp hi
  refine ⟨fun hr => ?_, fun faults e' os ha ht => ?_⟩
  case refine_1 => have := hc.elapsed_lt hr; omega
  case refine_2 =>
    have hf : (c.engine.withFaults faults).Counts config.electionTimeout.toNat n := hc.of_standing rfl rfl
    obtain ⟨turn, ho, ha⟩ := map_eq_ok_iff.mp ha
    cases ha
    have ⟨hs, hl, _⟩ := (hf.tick hp ho).stands ht
    omega

-- A member that comes to lead is told to stand although it leads. Then somebody leads in the next term whose request
-- does not fit the log, and two ticks pass.
def interrupted : List Incident :=
  [⟨.command .tick, {}⟩, ⟨.command .tick, {}⟩, ⟨.command .tick, {}⟩, ⟨.message ⟨1, .voteReply true⟩ (.peer "b"), {}⟩,
    ⟨.command .timeout, {}⟩, ⟨.message ⟨2, .appendRequest ⟨"b", 7, 1, 0, []⟩⟩ (.peer "b"), {}⟩, ⟨.command .tick, {}⟩,
    ⟨.command .tick, {}⟩]

def restless : Career :=
  start "a" [.peer "b"] {} ⟨fun _ => 0, 0⟩ { electionTimeout := .ofNat 3 }

theorem elections_timed_of_interrupted :
    let c := restless.after interrupted
    let n := restless.elapsed 0 interrupted
    restless.Unhurried interrupted ∧ n = 2 ∧ c.engine.role = .follower ∧ n < 2 * 3 - 1 ∧
    ∃ e' os, (c.engine.withFaults {}).act (.command .tick) = .ok (e', os) ∧ e'.role = .candidate ∧
      3 ≤ n + 1 ∧ n + 1 ≤ 2 * 3 - 1 := by
  intro c n
  have hr : c.engine.role = .follower := by decide +kernel
  have ht : c.engine.term = 2 := by decide +kernel
  have ho : ((c.engine.withFaults {}).act (.command .tick)).toOption.map (fun out => (out.1.role, out.1.term)) =
    some (.candidate, 3) := by decide +kernel
  have hi : restless.Unhurried interrupted := by
    simp only [interrupted, Unhurried, reduceCtorEq, Call.command.injEq, false_imp_iff, true_imp_iff, and_true,
      true_and]
    decide +kernel
  have ⟨hw, hs⟩ := elections_timed "a" [.peer "b"] {} ⟨fun _ => 0, 0⟩ { electionTimeout := .ofNat 3 } (by decide) hi
  change c.engine.role ≠ .leader → n < _ at hw
  cases ha : (c.engine.withFaults {}).act (.command .tick)
  case error o => rw [ha] at ho; cases ho
  case ok out  =>
    rw [ha] at ho
    obtain ⟨hr', ht'⟩ : out.1.role = .candidate ∧ out.1.term = 3 := by simpa [Except.toOption] using ho
    have hb := hs {} out.1 out.2 ha (by rw [ht']; exact ht ▸ Nat.lt_succ_self 2)
    exact ⟨hi, by decide +kernel, hr, hw (by rw [hr]; decide), out.1, out.2, rfl, hr', hb⟩

end Career
end RaftGroup
