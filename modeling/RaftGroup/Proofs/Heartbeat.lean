import RaftGroup.Node
import RaftGroup.Proofs.Countdown

namespace RaftGroup

namespace Replication

variable {r r' : Replication} {interval left since last : Nat}

-- What the account says so many ticks before the next heartbeat, and after the last request. Without having had a
-- heartbeat since then, or while the reply is awaited, the follower is not late.
structure Supplied (r : Replication) (interval left since : Nat) : Prop where
  waits : r.awaiting = true → min since (UInt32.size - 1) ≤ r.waited
  early : r.heartbeatDue = false → since + left ≤ max interval 1
  late  : r.heartbeatDue = true → r.awaiting = true ∧ since + left < max interval 2 + max interval 1

def Owed (r : Replication) : Prop :=
  r.awaiting = false ∧ r.heartbeatDue = true

theorem Owed.ready (h : r.Owed) (last : Nat) : r.Ready last :=
  ⟨h.left, .inr h.right⟩

theorem owed_fresh (next : Nat) : Owed { next } :=
  ⟨rfl, rfl⟩

theorem supplied_remember (h : left ≤ max interval 1) (r : Replication) (last : Nat) :
    (r.remember last).Supplied interval left 0 where
  waits _ := Nat.le_of_eq (Nat.zero_min _)
  early _ := by omega
  late    := nofun

namespace Supplied

theorem anti (h : r.Supplied interval left since) (hs : since' ≤ since) : r.Supplied interval left since' where
  waits ha := by have := h.waits ha; omega
  early hd := by have := h.early hd; omega
  late  hd := (h.late hd).imp_right fun hl => by omega

theorem since_lt (h : r.Supplied interval left since) (hl : 1 ≤ left) : since < max (2 * interval - 1) 2 := by
  cases hd : r.heartbeatDue
  case false => have := h.early hd; omega
  case true  => have := (h.late hd).right; omega

theorem countTick (h : r.Supplied interval (left + 1) since) : r.countTick.Supplied interval left (since + 1) := by
  rw [Replication.countTick]
  split
  case isTrue ha  =>
    have := h.waits ha
    refine ⟨fun _ => ?_, fun hd => ?_, fun hd => ⟨ha, ?_⟩⟩
    case refine_1 => simp only [addTicks]; omega
    case refine_2 => have := h.early hd; omega
    case refine_3 => have := (h.late hd).right; omega
  case isFalse ha =>
    exact ⟨fun ha' => absurd ha' ha, fun hd => by have := h.early hd; omega, fun hd => absurd (h.late hd).left ha⟩

theorem beat (h : r.Supplied interval 0 since) (hi : interval < UInt32.size) (hb : r.beat (max interval 2) = .ok r') :
    r'.Owed ∨ r'.Supplied interval (max interval 1) since := by
  rw [Replication.beat] at hb
  split at hb
  case isTrue  =>
    obtain ⟨_, _, hb⟩ := bind_eq_ok_iff.mp hb
    cases hb
    exact .inl ⟨rfl, rfl⟩
  case isFalse ho =>
    cases hb
    cases ha : r.awaiting
    case false => exact .inl ⟨rfl, rfl⟩
    case true  =>
      have hw := h.waits ha
      have hp : ¬max interval 2 ≤ r.waited := fun hp => ho ⟨ha, hp⟩
      have hs : UInt32.size = 2 ^ 32 := rfl
      exact .inr ⟨fun _ => hw, Bool.noConfusion, fun _ => ⟨rfl, by omega⟩⟩

end Supplied

theorem settle_supplied (h : r.Owed ∨ r.Supplied interval left since) (hu : r.unanswered ≠ [])
    (hs : r.settle success = .ok r') : r'.Owed ∨ r'.Supplied interval left since := by
  rw [settle] at hs
  split at hs
  case h_1 hn => exact absurd hn hu
  case h_2    =>
    split at hs
    case isFalse => obtain ⟨_, rfl⟩ := reject_eq_ok_iff.mp hs; exact .inl ⟨rfl, rfl⟩
    case isTrue  =>
      obtain ⟨_, rfl⟩ := accept_eq_ok_iff.mp hs
      cases hd : r.heartbeatDue
      case true  => exact .inl ⟨rfl, hd⟩
      case false =>
        obtain h | h := h
        case inl => cases hd.symm.trans h.right
        case inr => exact .inr ⟨Bool.noConfusion, fun _ => h.early hd, fun ht => by cases hd.symm.trans ht⟩

end Replication

def Outgoing.Requests (o : Outgoing) (s : Server) : Prop :=
  o.dest = .to s ∧ o.message.rpc.isAppend = true

instance (o : Outgoing) (s : Server) : Decidable (o.Requests s) :=
  inferInstanceAs (Decidable (_ ∧ _))

def resent (since : Server → Nat) (os : List Outgoing) (s : Server) : Nat :=
  if ∃ o ∈ os, o.Requests s then 0 else since s

theorem resent_le (since : Server → Nat) (os : List Outgoing) (s : Server) : resent since os s ≤ since s := by
  rw [resent]
  split
  case isTrue  => exact Nat.zero_le _
  case isFalse => exact Nat.le_refl _

theorem resent_nil (since : Server → Nat) : resent since [] = since := by
  funext s
  simp [resent]

theorem resent_to_self (since : Server → Nat) (s : Server) (term : Nat) (q : AppendRequest) :
    resent since [⟨.to s, term, .appendRequest q⟩] s = 0 :=
  if_pos ⟨_, List.mem_singleton_self _, rfl, rfl⟩

theorem resent_to_other {s p : Server} (since : Server → Nat) (hs : s ≠ p) (term : Nat) (q : AppendRequest) :
    resent since [⟨.to p, term, .appendRequest q⟩] s = since s := by
  refine if_neg ?_
  rintro ⟨_, ho, hd, _⟩
  cases List.mem_singleton.mp ho
  cases hd
  exact hs rfl

theorem resent_append (since : Server → Nat) (os os' : List Outgoing) :
    resent since (os ++ os') = resent (resent since os) os' := by
  funext s
  simp only [resent, List.mem_append, or_and_right, exists_or]
  by_cases h : ∃ o ∈ os, o.Requests s <;> by_cases h' : ∃ o ∈ os', o.Requests s <;> simp [h, h']

namespace Engine

variable {e e' : Engine} {l : Leadership} {s p : Server} {r r' : Replication} {since : Server → Nat}

-- A leader supplies all of its followers, but it may owe a heartbeat to some of the peers.
structure Supplies (e : Engine) (interval : Nat) (since : Server → Nat) (owed : List Server) : Prop where
  config    : e.config.heartbeatInterval.toNat = interval
  ticks     : ∀ l, e.standing = .leader l → l.ticks ≤ interval
  followers : ∀ l s r, e.standing = .leader l → l.replication? s = some r →
    (s ∈ owed ∧ r.Owed) ∨ r.Supplied interval (max l.ticks 1) (since s)

theorem lookup_countTick (fs : List (Server × Replication)) (s : Server) :
    (fs.map fun (s, r) => (s, r.countTick)).lookup s = (fs.lookup s).map Replication.countTick := by
  induction fs
  case nil          => rfl
  case cons f fs ih =>
    rw [List.map_cons, List.lookup_cons, List.lookup_cons, ih]
    split <;> rfl

theorem lookup_beatAll {fs fs' : List (Server × Replication)} (h : beatAll n fs = .ok fs')
    (hr : fs'.lookup s = some r') : ∃ r, fs.lookup s = some r ∧ r.beat n = .ok r' := by
  induction fs generalizing fs'
  case nil          => cases h; cases hr
  case cons f fs ih =>
    obtain ⟨r₁, hb, h⟩ := bind_eq_ok_iff.mp h
    obtain ⟨fs₁, hf, h⟩ := bind_eq_ok_iff.mp h
    cases h
    rw [List.lookup_cons] at hr ⊢
    split at hr
    case h_1 => cases hr; exact ⟨f.2, rfl, hb⟩
    case h_2 => exact ih hf hr

namespace Supplies

theorem of_standing (h : e.Supplies interval since owed) (hs : e'.standing = e.standing) (hc : e'.config = e.config) :
    e'.Supplies interval since owed where
  config    := hc ▸ h.config
  ticks     := hs ▸ h.ticks
  followers := hs ▸ h.followers

theorem of_not_leader (hc : e.config.heartbeatInterval.toNat = interval) (hn : ∀ l, e.standing ≠ .leader l) :
    e.Supplies interval since owed where
  config             := hc
  ticks l hl         := absurd hl (hn l)
  followers l _ _ hl := absurd hl (hn l)

theorem mono (h : e.Supplies interval since owed) (ho : ∀ s ∈ owed, s ∈ owed') : e.Supplies interval since owed' where
  config                := h.config
  ticks                 := h.ticks
  followers l s r hl hr := (h.followers l s r hl hr).imp_left fun hs => hs.imp_left (ho s)

theorem anti (h : e.Supplies interval since owed) (hs : ∀ s, since' s ≤ since s) :
    e.Supplies interval since' owed where
  config                := h.config
  ticks                 := h.ticks
  followers l s r hl hr := (h.followers l s r hl hr).imp_right fun hd => hd.anti (hs s)

theorem replicateTo (h : e.Supplies interval since (p :: owed)) (hf : e.storage.faults = {}) (hk : e.Kept)
    (hs : e.replicateTo p = .ok turn) :
    turn.engine.Supplies interval (resent since turn.result.toList) owed := by
  obtain ⟨⟨ns, rfl⟩, hn⟩ | ⟨l, r, t, ns, hl, hq, _, _, rfl⟩ := replicateTo_eq_ok hs
  case inl =>
    refine ⟨h.config, h.ticks, fun l s r hl hr => ?_⟩
    obtain ⟨hs, hd⟩ | hd := h.followers l s r hl hr
    case inr => exact .inr hd
    case inl =>
      obtain rfl | hs := List.mem_cons.mp hs
      case inr => exact .inl ⟨hs, hd⟩
      case inl =>
        obtain ⟨t, ht⟩ := ((hk l hl).of_replication? hr).right.exists_ends
        cases (hn l r hl hr (hd.ready _)).symm.trans ((Storage.termAt?_eq_some_iff hf).mpr ht)
  case inr =>
    refine ⟨h.config, ?_, ?_⟩
    case refine_1 => rintro _ ⟨⟩; exact h.ticks l hl
    case refine_2 =>
      rintro _ s r' ⟨⟩ hr'
      rw [Leadership.replication?_update] at hr'
      split at hr'
      case isTrue hs  =>
        subst hs
        rw [hq] at hr'
        cases hr'
        rw [Option.toList_some, resent_to_self]
        have := h.ticks l hl
        exact .inr (Replication.supplied_remember (by dsimp only [Leadership.update]; omega) r _)
      case isFalse hs =>
        rw [Option.toList_some, resent_to_other since hs]
        exact (h.followers l s r' hl hr').imp_left fun ho => ho.imp_left fun ho => (List.mem_cons.mp ho).resolve_left hs

theorem replicateToAll {ps : List Server} (h : e.Supplies interval since ps) (hf : e.storage.faults = {}) (hk : e.Kept)
    (hs : e.replicateToAll ps = .ok turn) : turn.engine.Supplies interval (resent since turn.result) [] := by
  induction ps generalizing e since turn
  case nil          => cases hs; rwa [resent_nil]
  case cons p ps ih =>
    obtain ⟨first, hp, hs⟩ := bind_eq_ok_iff.mp hs
    obtain ⟨rest, hr, hs⟩ := bind_eq_ok_iff.mp hs
    cases hs
    rw [resent_append]
    exact ih (h.replicateTo hf hk hp) ((faults_of_settings (replicateTo_settings hp)).trans hf) (hk.replicateTo hp) hr

theorem asLeader (hc : e.config.heartbeatInterval.toNat = interval) : e.asLeader.Supplies interval since e.peers := by
  refine ⟨hc, ?_, ?_⟩
  case refine_1 => rintro _ ⟨⟩; exact Nat.le_of_eq hc
  case refine_2 =>
    rintro _ s r ⟨⟩ hr
    obtain ⟨before, later, hm, _⟩ := List.lookup_eq_some_iff.mp hr
    have hf : (s, r) ∈ before ++ (s, r) :: later := List.mem_append_right _ List.mem_cons_self
    obtain ⟨_, hs, he⟩ := List.mem_map.mp (hm ▸ hf)
    cases he
    exact .inl ⟨hs, Replication.owed_fresh _⟩

theorem advanceCommit (h : e.Supplies interval since owed) : e.advanceCommit.1.Supplies interval since owed :=
  h.of_standing (advanceCommit_standing e).left (config_of_settings (advanceCommit_settings e))

theorem becomeLeader (h : e.Supplies interval since e.peers) (hb : e.becomeLeader = .ok (e', ns)) :
    e'.Supplies interval since e.peers := by
  obtain ⟨rfl, _⟩ | ⟨_, _, _, rfl⟩ := becomeLeader_eq_ok hb
  case inl => exact h
  case inr => exact (asLeader h.config).advanceCommit

theorem adoptTerm (h : e.Supplies interval since owed) (s : Server) (m : Message) :
    (e.adoptTerm s m).1.Supplies interval since owed := by
  rw [Engine.adoptTerm]
  split
  case isTrue  => exact of_not_leader h.config fun _ => Standing.noConfusion
  case isFalse => exact h

theorem giveVote (h : e.Supplies interval since owed) (s : Server) : (e.giveVote s).Supplies interval since owed := by
  cases hs : e.standing
  case follower f =>
    have hg : (e.giveVote s).standing = .follower { f with ticks := f.timeout } := by rw [Engine.giveVote, hs]
    exact of_not_leader h.config fun l hl => by cases hg.symm.trans hl
  all_goals exact h.of_standing (by rw [Engine.giveVote, hs]) rfl

theorem countVote (h : e.Supplies interval since owed) (granted : Bool) (s : Server) :
    (e.countVote granted s).1.Supplies interval since owed := by
  rw [Engine.countVote]
  split
  case h_2 => exact h
  case h_1 =>
    split
    case isTrue  => exact of_not_leader h.config fun _ => Standing.noConfusion
    case isFalse => exact h

theorem answerAppend (h : e.Supplies interval since owed) (ha : e.answerAppend t q s = .ok turn) :
    turn.engine.Supplies interval since owed := by
  by_cases hr : turn.engine.role = .follower
  case neg => rw [answerAppend_engine ha hr]; exact h
  case pos =>
    refine of_not_leader ((config_of_settings (answerAppend_settings ha)) ▸ h.config) fun l hl => ?_
    rw [role, hl] at hr
    cases hr

theorem readAppendReply (h : e.Supplies interval since e.peers) (hk : e.Kept)
    (hr : e.readAppendReply success s = .ok (e', ns)) : e'.Supplies interval since e.peers := by
  obtain rfl | ⟨l, r, r', hl, hq, hu, hs, rfl⟩ := readAppendReply_eq_ok hr
  case inl => exact h
  case inr =>
    refine ⟨h.config, ?_, ?_⟩
    case refine_1 => rintro _ ⟨⟩; exact h.ticks l hl
    case refine_2 =>
      rintro _ p r₁ ⟨⟩ hp
      rw [Leadership.replication?_update] at hp
      split at hp
      case isFalse   => exact h.followers l p r₁ hl hp
      case isTrue he =>
        subst he
        rw [hq] at hp
        cases hp
        have hm := ((hk l hl).of_replication? hq).left
        have hd := Replication.settle_supplied ((h.followers l p r hl hq).imp_left And.right) hu hs
        exact hd.imp_left (⟨hm, ·⟩)

theorem handle (h : e.Supplies interval since e.peers) (hk : e.Kept) (hh : e.handle s m = .ok turn) :
    turn.engine.Supplies interval since e.peers := by
  rw [Engine.handle] at hh
  split at hh
  case isTrue  => cases hh; exact h
  case isFalse =>
    split at hh
    case h_1 =>
      cases hh
      rw [answerVote]
      dsimp only
      split
      case isTrue  => exact h.giveVote s
      case isFalse => exact h
    case h_2 granted _ =>
      have hc := h.countVote granted s
      cases hh
      exact hc
    case h_3 => exact h.answerAppend hh
    case h_4 =>
      obtain ⟨⟨e', ns⟩, hr, hh⟩ := bind_eq_ok_iff.mp hh
      cases hh
      exact h.readAppendReply hk hr

theorem receive (h : e.Supplies interval since e.peers) (hk : e.Kept) (hr : e.receive m s = .ok turn) :
    turn.engine.Supplies interval since e.peers := by
  obtain ⟨_, rfl⟩ | ⟨_, replied, e₂, ns, _, hh, hb, rfl⟩ := receive_eq_ok hr
  case inl => exact h
  case inr =>
    have hp : (e.adoptTerm s.asPeer m).1.peers = e.peers := peers_of_settings (adoptTerm_settings e s.asPeer m)
    have hp' : replied.engine.peers = e.peers := (peers_of_settings (handle_settings hh)).trans hp
    have hs := h.adoptTerm s.asPeer m
    rw [← hp] at hs
    have hs := hs.handle (hk.adoptTerm s.asPeer m) hh
    rw [hp, ← hp'] at hs
    exact hp' ▸ (hs.becomeLeader hb).advanceCommit

theorem submit (h : e.Supplies interval since owed) (hs : e.submit payload = .ok turn) :
    turn.engine.Supplies interval since owed :=
  h.of_standing (submit_standing hs).left (config_of_settings (submit_settings hs))

theorem takeCommitted (h : e.Supplies interval since owed) (limit : Nat) :
    (takeCommitted limit e).2.Supplies interval since owed :=
  h.of_standing (takeCommitted_standing limit e).left (config_of_settings (takeCommitted_settings limit e))

theorem countTick (h : e.Supplies interval since []) (hl : e.standing = .leader l) (hn : 1 < l.ticks)
    (hr : (l.followers.map fun (s, r) => (s, r.countTick)).lookup s = some r') :
    r'.Supplied interval (max (l.ticks - 1) 1) (since s + 1) := by
  obtain ⟨r, hq, rfl⟩ := Option.map_eq_some_iff.mp (lookup_countTick l.followers s ▸ hr)
  have hs := (h.followers l s r hl hq).resolve_left fun hs => List.not_mem_nil hs.left
  rw [show max l.ticks 1 = max (l.ticks - 1) 1 + 1 by omega] at hs
  exact hs.countTick

theorem beat (h : e.Supplies interval since []) (hl : e.standing = .leader l) (hn : l.ticks ≤ 1)
    (hb : beatAll e.patience (l.followers.map fun (s, r) => (s, r.countTick)) = .ok beaten)
    (hr : beaten.lookup s = some r') : r'.Owed ∨ r'.Supplied interval (max interval 1) (since s + 1) := by
  obtain ⟨r₁, hr₁, hb⟩ := lookup_beatAll hb hr
  obtain ⟨r, hq, rfl⟩ := Option.map_eq_some_iff.mp (lookup_countTick l.followers s ▸ hr₁)
  have hs := (h.followers l s r hl hq).resolve_left fun hs => List.not_mem_nil hs.left
  rw [show max l.ticks 1 = 0 + 1 by omega] at hs
  rw [patience, h.config] at hb
  exact hs.countTick.beat (h.config ▸ e.config.heartbeatInterval.toNat_lt) hb

theorem leaderTick (h : e.Supplies interval since []) (hk : e.Kept) (hl : e.standing = .leader l)
    (ht : e.leaderTick l = .ok (e', ns)) : e'.Supplies interval (fun s => since s + 1) e.peers := by
  have hi := h.config
  have hl' := h.ticks l hl
  have hk' := hk.leaderTick hl ht
  rw [Engine.leaderTick] at ht
  split at ht
  case isFalse hn =>
    cases ht
    refine ⟨hi, ?_, ?_⟩
    case refine_1 => rintro _ ⟨⟩; dsimp only; omega
    case refine_2 => rintro _ s r' ⟨⟩ hr; exact .inr (h.countTick hl (Nat.lt_of_not_le hn) hr)
  case isTrue hn =>
    obtain ⟨beaten, hb, ht⟩ := bind_eq_ok_iff.mp ht
    cases ht
    refine ⟨hi, ?_, ?_⟩
    case refine_1 => rintro _ ⟨⟩; exact Nat.le_of_eq hi
    case refine_2 =>
      rintro _ s r' ⟨⟩ hr
      have hs := ((hk' _ rfl).of_replication? hr).left
      rw [hi]
      exact (h.beat hl hn hb hr).imp_left (⟨hs, ·⟩)

theorem campaign (h : e.Supplies interval since e.peers) (hc : e.campaign = .ok e') :
    e'.Supplies interval since e'.peers ∧ e'.peers = e.peers := by
  obtain ⟨_, rfl⟩ := campaign_eq_ok hc
  exact ⟨of_not_leader h.config fun l hl => (by cases hl), rfl⟩

theorem timeout (h : e.Supplies interval since e.peers) (ht : e.timeout = .ok turn) :
    turn.engine.Supplies interval since e.peers := by
  obtain ⟨_, rfl⟩ | ⟨_, e₁, e₂, ns, hc, hb, rfl⟩ := timeout_eq_ok ht
  case inl => exact h
  case inr =>
    obtain ⟨hs, hp⟩ := h.campaign hc
    exact hp ▸ hs.becomeLeader hb

theorem electionTick (h : e.Supplies interval since e.peers) (hw : ∀ n l, wait n ≠ .leader l)
    (ht : e.electionTick n wait = .ok turn) : turn.engine.Supplies interval since e.peers := by
  obtain ⟨_, rfl⟩ | ⟨_, out, ho, rfl⟩ := electionTick_eq_ok ht
  case inl => exact of_not_leader h.config (hw _)
  case inr => exact (h.timeout ho :)

theorem tick_of_not_leader (h : e.Supplies interval since e.peers) (hr : e.role ≠ .leader) (ht : e.tick = .ok turn) :
    turn.engine.Supplies interval since e.peers := by
  rw [Engine.tick] at ht
  split at ht
  case h_1      => exact h.electionTick (fun _ _ => Standing.noConfusion) ht
  case h_2      => exact h.electionTick (fun _ _ => Standing.noConfusion) ht
  case h_3 l hl => exact absurd (by rw [role, hl]) hr

theorem tick (h : e.Supplies interval since []) (hk : e.Kept) (ht : e.tick = .ok turn) :
    turn.engine.Supplies interval (fun s => since s + 1) e.peers := by
  by_cases hr : e.role = .leader
  case pos =>
    obtain ⟨l, hl⟩ := standing_of_role hr
    rw [Engine.tick, hl] at ht
    obtain ⟨⟨e', ns⟩, hb, ht⟩ := bind_eq_ok_iff.mp ht
    cases ht
    exact h.leaderTick hk hl hb
  case neg => exact (of_not_leader h.config fun l hl => hr (by rw [role, hl])).tick_of_not_leader hr ht

theorem since_lt (h : e.Supplies interval since []) (hk : e.Kept) (hr : e.role = .leader) (hs : s ∈ e.peers) :
    since s < max (2 * interval - 1) 2 := by
  obtain ⟨l, hl⟩ := standing_of_role hr
  obtain ⟨r, hq⟩ := hk.exists_replication hr hs
  rw [replication?, hl] at hq
  have hd := (h.followers l s r hl hq).resolve_left fun hs => List.not_mem_nil hs.left
  exact hd.since_lt (Nat.le_max_right ..)

end Supplies

theorem replicateToAll_kept {ps : List Server} (hk : e.Kept) (h : e.replicateToAll ps = .ok turn) :
    turn.engine.Kept ∧ turn.engine.settings = e.settings := by
  induction ps generalizing e turn
  case nil          => cases h; exact ⟨hk, rfl⟩
  case cons p ps ih =>
    obtain ⟨first, hp, h⟩ := bind_eq_ok_iff.mp h
    obtain ⟨rest, hr, h⟩ := bind_eq_ok_iff.mp h
    cases h
    exact (ih (hk.replicateTo hp) hr).imp_right fun hs => hs.trans (replicateTo_settings hp)

theorem replicateToAll_role {ps : List Server} (h : e.replicateToAll ps = .ok turn) :
    turn.engine.role = e.role ∧ turn.engine.term = e.term := by
  induction ps generalizing e turn
  case nil          => cases h; exact ⟨rfl, rfl⟩
  case cons p ps ih =>
    obtain ⟨first, hp, h⟩ := bind_eq_ok_iff.mp h
    obtain ⟨rest, hr, h⟩ := bind_eq_ok_iff.mp h
    cases h
    obtain ⟨hr, ht⟩ := ih hr
    have hs : first.engine.role = e.role := by
      obtain ⟨⟨_, rfl⟩, _⟩ | ⟨l, _, _, _, hl, _, _, _, rfl⟩ := replicateTo_eq_ok hp
      case inl => rfl
      case inr => rw [role, role, hl]
    exact ⟨hr.trans hs, ht.trans (replicateTo_spec hp).left⟩

end Engine

namespace Node

inductive Call
  | tick
  | message (m : Message) (sender : Server)
  | submit (payload : Payload)
  | take (limit : Nat)

def Call.ticks : Call → Nat
  | .tick => 1
  | _     => 0

def sent (turn : Turn Submission) : List Outgoing :=
  match turn.result with
  | .ok (_, os) => os
  | .error _    => []

def answer (e : Engine) : Call → Except Overflow (Engine × List Outgoing)
  | .tick        => (fun turn => (turn.engine, turn.result)) <$> tick e
  | .message m s => (fun turn => (turn.engine, turn.result)) <$> receive e m s
  | .submit p    => (fun turn => (turn.engine, sent turn)) <$> submit e p
  | .take limit  => .ok ((e.takeCommitted limit).2, [])

variable {e e' : Engine} {os : List Outgoing} {c : Call}

structure Steady (e : Engine) (interval : Nat) (since : Server → Nat) : Prop where
  kept     : e.Kept
  plain    : e.storage.faults = {}
  supplies : e.Supplies interval since []

theorem Steady.flush (hk : e.Kept) (hf : e.storage.faults = {}) (h : e.Supplies interval since e.peers)
    (hs : flush e = .ok turn) : Steady turn.engine interval (resent since turn.result) where
  kept     := (Engine.replicateToAll_kept hk hs).left
  plain    := (Engine.faults_of_settings (Engine.replicateToAll_kept hk hs).right).trans hf
  supplies := h.replicateToAll hf hk hs

theorem Steady.andFlush {turn : Turn (Option Outgoing)} (hk : turn.engine.Kept) (hf : turn.engine.storage.faults = {})
    (h : turn.engine.Supplies interval since turn.engine.peers) (ha : andFlush turn = .ok flushed) :
    Steady flushed.engine interval (resent since flushed.result) := by
  obtain ⟨rest, hs, ha⟩ := bind_eq_ok_iff.mp ha
  cases ha
  rw [resent_append]
  exact .flush hk hf (h.anti (resent_le since _)) hs

theorem andFlush_role {turn : Turn (Option Outgoing)} (ha : andFlush turn = .ok flushed) :
    flushed.engine.role = turn.engine.role ∧ flushed.engine.term = turn.engine.term := by
  obtain ⟨rest, hs, ha⟩ := bind_eq_ok_iff.mp ha
  have hr := Engine.replicateToAll_role hs
  cases ha
  exact hr

theorem Steady.tick (h : Steady e interval since) (ht : tick e = .ok turn) :
    Steady turn.engine interval (resent (fun s => since s + 1) turn.result) := by
  obtain ⟨first, ho, ht⟩ := bind_eq_ok_iff.mp ht
  have hs := Engine.tick_settings ho
  refine .andFlush (h.kept.tick ho) ((Engine.faults_of_settings hs).trans h.plain) ?_ ht
  exact Engine.peers_of_settings hs ▸ h.supplies.tick h.kept ho

theorem Steady.receive (h : Steady e interval since) (hr : receive e m s = .ok turn) :
    Steady turn.engine interval (resent since turn.result) := by
  obtain ⟨first, ho, ht⟩ := bind_eq_ok_iff.mp hr
  have hs := Engine.receive_settings ho
  refine .andFlush (h.kept.receive ho) ((Engine.faults_of_settings hs).trans h.plain) ?_ ht
  exact Engine.peers_of_settings hs ▸ (h.supplies.mono nofun).receive h.kept ho

theorem Steady.submit (h : Steady e interval since) (hr : submit e payload = .ok turn) :
    Steady turn.engine interval (resent since (sent turn)) := by
  obtain ⟨first, ho, ht⟩ := bind_eq_ok_iff.mp hr
  have hs := Engine.submit_settings ho
  have hk := h.kept.submit ho
  have hf := (Engine.faults_of_settings hs).trans h.plain
  have hd := h.supplies.submit ho
  split at ht
  case h_1 => cases ht; exact ⟨hk, hf, (resent_nil since).symm ▸ hd⟩
  case h_2 =>
    obtain ⟨rest, hs, ht⟩ := bind_eq_ok_iff.mp ht
    cases ht
    exact .flush hk hf (hd.mono nofun) hs

theorem Steady.answer (h : Steady e interval since) (ha : answer e c = .ok (e', os)) :
    Steady e' interval (resent (fun s => since s + c.ticks) os) := by
  cases c
  case tick    => obtain ⟨_, ht, ha⟩ := map_eq_ok_iff.mp ha; cases ha; exact h.tick ht
  case message => obtain ⟨_, ht, ha⟩ := map_eq_ok_iff.mp ha; cases ha; exact h.receive ht
  case submit  => obtain ⟨_, ht, ha⟩ := map_eq_ok_iff.mp ha; cases ha; exact h.submit ht
  case take n  =>
    cases ha
    have hs := Engine.takeCommitted_settings n e
    exact ⟨h.kept.takeCommitted n, (Engine.faults_of_settings hs).trans h.plain,
      (resent_nil since).symm ▸ h.supplies.takeCommitted n⟩

theorem Steady.start (id : String) (peers : List Server) (log : Log) (random : RandomSource) (config : Config)
    (since : Server → Nat) :
    Steady (.start id peers ⟨log, {}⟩ random config) config.heartbeatInterval.toNat since where
  kept     := Engine.kept_of_not_leader fun _ => Standing.noConfusion
  plain    := rfl
  supplies := .of_not_leader rfl fun _ => Standing.noConfusion

theorem term_of_leads (ha : answer e c = .ok (e', os)) (hr : e.role = .leader) (hr' : e'.role = .leader) :
    e'.term = e.term := by
  cases c
  case tick =>
    obtain ⟨turn, ht, ha⟩ := map_eq_ok_iff.mp ha
    cases ha
    obtain ⟨first, ho, ht⟩ := bind_eq_ok_iff.mp ht
    obtain ⟨-, hn⟩ := andFlush_role ht
    obtain ⟨l, hl⟩ := Engine.standing_of_role hr
    rw [Engine.tick, hl] at ho
    obtain ⟨⟨e', ns⟩, hb, ho⟩ := bind_eq_ok_iff.mp ho
    obtain ⟨_, rfl, _⟩ := Engine.leaderTick_eq_ok hb
    cases ho
    exact hn
  case message m s =>
    obtain ⟨turn, ht, ha⟩ := map_eq_ok_iff.mp ha
    cases ha
    obtain ⟨first, ho, ht⟩ := bind_eq_ok_iff.mp ht
    obtain ⟨hl, hn⟩ := andFlush_role ht
    obtain ⟨hs, _⟩ | ⟨_, ht, _⟩ := Engine.receive_accounts (i := s.id) ho (hl.symm.trans hr') s
    case inl => exact absurd hr hs
    case inr => exact hn.trans ht
  case submit p =>
    obtain ⟨turn, ht, ha⟩ := map_eq_ok_iff.mp ha
    cases ha
    obtain ⟨first, ho, ht⟩ := bind_eq_ok_iff.mp ht
    have hn := (Engine.submit_standing ho).right
    split at ht
    case h_1 => cases ht; exact hn
    case h_2 =>
      obtain ⟨rest, hs, ht⟩ := bind_eq_ok_iff.mp ht
      cases ht
      exact (Engine.replicateToAll_role hs).right.trans hn
  case take n =>
    cases ha
    exact (Engine.takeCommitted_standing n e).right

structure Watch where
  engine : Engine
  since : Server → Nat := fun _ => 0

namespace Watch

def start (id : String) (peers : List Server) (log : Log) (random : RandomSource) (config : Config) : Watch where
  engine := .start id peers ⟨log, {}⟩ random config

def step (w : Watch) (c : Call) : Watch :=
  match answer w.engine c with
  | .ok (e, os) => ⟨e, resent (fun s => w.since s + c.ticks) os⟩
  | .error _    => w

def after (w : Watch) (calls : List Call) : Watch :=
  calls.foldl step w

theorem after_steady {w : Watch} (h : Steady w.engine interval w.since) (calls : List Call) :
    Steady (w.after calls).engine interval (w.after calls).since := by
  induction calls generalizing w
  case nil             => exact h
  case cons c calls ih =>
    refine ih (w := w.step c) ?_
    rw [step]
    split
    case h_1 ha => exact h.answer ha
    case h_2    => exact h

end Watch

-- Whatever a node is asked and told: the call by which it comes to lead sends a request to every peer, and as long as
-- it leads, in a term that stays the same, the last request to any peer is less than twice the heartbeat interval, less
-- one tick, ago, or less than two ticks if the interval is shorter than two.
theorem followers_supplied (id : String) (peers : List Server) (log : Log) (random : RandomSource) (config : Config)
    (calls : List Call) :
    let w := (Watch.start id peers log random config).after calls
    (w.engine.role = .leader → ∀ s ∈ w.engine.peers,
      w.since s < max (2 * config.heartbeatInterval.toNat - 1) 2) ∧
    ∀ c e os, answer w.engine c = .ok (e, os) → e.role = .leader →
      (w.engine.role = .leader → e.term = w.engine.term) ∧
      (w.engine.role ≠ .leader → ∀ s ∈ e.peers, ∃ o ∈ os, o.Requests s) := by
  intro w
  have h : Steady w.engine config.heartbeatInterval.toNat w.since :=
    Watch.after_steady (.start id peers log random config _) calls
  refine ⟨fun hr s hs => h.supplies.since_lt h.kept hr hs, fun c e os ha hl => ⟨fun hr => ?_, fun hr s hs => ?_⟩⟩
  case refine_1 => exact term_of_leads ha hr hl
  case refine_2 =>
    -- Whoever has not led so far is not late, however long ago its last request may have been.
    let long : Server → Nat := fun _ => max (2 * config.heartbeatInterval.toNat - 1) 2
    have hn : Steady w.engine config.heartbeatInterval.toNat long :=
      ⟨h.kept, h.plain, .of_not_leader h.supplies.config fun l hs => hr (by rw [Engine.role, hs])⟩
    have hd := hn.answer ha
    have hlt := hd.supplies.since_lt hd.kept hl hs
    by_contra hno
    rw [resent, if_neg hno] at hlt
    exact absurd hlt (Nat.not_lt_of_le (Nat.le_add_right ..))

-- With an interval of three ticks as many as four can pass: a command comes right after a tick, nobody answers the
-- request with it, and at the next heartbeat it is too early to give it up. The call after that sends one.
theorem followers_supplied_of_silent_peer :
    let calls : List Call := [.tick, .message ⟨1, .voteReply true⟩ (.peer "b"),
      .message ⟨1, .appendReply true⟩ (.peer "b"), .tick, .submit (.text [119]), .tick, .tick, .tick, .tick]
    let w := (Watch.start "a" [.peer "b"] {} ⟨fun _ => 0, 0⟩ { electionTimeout := .ofNat 1 }).after calls
    w.engine.role = .leader ∧ w.since (.peer "b") = 4 ∧ w.since (.peer "b") < max (2 * 3 - 1) 2 ∧
    (w.after [.tick]).since (.peer "b") = 0 := by
  intro calls w
  have hl : w.engine.role = .leader := by decide +kernel
  have hp : Server.peer "b" ∈ w.engine.peers := by decide +kernel
  have h := followers_supplied "a" [.peer "b"] {} ⟨fun _ => 0, 0⟩ { electionTimeout := .ofNat 1 } calls
  exact ⟨hl, by decide +kernel, h.left hl _ hp, by decide +kernel⟩

end Node
end RaftGroup
