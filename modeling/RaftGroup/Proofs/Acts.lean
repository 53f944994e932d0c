import RaftGroup.Proofs.Gist

namespace RaftGroup

open Entries Gist

namespace Commit

theorem perm_insertDown (n : Nat) (ms : List Nat) : (insertDown n ms).Perm (n :: ms) := by
  induction ms
  case nil => exact .refl _
  case cons m ms hi =>
    rw [insertDown]
    split
    case isTrue  => exact .refl _
    case isFalse => exact (hi.cons m).trans (.swap ..)

theorem perm_sortDown (ns : List Nat) : (sortDown ns).Perm ns := by
  induction ns
  case nil          => exact .refl _
  case cons n ns hi => exact (perm_insertDown ..).trans (hi.cons n)

theorem pairwise_insertDown (h : ms.Pairwise (· ≥ ·)) : (insertDown n ms).Pairwise (· ≥ ·) := by
  induction ms
  case nil => exact List.pairwise_singleton ..
  case cons m ms hi =>
    have ⟨hm, hms⟩ := List.pairwise_cons.mp h
    rw [insertDown]
    split
    case isTrue hn =>
      refine List.pairwise_cons.mpr ⟨fun k hk => ?_, h⟩
      cases List.mem_cons.mp hk
      case inl hk => exact hk ▸ hn
      case inr hk => exact Nat.le_trans (hm k hk) hn
    case isFalse hn =>
      refine List.pairwise_cons.mpr ⟨fun k hk => ?_, hi hms⟩
      cases List.mem_cons.mp ((perm_insertDown ..).mem_iff.mp hk)
      case inl hk => exact hk ▸ Nat.le_of_not_le hn
      case inr hk => exact hm k hk

theorem pairwise_sortDown (ns : List Nat) : (sortDown ns).Pairwise (· ≥ ·) := by
  induction ns
  case nil         => exact List.Pairwise.nil
  case cons _ _ hi => exact pairwise_insertDown hi

theorem le_countP_of_agreed? (h : agreed? quorum ms = some n) : quorum ≤ ms.countP (n ≤ ·) := by
  have ⟨hl, hn⟩ := List.getElem?_eq_some_iff.mp h
  have ha : ∀ m ∈ (sortDown ms).take quorum, n ≤ m := by
    intro m hm
    have ⟨i, hi, hm⟩ := List.mem_take_iff_getElem.mp hm
    by_cases hq : i = quorum - 1
    case pos => subst hq; exact Nat.le_of_eq (hn.symm.trans hm)
    case neg => exact hm ▸ hn ▸ List.pairwise_iff_getElem.mp (pairwise_sortDown ms) _ _ _ hl (by omega)
  calc quorum
    _ ≤ ((sortDown ms).take quorum).length           := by rw [List.length_take]; omega
    _ = ((sortDown ms).take quorum).countP (n ≤ ·)   := (List.countP_eq_length.mpr (by simpa using ha)).symm
    _ ≤ (sortDown ms).countP (n ≤ ·)                 := (List.take_sublist ..).countP_le
    _ = ms.countP (n ≤ ·)                            := (perm_sortDown ms).countP_eq _

end Commit

-- A turn of an engine: what is said is true of some state in between. Only who leads before makes requests to append.
structure Engine.Acts (sound : Prop) (post : List Posted) (cause : Option Nat) (e : Engine)
    (r : Engine × List Outgoing) : Prop where
  turn  : ∃ g, Moves sound post e.gist g ∧ Moves sound post g r.1.gist ∧
    ∀ o ∈ r.2, ∀ l ∈ Group.letters r.1 e.id o, g.Says post ⟨l, cause⟩
  leads : ∀ o ∈ r.2, ∀ q, o.message.rpc = .appendRequest q → e.role = .leader ∧ o.message.term = e.term

namespace Engine

variable {e e' : Engine} {sound : Prop} {post : List Posted} {cause : Option Nat}

theorem gist_role (e : Engine) : e.gist.role = e.role := by
  cases h : e.standing <;> simp [gist, Gist.role, h, Standing.rank, Rank.role, role]

theorem Acts.silent (h : Moves sound post e.gist e'.gist) : e.Acts sound post cause (e', []) :=
  ⟨⟨_, h, .refl, nofun⟩, nofun⟩

theorem advanceCommit_moves (e : Engine) : Moves sound post e.gist e.advanceCommit.1.gist := by
  rw [advanceCommit]
  split
  case h_2 => exact .refl
  case h_1 l hl =>
    repeat' split
    case h_2         => exact .refl
    case h_1.isFalse => exact .refl
    case h_1.isTrue n hn ht =>
      cases n
      case zero   => exact (Nat.max_eq_left (Nat.zero_le e.commit)).symm ▸ .refl
      case succ n =>
        have hq := Commit.le_countP_of_agreed? hn
        refine .single (.agree (by rw [gist, hl, Standing.rank]) (Storage.ends_of_termAt? ht) ?_)
        rw [matchedOf, List.map_map]
        exact hq

def asLeader (e : Engine) : Engine :=
  { e with
    standing := .leader ⟨e.peers.map (·, { next := e.storage.lastIndex + 1 }), e.config.heartbeatInterval.toNat⟩ }

theorem becomeLeader_eq_ok (h : e.becomeLeader = .ok (e', ns)) :
    (e' = e ∧ ∀ c, e.standing = .candidate c → c.votes.length < e.quorum) ∨
    ∃ c, e.standing = .candidate c ∧ e.quorum ≤ c.votes.length ∧ e' = e.asLeader.advanceCommit.1 := by
  rw [becomeLeader] at h
  split at h
  case h_2 hn   => cases h; exact .inl ⟨rfl, fun c hc => absurd hc (hn c)⟩
  case h_1 c hc =>
    split at h
    case isFalse hq => cases h; exact .inl ⟨rfl, fun _ hc' => by cases hc.symm.trans hc'; exact Nat.lt_of_not_le hq⟩
    case isTrue hq  =>
      obtain ⟨_, hn, h⟩ := bind_eq_ok_iff.mp h
      obtain ⟨rfl, _⟩ := advance_eq_ok_iff.mp hn
      cases h
      exact .inr ⟨c, hc, hq, rfl⟩

theorem becomeLeader_moves (h : e.becomeLeader = .ok (e', ns)) : Moves sound post e.gist e'.gist := by
  obtain ⟨rfl, _⟩ | ⟨c, hc, hq, rfl⟩ := becomeLeader_eq_ok h
  case inl => exact .refl
  case inr =>
    have he : Moves sound post e.gist _ := .single (.elect (by rw [gist, hc, Standing.rank]) hq)
    have ha : Moves sound post e.asLeader.gist _ := advanceCommit_moves e.asLeader
    rw [gist, asLeader, Standing.rank, matchedOf, List.map_map] at ha
    exact he.trans ha

theorem campaign_eq_ok (h : e.campaign = .ok e') : e.term + 1 < wordSize ∧
    e' = { e with
      term := e.term + 1, vote := some e.me, random := (e.random.electionTicks e.config).2
      standing := .candidate ⟨[e.me], (e.random.electionTicks e.config).1⟩ } := by
  obtain ⟨term, ha, h⟩ := bind_eq_ok_iff.mp h
  obtain ⟨rfl, ht⟩ := advance_eq_ok_iff.mp ha
  cases h
  exact ⟨ht, rfl⟩

theorem campaign_moves (hr : e.role ≠ .leader) (h : e.campaign = .ok e') : Moves sound post e.gist e'.gist := by
  obtain ⟨_, rfl⟩ := campaign_eq_ok h
  exact .single (.campaign (gist_role e ▸ hr))

theorem timeout_eq_ok (h : e.timeout = .ok turn) :
    (e.role = .leader ∧ turn = ⟨e, none, []⟩) ∨
    (e.role ≠ .leader ∧ ∃ e₁ e₂ ns, e.campaign = .ok e₁ ∧ e₁.becomeLeader = .ok (e₂, ns) ∧
      turn = ⟨e₂, e₂.voteRequest?, .becameCandidate e₁.term :: ns⟩) := by
  rw [timeout] at h
  split at h
  case h_1 l hl =>
    cases h
    exact .inl ⟨by rw [role, hl], rfl⟩
  case h_2 hl   =>
    have hr : e.role ≠ .leader := by cases hs : e.standing <;> simp_all [role]
    obtain ⟨e₁, h₁, h⟩ := bind_eq_ok_iff.mp h
    obtain ⟨⟨e₂, ns⟩, h₂, h⟩ := bind_eq_ok_iff.mp h
    cases h
    exact .inr ⟨hr, e₁, e₂, ns, h₁, h₂, rfl⟩

theorem electionTick_eq_ok (h : e.electionTick ticks wait = .ok turn) :
    (1 < ticks ∧ turn = ⟨{ e with standing := wait (ticks - 1) }, none, []⟩) ∨
    (ticks ≤ 1 ∧ ∃ out, e.timeout = .ok out ∧
      turn = { out with notices := .electionTimeout e.term :: out.notices }) := by
  rw [electionTick] at h
  split at h
  case isFalse hn => cases h; exact .inl ⟨Nat.lt_of_not_le hn, rfl⟩
  case isTrue hn  =>
    obtain ⟨out, ho, h⟩ := bind_eq_ok_iff.mp h
    cases h
    exact .inr ⟨hn, out, ho, rfl⟩

theorem says_voteRequest (hc : e.standing = .candidate c) :
    e.gist.Says post ⟨⟨e.id, j, ⟨e.term, .voteRequest ⟨e.id, e.storage.lastIndex, e.storage.lastTerm⟩⟩⟩, cause⟩ where
  sender := rfl
  term   := rfl
  stands := fun _ hr => by cases hr; exact ⟨by rw [gist_role, role, hc], rfl, rfl⟩
  votes  := nofun
  leads  := nofun
  holds  := nofun

theorem timeout_acts (h : e.timeout = .ok turn) : e.Acts sound post cause turn.outcome := by
  obtain ⟨_, rfl⟩ | ⟨hr, e₁, e₂, ns, h₁, h₂, rfl⟩ := timeout_eq_ok h
  case inl => exact .silent .refl
  case inr =>
    have hm : Moves sound post e.gist e₂.gist := (campaign_moves hr h₁).trans (becomeLeader_moves h₂)
    have hi : e₂.id = e.id := hm.evolves.id
    cases hc : e₂.standing
    case candidate c =>
      simp only [Turn.outcome, voteRequest?, hc, Option.toList]
      refine ⟨⟨_, hm, .refl, fun o ho l hl => ?_⟩, fun o ho => ?_⟩
      case refine_1 =>
        cases List.mem_singleton.mp ho
        have ⟨s, _, hl⟩ := List.mem_map.mp hl
        exact hl ▸ hi ▸ says_voteRequest hc
      case refine_2 =>
        cases List.mem_singleton.mp ho
        exact nofun
    all_goals
      simp only [Turn.outcome, voteRequest?, hc, Option.toList]
      exact .silent hm

theorem electionTick_acts (hw : ∀ n, (wait n).rank = e.standing.rank) (h : e.electionTick ticks wait = .ok turn) :
    e.Acts sound post cause turn.outcome := by
  obtain ⟨_, rfl⟩ | ⟨_, out, ho, rfl⟩ := electionTick_eq_ok h
  case inl => exact .silent (by rw [gist, gist, hw]; exact .refl)
  case inr =>
    have ha : e.Acts sound post cause out.outcome := timeout_acts ho
    exact ha

def knownOf (fs : List (Server × Replication)) : List (Server × Nat × List Nat) :=
  fs.map fun f => (f.1, f.2.matched, f.2.unanswered)

theorem beat_known (h : Replication.beat r n = .ok r') : r'.matched = r.matched ∧ r'.unanswered = r.unanswered := by
  rw [Replication.beat] at h
  split at h
  case isFalse => cases h; exact ⟨rfl, rfl⟩
  case isTrue  =>
    have ⟨_, _, h⟩ := bind_eq_ok_iff.mp h
    cases h
    exact ⟨rfl, rfl⟩

theorem beatAll_known (h : beatAll n fs = .ok fs') : knownOf fs' = knownOf fs := by
  induction fs generalizing fs'
  case nil => cases h; rfl
  case cons f fs hi =>
    have ⟨r', hr, h⟩ := bind_eq_ok_iff.mp h
    have ⟨fs', hf, h⟩ := bind_eq_ok_iff.mp h
    cases h
    have ⟨hm, hu⟩ := beat_known hr
    simp only [knownOf, List.map_cons, hm, hu]
    exact congrArg _ (hi hf)

theorem countTick_known (fs : List (Server × Replication)) :
    knownOf (fs.map fun (s, r) => (s, r.countTick)) = knownOf fs := by
  simp only [knownOf, List.map_map]
  refine List.map_congr_left fun f _ => ?_
  simp only [Function.comp_apply, Replication.countTick]
  split <;> rfl

theorem leaderTick_eq_ok (h : e.leaderTick l = .ok (e', ns)) :
    ∃ l', e' = { e with standing := .leader l' } ∧ knownOf l'.followers = knownOf l.followers := by
  rw [leaderTick] at h
  split at h
  case isTrue =>
    have ⟨fs, hf, h⟩ := bind_eq_ok_iff.mp h
    cases h
    exact ⟨_, rfl, (beatAll_known hf).trans (countTick_known _)⟩
  case isFalse =>
    cases h
    exact ⟨_, rfl, countTick_known _⟩

theorem matchedOf_eq_map_knownOf (fs : List (Server × Replication)) :
    matchedOf fs = (knownOf fs).map fun f => (f.1, f.2.1) := by
  rw [knownOf, List.map_map]
  rfl

theorem leaderTick_gist (hl : e.standing = .leader l) (h : e.leaderTick l = .ok (e', ns)) : e'.gist = e.gist := by
  obtain ⟨l', rfl, hk⟩ := leaderTick_eq_ok h
  rw [gist, gist, hl, Standing.rank, Standing.rank, matchedOf_eq_map_knownOf, hk, matchedOf_eq_map_knownOf]

theorem tick_acts (h : e.tick = .ok turn) : e.Acts sound post cause turn.outcome := by
  rw [tick] at h
  split at h
  case h_1 f hf => exact electionTick_acts (fun _ => by rw [hf]; rfl) h
  case h_2 c hc => exact electionTick_acts (fun _ => by rw [hc]; rfl) h
  case h_3 l hl =>
    have ⟨⟨e', ns⟩, ht, h⟩ := bind_eq_ok_iff.mp h
    cases h
    exact .silent (leaderTick_gist hl ht ▸ .refl)

theorem submit_eq_ok (h : e.submit payload = .ok turn) :
    turn.engine = e ∨ e.role = .leader ∧ ∃ storage,
      e.storage.append ⟨e.term, e.storage.lastIndex + 1, payload⟩ = .ok storage ∧
      turn.engine = ({ e with storage } : Engine).advanceCommit.1 := by
  rw [submit] at h
  split at h
  case h_2      => cases h; exact .inl rfl
  case h_3      => cases h; exact .inl rfl
  case h_1 l hl =>
    obtain ⟨_, hi, h⟩ := bind_eq_ok_iff.mp h
    cases (advance_eq_ok_iff.mp hi).left
    split at h
    case h_1            => cases h; exact .inl rfl
    case h_2 storage ha => cases h; exact .inr ⟨by rw [role, hl], storage, ha, rfl⟩

theorem submit_moves (h : e.submit payload = .ok turn) : Moves sound post e.gist turn.engine.gist := by
  obtain he | ⟨hr, storage, ha, he⟩ := submit_eq_ok h
  case inl => rw [he]; exact .refl
  case inr =>
    have hc : Moves sound post _ _ := advanceCommit_moves { e with storage }
    rw [he]
    cases (Storage.append_eq_ok ha).left
    exact .trans (.single (.append (by rw [gist_role, hr]))) hc

theorem fill_isPrefix (chunk size : Nat) (es : List Entry) : Batch.fill chunk size es <+: es := by
  induction es generalizing size
  case nil => exact List.prefix_refl _
  case cons e es hi =>
    rw [Batch.fill]
    split
    case isTrue  => exact List.nil_prefix
    case isFalse => exact (List.prefix_cons_inj e).mpr (hi _)

theorem batch_isPrefix (e : Engine) (r : Replication) : e.batch r <+: e.storage.log.entries.drop (r.next - 1) := by
  have hr : e.storage.readFrom r.next <+: e.storage.log.entries.drop (r.next - 1) := by
    rw [Storage.readFrom]
    repeat' split
    case isTrue => exact List.nil_prefix
    case h_1    => exact List.prefix_refl _
    case h_2    => exact List.take_prefix ..
  rw [batch]
  split
  case isFalse => exact List.nil_prefix
  case isTrue  =>
    refine .trans ?_ hr
    cases e.storage.readFrom r.next
    case nil       => exact List.prefix_refl _
    case cons e es => exact (List.prefix_cons_inj e).mpr (fill_isPrefix ..)

theorem update_moves (hl : e.standing = .leader l) (hr : l.replication? s = some r) {r' : Replication}
    (hm : r'.matched = max r.matched n) (hc : sound → n ≤ r.matched ∨ e.gist.Covered post s.id n) :
    Moves sound post e.gist { e with standing := .leader (l.update s r') : Engine }.gist := by
  have ⟨_, _, he, _⟩ := List.lookup_eq_some_iff.mp hr
  have hs : (s, r.matched) ∈ matchedOf l.followers := List.mem_map.mpr ⟨(s, r), by simp [he], rfl⟩
  have hu : matchedOf (l.update s r').followers =
      (matchedOf l.followers).map fun f => if f.1 = s then (s, max r.matched n) else f := by
    simp only [matchedOf, Leadership.update, List.map_map]
    refine List.map_congr_left fun f _ => ?_
    simp only [Function.comp_apply]
    split
    case isTrue  => simp [hm]
    case isFalse => rfl
  simp only [gist, hl, Standing.rank, hu]
  exact .single (.credit (by rfl) hs (by simpa [gist, hl, Covered] using hc))

theorem replicateTo_eq_ok (h : e.replicateTo s = .ok turn) :
    ((∃ ns, turn = ⟨e, none, ns⟩) ∧ ∀ l r, e.standing = .leader l → l.replication? s = some r →
      r.Ready e.storage.lastIndex → e.storage.termAt? (r.next - 1) = none) ∨
    ∃ l r t ns, e.standing = .leader l ∧ l.replication? s = some r ∧ r.Ready e.storage.lastIndex ∧
      e.storage.termAt? (r.next - 1) = some t ∧
      turn = ⟨{ e with standing := .leader (l.update s (r.remember (e.appendRequest r t).lastIndex)) },
        some ⟨.to s, e.term, .appendRequest (e.appendRequest r t)⟩, ns⟩ := by
  rw [replicateTo] at h
  split at h
  case h_2 hn   => cases h; exact .inl ⟨⟨_, rfl⟩, fun l _ hl => absurd hl (hn l)⟩
  case h_1 l hl =>
    split at h
    case h_1 hn   =>
      cases h
      exact .inl ⟨⟨_, rfl⟩, fun _ _ hl' hr => by cases hl.symm.trans hl'; cases hn.symm.trans hr⟩
    case h_2 r hr =>
      repeat' split at h
      case isFalse hn    =>
        cases h
        refine .inl ⟨⟨_, rfl⟩, fun _ _ hl' hr' hd => ?_⟩
        cases hl.symm.trans hl'
        cases hr.symm.trans hr'
        exact absurd hd hn
      case h_1 ht        =>
        cases h
        refine .inl ⟨⟨_, rfl⟩, fun _ _ hl' hr' _ => ?_⟩
        cases hl.symm.trans hl'
        cases hr.symm.trans hr'
        exact ht
      case h_2 hd _ t ht =>
        obtain ⟨_, _, h⟩ := bind_eq_ok_iff.mp h
        cases h
        exact .inr ⟨l, r, t, _, hl, hr, hd, ht, rfl⟩

theorem replicateTo_acts (h : e.replicateTo peer = .ok turn) : e.Acts sound post cause turn.outcome := by
  obtain ⟨⟨ns, rfl⟩, _⟩ | ⟨l, r, prevTerm, ns, hl, hr, _, ht, rfl⟩ := replicateTo_eq_ok h
  case inl => exact .silent .refl
  case inr =>
    let known := r.remember (e.appendRequest r prevTerm).lastIndex
    have hm : Moves sound post e.gist { e with standing := .leader (l.update peer known) : Engine }.gist :=
      update_moves hl hr (Nat.max_zero _).symm fun _ => .inl (Nat.zero_le _)
    refine ⟨⟨_, hm, .refl, fun o ho l hl => ?_⟩, fun o ho _ _ => ?_⟩
    case refine_1 =>
      cases List.mem_singleton.mp ho
      cases List.mem_singleton.mp hl
      exact {
        sender := rfl
        term   := rfl
        stands := nofun
        votes  := nofun
        leads  := fun _ hr => by cases hr; exact ⟨rfl, Storage.ends_of_termAt? ht, batch_isPrefix .., rfl⟩
        holds  := nofun }
    case refine_2 =>
      cases List.mem_singleton.mp ho
      exact ⟨by rw [role, hl], rfl⟩

theorem obey_acts (h : e.obey c = .ok out) (hc : ∀ n, c ≠ .take n) : e.Acts sound post cause out := by
  cases c
  case take n => exact absurd rfl (hc n)
  case submit =>
    have ⟨_, h, ho⟩ := map_eq_ok_iff.mp h
    exact ho ▸ .silent (submit_moves h)
  case tick =>
    have ⟨_, h, ho⟩ := map_eq_ok_iff.mp h
    exact ho ▸ tick_acts h
  case timeout =>
    have ⟨_, h, ho⟩ := map_eq_ok_iff.mp h
    exact ho ▸ timeout_acts h
  case replicate =>
    have ⟨_, h, ho⟩ := map_eq_ok_iff.mp h
    exact ho ▸ replicateTo_acts h

theorem takeOne_eq_some (h : e.takeOne = some (entry, e')) :
    e'.gist = { e.gist with taken := e.applied + 1 } ∧ e.applied < e.commit ∧
      e.storage.log.entries[e.applied]? = some entry := by
  rw [takeOne] at h
  split at h
  case isFalse => simp at h
  case isTrue hl =>
    have ⟨⟨_, s⟩, hs, h⟩ := Option.map_eq_some_iff.mp h
    have ⟨⟨_, log⟩, ht, hs⟩ := Option.map_eq_some_iff.mp hs
    cases h
    cases hs
    have ⟨_, hg, ht⟩ := Option.map_eq_some_iff.mp ht
    cases ht
    exact ⟨rfl, hl, hg⟩

theorem takeCommitted_spec (limit : Nat) (e : Engine) :
    (takeCommitted limit e).2.gist = { e.gist with taken := (takeCommitted limit e).2.applied } ∧
    (takeCommitted limit e).2.applied ≤ max e.applied e.commit ∧
    e.storage.log.entries.take e.applied ++ (takeCommitted limit e).1 =
      e.storage.log.entries.take (takeCommitted limit e).2.applied := by
  induction limit generalizing e
  case zero => exact ⟨rfl, Nat.le_max_left .., List.append_nil _⟩
  case succ limit hi =>
    rw [takeCommitted]
    split
    case h_1 => exact ⟨rfl, Nat.le_max_left .., List.append_nil _⟩
    case h_2 entry e' ho =>
      have ⟨hg, hl, he⟩ := takeOne_eq_some ho
      have ⟨hg', hl', he'⟩ := hi e'
      have ha : e'.applied = e.applied + 1 := congrArg Gist.taken hg
      have hc : e'.commit = e.commit := congrArg Gist.commit hg
      have hs : e'.storage.log.entries = e.storage.log.entries := congrArg Gist.log hg
      dsimp only
      refine ⟨by rw [hg', hg], by omega, ?_⟩
      rw [hs, ha, List.take_add_one, he] at he'
      simpa using he'

theorem adoptTerm_moves (e : Engine) (s : Server) (m : Message) :
    Moves sound post e.gist (e.adoptTerm s m).1.gist := by
  rw [adoptTerm]
  split
  case isTrue h => exact .single (.adopt h)
  case isFalse  => exact .refl

theorem adoptTerm_le (e : Engine) (s : Server) (m : Message) : m.term ≤ (e.adoptTerm s m).1.term := by
  rw [adoptTerm]
  split
  case isTrue    => exact Nat.le_refl _
  case isFalse h => exact Nat.le_of_not_lt h

theorem giveVote_gist (e : Engine) (s : Server) : (e.giveVote s).gist = { e.gist with vote := some s } := by
  cases h : e.standing <;> simp [giveVote, gist, h, Standing.rank]

theorem noteCommit_gist (e : Engine) (n : Nat) :
    (e.noteCommit n).1.gist = { e.gist with commit := max e.commit n } := by
  rw [noteCommit]
  split
  case isTrue h  => rw [Nat.max_eq_right (Nat.le_of_lt h)]; rfl
  case isFalse h => rw [Nat.max_eq_left (Nat.le_of_not_lt h)]; rfl

theorem follow_gist (h : e.follow s = (follows, e', ns)) :
    (follows = false ∧ e' = e) ∨
    (follows = true ∧ e.role ≠ .leader ∧ e'.gist = { e.gist with rank := .follower (some s) }) := by
  cases hs : e.standing <;> simp only [follow, hs, Prod.mk.injEq] at h
  case leader => exact .inl ⟨h.left.symm, h.right.left.symm⟩
  all_goals
    have ⟨hf, he, _⟩ := h
    exact .inr ⟨hf.symm, by simp [role, hs], by simp [← he, gist, Standing.rank]⟩

theorem mergeRequest_moves (sound : Prop) (hr : e.role = .follower) (told : e.gist.Told post i (.appendRequest r))
    (h : e.mergeRequest r s = .ok turn) :
    Moves sound post e.gist turn.engine.gist ∧ turn.engine.id = e.id ∧ turn.engine.term = e.term ∧
      (turn.result = true → Ends turn.engine.gist.log r.prevIndex r.prevTerm ∧
        Within turn.engine.gist.log r.prevIndex r.entries) := by
  rw [mergeRequest] at h
  split at h
  case isFalse => split at h <;> cases h <;> exact ⟨.refl, rfl, rfl, nofun⟩
  case isTrue ht =>
    have he := Storage.ends_of_termAt? ht
    have ⟨contiguous, hc, h⟩ := bind_eq_ok_iff.mp h
    split at h
    case isFalse => cases h; exact ⟨.refl, rfl, rfl, nofun⟩
    case isTrue hb =>
      subst hb
      have ⟨last, hl, h⟩ := bind_eq_ok_iff.mp h
      have ⟨m, hm, h⟩ := bind_eq_ok_iff.mp h
      have ⟨log, hs, hg⟩ := Storage.merge_storage hm (contiguousAfter_eq_true hc) he.le_length
      have hm : Moves sound post e.gist _ := .single (.absorb (gist_role e ▸ hr) told he (contiguousAfter_eq_true hc) hg)
      split at h
      case isFalse hf =>
        cases h
        rw [if_neg hf] at hm
        refine ⟨?_, rfl, rfl, nofun⟩
        simpa [gist, hs] using hm
      case isTrue ht =>
        cases (advance_eq_ok_iff.mp hl).left
        rw [if_pos ht] at hm
        rw [ht] at hg
        have hn := noteCommit_gist { e with storage := m.storage } (min r.commit (r.prevIndex + r.entries.length))
        dsimp only at h
        generalize noteCommit _ _ = n at h hn
        cases h
        replace hn : n.1.gist = { e.gist with log := log, commit := max e.gist.commit (min r.commit r.lastIndex) } :=
          hn.trans (by simp [gist, hs, AppendRequest.lastIndex])
        refine ⟨hn ▸ hm, congrArg Gist.id hn, congrArg Gist.term hn, fun _ => ?_⟩
        rw [hn]
        exact ⟨he.of_take (hg.take_prev he.le_length).symm, hg.within he.le_length⟩

structure Hears (e : Engine) (post : List Posted) (k : Nat) (p : Posted) (i : String) (m : Message) : Prop where
  posted : post[k]? = some p
  letter : p.letter = ⟨i, e.id, m⟩
  peer   : .peer i ∈ e.peers
  term   : m.term ≤ e.term

variable {p : Posted} {m : Message} {i : String}

theorem Hears.told (h : e.Hears post k p i m) (ht : m.term = e.term) (hm : m.rpc = rpc) : e.gist.Told post i rpc := by
  refine ⟨p, List.mem_of_getElem? h.posted, h.letter.trans ?_⟩
  cases m
  cases ht
  cases hm
  rfl

theorem takeRequest_moves (sound : Prop) (hh : e.Hears post k p i m) (hm : m.rpc = .appendRequest r)
    (h : e.takeRequest m.term r (.peer i) = .ok turn) :
    Moves sound post e.gist turn.engine.gist ∧ turn.engine.id = e.id ∧ turn.engine.term = e.term ∧
      (turn.result = true → m.term = e.term ∧ Ends turn.engine.gist.log r.prevIndex r.prevTerm ∧
        Within turn.engine.gist.log r.prevIndex r.entries) := by
  rw [takeRequest] at h
  split at h
  case isTrue => cases h; exact ⟨.refl, rfl, rfl, nofun⟩
  case isFalse hn =>
    have hn := Nat.le_antisymm hh.term (Nat.le_of_not_lt hn)
    have told := hh.told hn hm
    split at h
    case h_1 hf =>
      cases h
      cases follow_gist hf
      case inl hf => exact hf.right ▸ ⟨.refl, rfl, rfl, nofun⟩
      case inr hf => exact absurd hf.left (by decide)
    case h_2 e₁ ns hf =>
      have ⟨_, hr, hg⟩ := (follow_gist hf).resolve_left fun h => absurd h.left (by decide)
      have ⟨merged, hm, h⟩ := bind_eq_ok_iff.mp h
      cases h
      have hi : e₁.id = e.id := congrArg Gist.id hg
      have ht : e₁.term = e.term := congrArg Gist.term hg
      have hr₁ : e₁.role = .follower := by rw [← gist_role, hg]; rfl
      have told₁ : e₁.gist.Told post i (.appendRequest r) := by rw [hg]; exact told
      have ⟨hm, hi', ht', hs⟩ := mergeRequest_moves sound hr₁ told₁ hm
      refine ⟨?_, hi'.trans hi, ht'.trans ht, fun h => ⟨hn, hs h⟩⟩
      exact .trans (.single (.follow (gist_role e ▸ hr) told)) (hg ▸ hm)

structure Replies (e : Engine) (sound : Prop) (post : List Posted) (k : Nat) (i : String)
    (turn : Turn (Option Outgoing)) : Prop where
  moves : Moves sound post e.gist turn.engine.gist
  truth : ∀ o ∈ turn.result, ∃ m, o = ⟨.to (.peer i), m⟩ ∧ m.rpc.isReply = true ∧
    turn.engine.gist.Says post ⟨⟨e.id, i, m⟩, some k⟩

theorem answerVote_replies (hh : e.Hears post k p i m) (hm : m.rpc = .voteRequest r) :
    e.Replies sound post k i (e.answerVote m.term r (.peer i)) where
  moves := by
    rw [answerVote]
    simp only [decide_eq_true_eq]
    split
    case isFalse => exact .refl
    case isTrue hg => exact giveVote_gist .. ▸ .single (.grant hg.free)
  truth o ho := by
    cases Option.some.inj ho
    refine ⟨_, rfl, rfl, ?_⟩
    rw [answerVote]
    simp only [decide_eq_true_eq]
    split
    case isFalse hg =>
      exact {
        sender := rfl
        term   := rfl
        stands := nofun
        votes  := fun hv => absurd hv (by simp [hg])
        leads  := nofun
        holds  := nofun }
    case isTrue hg =>
      rw [giveVote_gist]
      exact {
        sender := rfl
        term   := rfl
        stands := nofun
        votes  := fun _ => ⟨rfl, r, hh.told hg.term hm, hg.upToDate⟩
        leads  := nofun
        holds  := nofun }

theorem answerAppend_replies (hh : e.Hears post k p i m) (hm : m.rpc = .appendRequest r)
    (h : e.answerAppend m.term r (.peer i) = .ok turn) : e.Replies sound post k i turn := by
  have ⟨taken, ht, h⟩ := bind_eq_ok_iff.mp h
  cases h
  have ⟨hg, hi, hn, hs⟩ := takeRequest_moves sound hh hm ht
  refine ⟨hg, fun o ho => ?_⟩
  cases Option.some.inj ho
  refine ⟨_, rfl, rfl, ?_⟩
  exact {
    sender := hi.symm
    term   := hn.symm
    stands := nofun
    votes  := nofun
    leads  := nofun
    holds  := fun hr => by
      simp only [Rpc.appendReply.injEq] at hr
      have ⟨ht, hs⟩ := hs hr
      refine ⟨p, r, ⟨k, rfl, hh.posted⟩, hh.letter.trans ?_, hs⟩
      simp only [gist, hi, hn, ← ht, ← hm] }

theorem countVote_moves (hh : e.Hears post k p i m) (ht : m.term = e.term) (hm : m.rpc = .voteReply granted) :
    Moves sound post e.gist (e.countVote granted (.peer i)).1.gist := by
  rw [countVote]
  split
  case h_2 => exact .refl
  case h_1 c hc =>
    split
    case isFalse => exact .refl
    case isTrue hg =>
      have hr : e.gist.rank = .candidate c.votes := by rw [gist, hc, Standing.rank]
      by_cases hv : .peer i ∈ c.votes
      case pos =>
        rw [Candidacy.count, if_pos hv, ← hc]
        exact .refl
      case neg =>
        rw [Candidacy.count, if_neg hv]
        exact .single (.count hr hh.peer hv (hh.told ht (hg ▸ hm)))

theorem readAppendReply_moves (hh : e.Hears post k p i m) (ht : m.term = e.term) (hm : m.rpc = .appendReply success)
    (hc : sound → ∀ n, e.credit? p.letter = some n →
      ∃ q r, p.Answers post q ∧ q.letter.message.rpc = .appendRequest r ∧ n ≤ r.lastIndex)
    (h : e.readAppendReply success (.peer i) = .ok (e', ns)) : Moves sound post e.gist e'.gist := by
  rw [readAppendReply] at h
  split at h
  case h_2 => cases h; exact .refl
  case h_1 l hl =>
    split at h
    case h_1 => cases h; exact .refl
    case h_2 r hr =>
      split at h
      case h_1 => cases h; exact .refl
      case h_2 oldest rest hu =>
        split at h
        case isFalse =>
          have ⟨r', ha, h⟩ := bind_eq_ok_iff.mp h
          cases h
          have ⟨_, _, ha⟩ := bind_eq_ok_iff.mp ha
          cases ha
          exact update_moves hl hr (Nat.max_zero _).symm fun _ => .inl (Nat.zero_le _)
        case isTrue hs =>
          have ⟨r', ha, h⟩ := bind_eq_ok_iff.mp h
          cases h
          have ⟨_, _, ha⟩ := bind_eq_ok_iff.mp ha
          cases ha
          refine update_moves hl hr rfl fun h => .inr ?_
          have hp : p.letter = ⟨i, e.id, ⟨e.term, .appendReply true⟩⟩ := by
            rw [hh.letter, ← ht, ← hs, ← hm]
          have hn : e.credit? p.letter = some (Replication.acknowledge oldest rest) := by
            simp [credit?, unanswered?, replication?, hp, hl, hr, hu]
          exact ⟨p, List.mem_of_getElem? hh.posted, hp, hc h _ hn⟩

theorem handle_replies (hh : e.Hears post k p i m)
    (hc : sound → ∀ n, e.credit? p.letter = some n →
      ∃ q r, p.Answers post q ∧ q.letter.message.rpc = .appendRequest r ∧ n ≤ r.lastIndex)
    (h : e.handle (.peer i) m = .ok turn) : e.Replies sound post k i turn := by
  rw [handle] at h
  split at h
  case isTrue => cases h; exact ⟨.refl, nofun⟩
  case isFalse hn =>
    have ht (hr : m.rpc.isReply = true) : m.term = e.term :=
      Nat.le_antisymm hh.term (Nat.le_of_not_lt fun hl => hn ⟨hr, hl⟩)
    split at h
    case h_1 r hm => cases h; exact answerVote_replies hh hm
    case h_2 hm   => cases h; exact ⟨countVote_moves hh (ht (by rw [hm]; rfl)) hm, nofun⟩
    case h_3 r hm => exact answerAppend_replies hh hm h
    case h_4 hm   =>
      have ⟨_, hr, h⟩ := bind_eq_ok_iff.mp h
      cases h
      exact ⟨readAppendReply_moves hh (ht (by rw [hm]; rfl)) hm hc hr, nofun⟩

theorem credit?_of_adoptTerm (h : (e.adoptTerm s m).1.credit? l = some n) : e.credit? l = some n := by
  rw [adoptTerm] at h
  split at h
  case isTrue  => simp [credit?, unanswered?, replication?] at h
  case isFalse => exact h

-- Only peers are heard: first their term, then the message, and then the votes and the replies are counted.
theorem receive_eq_ok (h : e.receive m s = .ok turn) :
    (s.asPeer ∉ e.peers ∧ turn = ⟨e, none, [.wrongGroup s.asPeer]⟩) ∨
    (s.asPeer ∈ e.peers ∧ ∃ replied e₂ ns ns', (e.adoptTerm s.asPeer m).1.handle s.asPeer m = .ok replied ∧
      replied.engine.becomeLeader = .ok (e₂, ns) ∧ turn = ⟨e₂.advanceCommit.1, replied.result, ns'⟩) := by
  rw [receive] at h
  split at h
  case isFalse hs => cases h; exact .inl ⟨hs, rfl⟩
  case isTrue hs  =>
    obtain ⟨replied, hh, h⟩ := bind_eq_ok_iff.mp h
    obtain ⟨⟨e₂, ns⟩, hb, h⟩ := bind_eq_ok_iff.mp h
    cases h
    exact .inr ⟨hs, replied, e₂, ns, _, hh, hb, rfl⟩

theorem hear_acts (hp : post[k]? = some p) (hr : p.letter.receiver = e.id)
    (hc : sound → ∀ n, e.credit? p.letter = some n →
      ∃ q r, p.Answers post q ∧ q.letter.message.rpc = .appendRequest r ∧ n ≤ r.lastIndex)
    (h : e.hear p.letter = .ok out) : e.Acts sound post (some k) out := by
  obtain ⟨turn, ht, rfl⟩ := map_eq_ok_iff.mp h
  obtain ⟨_, rfl⟩ | ⟨hi, replied, e₂, ns, _, hh, hl, rfl⟩ := receive_eq_ok ht
  case inl => exact .silent .refl
  case inr =>
    have ha : Moves sound post e.gist _ := adoptTerm_moves e (.peer p.letter.sender) p.letter.message
    have hi' : (e.adoptTerm (.peer p.letter.sender) p.letter.message).1.id = e.id := ha.evolves.id
    have hp' : (e.adoptTerm (.peer p.letter.sender) p.letter.message).1.peers = e.peers := ha.evolves.peers
    have hr : Hears _ post k p p.letter.sender p.letter.message := ⟨hp, by rw [hi', ← hr], hp' ▸ hi, adoptTerm_le ..⟩
    have hm := handle_replies hr (fun h n hn => hc h n (credit?_of_adoptTerm hn)) hh
    refine ⟨⟨_, ha.trans hm.moves, .trans (becomeLeader_moves hl) (advanceCommit_moves e₂), ?_⟩, ?_⟩
    case refine_1 =>
      intro o ho l hl
      have ⟨m, ho, _, hs⟩ := hm.truth o (Option.mem_toList.mp ho)
      subst ho
      cases List.mem_singleton.mp hl
      exact hi' ▸ hs
    case refine_2 =>
      intro o ho q hq
      have ⟨m, ho, hm, _⟩ := hm.truth o (Option.mem_toList.mp ho)
      subst ho
      exact absurd hm (by simp [show m.rpc = .appendRequest q from hq, Rpc.isReply])

end Engine
end RaftGroup
