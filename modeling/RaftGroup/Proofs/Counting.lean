import Mathlib.Data.List.Induction
import Mathlib.Order.Bounds.Defs
import RaftGroup.Proofs.Bookkeeping

namespace RaftGroup

open Entries

namespace Commit

variable {ms : List Nat}

theorem mem_of_agreed? (h : agreed? quorum ms = some n) : n ∈ ms :=
  (perm_sortDown ms).mem_iff.mp (List.mem_of_getElem? h)

theorem exists_agreed? (hq : 0 < quorum) (h : quorum ≤ ms.countP (n ≤ ·)) :
    ∃ k, agreed? quorum ms = some k ∧ n ≤ k := by
  rw [← (perm_sortDown ms).countP_eq] at h
  have hl : quorum - 1 < (sortDown ms).length := by
    have := Nat.le_trans h List.countP_le_length
    omega
  refine ⟨_, List.getElem?_eq_getElem hl, Nat.le_of_not_lt fun hn => ?_⟩
  have hs := (pairwise_sortDown ms).drop (i := quorum - 1)
  rw [List.drop_eq_getElem_cons hl, List.pairwise_cons] at hs
  have hd : ((sortDown ms).drop (quorum - 1)).countP (n ≤ ·) = 0 := by
    refine List.countP_eq_zero.mpr fun m hm => ?_
    rw [List.drop_eq_getElem_cons hl, List.mem_cons] at hm
    have : m ≤ (sortDown ms)[quorum - 1] := hm.elim Nat.le_of_eq (hs.left m)
    simp only [decide_eq_true_eq]
    omega
  have := calc quorum
    _ ≤ (sortDown ms).countP (n ≤ ·)                       := h
    _ = ((sortDown ms).take (quorum - 1)).countP (n ≤ ·)   := by
      rw [← List.take_append_drop (quorum - 1) (sortDown ms), List.countP_append, hd, Nat.add_zero,
        List.take_append_drop]
    _ ≤ quorum - 1                                         :=
      Nat.le_trans List.countP_le_length (List.length_take_le ..)
  omega

end Commit

namespace Engine

variable {e e' : Engine} {l : Leadership}

def holders (e : Engine) (n : Nat) : Nat :=
  match e.standing with
  | .leader l => l.followers.countP (n ≤ ·.2.matched) + 1
  | _         => 1

structure Committable (e : Engine) (n : Nat) : Prop where
  pos  : 1 ≤ n
  le   : n ≤ e.storage.lastIndex
  own  : Ends e.storage.log.entries n e.term
  most : quorumSize e.peers.length ≤ e.holders n

structure Graded (e : Engine) : Prop where
  rises : e.storage.log.entries.Pairwise (·.term ≤ ·.term)
  le    : ∀ x ∈ e.storage.log.entries, x.term ≤ e.term

theorem Graded.term_eq (h : e.Graded) (hn : Ends e.storage.log.entries n e.term) (h₁ : 1 ≤ n) (hm : n ≤ m)
    (hl : m ≤ e.storage.lastIndex) : Ends e.storage.log.entries m e.term := by
  obtain ⟨n, rfl⟩ := Nat.exists_eq_add_of_le' h₁
  obtain ⟨m, rfl⟩ := Nat.exists_eq_add_of_le' (Nat.le_trans h₁ hm)
  have hl : m < e.storage.log.entries.length := hl
  obtain ⟨x, hx, ht⟩ := Option.map_eq_some_iff.mp hn
  obtain ⟨hn, rfl⟩ := List.getElem?_eq_some_iff.mp hx
  have ht' : e.storage.log.entries[m].term = e.term := by
    refine Nat.le_antisymm (h.le _ (List.getElem_mem hl)) (ht ▸ ?_)
    obtain rfl | hk := Nat.eq_or_lt_of_le (Nat.le_of_succ_le_succ hm)
    · exact Nat.le_refl _
    · exact List.pairwise_iff_getElem.mp h.rises n m hn hl hk
  exact (term?_eq_some hl).trans (congrArg some ht')

theorem holders_eq (hl : e.standing = .leader l) (hn : n ≤ e.storage.lastIndex) :
    e.holders n = (e.matchedIndices l).countP (n ≤ ·) := by
  rw [holders, hl, matchedIndices, List.countP_append, List.countP_map, List.countP_singleton]
  simp [hn, Function.comp_def]

-- The position that is looked at is the only one that matters.
theorem advanceCommit_spec (hl : e.standing = .leader l) (hf : e.storage.faults = {})
    (hm : ∀ f ∈ l.followers, f.2.matched ≤ e.storage.lastIndex) :
    e.commit ≤ e.advanceCommit.1.commit ∧
    (e.advanceCommit.1.commit = e.commit ∨ e.Committable e.advanceCommit.1.commit) ∧
    (e.Graded → ∀ n, e.Committable n → n ≤ e.advanceCommit.1.commit) := by
  have hq : 0 < e.quorum := Nat.succ_pos _
  -- Whatever may be committed has been reached by enough.
  have reached (n : Nat) (h : e.Committable n) :
      ∃ k, Commit.agreed? e.quorum (e.matchedIndices l) = some k ∧ n ≤ k :=
    Commit.exists_agreed? hq (holders_eq hl h.le ▸ h.most)
  rw [advanceCommit, hl]
  dsimp only
  cases ha : Commit.agreed? e.quorum (e.matchedIndices l)
  case none =>
    refine ⟨Nat.le_refl _, .inl rfl, fun _ n h => ?_⟩
    obtain ⟨_, hk, _⟩ := reached n h
    cases ha.symm.trans hk
  case some k =>
    have hk : k ≤ e.storage.lastIndex := by
      obtain hk | hk := List.mem_append.mp (Commit.mem_of_agreed? ha)
      · obtain ⟨f, hf, rfl⟩ := List.mem_map.mp hk
        exact hm f hf
      · exact Nat.le_of_eq (List.mem_singleton.mp hk)
    have le (n : Nat) (h : e.Committable n) : n ≤ k := by
      obtain ⟨k', hk', hn⟩ := reached n h
      cases ha.symm.trans hk'
      exact hn
    dsimp only
    split
    case isTrue ht =>
      have ht := (Storage.termAt?_eq_some_iff hf).mp ht
      refine ⟨Nat.le_max_left .., ?_, fun _ n h => Nat.le_trans (le n h) (Nat.le_max_right ..)⟩
      obtain hc | hc := Nat.le_total k e.commit
      case inl => exact .inl (Nat.max_eq_left hc)
      case inr =>
        obtain h₀ | h₀ := Nat.eq_zero_or_pos k
        case inl => exact .inl (Nat.max_eq_left (h₀ ▸ Nat.zero_le _))
        case inr =>
          right
          rw [setCommit, Nat.max_eq_right hc]
          exact ⟨h₀, hk, ht, holders_eq hl hk ▸ Commit.le_countP_of_agreed? ha⟩
    case isFalse ht =>
      refine ⟨Nat.le_refl _, .inl rfl, fun hg n h => ?_⟩
      have ho := hg.term_eq h.own h.pos (le n h) hk
      exact absurd ((Storage.termAt?_eq_some_iff hf).mpr ho) ht

def Earned (e : Engine) (old : Nat) : Prop :=
  e.role = .leader → old ≤ e.commit ∧ (e.commit = old ∨ e.Committable e.commit)

def Counted (e : Engine) (old : Nat) : Prop :=
  e.role = .leader → e.Graded → IsGreatest { n | n = old ∨ e.Committable n } e.commit

theorem Earned.refl (e : Engine) : e.Earned e.commit :=
  fun _ => ⟨Nat.le_refl _, .inl rfl⟩

theorem Counted.of_not_leader (h : e.role ≠ .leader) (old : Nat) : e.Counted old :=
  fun hl => absurd hl h

theorem Counted.self (h : e.Counted old) : e.Counted e.commit := by
  refine fun hr hg => ⟨.inl rfl, fun n hn => ?_⟩
  obtain rfl | hn := hn
  · exact Nat.le_refl _
  · exact (h hr hg).right (.inr hn)

theorem Committable.with_commit (h : e.Committable n) (k : Nat) : ({ e with commit := k } : Engine).Committable n :=
  ⟨h.pos, h.le, h.own, h.most⟩

theorem Earned.advanceCommit (h : e.Earned old) (hf : e.storage.faults = {}) (hk : e.Kept) :
    e.advanceCommit.1.Earned old ∧ e.advanceCommit.1.Counted old := by
  by_cases hr : e.role = .leader
  case neg =>
    rw [advanceCommit_of_role hr]
    exact ⟨h, .of_not_leader hr old⟩
  case pos =>
    obtain ⟨l, hl⟩ := standing_of_role hr
    have ⟨hc, hm, hg⟩ := advanceCommit_spec hl hf fun f hf => ((hk l hl).accounts f hf).matched_le
    have ⟨ho, he⟩ := h hr
    obtain ⟨k, ha⟩ := advanceCommit_eq e
    rw [ha] at hc hm hg ⊢
    have ho : old ≤ k := Nat.le_trans ho hc
    have hm : k = old ∨ ({ e with commit := k } : Engine).Committable k := by
      obtain hk | hk := hm
      · obtain rfl : k = e.commit := hk
        exact he
      · exact .inr (hk.with_commit k)
    refine ⟨fun _ => ⟨ho, hm⟩, fun _ hg' => ⟨hm, fun n hn => ?_⟩⟩
    obtain rfl | hn := hn
    · exact ho
    · exact hg ⟨hg'.rises, hg'.le⟩ n (hn.with_commit e.commit)

theorem becomeLeader_counts (hf : e.storage.faults = {}) (h : e.becomeLeader = .ok (e', ns)) :
    e'.Earned e.commit ∧ e'.storage = e.storage ∧ (e.role ≠ .leader → e'.Counted e.commit) := by
  obtain ⟨rfl, _⟩ | ⟨_, _, _, rfl⟩ := becomeLeader_eq_ok h
  case inl => exact ⟨.refl _, rfl, fun hr => .of_not_leader hr _⟩
  case inr =>
    obtain ⟨he, hc⟩ := (Earned.refl e.asLeader).advanceCommit hf kept_asLeader
    have hs : e.asLeader.advanceCommit.1.storage = e.storage := by
      obtain ⟨k, ha⟩ := advanceCommit_eq e.asLeader
      rw [ha]
      rfl
    exact ⟨he, hs, fun _ => hc⟩

theorem timeout_counts (hf : e.storage.faults = {}) (hc : e.Counted e.commit) (h : e.timeout = .ok turn) :
    turn.engine.Counted e.commit := by
  obtain ⟨_, rfl⟩ | ⟨_, e₁, e₂, ns, h₁, h₂, rfl⟩ := timeout_eq_ok h
  case inl => exact hc
  case inr =>
    obtain ⟨_, he⟩ := campaign_eq_ok h₁
    have hf₁ : e₁.storage.faults = {} := by rw [he]; exact hf
    have hb := becomeLeader_counts hf₁ h₂
    subst he
    exact hb.right.right fun hr => (standing_of_role hr).elim fun _ => Standing.noConfusion

theorem electionTick_counts (hf : e.storage.faults = {}) (hc : e.Counted e.commit) (hw : ∀ n l, wait n ≠ .leader l)
    (h : e.electionTick ticks wait = .ok turn) : turn.engine.Counted e.commit := by
  obtain ⟨_, rfl⟩ | ⟨_, out, ho, rfl⟩ := electionTick_eq_ok h
  case inl => exact .of_not_leader (fun hr => (standing_of_role hr).elim (hw _)) _
  case inr => exact (timeout_counts hf hc ho :)

theorem holders_of_rank (h : e'.standing.rank = e.standing.rank) (n : Nat) : e'.holders n = e.holders n := by
  have count (fs : List (Server × Replication)) : fs.countP (n ≤ ·.2.matched) = (matchedOf fs).countP (n ≤ ·.2) := by
    rw [matchedOf, List.countP_map]
    rfl
  rw [holders, holders]
  cases hs : e.standing <;> cases hs' : e'.standing <;> rw [hs, hs'] at h
  case leader.leader => dsimp only; rw [count, count, Rank.leader.inj h]
  all_goals cases h

theorem Committable.of_gist (h : e.Committable n) (hg : e'.gist = { e.gist with taken := k }) : e'.Committable n := by
  have hl : e'.storage.log.entries = e.storage.log.entries := congrArg Gist.log hg
  have ht : e'.term = e.term := congrArg Gist.term hg
  have hp : e'.peers = e.peers := congrArg Gist.peers hg
  constructor
  case pos  => exact h.pos
  case le   => exact Nat.le_trans h.le (Nat.le_of_eq (congrArg List.length hl.symm))
  case own  => rw [hl, ht]; exact h.own
  case most => rw [hp, holders_of_rank (congrArg Gist.rank hg)]; exact h.most

theorem Counted.of_gist (h : e.Counted old) (hg : e'.gist = { e.gist with taken := k }) : e'.Counted old := by
  have hl : e'.storage.log.entries = e.storage.log.entries := congrArg Gist.log hg
  have ht : e'.term = e.term := congrArg Gist.term hg
  have hc : e'.commit = e.commit := congrArg Gist.commit hg
  have hr : e'.role = e.role := by rw [← gist_role, ← gist_role, hg]; rfl
  have hg' : e.gist = { e'.gist with taken := e.gist.taken } := by rw [hg]
  intro hr' hd
  have ⟨hm, hu⟩ := h (hr ▸ hr') ⟨hl ▸ hd.rises, hl ▸ ht ▸ hd.le⟩
  rw [hc]
  refine ⟨hm.imp_right (·.of_gist hg), fun n hn => hu (hn.imp_right (·.of_gist hg'))⟩

theorem tick_counts (hf : e.storage.faults = {}) (hc : e.Counted e.commit) (h : e.tick = .ok turn) :
    turn.engine.Counted e.commit := by
  rw [tick] at h
  split at h
  case h_1      => exact electionTick_counts hf hc (fun _ _ => Standing.noConfusion) h
  case h_2      => exact electionTick_counts hf hc (fun _ _ => Standing.noConfusion) h
  case h_3 l hl =>
    obtain ⟨⟨_, ns⟩, ht, h⟩ := bind_eq_ok_iff.mp h
    cases h
    exact hc.of_gist (k := e.gist.taken) (leaderTick_gist hl ht)

theorem submit_counts (hf : e.storage.faults = {}) (hk : e.Kept) (hc : e.Counted e.commit)
    (h : e.submit payload = .ok turn) : turn.engine.Counted e.commit := by
  obtain he | ⟨_, storage, ha, he⟩ := submit_eq_ok h
  case inl => rw [he]; exact hc
  case inr =>
    have hf : storage.faults = {} := by rw [(Storage.append_eq_ok ha).left]; exact hf
    rw [he]
    exact ((Earned.refl { e with storage }).advanceCommit hf (hk.append ha)).right

theorem matchedOf_update (hn : (l.followers.map Prod.fst).Nodup) (hr : l.replication? s = some r)
    (hm : r'.matched = r.matched) : matchedOf (l.update s r').followers = matchedOf l.followers := by
  obtain ⟨before, later, hs, _⟩ := List.lookup_eq_some_iff.mp hr
  have hs : (s, r) ∈ l.followers := hs ▸ List.mem_append_right _ List.mem_cons_self
  rw [matchedOf, matchedOf, Leadership.update, List.map_map]
  refine List.map_congr_left fun f hf => ?_
  rw [Function.comp_apply]
  split
  case isFalse  => rfl
  case isTrue h => rw [List.inj_on_of_nodup_map hn hf hs h, hm]

theorem replicateTo_counts (hk : e.Kept) (hn : e.peers.Nodup) (hc : e.Counted e.commit)
    (h : e.replicateTo s = .ok turn) : turn.engine.Counted e.commit := by
  obtain ⟨⟨_, rfl⟩, _⟩ | ⟨l, r, _, _, hl, hr, _, _, rfl⟩ := replicateTo_eq_ok h
  case inl => exact hc
  case inr =>
    refine hc.of_gist (k := e.gist.taken) ?_
    rw [gist, gist, hl, Standing.rank, Standing.rank, matchedOf_update ((hk l hl).keys.symm ▸ hn) hr (by rfl)]

theorem receive_counts (hf : e.storage.faults = {}) (hk : e.Kept) (hc : e.Counted e.commit)
    (h : e.receive m s = .ok turn) : turn.engine.Counted e.commit := by
  obtain ⟨_, rfl⟩ | ⟨_, replied, e₂, ns, _, hh, hb, rfl⟩ := receive_eq_ok h
  case inl => exact hc
  case inr =>
    intro hr
    have hr₂ : e₂.role = .leader := role_of_standing (advanceCommit_standing e₂).left ▸ hr
    -- A follower would have stayed one.
    have hn : replied.engine.role ≠ .follower := fun hn => by
      cases (becomeLeader_of_role (by rw [hn]; decide)).symm.trans hb
      cases hn.symm.trans hr₂
    obtain ⟨hs, hc'⟩ : replied.engine.storage = e.storage ∧ replied.engine.commit = e.commit := by
      obtain ⟨_, _, he⟩ := handle_eq hh hn
      rw [he]
      exact adoptTerm_storage e s.asPeer m
    obtain ⟨he, hs', _⟩ := becomeLeader_counts (hs ▸ hf) hb
    have hk : e₂.Kept := ((hk.adoptTerm s.asPeer m).handle hh).becomeLeader hb
    exact ((hc' ▸ he).advanceCommit (hs' ▸ hs ▸ hf) hk).right hr

theorem answer_counts (hf : e.storage.faults = {}) (hk : e.Kept) (hn : e.peers.Nodup) (hc : e.Counted e.commit)
    (h : e.answer c = .ok e') : e'.Counted e.commit := by
  cases c
  case message m s => obtain ⟨_, ht, rfl⟩ := map_eq_ok_iff.mp h; exact receive_counts hf hk hc ht
  case command c   =>
    obtain ⟨_, ho, rfl⟩ := map_eq_ok_iff.mp h
    cases c
    case tick       => obtain ⟨_, ht, rfl⟩ := map_eq_ok_iff.mp ho; exact tick_counts hf hc ht
    case timeout    => obtain ⟨_, ht, rfl⟩ := map_eq_ok_iff.mp ho; exact timeout_counts hf hc ht
    case submit     => obtain ⟨_, ht, rfl⟩ := map_eq_ok_iff.mp ho; exact submit_counts hf hk hc ht
    case replicate  => obtain ⟨_, ht, rfl⟩ := map_eq_ok_iff.mp ho; exact replicateTo_counts hk hn hc ht
    case take limit => cases ho; exact hc.of_gist (takeCommitted_spec limit e).left

-- What a member over a log in memory can come to if that has never failed it.
def Unhindered (e : Engine) : Prop :=
  ∃ id peers es log random config, ∃ calls : List Call, Log.ofEntries es = .ok log ∧
    e = ((Career.start id peers ⟨log, {}⟩ random config).after (calls.map ({ call := · }))).engine.withFaults {}

theorem Unhindered.reachable : e.Unhindered → e.Reachable
  | ⟨_, _, _, _, _, _, _, hl, he⟩ => ⟨_, _, _, _, _, _, _, hl, he⟩

theorem step_counted {c : Career} (hr : (c.engine.withFaults {}).Reachable)
    (hc : (c.engine.withFaults {}).Counted c.engine.commit) (call : Call) :
    ((c.step ⟨call, {}⟩).engine.withFaults {}).Counted (c.step ⟨call, {}⟩).engine.commit := by
  rw [Career.step]
  dsimp only
  split
  case h_2       => exact hc
  case h_1 e' ha =>
    have hc := (answer_counts rfl hr.kept hr.nodup_peers hc ha).self
    exact hc.of_gist (k := e'.gist.taken) rfl

theorem Unhindered.counted (h : e.Unhindered) : e.Counted e.commit := by
  obtain ⟨id, peers, es, log, random, config, calls, hl, rfl⟩ := h
  induction calls using List.reverseRecOn
  case nil                            => exact .of_not_leader Role.noConfusion _
  case append_singleton calls call ih =>
    have hr : Reachable _ := ⟨id, peers, es, log, random, config, calls.map ({ call := · }), hl, rfl⟩
    rw [List.map_append, Career.after, List.foldl_append]
    exact step_counted hr ih call

-- Whatever the calls, counting makes the commit position the greatest one of what it was and of all positions that hold
-- an entry of the leader's term and are held by a majority. A whole call comes to the same, so that it leaves the
-- commit position as it is if there is none.
theorem commit_isGreatest (h : e.Unhindered) :
    (e.role = .leader → e.Graded →
      IsGreatest { n | n = e.commit ∨ e.Committable n } e.advanceCommit.1.commit) ∧
    ∀ call e', e.answer call = .ok e' → e'.role = .leader → e'.Graded →
      IsGreatest { n | n = e.commit ∨ e'.Committable n } e'.commit := by
  have hr := h.reachable
  refine ⟨fun hl hg => ?_, fun call e' ha => answer_counts hr.plain hr.kept hr.nodup_peers h.counted ha⟩
  obtain ⟨l, hs⟩ := standing_of_role hl
  have ⟨hc, hm, hu⟩ := advanceCommit_spec hs hr.plain fun f hf => ((hr.kept l hs).accounts f hf).matched_le
  refine ⟨hm, fun n hn => ?_⟩
  obtain rfl | hn := hn
  · exact hc
  · exact hu hg n hn

-- A leader of four, three of which hold both entries of an earlier term. An entry of its own follows, which only one of
-- the others is known to hold.
def outvoted : Engine :=
  ((Career.start "a" [.peer "b", .peer "c", .peer "d"] ⟨⟨[⟨1, 1, .text [119]⟩, ⟨1, 2, .text [120]⟩], 0⟩, {}⟩
    ⟨fun _ => 0, 0⟩ {}).after <| [
      .message ⟨1, .voteReply false⟩ (.peer "b"), .command .timeout,
      .message ⟨2, .voteReply true⟩ (.peer "b"), .message ⟨2, .voteReply true⟩ (.peer "c"),
      .command (.replicate (.peer "b")), .message ⟨2, .appendReply true⟩ (.peer "b"),
      .command (.replicate (.peer "c")), .message ⟨2, .appendReply true⟩ (.peer "c"),
      .command (.submit (.text [121])), .command (.replicate (.peer "b")), .command (.replicate (.peer "c")),
      .message ⟨2, .appendReply true⟩ (.peer "b")].map ({ call := · })).engine.withFaults {}

theorem commit_isGreatest_of_outvoted :
    outvoted.Unhindered ∧ outvoted.commit = 0 ∧ outvoted.holders 2 = 3 ∧ outvoted.storage.lastIndex = 3 ∧
    ∃ e', outvoted.answer (.message ⟨2, .appendReply true⟩ (.peer "c")) = .ok e' ∧ e'.role = .leader ∧ e'.Graded ∧
      e'.commit = 3 ∧ IsGreatest { n | n = outvoted.commit ∨ e'.Committable n } e'.commit := by
  have h : outvoted.Unhindered := ⟨_, _, [⟨1, 1, .text [119]⟩, ⟨1, 2, .text [120]⟩], _, _, _, _, rfl, rfl⟩
  have ⟨e', ha, hr, hc, hl, ht⟩ : ∃ e', outvoted.answer (.message ⟨2, .appendReply true⟩ (.peer "c")) = .ok e' ∧
      e'.role = .leader ∧ e'.commit = 3 ∧
      e'.storage.log.entries = [⟨1, 1, .text [119]⟩, ⟨1, 2, .text [120]⟩, ⟨2, 3, .text [121]⟩] ∧ e'.term = 2 :=
    ⟨_, rfl, by decide +kernel, by decide +kernel, by decide +kernel, by decide +kernel⟩
  have hg : e'.Graded := ⟨by rw [hl]; decide, by rw [hl, ht]; decide⟩
  exact ⟨h, by decide +kernel, by decide +kernel, by decide +kernel, e', ha, hr, hg, hc,
    (commit_isGreatest h).right _ e' ha hr hg⟩

end Engine
end RaftGroup
