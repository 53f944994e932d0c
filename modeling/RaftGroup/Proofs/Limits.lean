import RaftGroup.Proofs.Promises

namespace RaftGroup

def Call.entries : Call → List Entry
  | .command _   => []
  | .message m _ => m.rpc.entries

def Call.Worded : Call → Prop
  | .command _   => True
  | .message m _ => m.term < wordSize

theorem Replication.Kept.beat_ok {r : Replication} (h : r.Kept last) (hs : last + 1 < wordSize) (patience : Nat) :
    ∃ r', r.beat patience = .ok r' := by
  have ha : advance .index r.matched 1 = .ok (r.matched + 1) :=
    advance_eq_ok_iff.mpr ⟨rfl, Nat.lt_of_le_of_lt (Nat.succ_le_succ h.matched_le) hs⟩
  rw [Replication.beat]
  split
  case isTrue  => rw [ha]; exact ⟨_, rfl⟩
  case isFalse => exact ⟨_, rfl⟩

theorem map_eq_error_iff {x : Except ε α} {f : α → β} : f <$> x = .error o ↔ x = .error o := by
  cases x <;> simp [Functor.map, Except.map]

namespace Engine

variable {e e' : Engine} {c : Call}

theorem beatAll_ok {fs : List (Server × Replication)} (hk : ∀ f ∈ fs, f.2.Kept last) (hs : last + 1 < wordSize)
    (patience : Nat) : ∃ fs', beatAll patience fs = .ok fs' := by
  induction fs
  case nil          => exact ⟨_, rfl⟩
  case cons f fs hi =>
    have ⟨hf, hk⟩ := List.forall_mem_cons.mp hk
    obtain ⟨r', hr⟩ := hf.beat_ok hs patience
    obtain ⟨fs', hb⟩ := hi hk
    exact ⟨(f.1, r') :: fs', by simp [beatAll, hr, hb, bind, Except.bind, pure, Except.pure]⟩

theorem leaderTick_ok (hk : e.Kept) (hl : e.standing = .leader l) (hs : e.storage.lastIndex + 1 < wordSize) :
    ∃ out, e.leaderTick l = .ok out := by
  obtain ⟨fs, hb⟩ := beatAll_ok (countTick_kept (hk l hl).accounts).right hs e.patience
  rw [leaderTick]
  dsimp only
  split
  case isTrue  => rw [hb]; exact ⟨_, rfl⟩
  case isFalse => exact ⟨_, rfl⟩

theorem submit_ok (hs : e.storage.lastIndex + 1 < wordSize) (payload : Payload) :
    ∃ turn, e.submit payload = .ok turn := by
  have ha : advance .index e.storage.lastIndex 1 = .ok _ := advance_eq_ok_iff.mpr ⟨rfl, hs⟩
  simp only [submit, ha, bind, Except.bind]
  repeat' split
  all_goals exact ⟨_, rfl⟩

theorem replicateTo_ok (hk : e.Kept) (hs : e.storage.lastIndex + 1 < wordSize) (s : Server) :
    ∃ turn, e.replicateTo s = .ok turn := by
  rw [replicateTo]
  split
  case h_2      => exact ⟨_, rfl⟩
  case h_1 l hl =>
    split
    case h_1      => exact ⟨_, rfl⟩
    case h_2 r hr =>
      have hb := batch_le ((hk l hl).of_replication? hr).right
      have ha : advance .index r.next (e.batch r).length = .ok _ :=
        advance_eq_ok_iff.mpr ⟨rfl, Nat.lt_of_le_of_lt hb hs⟩
      repeat' split
      case h_2 => simp only [appendRequest, ha]; exact ⟨_, rfl⟩
      all_goals exact ⟨_, rfl⟩

theorem campaign_eq_error_iff : e.campaign = .error o ↔ o = .term ∧ wordSize ≤ e.term + 1 := by
  rw [campaign]
  cases ha : advance .term e.term 1
  case ok    =>
    obtain ⟨rfl, ht⟩ := advance_eq_ok_iff.mp ha
    exact ⟨fun h => (by cases h), fun h => absurd h.right (Nat.not_le_of_lt ht)⟩
  case error =>
    obtain ⟨rfl, ht⟩ := advance_eq_error_iff.mp ha
    exact ⟨fun h => (by cases h; exact ⟨rfl, ht⟩), fun h => (by rw [h.left]; rfl)⟩

theorem timeout_of_not_leader (hr : e.role ≠ .leader) :
    e.timeout = (do
      let e ← e.campaign
      let (e', notices) ← e.becomeLeader
      return ⟨e', e'.voteRequest?, .becameCandidate e.term :: notices⟩) := by
  rw [timeout]
  split
  case h_1 hl => exact absurd (by rw [role, hl]) hr
  case h_2    => rfl

theorem timeout_eq_error_iff (hs : e.storage.lastIndex + 1 < wordSize) :
    e.timeout = .error o ↔ o = .term ∧ e.role ≠ .leader ∧ wordSize ≤ e.term + 1 := by
  by_cases hr : e.role = .leader
  case pos =>
    obtain ⟨l, hl⟩ := standing_of_role hr
    simp [timeout, hl, hr, pure, Except.pure]
  case neg =>
    rw [timeout_of_not_leader hr]
    cases hc : e.campaign
    case error =>
      obtain ⟨rfl, ht⟩ := campaign_eq_error_iff.mp hc
      simp [bind, Except.bind, hr, ht, eq_comm]
    case ok e₁ =>
      obtain ⟨ht, he⟩ := campaign_eq_ok hc
      have hs₁ : e₁.storage.lastIndex + 1 < wordSize := by rwa [he]
      obtain ⟨out, ho⟩ := becomeLeader_ok hs₁
      simp [bind, Except.bind, pure, Except.pure, ho, ht]

def countdown? (e : Engine) : Option Nat :=
  match e.standing with
  | .follower f  => some f.ticks
  | .candidate c => some c.ticks
  | .leader _    => none

def Stands (e : Engine) : Call → Prop
  | .command .timeout => e.role ≠ .leader
  | .command .tick    => ∃ n, e.countdown? = some n ∧ n ≤ 1
  | _                 => False

theorem electionTick_eq_error_iff (hs : e.storage.lastIndex + 1 < wordSize) (hr : e.role ≠ .leader) :
    e.electionTick ticks wait = .error o ↔ o = .term ∧ ticks ≤ 1 ∧ wordSize ≤ e.term + 1 := by
  rw [electionTick]
  split
  case isFalse hn => simp [pure, Except.pure, hn]
  case isTrue hn  =>
    have ht := timeout_eq_error_iff (o := o) hs
    cases h : e.timeout
    case ok    => simpa [h, hn, hr, bind, Except.bind, pure, Except.pure] using ht
    case error => simpa [h, hn, hr, bind, Except.bind] using ht

theorem tick_eq_error_iff (hk : e.Kept) (hs : e.storage.lastIndex + 1 < wordSize) :
    e.tick = .error o ↔ o = .term ∧ e.Stands (.command .tick) ∧ wordSize ≤ e.term + 1 := by
  cases hl : e.standing
  case leader l =>
    obtain ⟨out, ho⟩ := leaderTick_ok hk hl hs
    simp [tick, hl, ho, Stands, countdown?, bind, Except.bind, pure, Except.pure]
  all_goals
    have hr : e.role ≠ .leader := by simp [role, hl]
    simp [tick, hl, Stands, countdown?, electionTick_eq_error_iff hs hr]

theorem answer_eq_error_iff (hk : e.Kept) (hs : e.storage.lastIndex + c.entries.length + 1 < wordSize) :
    e.answer c = .error o ↔ o = .term ∧ e.Stands c ∧ wordSize ≤ e.term + 1 := by
  cases c
  case message m s =>
    obtain ⟨turn, ht⟩ := receive_ok hk hs s
    simp [answer, ht, Stands, Functor.map, Except.map]
  case command c =>
    have hs : e.storage.lastIndex + 1 < wordSize := hs
    cases c
    case tick        => simp [answer, obey, map_eq_error_iff, tick_eq_error_iff hk hs]
    case timeout     => simp [answer, obey, map_eq_error_iff, timeout_eq_error_iff hs, Stands]
    case submit p    =>
      obtain ⟨turn, ht⟩ := submit_ok hs p
      simp [answer, obey, ht, Stands, Functor.map, Except.map]
    case replicate s =>
      obtain ⟨turn, ht⟩ := replicateTo_ok hk hs s
      simp [answer, obey, ht, Stands, Functor.map, Except.map]
    case take        => simp [answer, obey, Stands, Functor.map, Except.map]

theorem timeout_term_lt (ht : e.term < wordSize) (h : e.timeout = .ok turn) : turn.engine.term < wordSize := by
  obtain ⟨_, rfl⟩ | ⟨_, e₁, e₂, ns, hc, hb, rfl⟩ := timeout_eq_ok h
  case inl => exact ht
  case inr =>
    obtain ⟨hw, rfl⟩ := campaign_eq_ok hc
    rw [(becomeLeader_spec hb).left]
    exact hw

theorem electionTick_term_lt (ht : e.term < wordSize) (h : e.electionTick ticks wait = .ok turn) :
    turn.engine.term < wordSize := by
  obtain ⟨_, rfl⟩ | ⟨_, out, ho, rfl⟩ := electionTick_eq_ok h
  case inl => exact ht
  case inr => exact (timeout_term_lt ht ho :)

theorem tick_term_lt (ht : e.term < wordSize) (h : e.tick = .ok turn) : turn.engine.term < wordSize := by
  rw [tick] at h
  split at h
  case h_1   => exact electionTick_term_lt ht h
  case h_2   => exact electionTick_term_lt ht h
  case h_3 l =>
    obtain ⟨⟨_, ns⟩, hl, h⟩ := bind_eq_ok_iff.mp h
    obtain ⟨_, rfl, _⟩ := leaderTick_eq_ok hl
    cases h
    exact ht

theorem act_term_lt (ht : e.term < wordSize) (hc : c.Worded) (h : e.act c = .ok (e', os)) : e'.term < wordSize := by
  cases c
  case message => exact Nat.lt_of_le_of_lt (act_term_le h) (Nat.max_lt.mpr ⟨ht, hc⟩)
  case command c =>
    cases c
    case tick =>
      obtain ⟨turn, ho, h⟩ := map_eq_ok_iff.mp h
      cases h
      exact tick_term_lt ht ho
    case timeout =>
      obtain ⟨turn, ho, h⟩ := map_eq_ok_iff.mp h
      cases h
      exact timeout_term_lt ht ho
    all_goals exact Nat.lt_of_le_of_lt (act_term_le h) ht

end Engine

namespace Career

theorem step_term_lt {c : Career} (ht : c.engine.term < wordSize) (hi : i.call.Worded) :
    (c.step i).engine.term < wordSize := by
  obtain ha | ⟨-, hs⟩ := c.step_cases i
  case inl => exact Engine.act_term_lt (e := c.engine.withFaults i.faults) ht hi ha
  case inr => rw [hs]; exact ht

theorem after_term_lt {c : Career} (ht : c.engine.term < wordSize) (hi : ∀ i ∈ incidents, i.call.Worded) :
    (c.after incidents).engine.term < wordSize := by
  induction incidents generalizing c
  case nil                 => exact ht
  case cons i incidents ih =>
    have ⟨hi, hn⟩ := List.forall_mem_cons.mp hi
    exact ih (step_term_lt ht hi) hn

-- Whatever a member has been asked and told: as long as all positions up to one behind its log and what it is told now
-- fit a word, no position that is counted leaves the word, not even by what a message states. The member fails exactly
-- if it is to stand for election, by a timeout or because it has waited enough ticks, when it does not lead and its
-- term is the last one. Positions that are handed out are not counted by sums that can fail; they are small enough.
theorem fails_iff (h : Log.ofEntries es = .ok l) (id : String) (peers : List Server) (random : RandomSource)
    (config : Config) (hi : ∀ i ∈ incidents, i.call.Worded) (i : Incident) :
    let e := ((start id peers ⟨l, {}⟩ random config).after incidents).engine.withFaults i.faults
    e.storage.lastIndex + i.call.entries.length < wordSize - 1 →
      (∀ o, e.answer i.call = .error o ↔ o = .term ∧ e.Stands i.call ∧ e.term = wordSize - 1) ∧
      ∀ n, n < e.commit → n + 1 < wordSize := by
  intro e hs
  have hk : e.Kept :=
    (after_kept (c := start id peers ⟨l, {}⟩ random config) (Engine.kept_of_not_leader fun _ => Standing.noConfusion)
      incidents).of_standing rfl rfl (Nat.le_refl _)
  have ht : e.term < wordSize :=
    after_term_lt (c := start id peers ⟨l, {}⟩ random config) (show 0 < wordSize by decide) hi
  have hc : e.commit ≤ e.storage.lastIndex :=
    ((settled_start h id peers {} random config).after incidents).left.le
  refine ⟨fun o => ?_, fun n hn => by omega⟩
  rw [Engine.answer_eq_error_iff hk (by omega), show wordSize ≤ e.term + 1 ↔ e.term = wordSize - 1 by omega]

-- Somebody has stated the last term.
def worn : List Incident :=
  [⟨.message ⟨wordSize - 1, .voteReply false⟩ (.peer "b"), {}⟩]

def utmost : Incident where
  call := .message ⟨wordSize - 1, .appendRequest ⟨"b", wordSize - 1, wordSize - 1, wordSize - 1,
    [⟨wordSize - 1, wordSize - 1, .text [119]⟩]⟩⟩ (.peer "b")

def wearied : Engine :=
  ((start "a" [.peer "b"] ⟨⟨[⟨1, 1, .text [119]⟩], 0⟩, {}⟩ ⟨fun _ => 0, 0⟩ {}).after worn).engine.withFaults {}

theorem fails_iff_of_worn :
    wearied.role ≠ .leader ∧ wearied.term = wordSize - 1 ∧ wearied.answer (.command .timeout) = .error .term ∧
    (∀ o, wearied.answer utmost.call ≠ .error o) ∧ ∀ o, wearied.answer (.command .tick) ≠ .error o := by
  have hl : Log.ofEntries [⟨1, 1, .text [119]⟩] = .ok ⟨[⟨1, 1, .text [119]⟩], 0⟩ := rfl
  have hw : ∀ i ∈ worn, i.call.Worded := List.forall_mem_singleton.mpr (show wordSize - 1 < wordSize by decide)
  have hf (i : Incident) := fails_iff hl "a" [.peer "b"] ⟨fun _ => 0, 0⟩ {} hw i
  have hr : wearied.role ≠ .leader := by decide +kernel
  have ht : wearied.term = wordSize - 1 := by decide +kernel
  have hc : wearied.countdown? = some 10 := by decide +kernel
  refine ⟨hr, ht, ?_, fun o ho => ?_, fun o ho => ?_⟩
  case refine_1 => exact ((hf ⟨.command .timeout, {}⟩ (by decide +kernel)).left .term).mpr ⟨rfl, hr, ht⟩
  case refine_2 => exact (((hf utmost (by decide +kernel)).left o).mp ho).right.left.elim
  case refine_3 =>
    obtain ⟨n, hs, hn⟩ := (((hf ⟨.command .tick, {}⟩ (by decide +kernel)).left o).mp ho).right.left
    cases hc.symm.trans hs
    exact absurd hn (by decide)

end Career
end RaftGroup
