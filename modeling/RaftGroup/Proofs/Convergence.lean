import RaftGroup.Proofs.Bookkeeping
import RaftGroup.Proofs.Copying

namespace RaftGroup

open Entries Storage

namespace Replication

variable {r r' : Replication} {m n last : Nat} {ns : List Nat}

def stale (matched : Nat) : List Nat → Nat
  | []      => 0
  | n :: ns => if matched ∈ n :: ns then stale matched ns + 1 else 0

theorem stale_le_length (m : Nat) (ns : List Nat) : stale m ns ≤ ns.length := by
  induction ns
  case nil          => exact Nat.le_refl _
  case cons n ns hi =>
    rw [stale]
    split
    case isTrue  => exact Nat.succ_le_succ hi
    case isFalse => exact Nat.zero_le _

theorem stale_cons_of_mem (h : m ∈ n :: ns) : stale m (n :: ns) = stale m ns + 1 :=
  if_pos h

theorem stale_of_not_mem (h : m ∉ ns) : stale m ns = 0 := by
  cases ns
  case nil  => rfl
  case cons => exact if_neg h

theorem stale_tail_le (m n : Nat) (ns : List Nat) : stale m ns ≤ stale m (n :: ns) := by
  by_cases h : m ∈ ns
  case pos => rw [stale_cons_of_mem (List.mem_cons_of_mem n h)]; exact Nat.le_succ _
  case neg => rw [stale_of_not_mem h]; exact Nat.zero_le _

theorem stale_concat (h : n ≠ m) (ns : List Nat) : stale m (ns ++ [n]) = stale m ns := by
  induction ns
  case nil          => exact stale_of_not_mem (by simpa using Ne.symm h)
  case cons k ns hi =>
    have hm : m ∈ k :: ns ++ [n] ↔ m ∈ k :: ns := by simp [Ne.symm h]
    rw [List.cons_append, stale, stale, hi]
    exact if_congr hm rfl rfl

-- A bound on how many rounds it takes until everything is matched. Until entries are sent from the matched position on,
-- a round can go back by one position. After that, each round is a success, and it is a success for more than is known
-- as soon as old requests have stopped to count.
def effort (r : Replication) (last : Nat) : Nat :=
  maxUnanswered * (last - r.matched) +
    if r.probing = false ∧ r.next = r.matched + 1 then stale r.matched r.unanswered
    else maxUnanswered + (r.next - 1 - r.matched)

theorem Kept.effort_le (h : r.Kept last) : r.effort last ≤ (maxUnanswered + 1) * last + maxUnanswered := by
  have := h.le
  have := h.bounded
  have := stale_le_length r.matched r.unanswered
  simp only [effort, maxUnanswered] at *
  split <;> omega

theorem le_effort (h : r.matched < last) : maxUnanswered ≤ r.effort last := by
  simp only [effort, maxUnanswered]
  omega

def settle (r : Replication) (success : Bool) : Except Overflow Replication :=
  match r.unanswered with
  | []             => .ok r
  | oldest :: rest => if success then (r.answered rest).accept (acknowledge oldest rest) else (r.answered rest).reject

theorem Kept.reject_effort (h : r.Kept last) (hn : r.next ≠ r.matched + 1)
    (hr : ((r.remember n).answered rest).reject = .ok r') : r'.effort last < r.effort last := by
  obtain ⟨_, rfl⟩ := reject_eq_ok_iff.mp hr
  have := h.lt
  rw [effort, effort, if_neg (fun h => absurd h.left nofun), if_neg (fun h => hn h.right)]
  change maxUnanswered * (last - r.matched) + (maxUnanswered + (max (r.next - 1) (r.matched + 1) - 1 - r.matched)) < _
  omega

theorem remember_unanswered (r : Replication) (n : Nat) :
    ∃ ns, (r.remember n).unanswered = ns ++ [n] ∧ ∀ m, stale m ns ≤ stale m r.unanswered := by
  rw [remember]
  split
  case isFalse => exact ⟨_, rfl, fun _ => Nat.le_refl _⟩
  case isTrue  =>
    refine ⟨_, rfl, fun m => ?_⟩
    cases r.unanswered
    case nil       => exact Nat.le_refl _
    case cons n ns => exact stale_tail_le m n ns

theorem Kept.acknowledge_bounds (h : (r.remember n).Kept last) (hu : (r.remember n).unanswered = oldest :: rest) :
    r.matched ≤ acknowledge oldest rest ∧ acknowledge oldest rest ≤ n := by
  obtain ⟨ns, hs, _⟩ := remember_unanswered r n
  exact ⟨(h.known _ (hu ▸ acknowledge_mem oldest rest)).left,
    acknowledge_le (hu ▸ hs ▸ List.mem_append_right _ (List.mem_singleton_self n))⟩

theorem Kept.accept_effort (hk : (r.remember n).Kept last) (hm : r.matched < last)
    (hn : r.SendsEntries last → r.next ≤ n) (hu : (r.remember n).unanswered = oldest :: rest)
    (ha : ((r.remember n).answered rest).accept (acknowledge oldest rest) = .ok r') :
    r'.effort last < r.effort last := by
  obtain ⟨ns, hs, hstale⟩ := remember_unanswered r n
  have ⟨hr, _⟩ := hk.acknowledge_bounds hu
  obtain ⟨_, rfl⟩ := accept_eq_ok_iff.mp ha
  rw [show max ((r.remember n).answered rest).matched (acknowledge oldest rest) = _ from Nat.max_eq_right hr]
  have hb := hk.bounded
  rw [hu, List.length_cons] at hb
  have := stale_le_length (acknowledge oldest rest) rest
  rw [effort, if_pos ⟨rfl, rfl⟩, effort]
  dsimp only [answered]
  split
  case isFalse    => simp only [maxUnanswered] at *; omega
  case isTrue hp =>
    have hlt : r.next ≤ n := hn ⟨hp.right ▸ hm, hp.left⟩
    by_cases hx : r.matched = acknowledge oldest rest
    case neg => simp only [maxUnanswered] at *; omega
    case pos =>
      have : stale r.matched rest + 1 = stale r.matched ns := calc stale r.matched rest + 1
        _ = stale r.matched (oldest :: rest) := (stale_cons_of_mem (hx ▸ acknowledge_mem oldest rest)).symm
        _ = stale r.matched (ns ++ [n])      := by rw [← hu, hs]
        _ = stale r.matched ns               := stale_concat (by omega) ns
      have := hstale r.matched
      rw [← hx]
      omega

end Replication

namespace Engine

open Replication

variable {e l l' f f' : Engine} {r r' : Replication} {s : Server}

def round (l f : Engine) : Except Overflow (Engine × Engine) := do
  let sent ← l.replicateTo (.peer f.id)
  match sent.result with
  | none         => return (sent.engine, f)
  | some request => do
    let heard ← f.receive request.message (.peer l.id)
    match heard.result with
    | none       => return (sent.engine, heard.engine)
    | some reply => do
      let read ← sent.engine.receive reply.message (.peer f.id)
      return (read.engine, heard.engine)

def rounds : Nat → Engine → Engine → Except Overflow (Engine × Engine)
  | 0,     l, f => return (l, f)
  | n + 1, l, f => do
    let (l, f) ← l.round f
    rounds n l f

theorem replicateTo_of_not_ready (h : e.replication? s = some r) (hr : ¬r.Ready e.storage.lastIndex) :
    e.replicateTo s = .ok ⟨e, none, []⟩ := by
  obtain ⟨l, hl, h⟩ := standing_of_replication? h
  simp only [replicateTo, hl, h, if_neg hr]
  rfl

theorem readAppendReply_of_settle {l : Leadership} (hl : e.standing = .leader l) (h : l.replication? s = some r)
    (hu : r.unanswered ≠ []) (hr : r.settle success = .ok r') :
    ∃ ns, e.readAppendReply success s = .ok ({ e with standing := .leader (l.update s r') }, ns) := by
  rw [settle] at hr
  simp only [readAppendReply, hl, h]
  cases hc : r.unanswered
  case nil              => exact absurd hc hu
  case cons oldest rest =>
    simp only [hc, answered] at hr ⊢
    split
    case isTrue hs  =>
      rw [if_pos hs] at hr
      rw [hr]
      exact ⟨_, rfl⟩
    case isFalse hs =>
      rw [if_neg hs] at hr
      rw [hr]
      exact ⟨_, rfl⟩

theorem readAppendReply_eq_ok (h : e.readAppendReply success s = .ok (e', ns)) :
    e' = e ∨ ∃ l r r', e.standing = .leader l ∧ l.replication? s = some r ∧ r.unanswered ≠ [] ∧
      r.settle success = .ok r' ∧ e' = { e with standing := .leader (l.update s r') } := by
  rw [readAppendReply] at h
  split at h
  case h_2      => cases h; exact .inl rfl
  case h_1 l hl =>
    split at h
    case h_1      => cases h; exact .inl rfl
    case h_2 r hr =>
      split at h
      case h_1                => cases h; exact .inl rfl
      case h_2 oldest rest hu =>
        refine .inr ⟨l, r, ?_⟩
        simp only [settle, hu, answered]
        split at h
        case isTrue hs  =>
          obtain ⟨r', ha, h⟩ := bind_eq_ok_iff.mp h
          cases h
          exact ⟨r', hl, hr, List.cons_ne_nil _ _, by rw [if_pos hs]; exact ha, rfl⟩
        case isFalse hs =>
          obtain ⟨r', ha, h⟩ := bind_eq_ok_iff.mp h
          cases h
          exact ⟨r', hl, hr, List.cons_ne_nil _ _, by rw [if_neg hs]; exact ha, rfl⟩

theorem receive_reply (h : e.replication? (.peer i) = some r) (hp : .peer i ∈ e.peers)
    (hu : r.unanswered ≠ []) (hr : r.settle success = .ok r') :
    ∃ turn l n, e.receive ⟨e.term, .appendReply success⟩ (.peer i) = .ok turn ∧
      turn.engine = { e with standing := .leader l, commit := n } ∧ turn.engine.replication? (.peer i) = some r' := by
  obtain ⟨l, hl, h⟩ := standing_of_replication? h
  obtain ⟨ns, hr⟩ := readAppendReply_of_settle hl h hu hr
  obtain ⟨n, hc⟩ := advanceCommit_eq { e with standing := .leader (l.update (.peer i) r') }
  simp only [receive, Server.asPeer, Server.id, if_pos hp, adoptTerm, Nat.lt_irrefl, if_false, handle, and_false, hr,
    bind, Except.bind]
  refine ⟨_, _, n, rfl, hc, ?_⟩
  change (advanceCommit _).1.replication? _ = _
  rw [hc]
  exact replication?_of_update (e := { e with commit := n }) h r'

theorem batch_length_pos (hf : e.storage.faults = {}) (hn : 0 < r.next) (h : r.SendsEntries e.storage.lastIndex) :
    0 < (e.batch r).length := by
  rw [batch, if_pos h, readFrom, if_neg (Nat.ne_of_gt hn), hf]
  have hd : 0 < (e.storage.log.entries.drop (r.next - 1)).length := by
    have : r.next ≤ e.storage.log.entries.length := h.left
    rw [List.length_drop]
    omega
  dsimp only
  cases hs : e.storage.log.entries.drop (r.next - 1)
  case nil  => rw [hs] at hd; exact absurd hd (Nat.lt_irrefl 0)
  case cons => exact Nat.succ_pos _

-- The leader can bring the follower up to date: it awaits no reply, the follower takes requests from it, and its log
-- can be copied to the follower's. This holds before and after each round.
structure Serves (l f : Engine) (r : Replication) : Prop where
  account  : l.replication? (.peer f.id) = some r
  idle     : r.awaiting = false
  kept     : l.Kept
  plain    : l.storage.faults = {}
  numbered : Consecutive 0 l.storage.log.entries
  size     : l.storage.lastIndex + 1 < wordSize
  term     : f.term ≤ l.term
  follows  : f.role = .leader → f.term < l.term
  peer     : .peer l.id ∈ f.peers
  copyable : f.storage.Copyable f.commit l.storage.log.entries
  matched  : l.storage.log.entries.take r.matched <+: f.storage.log.entries

structure Due (l : Engine) (r : Replication) (q : AppendRequest) : Prop where
  made    : q.From l.storage.log.entries
  prev    : q.prevIndex = r.next - 1
  entries : r.SendsEntries l.storage.lastIndex → r.next ≤ q.lastIndex

structure Advances (l : Engine) (r : Replication) (f l' f' : Engine) (r' : Replication) : Prop where
  serves  : l'.Serves f' r'
  storage : l'.storage = l.storage
  id      : f'.id = f.id
  effort  : r.matched < l.storage.lastIndex → r'.effort l.storage.lastIndex < r.effort l.storage.lastIndex
  matched : r.matched ≤ r'.matched

namespace Serves

theorem peers (h : l.Serves f r) : .peer f.id ∈ l.peers :=
  (h.kept.of_replication? h.account).left

theorem account_kept (h : l.Serves f r) : r.Kept l.storage.lastIndex :=
  (h.kept.of_replication? h.account).right

theorem ready (h : l.Serves f r) (hm : r.matched < l.storage.lastIndex) : r.Ready l.storage.lastIndex :=
  h.account_kept.ready h.idle hm

theorem sends (h : l.Serves f r) (hr : r.Ready l.storage.lastIndex) : ∃ turn s q,
    l.replicateTo (.peer f.id) = .ok turn ∧ turn.result = some ⟨.to (.peer f.id), l.term, .appendRequest q⟩ ∧
    turn.engine = { l with standing := .leader s } ∧
    turn.engine.replication? (.peer f.id) = some (r.remember q.lastIndex) ∧ l.Due r q := by
  obtain ⟨turn, s, t, hs, ht, ho, he, ha⟩ := replicateTo_of_ready h.plain h.size h.account h.account_kept hr
  refine ⟨turn, s, _, hs, ho, he, ha, ⟨ht, batch_isPrefix ..⟩, rfl, fun hr => ?_⟩
  have := batch_length_pos h.plain (Nat.lt_of_le_of_lt (Nat.zero_le _) h.account_kept.lt) hr
  change r.next ≤ r.next - 1 + (l.batch r).length
  omega

theorem next_ne (h : l.Serves f r) (hq : l.Due r q) (hd : ¬Ends f.storage.log.entries q.prevIndex q.prevTerm) :
    r.next ≠ r.matched + 1 := by
  intro hn
  have hp : q.prevIndex = r.matched := by rw [hq.prev, hn, Nat.add_sub_cancel]
  have hl : (l.storage.log.entries.take r.matched).length = r.matched := by
    rw [List.length_take]
    exact Nat.min_eq_left h.account_kept.matched_le
  refine hd (hq.made.ends.of_take ?_)
  rw [hp, prefix_take_eq h.matched (Nat.le_of_eq hl.symm), List.take_take, Nat.min_self]

theorem settles (h : l.Serves f r) (hq : l.Due r q)
    (ht : Takes l.storage.log.entries q f.storage f.commit success s' c) :
    ∃ r', (r.remember q.lastIndex).settle success = .ok r' ∧ r'.awaiting = false ∧
      (r.matched < l.storage.lastIndex → r'.effort l.storage.lastIndex < r.effort l.storage.lastIndex) ∧
      r.matched ≤ r'.matched ∧ l.storage.log.entries.take r'.matched <+: s'.log.entries := by
  have hk : (r.remember q.lastIndex).Kept l.storage.lastIndex :=
    h.account_kept.remember (hq.prev ▸ Nat.le_add_right ..) hq.made.last_le
  obtain ⟨oldest, rest, hu⟩ := List.exists_cons_of_ne_nil (r.remember_unanswered_ne_nil q.lastIndex)
  rw [settle, hu]
  cases ht
  case refused hd =>
    have hr := reject_eq_ok_iff (r := (r.remember q.lastIndex).answered rest).mpr
      ⟨Nat.lt_of_le_of_lt (Nat.succ_le_succ h.account_kept.matched_le) h.size, rfl⟩
    exact ⟨_, hr, rfl, fun _ => h.account_kept.reject_effort (h.next_ne hq hd) hr, Nat.le_refl _, h.matched⟩
  case copied es hn ht =>
    have ⟨hm, hl⟩ := hk.acknowledge_bounds hu
    have hx : max ((r.remember q.lastIndex).answered rest).matched (acknowledge oldest rest) = _ := Nat.max_eq_right hm
    have ha := accept_eq_ok_iff (r := (r.remember q.lastIndex).answered rest) (n := acknowledge oldest rest).mpr
      ⟨by rw [hx]; exact Nat.lt_of_le_of_lt (Nat.succ_le_succ (Nat.le_trans hl hq.made.last_le)) h.size, rfl⟩
    refine ⟨_, ha, rfl, fun hm => hk.accept_effort hm hq.entries hu ha, Nat.le_max_left .., ?_⟩
    dsimp only
    rw [hx, ← Nat.min_eq_left hl, ← List.take_take, ← ht]
    exact (List.take_prefix ..).trans (List.take_prefix ..)

theorem exchange (h : l.Serves f r) (hr : r.Ready l.storage.lastIndex) :
    ∃ l' f' r', l.round f = .ok (l', f') ∧ l.Advances r f l' f' r' := by
  obtain ⟨sent, s, q, hs, ho, he, ha, hq⟩ := h.sends hr
  obtain ⟨heard, success, hf, hh⟩ := receive_heeds h.peer h.term h.follows h.copyable h.size h.numbered hq.made
  obtain ⟨r', hr', hi, hx, hm, hp⟩ := h.settles hq hh.takes
  obtain ⟨read, s', n, hread, he', ha'⟩ :=
    receive_reply ha (by rw [he]; exact h.peers) (r.remember_unanswered_ne_nil q.lastIndex) hr'
  have hk := (h.kept.replicateTo hs).receive hread
  have ht : sent.engine.term = l.term := by rw [he]
  rw [ht] at hread
  refine ⟨read.engine, heard.engine, r', ?_, ⟨?_, by rw [he', he], hh.id, hx, hm⟩⟩
  case refine_1 =>
    simp only [round, hs, ho, hf, hh.result, hread, bind, Except.bind]
    rfl
  case refine_2 =>
    have hl : read.engine.storage = l.storage := by rw [he', he]
    exact {
      account  := hh.id ▸ ha'
      idle     := hi
      kept     := hk
      plain    := hl ▸ h.plain
      numbered := hl ▸ h.numbered
      size     := hl ▸ h.size
      term     := by rw [hh.term, he', he]
      follows  := fun hr => by rw [hh.role] at hr; cases hr
      peer     := by rw [hh.peers, he', he]; exact h.peer
      copyable := hl ▸ hh.takes.copyable h.copyable h.size
      matched  := hl ▸ hp }

theorem round (h : l.Serves f r) : ∃ l' f' r', l.round f = .ok (l', f') ∧ l.Advances r f l' f' r' := by
  by_cases hr : r.Ready l.storage.lastIndex
  case pos => exact h.exchange hr
  case neg =>
    refine ⟨l, f, r, ?_, h, rfl, rfl, fun hm => absurd (h.ready hm) hr, Nat.le_refl _⟩
    rw [Engine.round, replicateTo_of_not_ready h.account hr]
    rfl

theorem rounds (h : l.Serves f r) (n : Nat) : ∃ l' f' r', Engine.rounds n l f = .ok (l', f') ∧ l'.Serves f' r' ∧
    l'.storage = l.storage ∧ f'.id = f.id ∧ r.matched ≤ r'.matched ∧
    (r'.matched < l.storage.lastIndex → r'.effort l.storage.lastIndex + n ≤ r.effort l.storage.lastIndex) := by
  induction n generalizing l f r
  case zero      => exact ⟨l, f, r, rfl, h, rfl, rfl, Nat.le_refl _, fun _ => Nat.le_refl _⟩
  case succ n hi =>
    obtain ⟨l₁, f₁, r₁, h₁, ha⟩ := h.round
    obtain ⟨l', f', r', h', hs, hl, hf, hm, he⟩ := hi ha.serves
    have hm := Nat.le_trans ha.matched hm
    refine ⟨l', f', r', ?_, hs, hl.trans ha.storage, hf.trans ha.id, hm, fun hx => ?_⟩
    case refine_1 => rw [Engine.rounds, h₁]; exact h'
    case refine_2 =>
      have he := he (ha.storage ▸ hx)
      have := ha.effort (Nat.lt_of_le_of_lt hm hx)
      rw [ha.storage] at he
      omega

end Serves

-- Whatever has been lost before, a leader that awaits no reply brings a follower of its term up to date once messages
-- get through, and it never runs out of things to send before. The two logs have to agree wherever they have entries of
-- the same term, what the follower has committed has to be in the leader's log, and what the leader takes for matched
-- has to be in the follower's. The positions that follow the logs fit their words.
theorem rounds_converge (hl : l.Reachable) (hf : f.Reachable) (ha : l.replication? (.peer f.id) = some r)
    (hi : r.awaiting = false) (ht : f.term ≤ l.term) (hr : f.role = .leader → f.term ≠ l.term)
    (hp : .peer l.id ∈ f.peers) (hc : Coherent f.storage.log.entries l.storage.log.entries)
    (hd : f.storage.log.entries.take f.commit <+: l.storage.log.entries)
    (hm : l.storage.log.entries.take r.matched <+: f.storage.log.entries)
    (hs : l.storage.lastIndex + 1 < wordSize) (hs' : f.storage.lastIndex + 1 < wordSize) (n : Nat) :
    ∃ l' f' r', rounds n l f = .ok (l', f') ∧ l'.storage = l.storage ∧ l'.replication? (.peer f.id) = some r' ∧
      (r'.matched < l.storage.lastIndex → ∃ turn request, l'.replicateTo (.peer f.id) = .ok turn ∧
        turn.result = some ⟨.to (.peer f.id), l'.term, .appendRequest request⟩) ∧
      (66 * (l.storage.lastIndex + 1) ≤ n → r'.matched = l.storage.lastIndex ∧
        f'.storage.log.entries.take l.storage.lastIndex = l.storage.log.entries) := by
  have h : l.Serves f r := {
    account  := ha
    idle     := hi
    kept     := hl.kept
    plain    := hl.plain
    numbered := hl.consecutive
    size     := hs
    term     := ht
    follows  := fun h => Nat.lt_of_le_of_ne ht (hr h)
    peer     := hp
    copyable := ⟨hf.plain, hc, hd, hf.applied_le, hs'⟩
    matched  := hm }
  obtain ⟨l', f', r', hn, hs, hl, hf, _, he⟩ := h.rounds n
  refine ⟨l', f', r', hn, hl, hf ▸ hs.account, fun hm => ?_, fun hn => ?_⟩
  case refine_1 =>
    obtain ⟨turn, _, q, ht, ho, _⟩ := hs.sends (hs.ready (hl ▸ hm))
    exact ⟨turn, q, hf ▸ ht, hf ▸ ho⟩
  case refine_2 =>
    have hm : r'.matched = l.storage.lastIndex := by
      refine Nat.le_antisymm (hl ▸ hs.account_kept.matched_le) (Nat.le_of_not_lt fun hm => ?_)
      have := he hm
      have := le_effort hm
      have := h.account_kept.effort_le
      simp only [maxUnanswered] at *
      omega
    refine ⟨hm, ?_⟩
    have hp := hs.matched
    rw [hm, hl, show l.storage.lastIndex = l.storage.log.entries.length from rfl, List.take_length] at hp
    exact (List.prefix_iff_eq_take.mp hp).symm

-- A leader that has given up its first request, so that it does not know where to go on.
def unheard : Engine :=
  ((Career.start "a" [.peer "b"] ⟨⟨[⟨1, 1, .text [119]⟩, ⟨3, 2, .text [120]⟩], 0⟩, {}⟩ ⟨fun _ => 0, 0⟩ {}).after
    [⟨.message ⟨4, .voteReply false⟩ (.peer "b"), {}⟩, ⟨.command .timeout, {}⟩,
      ⟨.message ⟨5, .voteReply true⟩ (.peer "b"), {}⟩, ⟨.command (.replicate (.peer "b")), {}⟩,
      ⟨.command .tick, {}⟩, ⟨.command .tick, {}⟩, ⟨.command .tick, {}⟩]).engine.withFaults {}

-- A follower that has entries of a leader whose term is over.
def estranged : Engine :=
  (Career.start "b" [.peer "a"]
    ⟨⟨[⟨1, 1, .text [119]⟩, ⟨2, 2, .text [121]⟩, ⟨2, 3, .text [122]⟩], 0⟩, {}⟩ ⟨fun _ => 0, 0⟩ {}).engine.withFaults {}

theorem rounds_converge_of_unheard :
    unheard.replication? (.peer "b") = some ⟨1, 0, [2], true, true, false, 3⟩ ∧
    ¬estranged.storage.log.entries <+: unheard.storage.log.entries ∧
    ∃ l f, rounds 198 unheard estranged = .ok (l, f) ∧
      f.storage.log.entries.take 2 = unheard.storage.log.entries := by
  have hl : unheard.storage.log.entries = [⟨1, 1, .text [119]⟩, ⟨3, 2, .text [120]⟩] := by decide +kernel
  have hf : estranged.storage.log.entries = [⟨1, 1, .text [119]⟩, ⟨2, 2, .text [121]⟩, ⟨2, 3, .text [122]⟩] := rfl
  have ha : unheard.replication? (.peer "b") = some ⟨1, 0, [2], true, true, false, 3⟩ := by decide +kernel
  have hn : unheard.storage.lastIndex = 2 := congrArg List.length hl
  have hc : Coherent estranged.storage.log.entries unheard.storage.log.entries := by
    rw [hl, hf]
    rintro (_ | _ | n) t h h'
    · rfl
    · cases h
      exact absurd h' (by decide)
    · cases h'
  have hr : unheard.Reachable := ⟨_, _, [⟨1, 1, .text [119]⟩, ⟨3, 2, .text [120]⟩], _, _, _, _, rfl, rfl⟩
  have hr' : estranged.Reachable :=
    ⟨_, _, [⟨1, 1, .text [119]⟩, ⟨2, 2, .text [121]⟩, ⟨2, 3, .text [122]⟩], _, _, _, [], rfl, rfl⟩
  obtain ⟨l, f, r, hx, -, -, -, he⟩ := rounds_converge hr hr' ha rfl (by decide +kernel) nofun (by decide +kernel) hc
    List.nil_prefix List.nil_prefix (by rw [hn]; decide) (by decide) 198
  rw [hn] at he
  refine ⟨ha, by rw [hl, hf]; decide, l, f, hx, (he (by decide)).right⟩

end Engine
end RaftGroup
