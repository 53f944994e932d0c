import RaftGroup.Proofs.Finality
import RaftGroup.Proofs.Overlay
import RaftGroup.Proofs.Pending

namespace RaftGroup

open Entries

namespace Replication

variable {r r' : Replication} {last n : Nat}

-- A follower is sent something when no reply is awaited: at least a heartbeat, unless what follows the matched position
-- is next anyway.
structure Kept (r : Replication) (last : Nat) : Prop where
  lt      : r.matched < r.next
  le      : r.next ≤ last + 1
  known   : ∀ n ∈ r.unanswered, r.matched ≤ n ∧ n ≤ last
  bounded : r.unanswered.length ≤ maxUnanswered
  awaits  : r.awaiting = true → r.unanswered ≠ []
  due     : r.awaiting = false → r.heartbeatDue = true ∨ (r.probing = false ∧ r.next = r.matched + 1)

theorem remember_unanswered_ne_nil (r : Replication) (n : Nat) : (r.remember n).unanswered ≠ [] :=
  List.append_ne_nil_of_right_ne_nil _ (List.cons_ne_nil _ _)

namespace Kept

theorem fresh (last : Nat) : Kept { next := last + 1 } last where
  lt      := Nat.succ_pos _
  le      := Nat.le_refl _
  known   := nofun
  bounded := Nat.zero_le _
  awaits  := nofun
  due _   := .inl rfl

theorem mono (h : r.Kept last) (hl : last ≤ last') : r.Kept last' :=
  { h with
    le      := Nat.le_trans h.le (Nat.succ_le_succ hl)
    known n := fun hn => (h.known n hn).imp_right fun hn => Nat.le_trans hn hl }

theorem matched_le (h : r.Kept last) : r.matched ≤ last :=
  Nat.le_of_lt_succ (Nat.lt_of_lt_of_le h.lt h.le)

theorem ready (h : r.Kept last) (hi : r.awaiting = false) (hm : r.matched < last) : r.Ready last := by
  refine ⟨hi, ?_⟩
  obtain hd | ⟨hp, hn⟩ := h.due hi
  · exact .inr hd
  · exact .inl ⟨by omega, hp⟩

theorem exists_ends {log : List Entry} (h : r.Kept log.length) : ∃ t, Ends log (r.next - 1) t := by
  have hl : r.next - 1 ≤ log.length := Nat.sub_le_of_le_add h.le
  generalize r.next - 1 = n at hl ⊢
  cases n
  case zero   => exact ⟨0, rfl⟩
  case succ n => exact ⟨_, term?_eq_some hl⟩

theorem countTick (h : r.Kept last) : r.countTick.Kept last := by
  rw [Replication.countTick]
  split
  case isTrue  => exact { h with }
  case isFalse => exact h

theorem beat (h : r.Kept last) (hb : r.beat patience = .ok r') : r'.Kept last := by
  rw [Replication.beat] at hb
  split at hb
  case isFalse => cases hb; exact { h with due := fun _ => .inl rfl }
  case isTrue  =>
    obtain ⟨next, hn, hb⟩ := bind_eq_ok_iff.mp hb
    cases hb
    obtain ⟨rfl, _⟩ := advance_eq_ok_iff.mp hn
    exact { h with
      lt     := Nat.lt_succ_self _
      le     := Nat.succ_le_succ h.matched_le
      awaits := fun ha => by cases ha
      due    := fun _ => .inl rfl }

theorem remember (h : r.Kept last) (hn : r.next - 1 ≤ n) (hl : n ≤ last) : (r.remember n).Kept last where
  lt      := h.lt
  le      := h.le
  known k := fun hk => by
    obtain hk | hk := List.mem_append.mp hk
    · refine h.known k ?_
      split at hk
      case isTrue  => exact List.mem_of_mem_drop hk
      case isFalse => exact hk
    · cases List.mem_singleton.mp hk
      exact ⟨Nat.le_trans (Nat.le_sub_one_of_lt h.lt) hn, hl⟩
  bounded := by
    have := h.bounded
    have hm : maxUnanswered = 64 := rfl
    rw [Replication.remember, List.length_append, List.length_singleton]
    split
    case isTrue  => rw [List.length_drop]; omega
    case isFalse => omega
  awaits  := fun _ => remember_unanswered_ne_nil r n
  due     := nofun

end Kept

theorem accept_eq_ok_iff : r.accept n = .ok r' ↔ max r.matched n + 1 < wordSize ∧
    r' = { r with matched := max r.matched n, next := max r.matched n + 1, probing := false } := by
  rw [accept, bind_eq_ok_iff]
  constructor
  case mp =>
    rintro ⟨next, hn, h⟩
    obtain ⟨rfl, hs⟩ := advance_eq_ok_iff.mp hn
    cases h
    exact ⟨hs, rfl⟩
  case mpr =>
    rintro ⟨hs, rfl⟩
    exact ⟨_, advance_eq_ok_iff.mpr ⟨rfl, hs⟩, rfl⟩

theorem reject_eq_ok_iff : r.reject = .ok r' ↔ r.matched + 1 < wordSize ∧
    r' = { r with next := max (r.next - 1) (r.matched + 1), probing := true, heartbeatDue := true } := by
  rw [reject, bind_eq_ok_iff]
  constructor
  case mp =>
    rintro ⟨next, hn, h⟩
    obtain ⟨rfl, hs⟩ := advance_eq_ok_iff.mp hn
    cases h
    exact ⟨hs, rfl⟩
  case mpr =>
    rintro ⟨hs, rfl⟩
    exact ⟨_, advance_eq_ok_iff.mpr ⟨rfl, hs⟩, rfl⟩

theorem acknowledge_mem (oldest : Nat) (rest : List Nat) : acknowledge oldest rest ∈ oldest :: rest := by
  induction rest generalizing oldest
  case nil            => exact List.mem_cons_self
  case cons k rest hi =>
    rw [acknowledge, List.foldl_cons]
    obtain h | h := List.mem_cons.mp (hi (min oldest k))
    · rw [show rest.foldl min (min oldest k) = min oldest k from h]
      cases Nat.le_total oldest k
      case inl hl => rw [Nat.min_eq_left hl]; exact List.mem_cons_self
      case inr hl => rw [Nat.min_eq_right hl]; exact List.mem_cons_of_mem _ List.mem_cons_self
    · exact List.mem_cons_of_mem _ (List.mem_cons_of_mem _ h)

def answered (r : Replication) (rest : List Nat) : Replication :=
  { r with unanswered := rest, awaiting := false }

theorem Kept.accept (h : r.Kept last) (hu : r.unanswered = oldest :: rest)
    (ha : (r.answered rest).accept (acknowledge oldest rest) = .ok r') : r'.Kept last := by
  obtain ⟨_, rfl⟩ := accept_eq_ok_iff.mp ha
  obtain ⟨hm, hl⟩ := h.known _ (hu ▸ acknowledge_mem oldest rest)
  have hb := h.bounded
  rw [hu, List.length_cons] at hb
  rw [show max (r.answered rest).matched (acknowledge oldest rest) = _ from Nat.max_eq_right hm]
  exact {
    lt      := Nat.lt_succ_self _
    le      := Nat.succ_le_succ hl
    known   := fun n hn => by
      have hn : n ∈ oldest :: rest := List.mem_cons_of_mem _ hn
      exact ⟨acknowledge_le hn, (h.known n (hu ▸ hn)).right⟩
    bounded := Nat.le_of_succ_le hb
    awaits  := nofun
    due     := fun _ => .inr ⟨rfl, rfl⟩ }

theorem Kept.reject (h : r.Kept last) (hu : r.unanswered = oldest :: rest)
    (hr : (r.answered rest).reject = .ok r') : r'.Kept last := by
  obtain ⟨_, rfl⟩ := reject_eq_ok_iff.mp hr
  have hb := h.bounded
  rw [hu, List.length_cons] at hb
  exact {
    lt      := Nat.lt_of_lt_of_le (Nat.lt_succ_self _) (Nat.le_max_right ..)
    le      := Nat.max_le.mpr ⟨Nat.le_trans (Nat.sub_le ..) h.le, Nat.succ_le_succ h.matched_le⟩
    known   := fun n hn => h.known n (hu ▸ List.mem_cons_of_mem _ hn)
    bounded := Nat.le_of_succ_le hb
    awaits  := nofun
    due     := fun _ => .inl rfl }

end Replication

structure Leadership.Kept (l : Leadership) (peers : List Server) (last : Nat) : Prop where
  keys     : l.followers.map Prod.fst = peers
  accounts : ∀ f ∈ l.followers, f.2.Kept last

namespace Leadership.Kept

variable {l : Leadership} {peers : List Server} {last : Nat} {s : Server} {r : Replication}

theorem of_replication? (h : l.Kept peers last) (hr : l.replication? s = some r) : s ∈ peers ∧ r.Kept last := by
  obtain ⟨before, later, hf, _⟩ := List.lookup_eq_some_iff.mp hr
  have hm : (s, r) ∈ l.followers := hf ▸ List.mem_append_right _ List.mem_cons_self
  exact ⟨h.keys ▸ List.mem_map_of_mem hm, h.accounts _ hm⟩

theorem update (h : l.Kept peers last) (hr : r.Kept last) : (l.update s r).Kept peers last where
  keys     := (update_followers_keys l s r).trans h.keys
  accounts := by
    intro f hf
    obtain ⟨f, hf', rfl⟩ := List.mem_map.mp hf
    split
    case isTrue  => exact hr
    case isFalse => exact h.accounts f hf'

end Leadership.Kept

namespace Engine

variable {e e' : Engine} {l : Leadership} {s : Server} {r : Replication}

def Kept (e : Engine) : Prop :=
  ∀ l, e.standing = .leader l → l.Kept e.peers e.storage.lastIndex

theorem standing_of_replication? (h : e.replication? s = some r) :
    ∃ l, e.standing = .leader l ∧ l.replication? s = some r := by
  rw [replication?] at h
  split at h
  case h_1 l hl => exact ⟨l, hl, h⟩
  case h_2      => cases h

theorem Kept.of_replication? (h : e.Kept) (hr : e.replication? s = some r) :
    s ∈ e.peers ∧ r.Kept e.storage.lastIndex := by
  obtain ⟨l, hl, hr⟩ := standing_of_replication? hr
  exact (h l hl).of_replication? hr

theorem Kept.exists_replication (h : e.Kept) (hr : e.role = .leader) (hs : s ∈ e.peers) :
    ∃ r, e.replication? s = some r := by
  rw [role] at hr
  split at hr
  case h_3 l hl =>
    obtain ⟨f, hf, rfl⟩ := List.mem_map.mp ((h l hl).keys ▸ hs)
    rw [Engine.replication?, hl]
    exact Option.isSome_iff_exists.mp (List.lookup_isSome_iff.mpr ⟨f, hf, beq_self_eq_true _⟩)
  all_goals cases hr

theorem kept_of_not_leader (h : ∀ l, e.standing ≠ .leader l) : e.Kept :=
  fun l hl => absurd hl (h l)

theorem Kept.of_standing (h : e.Kept) (hs : e'.standing = e.standing) (hp : e'.peers = e.peers)
    (hl : e.storage.lastIndex ≤ e'.storage.lastIndex) : e'.Kept := by
  intro l hl'
  have hk := h l (hs ▸ hl')
  exact ⟨hp ▸ hk.keys, fun f hf => (hk.accounts f hf).mono hl⟩

theorem Kept.update (h : e.Kept) (hl : e.standing = .leader l) (hr : r.Kept e.storage.lastIndex) :
    ({ e with standing := .leader (l.update s r) } : Engine).Kept := by
  intro l' hl'
  cases hl'
  exact (h l hl).update hr

theorem advanceCommit_eq (e : Engine) : ∃ n, e.advanceCommit.1 = { e with commit := n } := by
  rw [advanceCommit]
  repeat' split
  all_goals exact ⟨_, rfl⟩

theorem Kept.advanceCommit (h : e.Kept) : e.advanceCommit.1.Kept := by
  obtain ⟨n, hn⟩ := advanceCommit_eq e
  rw [hn]
  exact h.of_standing rfl rfl (Nat.le_refl _)

theorem kept_start (peers : List Server) (last : Nat) (ticks : Nat) :
    Leadership.Kept ⟨peers.map (·, { next := last + 1 }), ticks⟩ peers last where
  keys     := by rw [List.map_map]; exact List.map_id _
  accounts := by
    intro f hf
    obtain ⟨_, _, rfl⟩ := List.mem_map.mp hf
    exact .fresh last

theorem kept_asLeader : e.asLeader.Kept := fun l hl => by
  cases hl
  exact kept_start ..

theorem Kept.becomeLeader (hk : e.Kept) (h : e.becomeLeader = .ok (e', ns)) : e'.Kept := by
  obtain ⟨rfl, _⟩ | ⟨_, _, _, rfl⟩ := becomeLeader_eq_ok h
  case inl => exact hk
  case inr => exact kept_asLeader.advanceCommit

theorem Kept.timeout (hk : e.Kept) (h : e.timeout = .ok turn) : turn.engine.Kept := by
  obtain ⟨_, rfl⟩ | ⟨_, e₁, e₂, ns, h₁, h₂, rfl⟩ := timeout_eq_ok h
  case inl => exact hk
  case inr =>
    obtain ⟨_, rfl⟩ := campaign_eq_ok h₁
    exact Kept.becomeLeader (kept_of_not_leader fun _ => Standing.noConfusion) h₂

theorem Kept.electionTick (hk : e.Kept) (hw : ∀ n l, wait n ≠ .leader l) (h : e.electionTick ticks wait = .ok turn) :
    turn.engine.Kept := by
  obtain ⟨_, rfl⟩ | ⟨_, out, ho, rfl⟩ := electionTick_eq_ok h
  case inl => exact fun l hl => absurd hl (hw _ l)
  case inr => exact (hk.timeout ho :)

theorem beatAll_kept (hk : ∀ f ∈ fs, f.2.Kept last) (h : beatAll n fs = .ok fs') :
    fs'.map Prod.fst = fs.map Prod.fst ∧ ∀ f ∈ fs', f.2.Kept last := by
  induction fs generalizing fs'
  case nil => cases h; exact ⟨rfl, nofun⟩
  case cons f fs hi =>
    obtain ⟨r', hr, h⟩ := bind_eq_ok_iff.mp h
    obtain ⟨fs', hf, h⟩ := bind_eq_ok_iff.mp h
    cases h
    have ⟨hr₀, hk⟩ := List.forall_mem_cons.mp hk
    have ⟨hs, hk⟩ := hi hk hf
    exact ⟨congrArg (f.1 :: ·) hs, List.forall_mem_cons.mpr ⟨hr₀.beat hr, hk⟩⟩

theorem countTick_kept {fs : List (Server × Replication)} (hk : ∀ f ∈ fs, f.2.Kept last) :
    (fs.map fun (s, r) => (s, r.countTick)).map Prod.fst = fs.map Prod.fst ∧
      ∀ f ∈ fs.map fun (s, r) => (s, r.countTick), f.2.Kept last := by
  refine ⟨List.map_map .., fun f hf => ?_⟩
  obtain ⟨f', hf', rfl⟩ := List.mem_map.mp hf
  exact (hk f' hf').countTick

theorem Kept.leaderTick (hk : e.Kept) (hl : e.standing = .leader l) (h : e.leaderTick l = .ok (e', ns)) :
    e'.Kept := by
  obtain ⟨hs, hk⟩ := hk l hl
  obtain ⟨hs', hk'⟩ := countTick_kept hk
  rw [Engine.leaderTick] at h
  split at h
  case isFalse => cases h; rintro l ⟨⟩; exact ⟨hs'.trans hs, hk'⟩
  case isTrue  =>
    obtain ⟨fs, hf, h⟩ := bind_eq_ok_iff.mp h
    cases h
    obtain ⟨hs'', hk''⟩ := beatAll_kept hk' hf
    rintro l ⟨⟩
    exact ⟨hs''.trans (hs'.trans hs), hk''⟩

theorem Kept.tick (hk : e.Kept) (h : e.tick = .ok turn) : turn.engine.Kept := by
  rw [Engine.tick] at h
  split at h
  case h_1      => exact hk.electionTick (fun _ _ => Standing.noConfusion) h
  case h_2      => exact hk.electionTick (fun _ _ => Standing.noConfusion) h
  case h_3 l hl =>
    obtain ⟨⟨_, ns⟩, ht, h⟩ := bind_eq_ok_iff.mp h
    cases h
    exact hk.leaderTick hl ht

theorem Kept.append {st : Storage} (hk : e.Kept) (h : e.storage.append x = .ok st) :
    ({ e with storage := st } : Engine).Kept := by
  refine hk.of_standing rfl rfl ?_
  rw [(Storage.append_eq_ok h).left]
  change _ ≤ (_ ++ [_]).length
  rw [List.length_append]
  exact Nat.le_add_right ..

theorem Kept.submit (hk : e.Kept) (h : e.submit payload = .ok turn) : turn.engine.Kept := by
  obtain he | ⟨_, storage, ha, he⟩ := submit_eq_ok h
  case inl => rw [he]; exact hk
  case inr => rw [he]; exact (hk.append ha).advanceCommit

theorem batch_length_le (e : Engine) (r : Replication) : (e.batch r).length ≤ e.storage.lastIndex - (r.next - 1) := by
  have := (batch_isPrefix e r).length_le
  rwa [List.length_drop] at this

theorem batch_le (h : r.Kept e.storage.lastIndex) : r.next + (e.batch r).length ≤ e.storage.lastIndex + 1 := by
  have := batch_length_le e r
  have := h.le
  have := h.lt
  omega

theorem replication?_of_update {l : Leadership} (h : l.replication? s = some r') (r : Replication) :
    ({ e with standing := .leader (l.update s r) } : Engine).replication? s = some r := by
  rw [replication?]
  dsimp only
  rw [Leadership.replication?_update, if_pos rfl, h, Option.map_some]

theorem replicateTo_of_ready (hf : e.storage.faults = {}) (hs : e.storage.lastIndex + 1 < wordSize)
    (h : e.replication? s = some r) (hk : r.Kept e.storage.lastIndex) (hr : r.Ready e.storage.lastIndex) :
    ∃ turn l t, e.replicateTo s = .ok turn ∧ Ends e.storage.log.entries (r.next - 1) t ∧
      turn.result = some ⟨.to s, e.term, .appendRequest (e.appendRequest r t)⟩ ∧
      turn.engine = { e with standing := .leader l } ∧
      turn.engine.replication? s = some (r.remember (e.appendRequest r t).lastIndex) := by
  obtain ⟨l, hl, h⟩ := standing_of_replication? h
  obtain ⟨t, ht⟩ := hk.exists_ends
  have ha : advance .index r.next (e.appendRequest r t).entries.length = .ok _ :=
    advance_eq_ok_iff.mpr ⟨rfl, Nat.lt_of_le_of_lt (batch_le hk) hs⟩
  simp only [replicateTo, hl, h, if_pos hr, (Storage.termAt?_eq_some_iff hf).mpr ht, ha, bind, Except.bind]
  exact ⟨_, _, t, rfl, ht, rfl, rfl, replication?_of_update h _⟩

theorem Kept.replicateTo (hk : e.Kept) (h : e.replicateTo s = .ok turn) : turn.engine.Kept := by
  obtain ⟨⟨_, rfl⟩, _⟩ | ⟨l, r, _, _, hl, hr, _, _, rfl⟩ := replicateTo_eq_ok h
  case inl => exact hk
  case inr =>
    have hr := ((hk l hl).of_replication? hr).right
    refine hk.update hl (hr.remember (Nat.le_add_right ..) ?_)
    have := batch_length_le e r
    have := hr.le
    simp only [AppendRequest.lastIndex, appendRequest]
    omega

theorem Kept.readAppendReply (hk : e.Kept) (h : e.readAppendReply success s = .ok (e', ns)) : e'.Kept := by
  rw [Engine.readAppendReply] at h
  split at h
  case h_2 => cases h; exact hk
  case h_1 l hl =>
    split at h
    case h_1 => cases h; exact hk
    case h_2 r hr =>
      have hr := ((hk l hl).of_replication? hr).right
      split at h
      case h_1 => cases h; exact hk
      case h_2 oldest rest hu =>
        split at h
        case isTrue  =>
          obtain ⟨r', ha, h⟩ := bind_eq_ok_iff.mp h
          cases h
          exact hk.update hl (hr.accept hu ha)
        case isFalse =>
          obtain ⟨r', ha, h⟩ := bind_eq_ok_iff.mp h
          cases h
          exact hk.update hl (hr.reject hu ha)

theorem Kept.giveVote (hk : e.Kept) (s : Server) : (e.giveVote s).Kept := by
  intro l hl
  refine hk l ?_
  rw [Engine.giveVote] at hl
  dsimp only at hl
  split at hl
  case h_1 => cases hl
  case h_2 => exact hl

theorem Kept.countVote (hk : e.Kept) (granted : Bool) (s : Server) : (e.countVote granted s).1.Kept := by
  rw [Engine.countVote]
  split
  case h_2 => exact hk
  case h_1 =>
    split
    case isTrue  => exact kept_of_not_leader fun _ => Standing.noConfusion
    case isFalse => exact hk

theorem Kept.handle (hk : e.Kept) (h : e.handle s m = .ok turn) : turn.engine.Kept := by
  rw [Engine.handle] at h
  split at h
  case isTrue  => cases h; exact hk
  case isFalse =>
    split at h
    case h_1 =>
      cases h
      rw [answerVote]
      dsimp only
      split
      case isTrue  => exact hk.giveVote s
      case isFalse => exact hk
    case h_2 => cases h; exact hk.countVote _ s
    case h_3 =>
      intro l hl
      have he := answerAppend_engine h (by rw [role, hl]; exact Role.noConfusion)
      rw [he] at hl ⊢
      exact hk l hl
    case h_4 =>
      obtain ⟨⟨e', ns⟩, hr, h⟩ := bind_eq_ok_iff.mp h
      cases h
      exact hk.readAppendReply hr

theorem Kept.adoptTerm (hk : e.Kept) (s : Server) (m : Message) : (e.adoptTerm s m).1.Kept := by
  rw [Engine.adoptTerm]
  split
  case isTrue  => exact kept_of_not_leader fun _ => Standing.noConfusion
  case isFalse => exact hk

theorem Kept.receive (hk : e.Kept) (h : e.receive m s = .ok turn) : turn.engine.Kept := by
  obtain ⟨_, rfl⟩ | ⟨_, replied, e₂, ns, _, hh, hb, rfl⟩ := receive_eq_ok h
  case inl => exact hk
  case inr => exact (((hk.adoptTerm s.asPeer m).handle hh).becomeLeader hb).advanceCommit

theorem Kept.takeCommitted (hk : e.Kept) (limit : Nat) : (e.takeCommitted limit).2.Kept := by
  have hg := (takeCommitted_spec limit e).left
  have hl : (e.takeCommitted limit).2.storage.log.entries = e.storage.log.entries := congrArg Gist.log hg
  exact hk.of_standing (takeCommitted_standing limit e).left (congrArg Gist.peers hg)
    (Nat.le_of_eq (congrArg List.length hl.symm))

theorem Kept.obey (hk : e.Kept) (h : e.obey c = .ok out) : out.1.Kept := by
  cases c
  case tick      => obtain ⟨_, ht, rfl⟩ := map_eq_ok_iff.mp h; exact hk.tick ht
  case timeout   => obtain ⟨_, ht, rfl⟩ := map_eq_ok_iff.mp h; exact hk.timeout ht
  case submit    => obtain ⟨_, ht, rfl⟩ := map_eq_ok_iff.mp h; exact hk.submit ht
  case replicate => obtain ⟨_, ht, rfl⟩ := map_eq_ok_iff.mp h; exact hk.replicateTo ht
  case take      => cases h; exact hk.takeCommitted _

theorem Kept.answer (hk : e.Kept) (h : e.answer c = .ok e') : e'.Kept := by
  cases c
  case command c   => obtain ⟨_, ht, rfl⟩ := map_eq_ok_iff.mp h; exact hk.obey ht
  case message m s => obtain ⟨_, ht, rfl⟩ := map_eq_ok_iff.mp h; exact hk.receive ht

end Engine

namespace Log

theorem consecutive_foldlM_append {es : List Entry} {l log : Log} (hl : Consecutive 0 l.entries)
    (h : es.foldlM append l = .ok log) : Consecutive 0 log.entries := by
  induction es generalizing l
  case nil          => cases h; exact hl
  case cons e es hi =>
    rw [List.foldlM_cons, append] at h
    split at h
    case isTrue hn => exact hi (l := { l with entries := l.entries ++ [e] }) (hl.concat hn) h
    case isFalse   => cases h

theorem consecutive_ofEntries {log : Log} (h : ofEntries es = .ok log) : Consecutive 0 log.entries :=
  consecutive_foldlM_append (l := {}) nofun h

end Log

namespace Career

variable {c : Career}

theorem step_kept (hk : c.engine.Kept) (i : Incident) : (c.step i).engine.Kept := by
  rw [step]
  split
  case h_1 ha =>
    exact Engine.Kept.answer (e := c.engine.withFaults i.faults) (hk.of_standing rfl rfl (Nat.le_refl _)) ha
  case h_2    => exact hk

theorem after_kept (hk : c.engine.Kept) (incidents : List Incident) : (c.after incidents).engine.Kept := by
  induction incidents generalizing c
  case nil                 => exact hk
  case cons i incidents hi => exact hi (step_kept hk i)

theorem step_consecutive (hl : Consecutive 0 c.log.entries) (i : Incident) : Consecutive 0 (c.step i).log.entries := by
  rw [step]
  split
  case h_2      => exact hl
  case h_1 ha =>
    by_cases ht : ∃ n, i.call = .command (.take n)
    case pos =>
      obtain ⟨n, hn⟩ := ht
      rw [hn] at ha
      cases ha
      have hg := (Engine.takeCommitted_spec n (c.engine.withFaults i.faults)).left
      have hn : ((c.engine.withFaults i.faults).takeCommitted n).2.storage.log.entries = c.log.entries :=
        congrArg Gist.log hg
      exact hn ▸ hl
    case neg =>
      obtain ⟨_, _, _, hm⟩ := Engine.answer_acts ha fun n hn => ht ⟨n, hn⟩
      obtain ⟨_, hb, hm, _⟩ := hm.turn
      exact Gist.Moves.consecutive (hb.trans hm) hl

theorem after_consecutive (hl : Consecutive 0 c.log.entries) (incidents : List Incident) :
    Consecutive 0 (c.after incidents).log.entries := by
  induction incidents generalizing c
  case nil                 => exact hl
  case cons i incidents hi => exact hi (step_consecutive hl i)

end Career

namespace Engine

variable {e : Engine}

-- What a member over a log in memory can come to by any calls. The log may have failed it before.
def Reachable (e : Engine) : Prop :=
  ∃ id peers es log random config incidents, Log.ofEntries es = .ok log ∧
    e = ((Career.start id peers ⟨log, {}⟩ random config).after incidents).engine.withFaults {}

namespace Reachable

theorem plain : e.Reachable → e.storage.faults = {}
  | ⟨_, _, _, _, _, _, _, _, he⟩ => he ▸ rfl

theorem kept : e.Reachable → e.Kept
  | ⟨id, peers, _, log, random, config, incidents, _, he⟩ => by
    have hk : (Career.start id peers ⟨log, {}⟩ random config).engine.Kept :=
      kept_of_not_leader fun _ => Standing.noConfusion
    exact he ▸ (Career.after_kept hk incidents).of_standing rfl rfl (Nat.le_refl _)

theorem consecutive : e.Reachable → Consecutive 0 e.storage.log.entries
  | ⟨_, _, _, _, _, _, incidents, hl, he⟩ =>
    he ▸ Career.after_consecutive (c := .start ..) (Log.consecutive_ofEntries hl) incidents

theorem nodup_peers : e.Reachable → e.peers.Nodup
  | ⟨id, peers, _, log, random, config, incidents, hl, he⟩ => by
    have hp : e.peers = (Career.start id peers ⟨log, {}⟩ random config).engine.peers :=
      he ▸ ((Career.settled_start hl id peers {} random config).after incidents).right.peers
    exact hp ▸ Server.nodup_sort _

theorem applied_le : e.Reachable → e.applied ≤ e.commit
  | ⟨id, peers, _, _, random, config, incidents, hl, he⟩ =>
    he ▸ ((Career.settled_start hl id peers {} random config).after incidents).left.hands.le

end Reachable

-- Whatever a leader has been asked and told, its account of each follower is in order: what is unanswered lies
-- between what is known to match and the end of the log, and is not too much, and the log holds the entry before the
-- next one. If no reply is awaited and the follower lacks something it is sent a request, as long as the position
-- that follows the log fits its word.
theorem followers_accounted (h : e.Reachable) (hl : e.role = .leader) (s : Server) (hs : s ∈ e.peers) :
    ∃ r, e.replication? s = some r ∧
      r.matched < r.next ∧ r.next ≤ e.storage.lastIndex + 1 ∧
      (∀ n ∈ r.unanswered, r.matched ≤ n ∧ n ≤ e.storage.lastIndex) ∧ r.unanswered.length ≤ 64 ∧
      (r.awaiting = true → r.unanswered ≠ []) ∧
      (∃ t, e.storage.termAt? (r.next - 1) = some t) ∧
      (e.storage.lastIndex + 1 < wordSize → r.awaiting = false → r.matched < e.storage.lastIndex →
        ∃ turn request, e.replicateTo s = .ok turn ∧
          turn.result = some ⟨.to s, e.term, .appendRequest request⟩) := by
  obtain ⟨r, hr⟩ := h.kept.exists_replication hl hs
  have hk := (h.kept.of_replication? hr).right
  obtain ⟨t, ht⟩ := hk.exists_ends
  refine ⟨r, hr, hk.lt, hk.le, hk.known, hk.bounded, hk.awaits, ⟨t, ?_⟩, fun hw hi hm => ?_⟩
  case refine_1 => exact (Storage.termAt?_eq_some_iff h.plain).mpr ht
  case refine_2 =>
    obtain ⟨turn, _, t, hr, _, ho, _⟩ := replicateTo_of_ready h.plain hw hr hk (hk.ready hi hm)
    exact ⟨turn, _, hr, ho⟩

-- A leader that has been told of two refusals, one more than there were requests, and has given up its next request.
def rebuffed : Engine :=
  ((Career.start "a" [.peer "b", .peer "c"] ⟨⟨[⟨1, 1, .text [119]⟩, ⟨3, 2, .text [120]⟩], 0⟩, {}⟩ ⟨fun _ => 0, 0⟩
    { heartbeatInterval := .ofNat 1 }).after
    [⟨.message ⟨4, .voteReply false⟩ (.peer "b"), {}⟩, ⟨.command .timeout, {}⟩,
      ⟨.message ⟨5, .voteReply true⟩ (.peer "b"), {}⟩, ⟨.command (.replicate (.peer "c")), {}⟩,
      ⟨.message ⟨5, .appendReply false⟩ (.peer "c"), {}⟩, ⟨.message ⟨5, .appendReply false⟩ (.peer "c"), {}⟩,
      ⟨.command (.submit (.text [121])), {}⟩, ⟨.command (.replicate (.peer "c")), {}⟩,
      ⟨.command .tick, {}⟩, ⟨.command .tick, {}⟩]).engine.withFaults {}

theorem followers_accounted_of_rebuffed :
    rebuffed.Reachable ∧ rebuffed.role = .leader ∧ rebuffed.storage.lastIndex = 3 ∧
    rebuffed.replication? (.peer "c") = some ⟨1, 0, [1], true, true, false, 2⟩ ∧
    ∃ turn request, rebuffed.replicateTo (.peer "c") = .ok turn ∧
      turn.result = some ⟨.to (.peer "c"), rebuffed.term, .appendRequest request⟩ := by
  have h : rebuffed.Reachable := ⟨_, _, [⟨1, 1, .text [119]⟩, ⟨3, 2, .text [120]⟩], _, _, _, _, rfl, rfl⟩
  have hl : rebuffed.role = .leader := by decide +kernel
  have hn : rebuffed.storage.lastIndex = 3 := by decide +kernel
  have hr : rebuffed.replication? (.peer "c") = some ⟨1, 0, [1], true, true, false, 2⟩ := by decide +kernel
  obtain ⟨r, hr', -, -, -, -, -, -, hs⟩ := followers_accounted h hl (.peer "c") (by decide +kernel)
  cases hr.symm.trans hr'
  exact ⟨h, hl, hn, hr, hs (by rw [hn]; decide) rfl (by rw [hn]; decide)⟩

end Engine

end RaftGroup
