import RaftGroup.Proofs.Counting
import RaftGroup.Proofs.Limits

namespace RaftGroup

namespace Storage

variable {s : Storage}

theorem appendEntry_put (s : Storage) (e : Entry) : ∃ es, (s.appendEntry e).storage = s.put es := by
  obtain ⟨h, _⟩ | ⟨h, _⟩ := appendEntry_storage s e
  case inl => exact ⟨_, h⟩
  case inr => exact ⟨_, h⟩

theorem replaceFrom_put (s : Storage) (e : Entry) : ∃ es, (s.replaceFrom e).storage = s.put es := by
  obtain ⟨h, _⟩ | ⟨h, _⟩ | h := replaceFrom_storage s e
  case inl     => exact ⟨_, h⟩
  case inr.inl => exact ⟨_, h⟩
  case inr.inr => exact ⟨_, h⟩

theorem mergeEntry_put (h : s.mergeEntry commit sender e = .ok m) : ∃ es, m.storage = s.put es := by
  obtain ⟨next, _, h⟩ := bind_eq_ok_iff.mp h
  split at h
  case isTrue  => cases h; exact s.appendEntry_put e
  case isFalse =>
    split at h
    case h_1 => cases h; exact ⟨s.log.entries, rfl⟩
    case h_2 =>
      repeat' split at h
      case isFalse.isFalse => cases h; exact s.replaceFrom_put e
      all_goals cases h; exact ⟨s.log.entries, rfl⟩

theorem merge_put (h : s.merge commit sender es = .ok m) : ∃ es', m.storage = s.put es' := by
  induction es generalizing s m
  case nil          => cases h; exact ⟨s.log.entries, rfl⟩
  case cons e es ih =>
    obtain ⟨m₁, hm, h⟩ := bind_eq_ok_iff.mp h
    obtain ⟨es₁, h₁⟩ := mergeEntry_put hm
    split at h
    case isFalse => cases h; exact ⟨es₁, h₁⟩
    case isTrue  =>
      obtain ⟨m₂, hm, h⟩ := bind_eq_ok_iff.mp h
      cases h
      obtain ⟨es₂, h₂⟩ := ih hm
      exact ⟨es₂, by rw [Merge.noting, h₂, h₁, put_put]⟩

end Storage

namespace Engine

variable {e e' : Engine}

def settings (e : Engine) : Config × List Server × Faults :=
  (e.config, e.peers, e.storage.faults)

theorem config_of_settings (h : e'.settings = e.settings) : e'.config = e.config :=
  congrArg Prod.fst h

theorem peers_of_settings (h : e'.settings = e.settings) : e'.peers = e.peers :=
  congrArg (fun x => x.2.1) h

theorem faults_of_settings (h : e'.settings = e.settings) : e'.storage.faults = e.storage.faults :=
  congrArg (fun x => x.2.2) h

theorem advanceCommit_settings (e : Engine) : e.advanceCommit.1.settings = e.settings := by
  obtain ⟨n, hn⟩ := advanceCommit_eq e
  rw [hn]
  rfl

theorem becomeLeader_settings (h : e.becomeLeader = .ok (e', ns)) : e'.settings = e.settings := by
  obtain ⟨rfl, _⟩ | ⟨_, _, _, rfl⟩ := becomeLeader_eq_ok h
  case inl => rfl
  case inr => exact advanceCommit_settings e.asLeader

theorem timeout_settings (h : e.timeout = .ok turn) : turn.engine.settings = e.settings := by
  obtain ⟨_, rfl⟩ | ⟨_, e₁, e₂, ns, hc, hb, rfl⟩ := timeout_eq_ok h
  case inl => rfl
  case inr =>
    obtain ⟨_, rfl⟩ := campaign_eq_ok hc
    exact (becomeLeader_settings hb :)

theorem electionTick_settings (h : e.electionTick ticks wait = .ok turn) : turn.engine.settings = e.settings := by
  obtain ⟨_, rfl⟩ | ⟨_, out, ho, rfl⟩ := electionTick_eq_ok h
  case inl => rfl
  case inr => exact (timeout_settings ho :)

theorem tick_settings (h : e.tick = .ok turn) : turn.engine.settings = e.settings := by
  rw [tick] at h
  split at h
  case h_1   => exact electionTick_settings h
  case h_2   => exact electionTick_settings h
  case h_3 l =>
    obtain ⟨⟨_, ns⟩, hl, h⟩ := bind_eq_ok_iff.mp h
    obtain ⟨_, rfl, _⟩ := leaderTick_eq_ok hl
    cases h
    rfl

theorem submit_settings (h : e.submit payload = .ok turn) : turn.engine.settings = e.settings := by
  obtain he | ⟨_, storage, ha, he⟩ := submit_eq_ok h
  case inl => rw [he]
  case inr =>
    have hf : storage.faults = e.storage.faults := by rw [(Storage.append_eq_ok ha).left]; rfl
    rw [he]
    exact (advanceCommit_settings { e with storage }).trans (congrArg (e.config, e.peers, ·) hf)

theorem replicateTo_settings (h : e.replicateTo s = .ok turn) : turn.engine.settings = e.settings := by
  obtain ⟨⟨_, rfl⟩, _⟩ | ⟨_, _, _, _, _, _, _, _, rfl⟩ := replicateTo_eq_ok h
  case inl => rfl
  case inr => rfl

theorem takeCommitted_settings (limit : Nat) (e : Engine) : (takeCommitted limit e).2.settings = e.settings := by
  induction limit generalizing e
  case zero          => rfl
  case succ limit hi =>
    rw [takeCommitted]
    split
    case h_1         => rfl
    case h_2 e' ho =>
      rw [takeOne] at ho
      split at ho
      case isFalse => cases ho
      case isTrue  =>
        obtain ⟨⟨_, storage⟩, hs, ho⟩ := Option.map_eq_some_iff.mp ho
        obtain ⟨_, _, hs⟩ := Option.map_eq_some_iff.mp hs
        cases ho
        cases hs
        exact hi _

theorem obey_settings (h : e.obey c = .ok (e', os)) : e'.settings = e.settings := by
  cases c
  case tick      => obtain ⟨_, ht, h⟩ := map_eq_ok_iff.mp h; cases h; exact tick_settings ht
  case timeout   => obtain ⟨_, ht, h⟩ := map_eq_ok_iff.mp h; cases h; exact timeout_settings ht
  case submit    => obtain ⟨_, ht, h⟩ := map_eq_ok_iff.mp h; cases h; exact submit_settings ht
  case replicate => obtain ⟨_, ht, h⟩ := map_eq_ok_iff.mp h; cases h; exact replicateTo_settings ht
  case take      => cases h; exact takeCommitted_settings _ e

theorem adoptTerm_settings (e : Engine) (s : Server) (m : Message) : (e.adoptTerm s m).1.settings = e.settings := by
  rw [adoptTerm]
  split <;> rfl

theorem follow_settings (h : e.follow s = (follows, e', ns)) : e'.settings = e.settings := by
  rw [follow] at h
  split at h <;> cases h <;> rfl

theorem mergeRequest_settings (h : e.mergeRequest r s = .ok turn) : turn.engine.settings = e.settings := by
  rw [mergeRequest] at h
  split at h
  case isFalse => split at h <;> cases h <;> rfl
  case isTrue  =>
    obtain ⟨_, _, h⟩ := bind_eq_ok_iff.mp h
    split at h
    case isFalse => cases h; rfl
    case isTrue  =>
      obtain ⟨last, _, h⟩ := bind_eq_ok_iff.mp h
      obtain ⟨m, hm, h⟩ := bind_eq_ok_iff.mp h
      obtain ⟨es, hp⟩ := Storage.merge_put hm
      have hs : ({ e with storage := m.storage } : Engine).settings = e.settings := by rw [hp]; rfl
      split at h
      case isFalse => cases h; exact hs
      case isTrue  =>
        have hc := congrArg settings (noteCommit_eq { e with storage := m.storage } (min r.commit last))
        cases h
        exact hc.trans hs

theorem answerAppend_settings (h : e.answerAppend n r s = .ok turn) : turn.engine.settings = e.settings := by
  obtain ⟨taken, ht, h⟩ := bind_eq_ok_iff.mp h
  cases h
  rw [takeRequest] at ht
  split at ht
  case isTrue  => cases ht; rfl
  case isFalse =>
    split at ht
    case h_1 hf => cases ht; exact follow_settings hf
    case h_2 hf =>
      obtain ⟨merged, hm, ht⟩ := bind_eq_ok_iff.mp ht
      cases ht
      exact (mergeRequest_settings hm).trans (follow_settings hf)

theorem handle_settings (h : e.handle s m = .ok turn) : turn.engine.settings = e.settings := by
  rw [handle] at h
  split at h
  case isTrue  => cases h; rfl
  case isFalse =>
    split at h
    case h_1 =>
      cases h
      rw [answerVote]
      dsimp only
      split <;> rfl
    case h_2 granted _ =>
      obtain ⟨_, hc⟩ := countVote_eq e granted s
      have hc := congrArg settings hc
      cases h
      exact hc
    case h_3 => exact answerAppend_settings h
    case h_4 =>
      obtain ⟨⟨e', ns⟩, hr, h⟩ := bind_eq_ok_iff.mp h
      cases h
      obtain ⟨_, rfl⟩ := readAppendReply_eq hr
      rfl

theorem receive_settings (h : e.receive m s = .ok turn) : turn.engine.settings = e.settings := by
  obtain ⟨_, rfl⟩ | ⟨_, replied, e₂, ns, _, hh, hb, rfl⟩ := receive_eq_ok h
  case inl => rfl
  case inr =>
    calc e₂.advanceCommit.1.settings
      _ = e₂.settings                         := advanceCommit_settings e₂
      _ = replied.engine.settings             := becomeLeader_settings hb
      _ = (e.adoptTerm s.asPeer m).1.settings := handle_settings hh
      _ = e.settings                          := adoptTerm_settings e s.asPeer m

end Engine
end RaftGroup
