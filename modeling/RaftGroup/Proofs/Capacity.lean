import RaftGroup.Proofs.Convergence

namespace RaftGroup

open Entries

def Rpc.entries : Rpc → List Entry
  | .appendRequest r => r.entries
  | _                => []

theorem Replication.Kept.settle_ok {r : Replication} (h : r.Kept last) (hs : last + 1 < wordSize) (success : Bool) :
    ∃ r', r.settle success = .ok r' := by
  rw [settle]
  cases hu : r.unanswered
  case nil              => exact ⟨_, rfl⟩
  case cons oldest rest =>
    have hm := (h.known _ (hu ▸ acknowledge_mem oldest rest)).right
    cases success
    case false => exact ⟨_, reject_eq_ok_iff.mpr ⟨Nat.lt_of_le_of_lt (Nat.succ_le_succ h.matched_le) hs, rfl⟩⟩
    case true  =>
      have hn := Nat.succ_le_succ (Nat.max_le.mpr ⟨h.matched_le, hm⟩)
      exact ⟨_, accept_eq_ok_iff.mpr ⟨Nat.lt_of_le_of_lt hn hs, rfl⟩⟩

namespace Storage

variable {s : Storage}

theorem mergeEntry_ok (hs : s.lastIndex + 1 < wordSize) (hi : e.index = prev + 1) (commit : Nat) (sender : Server) :
    ∃ m, s.mergeEntry commit sender e = .ok m ∧ m.storage.lastIndex ≤ s.lastIndex + 1 := by
  have ha : advance .index s.lastIndex 1 = .ok (s.lastIndex + 1) := advance_eq_ok_iff.mpr ⟨rfl, hs⟩
  obtain ⟨m, hm⟩ : ∃ m, s.mergeEntry commit sender e = .ok m := by
    simp only [mergeEntry, ha, bind, Except.bind]
    repeat' split
    all_goals exact ⟨_, rfl⟩
  refine ⟨m, hm, ?_⟩
  obtain ⟨h, _⟩ | ⟨_, _, ⟨h, _⟩ | h⟩ := mergeEntry_storage hm hi
  all_goals simp only [h, lastIndex, Log.lastIndex, put, List.length_append, List.length_take, List.length_singleton]
  all_goals omega

theorem merge_ok (hs : s.lastIndex + es.length < wordSize) (hc : Consecutive prev es) (commit : Nat) (sender : Server) :
    ∃ m, s.merge commit sender es = .ok m := by
  induction es generalizing s prev
  case nil          => exact ⟨_, rfl⟩
  case cons e es hi =>
    rw [List.length_cons] at hs
    obtain ⟨m, hm, hl⟩ := mergeEntry_ok (show s.lastIndex + 1 < wordSize by omega) hc.head commit sender
    obtain ⟨m', hm'⟩ := hi (show m.storage.lastIndex + es.length < wordSize by omega) hc.tail
    simp only [merge, hm, hm', bind, Except.bind]
    split <;> exact ⟨_, rfl⟩

end Storage

namespace Engine

variable {e : Engine} {r : AppendRequest} {m : Message} {s : Server}

theorem mergeRequest_ok (hs : e.storage.lastIndex + r.entries.length < wordSize) (s : Server) :
    ∃ turn, e.mergeRequest r s = .ok turn := by
  rw [mergeRequest]
  split
  case isFalse    => split <;> exact ⟨_, rfl⟩
  case isTrue ht =>
    have hp : r.prevIndex ≤ e.storage.lastIndex := (Storage.ends_of_termAt? ht).le_length
    have hr : r.prevIndex + r.entries.length < wordSize := by omega
    obtain ⟨b, hb, hc⟩ := contiguousAfter_eq_ok hr
    have ha : advance .index r.prevIndex r.entries.length = .ok _ := advance_eq_ok_iff.mpr ⟨rfl, hr⟩
    cases b
    case false => simp only [hb, bind, Except.bind]; exact ⟨_, rfl⟩
    case true  =>
      obtain ⟨m, hm⟩ := Storage.merge_ok hs (hc.mp rfl) e.commit s
      simp only [hb, ha, hm, bind, Except.bind, if_true]
      split <;> exact ⟨_, rfl⟩

theorem answerAppend_ok (hs : e.storage.lastIndex + r.entries.length < wordSize) (term : Nat) (s : Server) :
    ∃ turn, e.answerAppend term r s = .ok turn := by
  have ⟨turn, ht⟩ : ∃ turn, e.takeRequest term r s = .ok turn := by
    rw [takeRequest]
    split
    case isTrue => exact ⟨_, rfl⟩
    case isFalse =>
      split
      case h_1          => exact ⟨_, rfl⟩
      case h_2 e₁ ns hf =>
        obtain ⟨_, _, hg⟩ := (follow_gist hf).resolve_left fun h => absurd h.left (by decide)
        have hl : e₁.storage.lastIndex = e.storage.lastIndex := congrArg (List.length ∘ Gist.log) hg
        obtain ⟨turn, ht⟩ := mergeRequest_ok (e := e₁) (hl ▸ hs) s
        rw [ht]
        exact ⟨_, rfl⟩
  rw [answerAppend, ht]
  exact ⟨_, rfl⟩

theorem readAppendReply_ok (hk : e.Kept) (hs : e.storage.lastIndex + 1 < wordSize) (success : Bool) (s : Server) :
    ∃ out, e.readAppendReply success s = .ok out := by
  cases hl : e.standing
  case leader l =>
    cases hr : l.replication? s
    case none   => simp only [readAppendReply, hl, hr]; exact ⟨_, rfl⟩
    case some r =>
      by_cases hu : r.unanswered = []
      case pos => simp only [readAppendReply, hl, hr, hu]; exact ⟨_, rfl⟩
      case neg =>
        obtain ⟨r', hr'⟩ := ((hk l hl).of_replication? hr).right.settle_ok hs success
        obtain ⟨_, h⟩ := readAppendReply_of_settle hl hr hu hr'
        exact ⟨_, h⟩
  all_goals
    simp only [readAppendReply, hl]
    exact ⟨_, rfl⟩

theorem handle_ok (hk : e.Kept) (hs : e.storage.lastIndex + m.rpc.entries.length + 1 < wordSize) (s : Server) :
    ∃ turn, e.handle s m = .ok turn := by
  rw [handle]
  split
  case isTrue  => exact ⟨_, rfl⟩
  case isFalse =>
    split
    case h_1      => exact ⟨_, rfl⟩
    case h_2      => exact ⟨_, rfl⟩
    case h_3 r hr =>
      rw [hr, Rpc.entries] at hs
      exact answerAppend_ok (Nat.lt_of_succ_lt hs) m.term s
    case h_4 success _ =>
      obtain ⟨_, ho⟩ := readAppendReply_ok hk (by omega) success s
      rw [ho]
      exact ⟨_, rfl⟩

theorem becomeLeader_ok (hs : e.storage.lastIndex + 1 < wordSize) : ∃ out, e.becomeLeader = .ok out := by
  have ha : advance .index e.storage.lastIndex 1 = .ok _ := advance_eq_ok_iff.mpr ⟨rfl, hs⟩
  rw [becomeLeader]
  repeat' split
  case h_1.isTrue => rw [ha]; exact ⟨_, rfl⟩
  all_goals exact ⟨_, rfl⟩

theorem receive_ok (hk : e.Kept) (hs : e.storage.lastIndex + m.rpc.entries.length + 1 < wordSize) (s : Server) :
    ∃ turn, e.receive m s = .ok turn := by
  rw [receive]
  dsimp only
  split
  case isFalse => exact ⟨_, rfl⟩
  case isTrue  =>
    have ha := (adoptTerm_storage e s.asPeer m).left
    obtain ⟨turn, ht⟩ := handle_ok (hk.adoptTerm s.asPeer m) (ha ▸ hs) s.asPeer
    -- Only a follower's log has changed, and a follower does not come to lead here.
    obtain ⟨_, ho⟩ : ∃ out, turn.engine.becomeLeader = .ok out := by
      by_cases hr : turn.engine.role = .follower
      case pos => exact ⟨_, becomeLeader_of_role (by rw [hr]; decide)⟩
      case neg =>
        obtain ⟨_, _, he⟩ := handle_eq ht hr
        have hn : turn.engine.storage = e.storage := by rw [he]; exact ha
        exact becomeLeader_ok (by rw [hn]; omega)
    rw [ht]
    dsimp only [bind, Except.bind]
    rw [ho]
    exact ⟨_, rfl⟩

end Engine
end RaftGroup
