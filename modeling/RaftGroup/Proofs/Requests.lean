import Mathlib.Algebra.Ring.Nat
import RaftGroup.Proofs.Convergence

namespace RaftGroup

open Entries

namespace Batch

variable {chunk size : Nat} {es batch : List Entry}

def total (es : List Entry) : Nat :=
  (es.map Entry.size).sum

def Fits (chunk : Nat) (es : List Entry) : Prop :=
  es.length ≤ 1 ∨ total es ≤ chunk

theorem total_cons (e : Entry) (es : List Entry) : total (e :: es) = e.size + total es := by
  rw [total, List.map_cons, List.sum_cons, total]

theorem fill_fits (chunk size : Nat) (es : List Entry) :
    fill chunk size es = [] ∨ size + total (fill chunk size es) ≤ chunk := by
  induction es generalizing size
  case nil          => exact .inl rfl
  case cons e es ih =>
    rw [fill]
    split
    case isTrue     => exact .inl rfl
    case isFalse hc =>
      refine .inr ?_
      rw [total_cons]
      obtain hn | hs := ih (size + e.size)
      case inl => rw [hn]; exact Nat.le_of_not_lt hc
      case inr => omega

theorem ofEntries_fits (chunk : Nat) (es : List Entry) : Fits chunk (ofEntries chunk es) := by
  cases es
  case nil       => exact .inl (Nat.zero_le _)
  case cons e es =>
    obtain hn | hs := fill_fits chunk e.size es
    case inl => rw [ofEntries, hn]; exact .inl (Nat.le_refl _)
    case inr => rw [ofEntries]; exact .inr (total_cons .. ▸ hs)

end Batch

namespace Engine

variable {e : Engine} {r : Replication} {s : Server}

theorem batch_fits (e : Engine) (r : Replication) : Batch.Fits e.config.chunkSize (e.batch r) := by
  rw [batch]
  split
  case isTrue  => exact Batch.ofEntries_fits ..
  case isFalse => exact .inl (Nat.zero_le _)

-- A leader that has gone back two positions on a follower's rejections until it found the place.
def retraced : Engine :=
  ((Career.start "a" [.peer "b"]
    ⟨⟨[⟨1, 1, .text [119]⟩, ⟨1, 2, .text [120]⟩, ⟨2, 3, .binary [121, 122]⟩, ⟨2, 4, .text [123]⟩], 0⟩, {}⟩
    ⟨fun _ => 0, 0⟩ { chunkSize := 43 }).after
    [⟨.message ⟨2, .voteReply false⟩ (.peer "b"), {}⟩, ⟨.command .timeout, {}⟩,
      ⟨.message ⟨3, .voteReply true⟩ (.peer "b"), {}⟩, ⟨.command (.replicate (.peer "b")), {}⟩,
      ⟨.message ⟨3, .appendReply false⟩ (.peer "b"), {}⟩, ⟨.command (.replicate (.peer "b")), {}⟩,
      ⟨.message ⟨3, .appendReply false⟩ (.peer "b"), {}⟩, ⟨.command (.replicate (.peer "b")), {}⟩,
      ⟨.message ⟨3, .appendReply false⟩ (.peer "b"), {}⟩, ⟨.command (.replicate (.peer "b")), {}⟩,
      ⟨.message ⟨3, .appendReply true⟩ (.peer "b"), {}⟩]).engine.withFaults {}

def parcel : AppendRequest :=
  ⟨"a", 1, 1, 0, [⟨1, 2, .text [120]⟩, ⟨2, 3, .binary [121, 122]⟩]⟩

theorem retraced_sends : ∃ turn, retraced.replicateTo (.peer "b") = .ok turn ∧
    turn.result = some ⟨.to (.peer "b"), 3, .appendRequest parcel⟩ :=
  ⟨_, rfl, by decide +kernel⟩

end Engine
end RaftGroup
