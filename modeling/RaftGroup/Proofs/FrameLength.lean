import RaftGroup.Proofs.Inbound
import RaftGroup.Proofs.Requests

namespace RaftGroup

namespace Decimal

theorem length_ofNat_le_succ (n : Nat) : (ofNat n).length ≤ n + 1 :=
  length_ofNat_le (Nat.succ_pos n) (Nat.lt_trans (Nat.lt_succ_self n) (Nat.lt_pow_self (by decide)))

end Decimal

namespace Base64

theorem length_encode_eq (d : Bytes) : (encode d).length = (d.length + 2) / 3 * 4 := by
  fun_induction encode d
  case case1 => simp only [List.length_nil]
  case case2 => simp only [List.length_cons, List.length_nil]
  case case3 => simp only [List.length_cons, List.length_nil]
  case case4 a b c rest ih => simp only [List.length_cons, ih]; omega

end Base64

namespace Resp

theorem length_encode_bulk (data : Bytes) :
    (bulk data).encode.length = (Decimal.ofNat data.length).length + data.length + 5 := by
  rw [encode, List.length_append, length_line, List.length_append]
  exact Nat.add_right_comm ..

theorem length_encode_array (vs : List Resp) :
    (array vs).encode.length = (Decimal.ofNat vs.length).length + 3 + (encodeAll vs).length := by
  rw [encode, List.length_append, length_line]

theorem length_encode_ofNat_le (n : Nat) : (ofNat n).encode.length ≤ 23 := by
  rw [ofNat, encode, length_line]
  exact Nat.add_le_add_right (Decimal.length_ofInt_le _) 3

theorem length_encode_ofBool (b : Bool) : (ofBool b).encode.length = 4 := by
  cases b <;> rfl

end Resp

namespace Frame

open Resp

def pairLength (p : String × Resp) : Nat :=
  (Resp.ofString p.1).encode.length + p.2.encode.length

theorem length_encodeAll_items (values : List (String × Resp)) :
    (encodeAll (Fields.items values)).length = (values.map pairLength).sum := by
  induction values
  case nil            => rfl
  case cons p rest ih =>
    rw [Fields.items_cons, encodeAll, encodeAll, List.length_append, List.length_append, ih, List.map_cons,
      List.sum_cons, pairLength, Nat.add_assoc]

theorem Fields.length_encode_toResp (f : Fields) :
    f.toResp.encode.length = (Decimal.ofNat (2 * f.values.length)).length + 3 + (f.values.map pairLength).sum := by
  rw [← length_encodeAll_items, ← length_items]
  exact length_encode_array _

theorem encodePayload_length_le (p : Payload) : (encodePayload p).encode.length ≤ 4 * p.data.length + 14 := by
  cases p <;> simp only [encodePayload, length_encode_bulk, Payload.data]
  case text data   => have := Decimal.length_ofNat_le_succ data.length; omega
  case binary data =>
    have := Decimal.length_ofNat_le_succ (Base64.encode data).length
    have := Base64.length_encode_eq data
    omega

theorem entryFields_length_lt (e : Entry) : (entryFields e).toResp.encode.length < 7 * e.size := by
  have ht : (Resp.ofString "term").encode.length = 10 := rfl
  have hi : (Resp.ofString "index").encode.length = 11 := rfl
  have hb : (Resp.ofString "binary").encode.length = 12 := rfl
  have hd : (Resp.ofString "data").encode.length = 10 := rfl
  have hn : (Decimal.ofNat (2 * 4)).length = 1 := rfl
  have := length_encode_ofNat_le e.term
  have := length_encode_ofNat_le e.index
  have := length_encode_ofBool e.payload.isBinary
  have := encodePayload_length_le e.payload
  simp only [Fields.length_encode_toResp, entryFields, List.map_cons, List.map_nil, List.sum_cons, List.sum_nil,
    List.length_cons, List.length_nil, pairLength, ht, hi, hb, hd, hn, Entry.size]
  omega

theorem entries_length_le (es : List Entry) :
    (encodeAll (es.map fun e => (entryFields e).toResp)).length + es.length ≤ 7 * Batch.total es := by
  induction es
  case nil          => exact Nat.le_refl _
  case cons e es ih =>
    have := entryFields_length_lt e
    rw [List.map_cons, encodeAll, List.length_append, List.length_cons, Batch.total_cons]
    omega

-- Besides its entries a request takes little more than the name of the leader. A name that is held in memory is
-- shorter than a word can count.
theorem appendRequest_length_le (term : Nat) (q : AppendRequest) (hl : (Bytes.ofString q.leader).length < wordSize) :
    (message ⟨term, .appendRequest q⟩).toBytes.length ≤
      7 * Batch.total q.entries + (Bytes.ofString q.leader).length + 512 := by
  have hw : wordSize = 2 ^ 64 := rfl
  have : (Decimal.ofNat (Bytes.ofString q.leader).length).length ≤ 20 :=
    Decimal.length_ofNat_le (by decide) (by omega)
  have := Decimal.length_ofNat_le_succ q.entries.length
  have := entries_length_le q.entries
  have := length_encode_ofNat_le term
  have := length_encode_ofNat_le q.prevIndex
  have := length_encode_ofNat_le q.prevTerm
  have := length_encode_ofNat_le q.commit
  have hk : (Resp.ofString "type").encode.length = 10 := rfl
  have hm : (Resp.ofString "msg").encode.length = 9 := rfl
  have hr : (Resp.ofString Rpc.Kind.appendRequest.name).encode.length = 23 := rfl
  have ht : (Resp.ofString "term").encode.length = 10 := rfl
  have hi : (Resp.ofString "leaderId").encode.length = 14 := rfl
  have hp : (Resp.ofString "prevLogIndex").encode.length = 19 := rfl
  have hq : (Resp.ofString "prevLogTerm").encode.length = 18 := rfl
  have hc : (Resp.ofString "leaderCommit").encode.length = 19 := rfl
  have he : (Resp.ofString "entries").encode.length = 13 := rfl
  have hn : (Decimal.ofNat (2 * 2)).length = 1 := rfl
  have hn' : (Decimal.ofNat (2 * 6)).length = 2 := rfl
  have hs : (Resp.ofString q.leader).encode.length =
      (Decimal.ofNat (Bytes.ofString q.leader).length).length + (Bytes.ofString q.leader).length + 5 :=
    length_encode_bulk _
  simp only [toBytes, encode, envelope, bodyFields, Rpc.kind, Fields.length_encode_toResp, List.map_cons, List.map_nil,
    List.sum_cons, List.sum_nil, List.length_cons, List.length_nil, pairLength, length_encode_array, List.length_map,
    hk, hm, hr, ht, hi, hp, hq, hc, he, hn, hn', hs]
  omega

end Frame

namespace Engine

variable {e : Engine} {s : Server}

-- A request for several entries stays within a multiple of what a leader puts into one at most, whatever the entries
-- are and whatever their terms and positions, so that a frame beyond that carries a single entry. A name is as long as
-- a word can count at most.
theorem request_length_le (h : e.replicateTo s = .ok turn) (ho : turn.result = some o)
    (hq : o.message.rpc = .appendRequest q) (hl : (Bytes.ofString q.leader).length < wordSize) :
    let room := 7 * e.config.chunkSize + (Bytes.ofString q.leader).length + 512
    let frame := (Frame.message o.message).toBytes
    (2 ≤ q.entries.length → frame.length ≤ room) ∧
    ∀ limit, room ≤ limit → limit < frame.length → q.entries.length = 1 := by
  intro room frame
  have hf : Batch.Fits e.config.chunkSize q.entries := by
    obtain ⟨⟨_, rfl⟩, _⟩ | ⟨l, r, t, _, _, _, _, _, rfl⟩ := replicateTo_eq_ok h
    case inl => cases ho
    case inr => cases ho; cases hq; exact batch_fits e r
  have hs : q.entries.length ≠ 1 → frame.length ≤ room := by
    intro hn
    have hb : Batch.total q.entries ≤ e.config.chunkSize := by
      obtain hf | hf := hf
      case inl =>
        have he : q.entries = [] := List.eq_nil_of_length_eq_zero (by omega)
        rw [he]
        exact Nat.zero_le _
      case inr => exact hf
    have hm : o.message = ⟨o.message.term, .appendRequest q⟩ := hq ▸ rfl
    calc frame.length
      _ ≤ 7 * Batch.total q.entries + (Bytes.ofString q.leader).length + 512 := by
        dsimp only [frame]
        rw [hm]
        exact Frame.appendRequest_length_le o.message.term q hl
      _ ≤ room := by dsimp only [room]; omega
  refine ⟨fun hn => hs (by omega), fun limit hr hx => ?_⟩
  by_contra hn
  exact absurd (hs hn) (Nat.not_le_of_lt (Nat.lt_of_le_of_lt hr hx))

theorem request_length_le_of_retraced :
    (∃ turn, retraced.replicateTo (.peer "b") = .ok turn ∧
      turn.result = some ⟨.to (.peer "b"), 3, .appendRequest parcel⟩) ∧
    retraced.config.chunkSize = 43 ∧ parcel.entries.length = 2 ∧ (Bytes.ofString parcel.leader).length = 1 ∧
    (Frame.message ⟨3, .appendRequest parcel⟩).toBytes.length = 306 ∧
    (Frame.message ⟨3, .appendRequest parcel⟩).toBytes.length ≤ 7 * 43 + 1 + 512 := by
  obtain ⟨turn, ht, ho⟩ := retraced_sends
  have hl : (Bytes.ofString parcel.leader).length = 1 := rfl
  have hc : retraced.config.chunkSize = 43 := by decide +kernel
  have hn : parcel.entries.length = 2 := rfl
  have hs := (request_length_le ht ho rfl (by rw [hl]; decide)).left (Nat.le_of_eq hn.symm)
  rw [hc, hl] at hs
  exact ⟨⟨turn, ht, ho⟩, hc, hn, hl, by decide +kernel, hs⟩

end Engine
end RaftGroup
