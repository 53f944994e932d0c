import Mathlib.Algebra.Group.Nat.Defs
import RaftGroup.Text.Decimal
import RaftGroup.Word

namespace RaftGroup

theorem not_neg_ofNat (h : n < 2 ^ 63) : ¬ Int64.ofNat n < 0 := by
  rw [Int64.lt_iff_toInt_lt, Int64.toInt_ofNat_of_lt h, Int64.toInt_zero]
  omega

theorem ofNat_of_not_neg {i : Int64} (h : ¬ i < 0) : Int64.ofNat i.toInt.toNat = i ∧ i.toInt.toNat < 2 ^ 63 := by
  rw [Int64.lt_iff_toInt_lt, Int64.toInt_zero] at h
  have hi := i.toInt_lt
  refine ⟨?_, by omega⟩
  rw [← Int64.ofInt_eq_ofNat, Int.toNat_of_nonneg (by omega), Int64.ofInt_toInt]

theorem eq_of_ofNat_eq (hn : n < wordSize) (hm : m < wordSize) (h : Int64.ofNat n = Int64.ofNat m) : n = m := by
  have h : n % wordSize = m % wordSize := congrArg (BitVec.toNat ∘ Int64.toBitVec) h
  rwa [Nat.mod_eq_of_lt hn, Nat.mod_eq_of_lt hm] at h

namespace Decimal

def IsDigit (b : UInt8) : Prop :=
  0x30 ≤ b ∧ b ≤ 0x39

theorem digitChar_toUInt8 : ∀ d < 10, digit? d.digitChar.toUInt8 = some d ∧ IsDigit d.digitChar.toUInt8 := by
  unfold IsDigit
  decide

theorem ofNat_of_lt (h : n < 10) : ofNat n = [n.digitChar.toUInt8] := by
  rw [ofNat, Nat.toDigits_of_lt_base h, List.map_singleton]

theorem ofNat_of_le (h : 10 ≤ n) : ofNat n = ofNat (n / 10) ++ [(n % 10).digitChar.toUInt8] := by
  rw [ofNat, Nat.toDigits_of_base_le (by decide) h, List.map_append, List.map_singleton]
  rfl

theorem isDigit_of_mem (h : b ∈ ofNat n) : IsDigit b := by
  induction n using Nat.strongRecOn
  case ind n ih =>
    by_cases hn : n < 10
    case pos =>
      rw [ofNat_of_lt hn, List.mem_singleton] at h
      exact h ▸ (digitChar_toUInt8 n hn).right
    case neg =>
      rw [ofNat_of_le (Nat.le_of_not_lt hn), List.mem_append, List.mem_singleton] at h
      cases h
      case inl h => exact ih _ (by omega) h
      case inr h => exact h ▸ (digitChar_toUInt8 _ (Nat.mod_lt _ (by decide))).right

theorem ofNat_ne_nil (n : Nat) : ofNat n ≠ [] := by
  by_cases hn : n < 10
  case pos => simp [ofNat_of_lt hn]
  case neg => simp [ofNat_of_le (Nat.le_of_not_lt hn)]

theorem length_ofNat_le (hk : 0 < k) (h : n < 10 ^ k) : (ofNat n).length ≤ k := by
  rw [ofNat, List.length_map]
  exact (Nat.length_toDigits_le_iff (by decide) hk).mpr h

theorem natFrom?_append (bound acc : Nat) (a b : Bytes) :
    natFrom? bound acc (a ++ b) = (natFrom? bound acc a).bind fun n => natFrom? bound n b := by
  induction a generalizing acc
  case nil => rfl
  case cons d a ih =>
    rw [List.cons_append, natFrom?, natFrom?]
    cases digit? d
    case none   => rfl
    case some k =>
      simp only [Option.bind_eq_bind, Option.bind_some]
      split
      case isTrue  => exact ih _
      case isFalse => rfl

theorem natFrom?_ofNat (h : n < bound) : natFrom? bound 0 (ofNat n) = some n := by
  induction n using Nat.strongRecOn
  case ind n ih =>
    by_cases hn : n < 10
    case pos => simp [ofNat_of_lt hn, natFrom?, digitChar_toUInt8 n hn, h]
    case neg =>
      have hd := digitChar_toUInt8 (n % 10) (Nat.mod_lt _ (by decide))
      rw [ofNat_of_le (Nat.le_of_not_lt hn), natFrom?_append, ih _ (by omega) (by omega)]
      simp [natFrom?, hd, Nat.div_add_mod, h]

theorem nat?_ofNat (h : n < bound) : nat? bound (ofNat n) = some n := by
  rw [nat?]
  case x_1 => exact ofNat_ne_nil n
  exact natFrom?_ofNat h

theorem int64?_ofNat (h : n < 2 ^ 63) : int64? (ofNat n) = some (.ofNat n) := by
  have hn : nat? (UInt64.size / 2) (ofNat n) = some n := nat?_ofNat h
  have signless (sign : UInt8) (bs : Bytes) (hs : ¬ IsDigit sign) : ofNat n ≠ sign :: bs := fun he =>
    hs (isDigit_of_mem (he ▸ List.mem_cons_self))
  rw [int64?, hn]
  case x_1 => exact fun bs => signless _ bs (by unfold IsDigit; decide)
  case x_2 => exact fun bs => signless _ bs (by unfold IsDigit; decide)
  rfl

theorem int64?_ofInt (i : Int64) : int64? (ofInt i.toInt) = some i := by
  have hi := i.toInt_lt
  have hi' := i.le_toInt
  cases h : i.toInt
  case ofNat n =>
    rw [h] at hi
    rw [ofInt, int64?_ofNat (Int.ofNat_lt.mp hi), ← Int64.ofInt_eq_ofNat, ← Int64.ofInt_toInt i, h]
    rfl
  case negSucc n =>
    have hn : n + 1 < UInt64.size / 2 + 1 := by
      change n + 1 < 2 ^ 63 + 1
      omega
    rw [ofInt, int64?, nat?_ofNat hn, ← Int64.ofInt_toInt i, h]
    rfl

theorem natFrom?_lt_pow (h : natFrom? bound acc bs = some n) : n < (acc + 1) * 10 ^ bs.length := by
  induction bs generalizing acc
  case nil =>
    cases h
    simp
  case cons b bs ih =>
    obtain ⟨d, hd, h⟩ := Option.bind_eq_some_iff.mp h
    have hd : d ≤ 9 := by
      rw [digit?] at hd
      split at hd
      case isFalse   => cases hd
      case isTrue hb =>
        cases hd
        have : b.toNat ≤ 0x39 := UInt8.le_iff_toNat_le.mp hb.right
        omega
    dsimp only at h
    split at h
    case isFalse => cases h
    case isTrue  =>
      calc n < (10 * acc + d + 1) * 10 ^ bs.length := ih h
        _ ≤ ((acc + 1) * 10) * 10 ^ bs.length      := Nat.mul_le_mul_right _ (by omega)
        _ = (acc + 1) * 10 ^ (b :: bs).length      := by rw [List.length_cons, Nat.pow_succ', Nat.mul_assoc]

theorem natFrom?_lt (h : natFrom? bound acc bs = some n) (ha : acc < bound) : n < bound := by
  induction bs generalizing acc
  case nil          => cases h; exact ha
  case cons b bs ih =>
    obtain ⟨d, -, h⟩ := Option.bind_eq_some_iff.mp h
    dsimp only at h
    split at h
    case isTrue hn => exact ih h hn
    case isFalse   => cases h

theorem nat?_bounds (hb : 0 < bound) (h : nat? bound bs = some n) : n < bound ∧ (ofNat n).length ≤ bs.length := by
  cases bs
  case nil          => cases h
  case cons b bs =>
    have hn := natFrom?_lt_pow (show natFrom? bound 0 (b :: bs) = some n from h)
    rw [Nat.zero_add, Nat.one_mul] at hn
    exact ⟨natFrom?_lt h hb, length_ofNat_le (Nat.succ_pos _) hn⟩

theorem length_ofInt_neg_le (n : Nat) : (ofInt (-n)).length ≤ (ofNat n).length + 1 := by
  cases n
  case zero   => exact Nat.le_succ _
  case succ n => exact Nat.le_refl _

theorem length_ofInt_le_of_int64? (h : int64? bs = some i) : (ofInt i.toInt).length ≤ bs.length := by
  rw [int64?.eq_def] at h
  split at h
  case h_1 bs =>
    obtain ⟨_, hm, rfl⟩ := Option.map_eq_some_iff.mp h
    obtain ⟨n, hn, hc⟩ := Option.bind_eq_some_iff.mp hm
    cases hc
    have ⟨hb, hl⟩ := nat?_bounds (by decide) hn
    have hb : n < 2 ^ 63 + 1 := hb
    have hs := length_ofInt_neg_le n
    rw [Int64.toInt_ofInt_of_le (by omega) (by omega), List.length_cons]
    omega
  case h_2 bs =>
    obtain ⟨n, hn, rfl⟩ := Option.map_eq_some_iff.mp h
    have ⟨hb, hl⟩ := nat?_bounds (by decide) hn
    rw [Int64.toInt_ofNat_of_lt hb, List.length_cons]
    exact Nat.le_succ_of_le hl
  case h_3 =>
    obtain ⟨n, hn, rfl⟩ := Option.map_eq_some_iff.mp h
    have ⟨hb, hl⟩ := nat?_bounds (by decide) hn
    rw [Int64.toInt_ofNat_of_lt hb]
    exact hl

theorem length_ofInt_le (i : Int64) : (ofInt i.toInt).length ≤ 20 := by
  have hi := i.toInt_lt
  have hi' := i.le_toInt
  cases h : i.toInt
  case ofNat n =>
    rw [h] at hi
    have hn : n < 2 ^ 63 := Int.ofNat_lt.mp hi
    exact Nat.le_succ_of_le (length_ofNat_le (by decide) (by omega))
  case negSucc n =>
    rw [ofInt, List.length_cons]
    exact Nat.succ_le_succ (length_ofNat_le (by decide) (by omega))

end Decimal
end RaftGroup
