import Mathlib.Control.Monad.Basic
import RaftGroup.Proofs.Pieces

namespace RaftGroup.Resp

variable {limit levels : Nat} {b text : Bytes}

-- A value that can be sent in so many bytes.
structure Spells (levels n : Nat) (v : Resp) : Prop where
  sendable : v.Sendable levels
  short    : v.encode.length ≤ n

theorem not_crlf_isInfix_take (h : lineEnd? n b = some k) : ¬ crlf <:+: b.take (k - n) := by
  induction b generalizing n
  case nil => cases h
  case cons c b ih =>
    by_cases hc : crlf <+: c :: b
    case pos =>
      cases (lineEnd?_of_isPrefix_crlf hc n).symm.trans h
      rw [Nat.sub_self, List.take_zero]
      exact fun hi => absurd hi.length_le (by decide)
    case neg =>
      rw [lineEnd?_cons hc] at h
      have ⟨hk, _⟩ := lineEnd?_bounds h
      obtain ⟨m, rfl⟩ := Nat.exists_eq_add_of_le hk
      rw [show n + 1 + m - n = m + 1 by omega, List.take_succ_cons, List.infix_cons_iff]
      have ht := ih h
      rw [Nat.add_sub_cancel_left] at ht
      exact not_or.mpr ⟨fun hp => hc (hp.trans (List.take_prefix (m + 1) (c :: b))), ht⟩

theorem not_crlf_isInfix_of_line? (h : line? b = some text) : ¬ crlf <:+: text := by
  obtain ⟨k, hk, rfl⟩ := Option.map_eq_some_iff.mp h
  exact not_crlf_isInfix_take hk

theorem integer?_eq_ok_iff : integer? text = .ok i ↔ Decimal.int64? text = some i := by
  rw [integer?]
  cases Decimal.int64? text <;> simp

theorem length?_eq_ok (h : length? limit i = .ok l) :
    (l = none ∧ i = -1) ∨ ∃ n < 2 ^ 63, l = some n ∧ i = .ofNat n := by
  rw [length?] at h
  split at h
  case isTrue hi => cases h; exact .inl ⟨rfl, hi⟩
  case isFalse =>
    split at h
    case isTrue => cases h
    case isFalse hi =>
      obtain ⟨hn, hs⟩ := ofNat_of_not_neg hi
      split at h
      case isTrue  => cases h
      case isFalse => cases h; exact .inr ⟨_, hs, rfl, hn.symm⟩

theorem spells_nil (hi : integer? text = .ok i) (hl : length? limit i = .ok none) :
    Resp.nil.Spells levels (text.length + 3) := by
  obtain ⟨-, rfl⟩ | ⟨n, _, h, _⟩ := length?_eq_ok hl
  case inl =>
    have hd : 2 ≤ text.length := Decimal.length_ofInt_le_of_int64? (integer?_eq_ok_iff.mp hi)
    exact ⟨.nil, Nat.add_le_add_right hd 3⟩
  case inr => cases h

theorem length_announced (hi : integer? text = .ok i) (hl : length? limit i = .ok (some n)) :
    n < 2 ^ 63 ∧ (Decimal.ofNat n).length ≤ text.length := by
  obtain ⟨h, _⟩ | ⟨n, hn, h, rfl⟩ := length?_eq_ok hl
  case inl => cases h
  case inr =>
    cases h
    have hd := Decimal.length_ofInt_le_of_int64? (integer?_eq_ok_iff.mp hi)
    rw [Int64.toInt_ofNat_of_lt hn] at hd
    exact ⟨hn, hd⟩

theorem parseBulk_spells (h : parseBulk n b = .ok (.done v used)) :
    ∃ data, v = .bulk data ∧ data.length = n ∧ used = n + 2 := by
  rw [parseBulk] at h
  split at h
  case h_2 => cases h
  case h_1 hd =>
    split at h
    case isFalse => cases h
    case isTrue  =>
      cases h
      have hl := congrArg List.length hd
      rw [List.length_drop, List.length_cons] at hl
      exact ⟨_, rfl, List.length_take_of_le (by omega), rfl⟩

theorem parseItems_spells {item : Bytes → Except Error (Step Resp)}
    (hi : ∀ b v n, item b = .ok (.done v n) → v.Spells levels n) (h : parseItems item k b = .ok (.done vs used)) :
    vs.length = k ∧ (∀ v ∈ vs, v.Sendable levels) ∧ (encodeAll vs).length ≤ used := by
  induction k generalizing b vs used
  case zero =>
    cases h
    exact ⟨rfl, nofun, Nat.le_refl _⟩
  case succ k ih =>
    rcases hb : item b with e | (⟨v, n⟩ | need)
    case error         => rw [parseItems_of_error hb] at h; cases h
    case ok.incomplete => rw [parseItems_of_incomplete hb] at h; cases h
    case ok.done       =>
      rw [parseItems_of_done hb] at h
      obtain ⟨s, hs, h⟩ := map_eq_ok_iff.mp h
      obtain ⟨s, hk, rfl⟩ := map_eq_ok_iff.mp hs
      cases s <;> cases h
      have ⟨hv, hs⟩ := hi b v n hb
      have ⟨hl, he, hu⟩ := ih hk
      refine ⟨by rw [List.length_cons, hl], List.forall_mem_cons.mpr ⟨hv, he⟩, ?_⟩
      rw [encodeAll, List.length_append]
      exact Nat.add_le_add hs hu

theorem parsePayload_spells (ht : ¬ crlf <:+: text)
    (hp : ∀ l, levels = l + 1 → ∀ b v n, parse limit l b = .ok (.done v n) → v.Spells l n)
    (h : parsePayload limit levels s text b = .ok (.done v n)) : v.Spells levels (text.length + 3 + n) := by
  cases s
  case simple  => cases h; exact ⟨.simple ht, Nat.le_of_eq (by rw [encode, length_line])⟩
  case error   => cases h; exact ⟨.error ht, Nat.le_of_eq (by rw [encode, length_line])⟩
  case integer =>
    obtain ⟨i, hi, h⟩ := map_eq_ok_iff.mp h
    cases h
    have hd := Decimal.length_ofInt_le_of_int64? (integer?_eq_ok_iff.mp hi)
    exact ⟨.integer, by rw [encode, length_line]; omega⟩
  case bulk =>
    obtain ⟨i, hi, hb⟩ := bind_eq_ok_iff.mp h
    obtain ⟨l, hl, hv⟩ := bind_eq_ok_iff.mp hb
    clear h hb
    cases l
    case none => cases hv; exact spells_nil hi hl
    case some k =>
      obtain ⟨hk, hd⟩ := length_announced hi hl
      obtain ⟨data, rfl, rfl, rfl⟩ := parseBulk_spells hv
      have hs : (Resp.bulk data).encode.length = (Decimal.ofNat data.length).length + 3 + (data.length + 2) := by
        simp [encode, crlf]
      exact ⟨.bulk hk, by omega⟩
  case array =>
    obtain ⟨i, hi, hb⟩ := bind_eq_ok_iff.mp h
    obtain ⟨l, hl, hv⟩ := bind_eq_ok_iff.mp hb
    clear h hb
    cases l
    case none => cases hv; exact spells_nil hi hl
    case some k =>
      cases levels
      case zero        => cases hv
      case succ levels =>
        obtain ⟨s, hs, hv⟩ := map_eq_ok_iff.mp hv
        cases s <;> cases hv
        obtain ⟨hk, hd⟩ := length_announced hi hl
        obtain ⟨rfl, he, hu⟩ := parseItems_spells (hp levels rfl) hs
        exact ⟨.array hk he, by rw [encode, List.length_append, length_line]; omega⟩

theorem parse_spells (h : parse limit levels b = .ok (.done v n)) : v.Spells levels n := by
  induction levels using Nat.strongRecOn generalizing b v n
  case ind levels ih =>
    cases b
    case nil => rw [parse] at h; cases h
    case cons c rest =>
      cases hs : Symbol.ofByte? c
      case none => rw [parse, hs] at h; cases h
      case some s =>
        cases hl : line? rest
        case none =>
          rw [parse_of_no_line hs hl] at h
          split at h <;> cases h
        case some text =>
          rw [parse_of_line hs hl] at h
          obtain ⟨s, hp, h⟩ := map_eq_ok_iff.mp h
          cases s <;> cases h
          have ht := not_crlf_isInfix_of_line? hl
          exact parsePayload_spells ht (fun l hl _ _ _ => ih l (hl ▸ Nat.lt_succ_self l)) hp

theorem Spells.reads (h : v.Spells levels n) (hn : n ≤ limit) :
    parse limit levels v.encode = .ok (.done v v.encode.length) := by
  have hr := h.sendable.reads limit (b := v.encode) (List.prefix_append v.encode [])
  generalize parse limit levels v.encode = out at hr
  have hs := h.short
  cases hr
  case done                => rfl
  case incomplete short le => exact absurd (Nat.lt_of_lt_of_le short le) (Nat.lt_irrefl _)
  case tooLarge large      => omega

namespace Receiver

theorem looks_fresh (limit : Nat) (b : Bytes) : Looks { limit, buffer := b } (({ limit } : Receiver).feed b) :=
  ((Kept.fresh limit).push b).looks

theorem feed_of_done (h : Resp.parse limit maxDepth b = .ok (.done v n)) (hn : n ≤ limit) :
    ({ limit } : Receiver).feed b = (.ok (.value v), { limit, buffer := b.drop n }) := by
  have hl := looks_fresh limit b
  generalize ({ limit } : Receiver).feed b = out at hl
  cases hl
  case hands reads _   => cases h.symm.trans reads; rfl
  case waits reads _   => cases h.symm.trans reads
  case refuses refuses => exact absurd (refuses _ h) (Nat.not_lt.mpr hn)

-- Of bytes that are fed at once and begin with a value no more are used than there are and are allowed, and the others
-- stay. The value takes no more bytes when it is sent, and then comes back with nothing left.
theorem feed_canonical (h : ({ limit } : Receiver).feed b = (.ok (.value v), r)) :
    ∃ n, Resp.parse limit maxDepth b = .ok (.done v n) ∧ n ≤ b.length ∧ n ≤ limit ∧
      r = { limit, buffer := b.drop n } ∧ v.encode.length ≤ n ∧
      ({ limit } : Receiver).feed v.encode = (.ok (.value v), { limit }) := by
  have hl := looks_fresh limit b
  rw [h] at hl
  cases hl
  case hands n fits reads =>
    have hs : v.Spells maxDepth n := parse_spells reads
    have hv := feed_of_done (hs.reads fits) (Nat.le_trans hs.short fits)
    rw [List.drop_length] at hv
    exact ⟨n, reads, (done_bounds reads).right, fits, rfl, hs.short, hv⟩

-- An array of three in another spelling: its length with zeros, a number with a plus sign, and nil as an array. Half a
-- value is behind it.
def misspelt : Bytes :=
  [0x2A, 0x30, 0x30, 0x33, 13, 10, 0x3A, 0x2B, 0x37, 13, 10, 0x2A, 0x2D, 0x30, 0x31, 13, 10, 0x24, 0x2B, 0x30, 13, 10,
    13, 10, 0x24, 0x35]

theorem feed_canonical_of_misspelt :
    ({ limit := 24 } : Receiver).feed misspelt =
      (.ok (.value (.array [.integer 7, .nil, .bulk []])), { limit := 24, buffer := [0x24, 0x35] }) ∧
    ({ limit := 24 } : Receiver).feed (Resp.array [.integer 7, .nil, .bulk []]).encode =
      (.ok (.value (.array [.integer 7, .nil, .bulk []])), { limit := 24 }) := by
  have h : ({ limit := 24 } : Receiver).feed misspelt =
      (.ok (.value (.array [.integer 7, .nil, .bulk []])), { limit := 24, buffer := [0x24, 0x35] }) := by
    decide +kernel
  have ⟨_, _, _, _, _, _, hv⟩ := feed_canonical h
  exact ⟨h, hv⟩

end Receiver
end RaftGroup.Resp
