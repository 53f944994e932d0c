import RaftGroup.Text.Base64
import RaftGroup.Word

namespace RaftGroup.Base64

theorem value?_symbol : ∀ n < 64, value? (symbol n) = some n := by decide

theorem symbol_ne_pad : ∀ n < 64, symbol n ≠ pad := by decide

theorem eq_symbol_of_value? (h : value? b = some n) : n < 64 ∧ b = symbol n := by
  have hb : ∀ k < 256, ∀ n ∈ value? (.ofNat k), n < 64 ∧ .ofNat k = symbol n := by decide +kernel
  have hn := hb b.toNat b.toNat_lt n
  rw [UInt8.ofNat_toNat] at hn
  exact hn h

theorem valueAt_symbol (offset : Nat) (h : n < 64) : valueAt offset (symbol n) = .ok n := by
  rw [valueAt, value?_symbol n h]

theorem eq_symbol_of_valueAt (h : valueAt offset b = .ok n) : n < 64 ∧ b = symbol n := by
  rw [valueAt] at h
  split at h
  case h_1 v hv => cases h; exact eq_symbol_of_value? hv
  case h_2      => cases h

theorem join_eq (a b c : UInt8) :
    join (a.toNat / 4) (a.toNat % 4 * 16 + b.toNat / 16) (b.toNat % 16 * 4 + c.toNat / 64) (c.toNat % 64) =
      [a, b, c] := by
  have := a.toNat_lt
  have := b.toNat_lt
  have := c.toNat_lt
  have ha : a.toNat / 4 * 4 + (a.toNat % 4 * 16 + b.toNat / 16) / 16 = a.toNat := by omega
  have hb : (a.toNat % 4 * 16 + b.toNat / 16) % 16 * 16 + (b.toNat % 16 * 4 + c.toNat / 64) / 4 = b.toNat := by omega
  have hc : (b.toNat % 16 * 4 + c.toNat / 64) % 4 * 64 + c.toNat % 64 = c.toNat := by omega
  rw [join, ha, hb, hc, UInt8.ofNat_toNat, UInt8.ofNat_toNat, UInt8.ofNat_toNat]

theorem toNat_first (hv : v < 64) (hw : w < 64) : (UInt8.ofNat (v * 4 + w / 16)).toNat = v * 4 + w / 16 :=
  Nat.mod_eq_of_lt (by omega)

theorem toNat_second (w : Nat) (hx : x < 64) :
    (UInt8.ofNat (w % 16 * 16 + x / 4)).toNat = w % 16 * 16 + x / 4 :=
  Nat.mod_eq_of_lt (by omega)

theorem toNat_third (x : Nat) (hy : y < 64) : (UInt8.ofNat (x % 4 * 64 + y)).toNat = x % 4 * 64 + y :=
  Nat.mod_eq_of_lt (by omega)

theorem encode_join_append (hv : v < 64) (hw : w < 64) (hx : x < 64) (hy : y < 64) (bytes : Bytes) :
    encode (join v w x y ++ bytes) = symbol v :: symbol w :: symbol x :: symbol y :: encode bytes := by
  have hv' : (v * 4 + w / 16) / 4 = v := by omega
  have hw' : (v * 4 + w / 16) % 4 * 16 + (w % 16 * 16 + x / 4) / 16 = w := by omega
  have hx' : (w % 16 * 16 + x / 4) % 16 * 4 + (x % 4 * 64 + y) / 64 = x := by omega
  have hy' : (x % 4 * 64 + y) % 64 = y := by omega
  simp only [join, List.cons_append, List.nil_append, encode, toNat_first hv hw, toNat_second w hx, toNat_third x hy,
    hv', hw', hx', hy']

-- The bits of the last symbol that belong to no byte are zero.
theorem encode_take_one (hv : v < 64) (hw : w < 64) (h : w % 16 = 0) :
    encode ((join v w 0 0).take 1) = [symbol v, symbol w, pad, pad] := by
  have hv' : (v * 4 + w / 16) / 4 = v := by omega
  have hw' : (v * 4 + w / 16) % 4 * 16 = w := by omega
  simp only [join, List.take_succ_cons, List.take_zero, encode, toNat_first hv hw, hv', hw']

theorem encode_take_two (hv : v < 64) (hw : w < 64) (hx : x < 64) (h : x % 4 = 0) :
    encode ((join v w x 0).take 2) = [symbol v, symbol w, symbol x, pad] := by
  have hv' : (v * 4 + w / 16) / 4 = v := by omega
  have hw' : (v * 4 + w / 16) % 4 * 16 + (w % 16 * 16 + x / 4) / 16 = w := by omega
  have hx' : (w % 16 * 16 + x / 4) % 16 * 4 = x := by omega
  simp only [join, List.take_succ_cons, List.take_zero, encode, toNat_first hv hw, toNat_second w hx, hv', hw', hx']

theorem encode_ne_nil (h : d ≠ []) : encode d ≠ [] := by
  fun_cases encode d <;> simp_all

theorem length_encode (d : Bytes) : (encode d).length % 4 = 0 := by
  fun_induction encode d
  case case1 => rw [List.length_nil]
  case case2 => simp only [List.length_cons, List.length_nil]
  case case3 => simp only [List.length_cons, List.length_nil]
  case case4 => simp only [List.length_cons]; omega

theorem symbols_map (offset : Nat) (vs : List Nat) (bs : Bytes) (h : ∀ n ∈ more, n < 64) :
    symbols offset vs 0 (more.map symbol ++ bs) = symbols offset (vs ++ more) 0 bs := by
  induction more generalizing vs
  case nil => simp
  case cons n more ih =>
    have ⟨hn, hm⟩ := List.forall_mem_cons.mp h
    simp [symbols, symbol_ne_pad n hn, valueAt_symbol _ hn, ih _ hm, bind, Except.bind]

theorem symbols_replicate (offset pads k : Nat) (h : 2 ≤ vs.length) :
    symbols offset vs pads (List.replicate k pad) = .ok (vs, pads + k) := by
  induction k generalizing pads
  case zero => rfl
  case succ k ih => simp [List.replicate_succ, symbols, Nat.not_lt.mpr h, ih, Nat.add_right_comm, Nat.add_assoc]

theorem symbols_group (offset k : Nat) (hn : ∀ n ∈ vs, n < 64) (hl : 2 ≤ vs.length) :
    symbols offset [] 0 (vs.map symbol ++ List.replicate k pad) = .ok (vs, k) := by
  rw [symbols_map offset [] _ hn, List.nil_append, symbols_replicate offset 0 k hl, Nat.zero_add]

theorem eq_of_symbols (h : symbols offset vs pads group = .ok (vs', pads')) :
    ∃ more k, vs' = vs ++ more ∧ pads' = pads + k ∧ (0 < pads → more = []) ∧
      (∀ n ∈ more, n < 64) ∧ group = more.map symbol ++ List.replicate k pad := by
  fun_induction symbols offset vs pads group
  case case1 => cases h; exact ⟨[], 0, by simp⟩
  case case2 => cases h
  case case3 vs pads bs hv ih =>
    have ⟨more, k, hm, hk, hp, _, hg⟩ := ih h
    cases hp (Nat.succ_pos _)
    exact ⟨[], k + 1, hm, by omega, fun _ => rfl, by simp, by simp [hg, List.replicate_succ]⟩
  case case4 => cases h
  case case5 vs pads b bs _ hp ih =>
    have ⟨v, hv, h⟩ := bind_eq_ok_iff.mp h
    have ⟨hv, hb⟩ := eq_symbol_of_valueAt hv
    have ⟨more, k, hm, hk, _, hn, hg⟩ := ih v h
    exact ⟨v :: more, k, by simp [hm], hk, fun h => absurd h hp, by simpa [hv] using hn, by simp [hg, hb]⟩

theorem group_eq_of_symbols (h : symbols offset [] 0 group = .ok (vs, pads)) :
    (∀ n ∈ vs, n < 64) ∧ group = vs.map symbol ++ List.replicate pads pad := by
  have ⟨more, k, hv, hp, _, hn, hg⟩ := eq_of_symbols h
  rw [List.nil_append] at hv
  rw [Nat.zero_add] at hp
  exact ⟨hv ▸ hn, by rw [hv, hp, hg]⟩

theorem decodeLast_encode_one (offset : Nat) (a : UInt8) : decodeLast offset (encode [a]) = .ok [a] := by
  have := a.toNat_lt
  have hg : encode [a] = [a.toNat / 4, a.toNat % 4 * 16].map symbol ++ List.replicate 2 pad := rfl
  have hj : join (a.toNat / 4) (a.toNat % 4 * 16) 0 0 = [a, 0, 0] := join_eq a 0 0
  rw [decodeLast, hg, symbols_group offset 2 (by simp; omega) (by simp)]
  simp [bind, Except.bind, hj]

theorem decodeLast_encode_two (offset : Nat) (a b : UInt8) : decodeLast offset (encode [a, b]) = .ok [a, b] := by
  have := a.toNat_lt
  have := b.toNat_lt
  have hg : encode [a, b] =
    [a.toNat / 4, a.toNat % 4 * 16 + b.toNat / 16, b.toNat % 16 * 4].map symbol ++ List.replicate 1 pad := rfl
  have hj : join (a.toNat / 4) (a.toNat % 4 * 16 + b.toNat / 16) (b.toNat % 16 * 4) 0 = [a, b, 0] := join_eq a b 0
  have hb : b.toNat % 16 * 4 % 4 = 0 := Nat.mul_mod_left ..
  rw [decodeLast, hg, symbols_group offset 1 (by simp; omega) (by simp)]
  simp [bind, Except.bind, hj, hb]

theorem decodeLast_encode_three (offset : Nat) (a b c : UInt8) :
    decodeLast offset (encode [a, b, c]) = .ok [a, b, c] := by
  have := a.toNat_lt
  have := b.toNat_lt
  have := c.toNat_lt
  have hg : encode [a, b, c] = [a.toNat / 4, a.toNat % 4 * 16 + b.toNat / 16, b.toNat % 16 * 4 + c.toNat / 64,
    c.toNat % 64].map symbol ++ List.replicate 0 pad := rfl
  rw [decodeLast, hg, symbols_group offset 0 (by simp; omega) (by simp)]
  simp [bind, Except.bind, join_eq]

theorem decodeFrom_encode (offset : Nat) (d : Bytes) : decodeFrom offset (encode d) = .ok d := by
  fun_induction encode d generalizing offset
  case case1 => rfl
  case case2 a => exact decodeLast_encode_one offset a
  case case3 a b => exact decodeLast_encode_two offset a b
  case case4 a b c rest ih =>
    cases he : encode rest
    case nil =>
      cases rest
      case nil  => exact decodeLast_encode_three offset a b c
      case cons => exact absurd he (encode_ne_nil (List.cons_ne_nil _ _))
    case cons e more =>
      have := a.toNat_lt
      have := b.toNat_lt
      have := c.toNat_lt
      rw [decodeFrom, valueAt_symbol _ (by omega), valueAt_symbol _ (by omega), valueAt_symbol _ (by omega),
        valueAt_symbol _ (by omega), ← he, ih]
      simp [bind, Except.bind, join_eq]

theorem eq_encode_of_decodeLast (h : decodeLast offset group = .ok d) (hl : group.length ≤ 4) : group = encode d := by
  have ⟨⟨vs, pads⟩, hs, h⟩ := bind_eq_ok_iff.mp h
  have ⟨hn, hg⟩ := group_eq_of_symbols hs
  simp only [hg, List.length_append, List.length_map, List.length_replicate] at hl
  simp only at h
  split at h
  case isTrue     => cases h
  case isFalse hm =>
    split at h
    case isTrue     => cases h
    case isFalse hr =>
      split at h
      case h_1 v w =>
        simp at hn hr hl
        obtain rfl : pads = 2 := by omega
        split at h
        case isFalse   => cases h
        case isTrue hw => cases h; rw [encode_take_one hn.left hn.right hw, hg]; rfl
      case h_2 v w x =>
        simp at hn hr hl
        obtain rfl : pads = 1 := by omega
        split at h
        case isFalse   => cases h
        case isTrue hx => cases h; rw [encode_take_two hn.left hn.right.left hn.right.right hx, hg]; rfl
      case h_3 v w x y =>
        simp at hn hr hl
        obtain rfl : pads = 0 := by omega
        cases h
        rw [← List.append_nil (join v w x y), encode_join_append hn.left hn.right.left hn.right.right.left
          hn.right.right.right, hg]
        rfl
      case h_4 hv₂ hv₃ hv₄ =>
        obtain _ | ⟨v, _ | ⟨w, _ | ⟨x, _ | ⟨y, _ | ⟨z, vs⟩⟩⟩⟩⟩ := vs
        case nil                     => simp at hm
        case cons.nil                => simp at hm
        case cons.cons.nil           => exact absurd rfl (hv₂ v w)
        case cons.cons.cons.nil      => exact absurd rfl (hv₃ v w x)
        case cons.cons.cons.cons.nil => exact absurd rfl (hv₄ v w x y)
        case cons.cons.cons.cons.cons =>
          simp only [List.length_cons] at hl
          omega

theorem eq_encode_of_decodeFrom (h : decodeFrom offset b = .ok d) : b = encode d := by
  fun_induction decodeFrom offset b generalizing d
  case case1 => cases h; rfl
  case case2 a b c e f rest ih =>
    have ⟨v, hv, h⟩ := bind_eq_ok_iff.mp h
    have ⟨w, hw, h⟩ := bind_eq_ok_iff.mp h
    have ⟨x, hx, h⟩ := bind_eq_ok_iff.mp h
    have ⟨y, hy, h⟩ := bind_eq_ok_iff.mp h
    have ⟨bytes, hr, h⟩ := bind_eq_ok_iff.mp h
    have ⟨hv, ha⟩ := eq_symbol_of_valueAt hv
    have ⟨hw, hb⟩ := eq_symbol_of_valueAt hw
    have ⟨hx, hc⟩ := eq_symbol_of_valueAt hx
    have ⟨hy, he⟩ := eq_symbol_of_valueAt hy
    cases h
    rw [encode_join_append hv hw hx hy, ← ih hr, ha, hb, hc, he]
  case case3 group hn hl =>
    refine eq_encode_of_decodeLast h ?_
    match group with
    | [] | [_] | [_, _] | [_, _, _] | [_, _, _, _] => simp
    | a :: b :: c :: e :: f :: rest                => exact absurd rfl (hl a b c e f rest)

theorem strayLast?_encode (d : Bytes) : strayLast? (encode d) = none := by
  rw [strayLast?, if_neg]
  rw [length_encode d]
  decide

-- A text is read exactly if it is the text of what it is read as.
theorem decode_eq_ok_iff : decode b = .ok d ↔ b = encode d := by
  constructor
  case mp =>
    intro h
    rw [decode] at h
    split at h
    case h_1 => cases h
    case h_2 => exact eq_encode_of_decodeFrom h
  case mpr =>
    rintro rfl
    rw [decode, strayLast?_encode]
    exact decodeFrom_encode 0 d

end RaftGroup.Base64
