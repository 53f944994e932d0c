namespace RaftGroup

abbrev Bytes := List UInt8

namespace Bytes

def ofString (s : String) : Bytes :=
  s.toUTF8.data.toList

def text? (b : Bytes) : Option String :=
  String.fromUTF8? ⟨b.toArray⟩

theorem text?_ofString (s : String) : (ofString s).text? = some s := by
  rw [text?, ofString, Array.toArray_toList]
  exact dif_pos s.isValidUTF8

theorem eq_ofString_of_text? {b : Bytes} {s : String} (h : b.text? = some s) : b = ofString s := by
  simp only [text?, String.fromUTF8?] at h
  split at h
  case isTrue _ => cases h; simp [ofString, String.toUTF8, String.fromUTF8]
  case isFalse _ => contradiction

theorem text?_eq_some_iff {b : Bytes} {s : String} : b.text? = some s ↔ b = ofString s :=
  ⟨eq_ofString_of_text?, (· ▸ text?_ofString s)⟩

theorem ofString_injective {s t : String} (h : ofString s = ofString t) : s = t :=
  Option.some.inj <| text?_ofString s ▸ h ▸ text?_ofString t

def shorterThan : Bytes → Nat → Bool
  | _, 0           => false
  | [], _ + 1      => true
  | _ :: bs, n + 1 => shorterThan bs n

theorem shorterThan_iff {b : Bytes} {n : Nat} : b.shorterThan n = true ↔ b.length < n := by
  fun_induction shorterThan b n
  case case1 => simp
  case case2 => simp
  case case3 ih => simp [ih]

-- A sequence of several bytes that has been begun: the next byte has to lie between `lo` and `hi`, and `more`
-- continuation bytes have to follow it. Only the second byte of a sequence can be restricted further than to a
-- continuation byte, which excludes overlong forms, surrogates and values beyond the last code point.
structure Sequence where
  lo : UInt8
  hi : UInt8
  more : Nat
  value : Nat

namespace Sequence

def «open» (b : UInt8) : Option Sequence :=
  if b < 0xC2 then none
  else if b < 0xE0 then some ⟨0x80, 0xBF, 0, b.toNat - 0xC0⟩
  else if b < 0xF0 then
    some ⟨if b = 0xE0 then 0xA0 else 0x80, if b = 0xED then 0x9F else 0xBF, 1, b.toNat - 0xE0⟩
  else if b < 0xF5 then
    some ⟨if b = 0xF0 then 0x90 else 0x80, if b = 0xF4 then 0x8F else 0xBF, 2, b.toNat - 0xF0⟩
  else none

def Accepts (s : Sequence) (b : UInt8) : Prop :=
  s.lo ≤ b ∧ b ≤ s.hi

instance (s : Sequence) (b : UInt8) : Decidable (s.Accepts b) :=
  inferInstanceAs (Decidable (_ ∧ _))

def extend (s : Sequence) (b : UInt8) : Nat :=
  s.value * 64 + (b.toNat - 0x80)

end Sequence

def replacement : Char := '\uFFFD'

def begin (b : UInt8) : List Char × Option Sequence :=
  if b < 0x80 then ([Char.ofNat b.toNat], none)
  else match Sequence.open b with
    | some s => ([], some s)
    | none   => ([replacement], none)

def lenientChars : Option Sequence → Bytes → List Char
  | none, []   => []
  | some _, [] => [replacement]
  | none, b :: bs =>
    let (cs, s) := begin b
    cs ++ lenientChars s bs
  | some s, b :: bs =>
    if s.Accepts b then
      match s.more with
      | 0     => Char.ofNat (s.extend b) :: lenientChars none bs
      | n + 1 => lenientChars (some ⟨0x80, 0xBF, n, s.extend b⟩) bs
    else
      let (cs, t) := begin b
      replacement :: cs ++ lenientChars t bs

-- The text with one replacement character for each longest beginning of a sequence that does not continue.
def lenientText (b : Bytes) : String :=
  String.ofList (lenientChars none b)

end Bytes
end RaftGroup
