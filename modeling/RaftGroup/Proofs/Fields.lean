import Mathlib.Data.List.Forall2
import Mathlib.Data.List.Nodup
import Mathlib.Data.List.Perm.Subperm
import RaftGroup.Frame.Fields
import RaftGroup.Proofs.Decimal

namespace RaftGroup.Frame

namespace Fields

variable {f g : Fields} {known : List String} {seen pairs pairs' : List (String × Resp)} {rest : List Resp}

def keys (f : Fields) : List String :=
  f.values.map Prod.fst

def items (values : List (String × Resp)) : List Resp :=
  values.flatMap fun (key, value) => [.ofString key, value]

@[simp]
theorem items_cons (p : String × Resp) (values : List (String × Resp)) :
    items (p :: values) = .ofString p.1 :: p.2 :: items values := rfl

theorem length_items (values : List (String × Resp)) : (items values).length = 2 * values.length := by
  induction values
  case nil => rfl
  case cons p values ih => simp only [items_cons, List.length_cons, ih]; omega

theorem ofString_injective (h : Resp.ofString s = .ofString t) : s = t :=
  Bytes.ofString_injective (Resp.bulk.inj h)

theorem items_injective {v w : List (String × Resp)} (h : items v = items w) : v = w := by
  induction v generalizing w
  case nil =>
    cases w
    case nil  => rfl
    case cons => cases h
  case cons p v ih =>
    cases w
    case nil => cases h
    case cons q w =>
      have ⟨hk, h⟩ := List.cons.inj h
      have ⟨hv, h⟩ := List.cons.inj h
      rw [ih h, Prod.ext (ofString_injective hk) hv]

theorem toResp_injective (h : f.toResp = g.toResp) : f = g := by
  cases f
  cases g
  cases items_injective (Resp.array.inj h)
  rfl

theorem find?_key (h : key ∈ known) : (known.find? fun k => .ofString k = Bytes.ofString key) = some key := by
  induction known
  case nil => cases h
  case cons k known ih =>
    rw [List.find?_cons]
    by_cases hk : k = key
    case pos => simp [hk]
    case neg =>
      have hk' : Bytes.ofString k ≠ .ofString key := fun h => hk (Bytes.ofString_injective h)
      simp [hk', ih ((List.mem_cons.mp h).resolve_left (Ne.symm hk))]

theorem parseFrom_items {more : List (String × Resp)} (hk : ∀ key ∈ more.map Prod.fst, key ∈ known)
    (hn : ((seen ++ more).map Prod.fst).Nodup) : parseFrom known position seen (items more) = .ok (seen ++ more) := by
  induction more generalizing position seen
  case nil => rw [List.append_nil]; rfl
  case cons p more ih =>
    have hs : p.1 ∉ seen.map Prod.fst := by
      rw [List.map_append, List.map_cons] at hn
      exact fun h => (List.nodup_append.mp hn).right.right _ h _ List.mem_cons_self rfl
    rw [items_cons, Resp.ofString, parseFrom, find?_key (hk _ List.mem_cons_self)]
    simp only [hs, if_false]
    rw [List.append_cons] at hn
    rw [List.append_cons seen p more]
    exact ih (fun key h => hk key (List.mem_cons_of_mem _ h)) hn

theorem eq_of_parseFrom (h : parseFrom known position seen rest = .ok pairs) (hl : rest.length % 2 = 0)
    (hs : (seen.map Prod.fst).Nodup) :
    ∃ more, pairs = seen ++ more ∧ rest = items more ∧ (∀ key ∈ more.map Prod.fst, key ∈ known) ∧
      (pairs.map Prod.fst).Nodup := by
  fun_induction parseFrom known position seen rest
  case case1 => cases h
  case case2 => cases h
  case case3 position seen name value rest key hk hn ih =>
    have hs : ((seen ++ [(key, value)]).map Prod.fst).Nodup := by
      rw [List.map_append, List.map_singleton, ← List.concat_eq_append]
      exact List.Nodup.concat hn hs
    have ⟨more, hv, hr, hm, hn⟩ := ih h (by simp at hl; omega) hs
    have ho : Bytes.ofString key = name := by simpa using List.find?_some hk
    refine ⟨(key, value) :: more, by simp [hv], by simp [hr, Resp.ofString, ho], ?_, hn⟩
    simpa [List.mem_of_find?_eq_some hk] using hm
  case case4 => cases h
  case case5 rest _ seen _ hr =>
    cases h
    match rest with
    | []          => exact ⟨[], by simp, rfl, by simp, hs⟩
    | [_]         => simp at hl
    | _ :: _ :: _ => exact absurd rfl (hr _ _ _)

theorem parse_eq_ok_iff : parse known r = .ok f ↔ r = f.toResp ∧ f.keys ⊆ known ∧ f.keys.Nodup := by
  constructor
  case mp =>
    intro h
    cases r
    case array rest =>
      rw [parse] at h
      split at h
      case isFalse   => cases h
      case isTrue hl =>
        have ⟨pairs, hp, he⟩ := bind_eq_ok_iff.mp h
        cases he
        have ⟨more, hm, hr, hk, hn⟩ := eq_of_parseFrom hp hl List.nodup_nil
        rw [List.nil_append] at hm
        exact ⟨by rw [hr, hm]; rfl, fun key h => hk key (hm ▸ h), hn⟩
    all_goals cases h
  case mpr =>
    rintro ⟨rfl, hk, hn⟩
    change parse known (.array (items f.values)) = _
    rw [parse, if_pos (by rw [length_items]; omega), parseFrom_items (fun _ h => hk h) (by simpa [keys] using hn)]
    rfl

theorem get_eq_ok_iff (hn : f.keys.Nodup) : f.get key = .ok value ↔ (key, value) ∈ f.values := by
  have hl : f.get key = .ok value ↔ f.values.lookup key = some value := by
    cases hv : f.values.lookup key <;> simp [get, hv]
  rw [hl, List.lookup_eq_some_iff]
  constructor
  case mp =>
    rintro ⟨before, after, hv, _⟩
    simp [hv]
  case mpr =>
    intro h
    have ⟨before, after, hv⟩ := List.append_of_mem h
    refine ⟨before, after, hv, fun p hp => bne_iff_ne.mpr fun he => ?_⟩
    rw [keys, hv, List.map_append, List.map_cons] at hn
    exact (List.nodup_append.mp hn).right.right _ (List.mem_map_of_mem hp) _ List.mem_cons_self he.symm

-- The same keys in some order, each with a value that stands for the one it had.
def Matches (R : String → Resp → Resp → Prop) (f g : Fields) : Prop :=
  ∃ pairs, f.values.Perm pairs ∧ pairs.Forall₂ (fun p q => p.1 = q.1 ∧ R p.1 p.2 q.2) g.values

theorem keys_of_forall₂ {R : String → Resp → Resp → Prop}
    (h : pairs.Forall₂ (fun p q => p.1 = q.1 ∧ R p.1 p.2 q.2) pairs') : pairs.map Prod.fst = pairs'.map Prod.fst := by
  induction h
  case nil          => rfl
  case cons h _ ih => rw [List.map_cons, List.map_cons, ih, h.left]

theorem exists_value {R : String → Resp → Resp → Prop}
    (h : pairs.Forall₂ (fun p q => p.1 = q.1 ∧ R p.1 p.2 q.2) pairs') (hq : q ∈ pairs') :
    ∃ v, (q.1, v) ∈ pairs ∧ R q.1 v q.2 := by
  induction h
  case nil => cases hq
  case cons p q' _ _ h _ ih =>
    cases hq
    case head => exact ⟨p.2, by simp [← h.left], h.left ▸ h.right⟩
    case tail hq =>
      have ⟨v, hv, hr⟩ := ih hq
      exact ⟨v, List.mem_cons_of_mem _ hv, hr⟩

theorem exists_forall₂ {R : String → Resp → Resp → Prop} (h : ∀ q ∈ pairs', ∃ v, (q.1, v) ∈ pairs ∧ R q.1 v q.2) :
    ∃ more ⊆ pairs, more.Forall₂ (fun p q => p.1 = q.1 ∧ R p.1 p.2 q.2) pairs' := by
  induction pairs'
  case nil => exact ⟨[], List.nil_subset _, .nil⟩
  case cons q pairs' ih =>
    have ⟨v, hv, hr⟩ := h q List.mem_cons_self
    have ⟨more, hm, hf⟩ := ih fun q hq => h q (List.mem_cons_of_mem _ hq)
    exact ⟨(q.1, v) :: more, List.cons_subset.mpr ⟨hv, hm⟩, .cons ⟨rfl, hr⟩ hf⟩

theorem matches_iff {R : String → Resp → Resp → Prop} (hn : g.keys.Nodup) :
    f.Matches R g ↔ f.keys ⊆ g.keys ∧ f.keys.Nodup ∧ ∀ q ∈ g.values, ∃ v, f.get q.1 = .ok v ∧ R q.1 v q.2 := by
  constructor
  case mp =>
    rintro ⟨pairs, hp, hf⟩
    have hk : f.keys.Perm g.keys := by
      rw [keys, keys, ← keys_of_forall₂ hf]
      exact hp.map Prod.fst
    have hn := hk.nodup_iff.mpr hn
    refine ⟨hk.subset, hn, fun q hq => ?_⟩
    have ⟨v, hv, hr⟩ := exists_value hf hq
    exact ⟨v, (get_eq_ok_iff hn).mpr (hp.mem_iff.mpr hv), hr⟩
  case mpr =>
    rintro ⟨hk, hn', h⟩
    have h (q) (hq : q ∈ g.values) : ∃ v, (q.1, v) ∈ f.values ∧ R q.1 v q.2 :=
      (h q hq).imp fun _ => And.imp_left (get_eq_ok_iff hn').mp
    have ⟨more, hm, hf⟩ := exists_forall₂ h
    have hn : more.Nodup := .of_map Prod.fst (keys_of_forall₂ hf ▸ hn)
    have hl : f.values.length ≤ more.length := by
      have hl := (List.Nodup.subperm hn' hk).length_le
      rwa [keys, keys, ← keys_of_forall₂ hf, List.length_map, List.length_map] at hl
    exact ⟨more, ((List.Nodup.subperm hn hm).perm_of_length_le hl).symm, hf⟩

theorem nat_eq_ok_iff : f.nat key = .ok n ↔ n < 2 ^ 63 ∧ f.get key = .ok (.ofNat n) := by
  rw [nat, bind_eq_ok_iff]
  constructor
  case mp =>
    rintro ⟨v, hv, h⟩
    cases v
    case integer i =>
      simp only at h
      split at h
      case isTrue     => cases h
      case isFalse hi =>
        cases h
        have ⟨hn, hi⟩ := ofNat_of_not_neg hi
        exact ⟨hi, by rw [hv, Resp.ofNat, hn]⟩
    all_goals cases h
  case mpr =>
    rintro ⟨hn, h⟩
    refine ⟨_, h, ?_⟩
    rw [Resp.ofNat]
    simp only [not_neg_ofNat hn, if_false]
    rw [Int64.toInt_ofNat_of_lt hn, Int.toNat_natCast]

theorem bool_eq_ok_iff : f.bool key = .ok b ↔ f.get key = .ok (.ofBool b) := by
  rw [bool, bind_eq_ok_iff]
  constructor
  case mp =>
    rintro ⟨v, hv, h⟩
    cases v
    case integer i =>
      simp only at h
      split at h
      case isTrue hi => cases h; rw [hv, hi]; rfl
      case isFalse   =>
        split at h
        case isTrue hi => cases h; rw [hv, hi]; rfl
        case isFalse   => cases h
    all_goals cases h
  case mpr =>
    intro h
    cases b
    case false => exact ⟨_, h, rfl⟩
    case true  => exact ⟨_, h, rfl⟩

theorem bytes_eq_ok_iff : f.bytes key = .ok data ↔ f.get key = .ok (.bulk data) := by
  rw [bytes, bind_eq_ok_iff]
  constructor
  case mp  => rintro ⟨v, hv, h⟩; cases v <;> cases h; exact hv
  case mpr => exact fun h => ⟨_, h, rfl⟩

theorem string_eq_ok_iff : f.string key = .ok s ↔ f.get key = .ok (.ofString s) := by
  rw [string, bind_eq_ok_iff]
  constructor
  case mp =>
    rintro ⟨data, hd, h⟩
    split at h
    case h_1 t ht => cases h; rw [bytes_eq_ok_iff.mp hd, Bytes.text?_eq_some_iff.mp ht]; rfl
    case h_2      => cases h
  case mpr =>
    intro h
    refine ⟨_, bytes_eq_ok_iff.mpr h, ?_⟩
    rw [Bytes.text?_ofString]

theorem array_eq_ok_iff : f.array key = .ok vs ↔ f.get key = .ok (.array vs) := by
  rw [array, bind_eq_ok_iff]
  constructor
  case mp  => rintro ⟨v, hv, h⟩; cases v <;> cases h; exact hv
  case mpr => exact fun h => ⟨_, h, rfl⟩

end Fields

def Shuffled (R : String → Resp → Resp → Prop) (r w : Resp) : Prop :=
  ∃ f g : Fields, r = f.toResp ∧ w = g.toResp ∧ f.Matches R g

theorem shuffled_iff {R : String → Resp → Resp → Prop} {g : Fields} (hk : g.keys = known) (hn : known.Nodup) :
    Shuffled R r g.toResp ↔
      ∃ f, Fields.parse known r = .ok f ∧ ∀ q ∈ g.values, ∃ v, f.get q.1 = .ok v ∧ R q.1 v q.2 := by
  subst hk
  constructor
  case mp =>
    rintro ⟨f, g', hr, hg, hm⟩
    cases Fields.toResp_injective hg
    have ⟨hk, hn', h⟩ := (Fields.matches_iff hn).mp hm
    exact ⟨f, Fields.parse_eq_ok_iff.mpr ⟨hr, hk, hn'⟩, h⟩
  case mpr =>
    rintro ⟨f, hp, h⟩
    have ⟨hr, hk, hn'⟩ := Fields.parse_eq_ok_iff.mp hp
    exact ⟨f, g, hr, rfl, (Fields.matches_iff hn).mpr ⟨hk, hn', h⟩⟩

end RaftGroup.Frame
