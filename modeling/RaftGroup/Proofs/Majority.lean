import Mathlib.Data.List.Perm.Subperm
import Mathlib.Data.List.Nodup
import RaftGroup.Proofs.World

namespace RaftGroup

namespace Server

variable {s t u : Server} {ss : List Server}

theorem eq_of_order_eq (h : s.order t = .eq) : s = t := by
  cases s <;> cases t <;> simp only [order, reduceCtorEq] at h
  case peer.peer => exact congrArg peer (Std.LawfulEqOrd.eq_of_compare h)
  case me.me     => exact congrArg me (Std.LawfulEqOrd.eq_of_compare h)

theorem order_lt_trans (h : s.order t = .lt) (h' : t.order u = .lt) : s.order u = .lt := by
  cases s <;> cases t <;> cases u <;> simp only [order, reduceCtorEq] at h h' ⊢
  all_goals exact Std.TransCmp.lt_trans h h'

theorem order_self (s : Server) : s.order s = .eq := by
  cases s <;> simp [order]

theorem order_lt_of_gt (h : s.order t = .gt) : t.order s = .lt := by
  cases s <;> cases t <;> simp only [order, reduceCtorEq] at h ⊢
  all_goals exact Std.OrientedCmp.lt_of_gt h

theorem mem_insert_iff : u ∈ insert s ss ↔ u = s ∨ u ∈ ss := by
  induction ss
  case nil => simp [insert]
  case cons t ts hi =>
    rw [insert]
    split
    case h_1 => simp
    case h_2 h =>
      cases eq_of_order_eq h
      simp
    case h_3 =>
      simp [hi]
      exact or_left_comm

theorem mem_sort_iff : u ∈ sort ss ↔ u ∈ ss := by
  induction ss
  case nil => simp [sort]
  case cons s ss hi => exact mem_insert_iff.trans (by simp [← hi, sort])

theorem pairwise_insert (h : ss.Pairwise (order · · = .lt)) :
    (insert s ss).Pairwise (order · · = .lt) := by
  induction ss
  case nil => simp [insert]
  case cons t ts hi =>
    have ⟨ht, hts⟩ := List.pairwise_cons.mp h
    rw [insert]
    split
    case h_1 hlt =>
      refine List.pairwise_cons.mpr ⟨fun u hu => ?_, h⟩
      cases List.mem_cons.mp hu
      case inl hu => exact hu ▸ hlt
      case inr hu => exact order_lt_trans hlt (ht u hu)
    case h_2 => exact h
    case h_3 hgt =>
      refine List.pairwise_cons.mpr ⟨fun u hu => ?_, hi hts⟩
      cases mem_insert_iff.mp hu
      case inl hu => exact hu ▸ order_lt_of_gt hgt
      case inr hu => exact ht u hu

theorem nodup_sort (ss : List Server) : (sort ss).Nodup := by
  have h : (sort ss).Pairwise (order · · = .lt) := by
    induction ss
    case nil         => exact List.Pairwise.nil
    case cons s _ hi => exact pairwise_insert hi
  refine h.imp fun hlt he => ?_
  simp [he, order_self] at hlt

end Server

namespace Founding

variable {f : Founding} {i j : String} {P Q : String → Prop}

theorem mem_peers_world_iff (hi : i ∈ f.members) {s : Server} :
    s ∈ (f.world.engine i).peers ↔ ∃ j ∈ f.members, j ≠ i ∧ s = .peer j := by
  simp only [world, Engine.start, Server.mem_sort_iff, List.mem_map, List.mem_filter,
    decide_eq_true_eq, Server.asPeer]
  constructor
  · rintro ⟨p, ⟨hp, hn⟩, rfl⟩
    exact ⟨p.id, (f.mem_peers_iff i hi p.id).mp (.inr ⟨p, hp, rfl⟩), hn, rfl⟩
  · rintro ⟨j, hj, hn, rfl⟩
    have ⟨p, hp, he⟩ := ((f.mem_peers_iff i hi j).mpr hj).resolve_left hn
    exact ⟨p, ⟨hp, he ▸ hn⟩, he ▸ rfl⟩

theorem nodup_peers_world (f : Founding) (i : String) : (f.world.engine i).peers.Nodup :=
  Server.nodup_sort _

theorem peers_world_length (hi : i ∈ f.members) :
    (f.world.engine i).peers.length + 1 = f.members.length := by
  have hp : ((f.world.engine i).peers.map Server.id).Perm (f.members.erase i) := by
    refine (List.perm_ext_iff_of_nodup ?_ (f.nodup.erase i)).mpr fun j => ?_
    case refine_1 =>
      refine (f.nodup_peers_world i).map_on fun s hs t ht he => ?_
      have ⟨_, _, _, hs⟩ := (mem_peers_world_iff hi).mp hs
      have ⟨_, _, _, ht⟩ := (mem_peers_world_iff hi).mp ht
      simp_all [Server.id]
    case refine_2 =>
      simp only [List.mem_map, mem_peers_world_iff hi, f.nodup.mem_erase_iff]
      constructor
      · rintro ⟨_, ⟨j, hj, hn, rfl⟩, rfl⟩
        exact ⟨hn, hj⟩
      · rintro ⟨hn, hj⟩
        exact ⟨_, ⟨j, hj, hn, rfl⟩, rfl⟩
  have hl := hp.length_eq
  rw [List.length_map, List.length_erase_of_mem hi] at hl
  have := List.length_pos_of_mem hi
  omega

theorem lt_two_mul_quorum (hi : i ∈ f.members) :
    f.members.length < 2 * (f.world.engine i).quorum := by
  have hl := peers_world_length hi
  have hf := f.fits
  simp only [Engine.quorum, quorumSize]
  omega

def Most (f : Founding) (P : String → Prop) : Prop :=
  ∃ q : List String, q.Nodup ∧ q ⊆ f.members ∧ f.members.length < 2 * q.length ∧ ∀ i ∈ q, P i

theorem Most.meet : f.Most P → f.Most Q → ∃ i ∈ f.members, P i ∧ Q i
  | ⟨q₁, hn₁, hs₁, hl₁, hp⟩, ⟨q₂, hn₂, hs₂, hl₂, hq⟩ => by
    by_contra hc
    have hd : q₁.Disjoint q₂ := fun i h₁ h₂ => hc ⟨i, hs₁ h₁, hp i h₁, hq i h₂⟩
    have hl := (hn₁.append hn₂ hd).subperm (List.append_subset.mpr ⟨hs₁, hs₂⟩) |>.length_le
    rw [List.length_append] at hl
    omega

-- As many servers as a member takes for a majority are one, if it counts only itself and its peers.
theorem Most.of_servers (hi : i ∈ f.members) {vs : List Server} (hn : vs.Nodup)
    (hv : ∀ v ∈ vs, (v = .me i ∨ v ∈ (f.world.engine i).peers) ∧ P v.id)
    (hq : (f.world.engine i).quorum ≤ vs.length) : f.Most P := by
  have hs : ∀ v ∈ vs, v = .me i ∨ ∃ j ∈ f.members, j ≠ i ∧ v = .peer j :=
    fun v h => (hv v h).left.imp_right (mem_peers_world_iff hi).mp
  refine ⟨vs.map Server.id, hn.map_on fun v hv w hw he => ?_, fun j hj => ?_, ?_, fun j hj => ?_⟩
  case refine_1 =>
    obtain rfl | ⟨_, _, _, rfl⟩ := hs v hv <;> obtain rfl | ⟨_, _, _, rfl⟩ := hs w hw
    all_goals simp_all [Server.id]
  case refine_2 =>
    obtain ⟨v, hv, rfl⟩ := List.mem_map.mp hj
    obtain rfl | ⟨_, hm, _, rfl⟩ := hs v hv
    · exact hi
    · exact hm
  case refine_3 =>
    rw [List.length_map]
    exact Nat.lt_of_lt_of_le (lt_two_mul_quorum hi) (Nat.mul_le_mul_left 2 hq)
  case refine_4 =>
    obtain ⟨v, hm, rfl⟩ := List.mem_map.mp hj
    exact (hv v hm).right

end Founding
end RaftGroup
