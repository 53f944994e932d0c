import Mathlib.Order.Monotone.Basic
import RaftGroup.Proofs.Acts
import RaftGroup.Proofs.Majority

namespace RaftGroup

open Gist

structure Scene where
  member : String → Gist
  post : List Posted

def World.scene (w : World) : Scene :=
  ⟨fun i => (w.engine i).gist, w.post⟩

namespace Scene

def set (s : Scene) (i : String) (g : Gist) : Scene :=
  { s with member := Function.update s.member i g }

@[simp]
theorem set_member_self (s : Scene) (i : String) (g : Gist) : (s.set i g).member i = g :=
  Function.update_self ..

theorem set_member_of_ne (s : Scene) (h : j ≠ i) (g : Gist) : (s.set i g).member j = s.member j :=
  Function.update_of_ne h ..

@[simp]
theorem set_member (s : Scene) (i : String) : s.set i (s.member i) = s := by
  rw [set, Function.update_eq_self]

@[simp]
theorem set_set (s : Scene) (i : String) (g g' : Gist) : (s.set i g).set i g' = s.set i g' := by
  simp [set]

end Scene

theorem World.record_scene (w : World) (i : String) (cause : Option Nat) (e : Engine) (os : List Outgoing) :
    (w.record i cause (.ok (e, os))).scene =
      { w.scene.set i e.gist with post := w.post ++ (os.flatMap (Group.letters e i)).map (⟨·, cause⟩) } := by
  simp only [scene, record, Scene.set, Scene.mk.injEq, and_true]
  exact funext fun j => Function.apply_update (fun _ => Engine.gist) ..

inductive Change (f : Founding) (sound : Prop) (s : Scene) : Scene → Prop
  | idle : Change f sound s s
  | move (mem : i ∈ f.members) (move : Move sound s.post (s.member i) g) : Change f sound s (s.set i g)
  | take (mem : i ∈ f.members) : Change f sound s (s.set i { s.member i with taken := n })
  | say (mem : i ∈ f.members) (truth : ∀ p ∈ ps, (s.member i).Says s.post p) :
    Change f sound s { s with post := s.post ++ ps }

def Changes (f : Founding) (sound : Prop) : Scene → Scene → Prop :=
  Relation.ReflTransGen (Change f sound)

-- From some moment on it can stand still.
structure Timeline (f : Founding) (sound : Prop) where
  scene : Nat → Scene
  zero : scene 0 = f.world.scene
  next : ∀ t, Change f sound (scene t) (scene (t + 1))

namespace Change

variable {f : Founding} {sound : Prop} {s s' : Scene} {i : String}

theorem member (h : Change f sound s s') (i : String) :
    (∃ n, s'.member i = { s.member i with taken := n }) ∨
    (i ∈ f.members ∧ Move sound s.post (s.member i) (s'.member i)) := by
  cases h
  case idle     => exact .inl ⟨_, rfl⟩
  case say      => exact .inl ⟨_, rfl⟩
  case take j n hj =>
    by_cases hi : i = j
    case pos => subst hi; exact .inl ⟨n, s.set_member_self ..⟩
    case neg => exact .inl ⟨(s.member i).taken, s.set_member_of_ne hi _⟩
  case move j g hj hm =>
    by_cases hi : i = j
    case pos => subst hi; exact .inr ⟨hj, by rwa [s.set_member_self]⟩
    case neg => exact .inl ⟨(s.member i).taken, s.set_member_of_ne hi _⟩

theorem evolves (h : Change f sound s s') (i : String) : (s.member i).Evolves (s'.member i) := by
  cases h.member i
  case inl h =>
    have ⟨n, h⟩ := h
    rw [h]
    exact .of_log_eq rfl rfl rfl rfl (Nat.le_refl _) (fun _ _ => rfl) (fun _ h => h) (fun _ h => h)
  case inr h => exact h.right.evolves

theorem post_mono (h : Change f sound s s') : s.post <+: s'.post := by
  cases h
  case say => exact List.prefix_append ..
  all_goals exact List.prefix_refl _

theorem said (h : Change f sound s s') (hp : p ∈ s'.post) :
    p ∈ s.post ∨ ∃ i ∈ f.members, (s.member i).Says s.post p := by
  cases h
  case say i ps hi hs => exact (List.mem_append.mp hp).imp_right fun hp => ⟨i, hi, hs p hp⟩
  all_goals exact .inl hp

end Change

namespace Changes

variable {f : Founding} {sound : Prop} {w w' : World} {i : String}

theorem evolves {s s' : Scene} (h : Changes f sound s s') (i : String) : (s.member i).Evolves (s'.member i) := by
  induction h
  case refl         => exact .refl _
  case tail _ hc hi => exact hi.trans (hc.evolves i)

theorem post_mono {s s' : Scene} (h : Changes f sound s s') : s.post <+: s'.post := by
  induction h
  case refl         => exact List.prefix_refl _
  case tail _ hc hi => exact hi.trans hc.post_mono

theorem of_moves {s : Scene} (hi : i ∈ f.members) (h : Moves sound s.post (s.member i) g) :
    Changes f sound s (s.set i g) := by
  induction h
  case refl              => rw [s.set_member]; exact .refl
  case tail g g' _ hm hc => exact hc.tail (s.set_set i g g' ▸ .move hi (by rwa [s.set_member_self]))

theorem of_acts (hi : i ∈ f.members) (he : (w.engine i).id = i)
    (h : (w.engine i).Acts sound w.post cause (e, os)) :
    Changes f sound w.scene (w.record i cause (.ok (e, os))).scene := by
  have ⟨g, hb, ha, hs⟩ := h.turn
  let ps := (os.flatMap (Group.letters e i)).map (⟨·, cause⟩ : Letter → Posted)
  let s : Scene := { w.scene.set i g with post := w.post ++ ps }
  have hp : ∀ p ∈ ps, ((w.scene.set i g).member i).Says w.post p := by
    intro p hp
    obtain ⟨l, hl, rfl⟩ := List.mem_map.mp hp
    have ⟨o, ho, hl⟩ := List.mem_flatMap.mp hl
    rw [w.scene.set_member_self]
    exact hs o ho l (by rwa [he])
  have hm : Moves sound s.post (s.member i) e.gist :=
    (w.scene.set_member_self i g).symm ▸ ha.mono (List.prefix_append ..)
  rw [World.record_scene, ← w.scene.set_set i g]
  exact .trans (.tail (of_moves hi hb) (.say hi hp)) (of_moves hi hm)

end Changes

inductive Happens (f : Founding) (sound : Prop) (w : World) : World → Prop
  | idle : Happens f sound w w
  | take (mem : i ∈ f.members) :
    Happens f sound w (w.record i none (.ok (((w.engine i).takeCommitted limit).2, [])))
  | turn (mem : i ∈ f.members) (acts : (w.engine i).Acts sound w.post cause (e, os)) :
    Happens f sound w (w.record i cause (.ok (e, os)))

theorem Happens.changes {f : Founding} {sound : Prop} {w w' : World} (h : Happens f sound w w')
    (he : ∀ i, (w.engine i).id = i) : Changes f sound w.scene w'.scene := by
  cases h
  case idle            => exact .refl
  case turn hi ha      => exact .of_acts hi (he _) ha
  case take i limit hi =>
    have hg := (Engine.takeCommitted_spec limit (w.engine i)).left
    rw [World.record_scene, hg, List.flatMap_nil, List.map_nil, List.append_nil]
    exact .single (.take hi)

namespace Run

variable {r : Run} {sound : Prop}

-- Each success of its own term that a leader reads credits the follower with no more than what the request that it
-- answers is about.
def CreditsSoundly (r : Run) : Prop :=
  ∀ t k p n, r.delivery? t = some (k, p) → p.letter.receiver ∈ r.founding.members →
    ((r.world t).engine p.letter.receiver).credit? p.letter = some n →
    ∃ q req, p.Answers (r.world t).post q ∧ q.letter.message.rpc = .appendRequest req ∧ n ≤ req.lastIndex

inductive Step (r : Run) (t : Nat) : World → Prop
  | idle (keeps : ∀ i limit, r.actions[t]? = some (.command i (.take limit)) → i ∉ r.founding.members) :
    Step r t (r.world t)
  | obeyed (mem : i ∈ r.founding.members) (action : r.actions[t]? = some (.command i c))
      (ok : ((r.world t).engine i).obey c = .ok out) :
    Step r t ((r.world t).record i none (.ok out))
  | heard (mem : p.letter.receiver ∈ r.founding.members) (delivery : r.delivery? t = some (k, p))
      (ok : ((r.world t).engine p.letter.receiver).hear p.letter = .ok out) :
    Step r t ((r.world t).record p.letter.receiver (some k) (.ok out))

theorem step_world (r : Run) (t : Nat) : r.Step t (r.world (t + 1)) := by
  cases ha : r.actions[t]?
  case none => exact world_succ_of_none ha ▸ .idle (by simp [ha])
  case some a =>
    rw [world_succ ha]
    cases a
    case command i c =>
      rw [Founding.step]
      split
      case isFalse hi =>
        refine .idle fun j limit h => ?_
        cases ha.symm.trans h
        exact hi
      case isTrue hi =>
        cases ho : ((r.world t).engine i).obey c
        case ok => exact .obeyed hi ha ho
        case error =>
          refine .idle fun j limit h => ?_
          cases ha.symm.trans h
          cases ho
    case deliver k =>
      rw [Founding.step]
      split
      case h_1 => exact .idle (by simp [ha])
      case h_2 p hp =>
        dsimp only
        split
        case isFalse => exact .idle (by simp [ha])
        case isTrue hi =>
          cases ho : ((r.world t).engine p.letter.receiver).hear p.letter
          case error => exact .idle (by simp [ha])
          case ok    => exact .heard hi (delivery?_eq_some_iff.mpr ⟨ha, hp⟩) ho

theorem happens_succ (hs : sound → r.CreditsSoundly) (he : ∀ i, ((r.world t).engine i).id = i) :
    Happens r.founding sound (r.world t) (r.world (t + 1)) := by
  have h := r.step_world t
  generalize r.world (t + 1) = w at h
  cases h
  case idle => exact .idle
  case heard k p out hi hd ho =>
    have hp := (delivery?_eq_some_iff.mp hd).right
    exact .turn hi (Engine.hear_acts hp (he _).symm (fun h n hn => hs h t k p n hd hi hn) ho)
  case obeyed i c out hi ha ho =>
    cases c
    case take => cases ho; exact .take hi
    all_goals exact .turn hi (Engine.obey_acts ho nofun)

theorem changes_world (hs : sound → r.CreditsSoundly) (t : Nat) :
    Changes r.founding sound r.founding.world.scene (r.world t).scene := by
  induction t
  case zero      => exact .refl
  case succ t hc =>
    have he := fun i => (hc.evolves i).id
    exact hc.trans ((happens_succ hs he).changes he)

theorem world_id (r : Run) (t : Nat) (i : String) : ((r.world t).engine i).id = i :=
  ((changes_world (fun h : False => h.elim) t).evolves i).id

theorem changes (r : Run) (h : s ≤ t) : Changes r.founding False (r.world s).scene (r.world t).scene := by
  induction h
  case refl        => exact .refl
  case step t _ hc => exact hc.trans ((happens_succ False.elim (r.world_id t)).changes (r.world_id t))

theorem evolves (r : Run) (i : String) (h : s ≤ t) :
    ((r.world s).engine i).gist.Evolves ((r.world t).engine i).gist :=
  (r.changes h).evolves i

theorem post_mono (r : Run) (h : s ≤ t) : (r.world s).post <+: (r.world t).post :=
  (r.changes h).post_mono

end Run

namespace Timeline

variable {f : Founding} {sound : Prop}

section

variable (m : Timeline f sound)

abbrev gist (t : Nat) (i : String) : Gist :=
  (m.scene t).member i

theorem rank_zero (i : String) : (m.gist 0 i).rank = .follower none := by
  rw [gist, m.zero]
  rfl

theorem gist_succ (t : Nat) (i : String) :
    (∃ n, m.gist (t + 1) i = { m.gist t i with taken := n }) ∨
    (i ∈ f.members ∧ Move sound (m.scene t).post (m.gist t i) (m.gist (t + 1) i)) :=
  (m.next t).member i

theorem writes (t : Nat) (i : String) :
    (m.gist t i).Writes (m.scene t).post (m.gist (t + 1) i) := by
  cases m.gist_succ t i
  case inr h => exact h.right.writes
  case inl h =>
    have ⟨n, h⟩ := h
    exact .kept (by rw [h])

theorem commits (t : Nat) (i : String) :
    (m.gist t i).Commits (m.scene t).post (m.gist (t + 1) i) := by
  cases m.gist_succ t i
  case inr h => exact h.right.commits
  case inl h =>
    have ⟨n, h⟩ := h
    exact .kept (by rw [h])

theorem evolves (i : String) (h : s ≤ t) : (m.gist s i).Evolves (m.gist t i) := by
  induction h
  case refl      => exact .refl _
  case step t _ hi => exact hi.trans ((m.next t).evolves i)

theorem post_mono (h : s ≤ t) : (m.scene s).post <+: (m.scene t).post := by
  induction h
  case refl      => exact List.prefix_refl _
  case step t _ hi => exact hi.trans (m.next t).post_mono

theorem id_eq (t : Nat) (i : String) : (m.gist t i).id = i :=
  (m.evolves i (Nat.zero_le t)).id.trans (by rw [gist, m.zero]; rfl)

theorem commit_zero (i : String) : (m.gist 0 i).commit = 0 := by
  rw [gist, m.zero]
  rfl

theorem commit_le_length (t : Nat) (i : String) : (m.gist t i).commit ≤ (m.gist t i).log.length :=
  ((m.evolves i (Nat.zero_le t)).keeps (by rw [m.commit_zero]; exact Nat.zero_le _)).left

theorem peers_eq (t : Nat) (i : String) : (m.gist t i).peers = (f.world.engine i).peers :=
  (m.evolves i (Nat.zero_le t)).peers.trans (by rw [gist, m.zero]; rfl)

variable {m} in
theorem gist_of_scene {w : World} (h : m.scene t = w.scene) (i : String) : m.gist t i = (w.engine i).gist := by
  rw [gist, h]
  rfl

theorem said (hp : p ∈ (m.scene t).post) :
    ∃ s < t, p.letter.sender ∈ f.members ∧ (m.gist s p.letter.sender).Says (m.scene s).post p := by
  induction t
  case zero => simp [m.zero, World.scene, Founding.world] at hp
  case succ t hi =>
    cases (m.next t).said hp
    case inl hp =>
      obtain ⟨s, hs, h⟩ := hi hp
      exact ⟨s, Nat.lt_succ_of_lt hs, h⟩
    case inr hs =>
      obtain ⟨i, hi, hs⟩ := hs
      have he : p.letter.sender = i := hs.sender.trans (m.id_eq t i)
      exact ⟨t, Nat.lt_succ_self t, he ▸ hi, he ▸ hs⟩

theorem told (h : (m.gist t i).Told (m.scene t).post j rpc) :
    ∃ p ∈ (m.scene t).post, p.letter = ⟨j, i, ⟨(m.gist t i).term, rpc⟩⟩ ∧
      ∃ s < t, j ∈ f.members ∧ (m.gist s j).Says (m.scene s).post p := by
  have ⟨p, hp, hl⟩ := h
  rw [m.id_eq] at hl
  have hs := m.said hp
  rw [hl] at hs
  exact ⟨p, hp, hl, hs⟩

end

def still (f : Founding) (sound : Prop) : Timeline f sound :=
  ⟨fun _ => f.world.scene, rfl, fun _ => .idle⟩

theorem extend {s : Scene} (m : Timeline f sound) (k : Nat) (h : Changes f sound (m.scene k) s) :
    ∃ m' : Timeline f sound, (∀ t ≤ k, m'.scene t = m.scene t) ∧ ∃ l ≥ k, m'.scene l = s := by
  induction h
  case refl => exact ⟨m, fun _ _ => rfl, k, Nat.le_refl k, rfl⟩
  case tail s s' _ hc hi =>
    have ⟨m', hm, l, hl, hs⟩ := hi
    let m'' : Timeline f sound := {
      scene t := if t ≤ l then m'.scene t else s'
      zero    := m'.zero
      next t  := by
        by_cases ht : t + 1 ≤ l
        case pos => simpa only [ht, Nat.le_of_succ_le ht, if_true] using m'.next t
        case neg =>
          rw [if_neg ht]
          split
          case isFalse   => exact .idle
          case isTrue hl =>
            obtain rfl : t = l := by omega
            exact hs ▸ hc }
    refine ⟨m'', fun t ht => ?_, l + 1, Nat.le_succ_of_le hl, ?_⟩
    case refine_1 => exact (if_pos (Nat.le_trans ht hl)).trans (hm t ht)
    case refine_2 => exact if_neg (Nat.not_succ_le_self l)

-- There is a timeline on which all worlds lie that a run comes to up to some time.
theorem of_run (r : Run) (sound : Prop) (hs : sound → r.CreditsSoundly) (n : Nat) :
    ∃ (m : Timeline r.founding sound) (k : Nat), m.scene k = (r.world n).scene ∧
      ∀ t ≤ n, ∃ u ≤ k, m.scene u = (r.world t).scene := by
  induction n
  case zero =>
    refine ⟨still r.founding sound, 0, rfl, fun t ht => ⟨0, Nat.le_refl 0, ?_⟩⟩
    cases Nat.le_zero.mp ht
    rfl
  case succ n hi =>
    have ⟨m, k, hk, hm⟩ := hi
    have hc := (Run.happens_succ hs (r.world_id n)).changes (r.world_id n)
    have ⟨m', he, l, hl, hs⟩ := m.extend k (hk ▸ hc)
    refine ⟨m', l, hs, fun t ht => ?_⟩
    cases Nat.le_succ_iff.mp ht
    case inr ht => exact ⟨l, Nat.le_refl l, ht ▸ hs⟩
    case inl ht =>
      have ⟨u, hu, h⟩ := hm t ht
      exact ⟨u, Nat.le_trans hu hl, (he u hu).trans h⟩

theorem of_worlds (r : Run) (sound : Prop) (hs : sound → r.CreditsSoundly) (s t : Nat) :
    ∃ (m : Timeline r.founding sound) (u v : Nat), m.scene u = (r.world s).scene ∧ m.scene v = (r.world t).scene :=
  have ⟨m, _, _, hm⟩ := of_run r sound hs (max s t)
  have ⟨u, _, hu⟩ := hm s (Nat.le_max_left ..)
  have ⟨v, _, hv⟩ := hm t (Nat.le_max_right ..)
  ⟨m, u, v, hu, hv⟩

end Timeline
end RaftGroup
