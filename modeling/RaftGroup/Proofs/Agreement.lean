import RaftGroup.Proofs.Completeness

namespace RaftGroup

open Entries

theorem Replication.acknowledge_le (h : n ∈ oldest :: rest) : acknowledge oldest rest ≤ n := by
  induction rest generalizing oldest n
  case nil => exact Nat.le_of_eq (List.mem_singleton.mp h).symm
  case cons k rest hi =>
    rw [acknowledge, List.foldl_cons]
    have hm : acknowledge (min oldest k) rest ≤ min oldest k := hi (List.mem_cons_self ..)
    obtain rfl | rfl | h := by simpa using h
    · exact Nat.le_trans hm (Nat.min_le_left ..)
    · exact Nat.le_trans hm (Nat.min_le_right ..)
    · exact hi (List.mem_cons_of_mem _ h)

theorem Engine.role_of_unanswered? {e : Engine} (h : e.unanswered? s = some u) : e.role = .leader := by
  have ⟨_, h, _⟩ := Option.map_eq_some_iff.mp h
  rw [replication?] at h
  rw [role]
  split at h
  case h_1 he => rw [he]
  case h_2    => cases h

theorem Engine.credit?_eq_some {e : Engine} {l : Letter} (h : e.credit? l = some n) :
    l.message = ⟨e.term, .appendReply true⟩ ∧
    ∃ oldest rest, e.unanswered? (.peer l.sender) = some (oldest :: rest) ∧
      n = Replication.acknowledge oldest rest := by
  rw [credit?] at h
  split at h
  case isFalse => cases h
  case isTrue hm =>
    split at h
    case h_2 => cases h
    case h_1 oldest rest hu =>
      cases h
      exact ⟨hm, oldest, rest, hu, rfl⟩

def World.entryAt? (w : World) (i : String) (n : Nat) : Option Entry :=
  (w.engine i).storage.log.get? n

namespace Run

variable {r : Run}

-- Each reply of its own term that a leader reads answers a request that it has made itself in the term, and the last
-- position of the request is still among those of the unanswered ones.
def PairsSoundly (r : Run) : Prop :=
  ∀ t k p T success u, r.delivery? t = some (k, p) → p.letter.message = ⟨T, .appendReply success⟩ →
    (r.world t).Leads p.letter.receiver T →
    ((r.world t).engine p.letter.receiver).unanswered? (.peer p.letter.sender) = some u →
    ∃ q req, p.Answers (r.world t).post q ∧
      q.letter = ⟨p.letter.receiver, p.letter.sender, ⟨T, .appendRequest req⟩⟩ ∧ req.lastIndex ∈ u

theorem PairsSoundly.creditsSoundly (h : r.PairsSoundly) : r.CreditsSoundly := by
  intro t k p n hd _ hc
  obtain ⟨hm, oldest, rest, hu, rfl⟩ := Engine.credit?_eq_some hc
  obtain ⟨q, req, hq, he, hn⟩ := h t k p _ true _ hd hm ⟨Engine.role_of_unanswered? hu, rfl⟩ hu
  exact ⟨q, req, hq, by rw [he], Replication.acknowledge_le hn⟩

theorem entryAt?_of_isPrefix {w w' : World} {i j : String} (hp : (w.entries i).take c <+: w'.entries j)
    (hc : c ≤ (w.entries i).length) (h₀ : 0 < n) (hn : n ≤ c) :
    ∃ e, w.entryAt? i n = some e ∧ w'.entryAt? j n = some e := by
  obtain ⟨k, rfl⟩ : ∃ k, n = k + 1 := ⟨n - 1, by omega⟩
  have hk : k < (w.entries i).length := by omega
  have hi : (w.entries i)[k]? = some (w.entries i)[k] := List.getElem?_eq_getElem hk
  refine ⟨(w.entries i)[k], hi, prefix_getElem?_eq_some hp ?_⟩
  rwa [List.getElem?_take_of_lt (by omega)]

theorem commit_le_length (r : Run) (t : Nat) (i : String) :
    ((r.world t).engine i).commit ≤ ((r.world t).entries i).length := by
  have ⟨m, u, _, hu, _⟩ := Timeline.of_worlds r False False.elim t t
  have h := m.commit_le_length u i
  rwa [Timeline.gist_of_scene hu] at h

section

variable (hb : r.founding.Blank) (hs : r.CreditsSoundly)

include hb hs

theorem committed_isPrefix (hi : (r.world s).Leads i T) (hj : (r.world t).Leads j T') (hT : T < T') :
    ((r.world s).entries i).take ((r.world s).engine i).commit <+: (r.world t).entries j := by
  have ⟨m, u, v, hu, hv⟩ := Timeline.of_worlds r True (fun _ => hs) s t
  have hl := Timeline.Leads.of_world hu hi
  have h := Timeline.committed_isPrefix hb hl.mem (hl.right ▸ hT) (.of_world hv hj)
  rwa [Timeline.gist_of_scene hu, Timeline.gist_of_scene hv] at h

theorem committed_comparable (hi : i ∈ r.founding.members) (hj : j ∈ r.founding.members) :
    Comparable (((r.world s).entries i).take ((r.world s).engine i).commit)
      (((r.world t).entries j).take ((r.world t).engine j).commit) := by
  have ⟨m, u, v, hu, hv⟩ := Timeline.of_worlds r True (fun _ => hs) s t
  have h := Timeline.committed_comparable (s := u) (t := v) (m := m) hb hi hj
  rwa [Timeline.gist_of_scene hu, Timeline.gist_of_scene hv] at h

end

-- What a leader has committed is with all leaders of later terms, and no two members disagree on what is committed.
theorem log_safety (hb : r.founding.Blank) (hp : r.PairsSoundly) :
    (∀ s t i j T T', (r.world s).Leads i T → (r.world t).Leads j T' → T < T' →
      ∀ n, 0 < n → n ≤ ((r.world s).engine i).commit →
        ∃ e, (r.world s).entryAt? i n = some e ∧ (r.world t).entryAt? j n = some e) ∧
    (∀ s t, ∀ i ∈ r.founding.members, ∀ j ∈ r.founding.members,
      ∀ n, 0 < n → n ≤ min ((r.world s).engine i).commit ((r.world t).engine j).commit →
        ∃ e, (r.world s).entryAt? i n = some e ∧ (r.world t).entryAt? j n = some e) := by
  have hs := hp.creditsSoundly
  constructor
  case left =>
    intro s t i j T T' hi hj hT n h₀ hn
    exact entryAt?_of_isPrefix (committed_isPrefix hb hs hi hj hT) (r.commit_le_length s i) h₀ hn
  case right =>
    intro s t i hi j hj n h₀ hn
    cases committed_comparable (s := s) (t := t) hb hs hi hj
    case inl h =>
      exact entryAt?_of_isPrefix (h.trans (List.take_prefix ..)) (r.commit_le_length s i) h₀ (by omega)
    case inr h =>
      have ⟨e, he, he'⟩ := entryAt?_of_isPrefix (h.trans (List.take_prefix ..)) (r.commit_le_length t j) h₀ (by omega)
      exact ⟨e, he', he⟩

theorem handover_delivery? (hd : handover.delivery? t = some (k, p))
    (hm : p.letter.message = ⟨T, .appendReply success⟩) :
    (t = 6 ∧ p = ⟨⟨"b", "a", ⟨1, .appendReply true⟩⟩, some 2⟩) ∨
    (t = 14 ∧ p = ⟨⟨"a", "b", ⟨2, .appendReply true⟩⟩, some 6⟩) := by
  have ht : t < 16 := (List.getElem?_eq_some_iff.mp (delivery?_eq_some_iff.mp hd).left).choose
  have h : ∀ t < 16, ∀ x ∈ handover.delivery? t,
      (∃ success ∈ [true, false], x.2.letter.message.rpc = .appendReply success) →
      (t = 6 ∧ x.2 = ⟨⟨"b", "a", ⟨1, .appendReply true⟩⟩, some 2⟩) ∨
      (t = 14 ∧ x.2 = ⟨⟨"a", "b", ⟨2, .appendReply true⟩⟩, some 6⟩) := by decide +kernel
  exact h t ht (k, p) hd ⟨success, by cases success <;> simp, by rw [hm]⟩

theorem handover_pairsSoundly : handover.PairsSoundly := by
  intro t k p T success u hd hm _ hu
  obtain ⟨rfl, rfl⟩ | ⟨rfl, rfl⟩ := handover_delivery? hd hm
  case inl =>
    cases hm
    have hu' : ((handover.world 6).engine "a").unanswered? (.peer "b") = some [1] := by decide +kernel
    have hq : (handover.world 6).post[2]? =
        some ⟨⟨"a", "b", ⟨1, .appendRequest ⟨"a", 0, 0, 0, [⟨1, 1, .text [120]⟩]⟩⟩⟩, none⟩ := by decide +kernel
    cases hu'.symm.trans hu
    exact ⟨_, _, ⟨2, rfl, hq⟩, rfl, by decide⟩
  case inr =>
    cases hm
    have hu' : ((handover.world 14).engine "b").unanswered? (.peer "a") = some [2] := by decide +kernel
    have hq : (handover.world 14).post[6]? =
        some ⟨⟨"b", "a", ⟨2, .appendRequest ⟨"b", 1, 1, 0, [⟨2, 2, .text [121]⟩]⟩⟩⟩, none⟩ := by decide +kernel
    cases hu'.symm.trans hu
    exact ⟨_, _, ⟨6, rfl, hq⟩, rfl, by decide⟩

theorem log_safety_of_handover :
    handover.founding.Blank ∧ handover.PairsSoundly ∧
    (handover.world 7).Leads "a" 1 ∧ ((handover.world 7).engine "a").commit = 1 ∧
    (handover.world 11).Leads "b" 2 ∧ ((handover.world 16).engine "b").commit = 2 ∧
    (∃ e, (handover.world 7).entryAt? "a" 1 = some e ∧ (handover.world 11).entryAt? "b" 1 = some e) ∧
    (∃ e, (handover.world 7).entryAt? "a" 1 = some e ∧ (handover.world 16).entryAt? "b" 1 = some e) := by
  have h := log_safety Founding.fresh_blank handover_pairsSoundly
  have ha : (handover.world 7).Leads "a" 1 := by decide +kernel
  have hb : (handover.world 11).Leads "b" 2 := by decide +kernel
  have hc : ((handover.world 7).engine "a").commit = 1 := by decide +kernel
  have hc' : ((handover.world 16).engine "b").commit = 2 := by decide +kernel
  refine ⟨Founding.fresh_blank, handover_pairsSoundly, ha, hc, hb, hc', ?_, ?_⟩
  · exact h.left 7 11 "a" "b" 1 2 ha hb (by decide) 1 (by decide) (Nat.le_of_eq hc.symm)
  · exact h.right 7 16 "a" (by decide) "b" (by decide) 1 (by decide) (by rw [hc, hc']; decide)

theorem handed_succ (r : Run) (t : Nat) (i : String) :
    r.handed (t + 1) i = r.handed t i ++ (r.actions[t]?.map (r.taken (r.world t) i)).getD [] := by
  rw [handed, List.range_succ, List.flatMap_append, List.flatMap_singleton, handed]

theorem taken_eq_nil {t : Nat}
    (h : ∀ j limit, r.actions[t]? = some (.command j (.take limit)) → j = i → j ∉ r.founding.members) :
    (r.actions[t]?.map (r.taken w i)).getD [] = [] := by
  cases ha : r.actions[t]?
  case none   => rfl
  case some a =>
    rw [Option.map_some, Option.getD_some]
    cases a
    case deliver => rfl
    case command j c =>
      cases c
      case take limit => exact if_neg fun ⟨he, hi⟩ => h j limit ha he hi
      all_goals rfl

structure HandsOut (e : Engine) (es : List Entry) : Prop where
  eq : es = e.storage.log.entries.take e.applied
  le : e.applied ≤ e.commit

theorem HandsOut.moves {e e' : Engine} (h : HandsOut e es) (hm : Gist.Moves sound post e.gist e'.gist)
    (hl : e.commit ≤ e.storage.log.entries.length) : HandsOut e' es := by
  have ha : e'.applied = e.applied := hm.taken
  have hk : e'.storage.log.entries.take e.commit = e.storage.log.entries.take e.commit := (hm.evolves.keeps hl).right
  refine ⟨?_, ha ▸ Nat.le_trans h.le hm.evolves.commit⟩
  rw [h.eq, ha, ← Nat.min_eq_left h.le, ← List.take_take, ← hk, List.take_take]

theorem HandsOut.take {e : Engine} (h : HandsOut e es) (limit : Nat) :
    HandsOut (e.takeCommitted limit).2 (es ++ (e.takeCommitted limit).1) := by
  have ⟨hg, ha, he⟩ := Engine.takeCommitted_spec limit e
  have hl : (e.takeCommitted limit).2.storage.log.entries = e.storage.log.entries := congrArg Gist.log hg
  have hc : (e.takeCommitted limit).2.commit = e.commit := congrArg Gist.commit hg
  refine ⟨by rw [h.eq, he, hl], ?_⟩
  rw [hc]
  exact Nat.le_trans ha (Nat.max_le.mpr ⟨h.le, Nat.le_refl _⟩)

theorem HandsOut.acts {e e' : Engine} (h : HandsOut e es) (ha : e.Acts False post cause (e', os))
    (hl : e.commit ≤ e.storage.log.entries.length) : HandsOut e' es := by
  obtain ⟨_, hb, hm, _⟩ := ha.turn
  exact h.moves (hb.trans hm) hl

theorem HandsOut.obeyed {w : World} (h : HandsOut (w.engine i) es) (hi : i ∈ r.founding.members)
    (hl : (w.engine i).commit ≤ (w.entries i).length) (ho : (w.engine i).obey c = .ok (e, os)) :
    HandsOut e (es ++ r.taken w i (.command i c)) := by
  cases c
  case take limit =>
    cases ho
    rw [taken, if_pos ⟨rfl, hi⟩]
    exact h.take limit
  all_goals
    have ha : (w.engine i).Acts False w.post none (e, os) := Engine.obey_acts ho nofun
    change HandsOut e (es ++ [])
    exact (List.append_nil es).symm ▸ h.acts ha hl

theorem handsOut (hb : r.founding.Blank) (hi : i ∈ r.founding.members) (t : Nat) :
    HandsOut ((r.world t).engine i) (r.handed t i) := by
  induction t
  case zero =>
    have hs : ((r.world 0).engine i).storage = {} := hb i hi
    exact ⟨by simp [handed, Engine.applied, hs], by simp [Engine.applied, hs]⟩
  case succ t ih =>
    rw [handed_succ]
    have hl := r.commit_le_length t i
    have h := r.step_world t
    generalize r.world (t + 1) = w at h
    cases h
    case idle hk =>
      rw [taken_eq_nil fun j limit ha _ => hk j limit ha, List.append_nil]
      exact ih
    case heard k p out _ hd ho =>
      obtain ⟨e, os⟩ := out
      obtain ⟨ha, hp⟩ := delivery?_eq_some_iff.mp hd
      rw [taken_eq_nil (by simp [ha]), List.append_nil]
      by_cases hij : i = p.letter.receiver
      case neg => rw [World.record_engine_of_ne _ hij]; exact ih
      case pos =>
        rw [hij, World.record_engine_self]
        exact .acts (hij ▸ ih) (Engine.hear_acts hp (r.world_id t _).symm False.elim ho) (hij ▸ hl)
    case obeyed j c out _ ha ho =>
      obtain ⟨e, os⟩ := out
      by_cases hij : i = j
      case pos =>
        subst hij
        rw [World.record_engine_self, ha]
        exact ih.obeyed hi hl ho
      case neg =>
        rw [World.record_engine_of_ne _ hij, taken_eq_nil, List.append_nil]
        · exact ih
        · intro _ _ ha' he
          cases ha.symm.trans ha'
          exact absurd he.symm hij

theorem consecutive_handed (hb : r.founding.Blank) (hi : i ∈ r.founding.members) (t : Nat) :
    Consecutive 0 (r.handed t i) := by
  have ⟨m, u, _, hu, _⟩ := Timeline.of_worlds r False False.elim t t
  have h := (Timeline.orderly (m := m) hb u hi).sound.index
  rw [Timeline.gist_of_scene hu] at h
  rw [(handsOut hb hi t).eq]
  exact fun n e hn => h n e (prefix_getElem?_eq_some (List.take_prefix ..) hn)

-- Provided that followers are credited soundly, any two members hand out the same entries in the same order, and no two
-- entries at one position.
theorem handed_agree (hb : r.founding.Blank) (hs : r.CreditsSoundly) :
    ∀ s t, ∀ i ∈ r.founding.members, ∀ j ∈ r.founding.members,
      Comparable (r.handed s i) (r.handed t j) ∧
        ∀ e ∈ r.handed s i, ∀ e' ∈ r.handed t j, e.index = e'.index → e = e' := by
  intro s t i hi j hj
  have hc : Comparable (r.handed s i) (r.handed t j) := by
    have hi' := handsOut hb hi s
    have hj' := handsOut hb hj t
    rw [hi'.eq, hj'.eq]
    exact (committed_comparable hb hs hi hj).of_isPrefix (List.take_prefix_take_left hi'.le)
      (List.take_prefix_take_left hj'.le)
  refine ⟨hc, fun e he e' he' h => ?_⟩
  have ⟨n, hn⟩ := List.mem_iff_getElem?.mp he
  have ⟨n', hn'⟩ := List.mem_iff_getElem?.mp he'
  have hx := consecutive_handed hb hi s n e hn
  have hx' := consecutive_handed hb hj t n' e' hn'
  obtain rfl : n = n' := by omega
  cases hc
  case inl hp => exact Option.some.inj ((prefix_getElem?_eq_some hp hn).symm.trans hn')
  case inr hp => exact Option.some.inj (hn.symm.trans (prefix_getElem?_eq_some hp hn'))

theorem handed_agree_of_handover :
    handover.founding.Blank ∧ handover.CreditsSoundly ∧
    handover.handed 8 "a" = [⟨1, 1, .text [120]⟩] ∧
    handover.handed 16 "b" = [⟨1, 1, .text [120]⟩, ⟨2, 2, .text [121]⟩] ∧
    Comparable (handover.handed 8 "a") (handover.handed 16 "b") :=
  ⟨Founding.fresh_blank, handover_pairsSoundly.creditsSoundly, by decide +kernel, by decide +kernel,
    (handed_agree Founding.fresh_blank handover_pairsSoundly.creditsSoundly 8 16 "a" (by decide) "b" (by decide)).left⟩

-- `b` rejects a request that `a` has made in term 1 when both of them are in term 3 already. As the leader of term 3
-- `a` takes that for the reply to its first request there, and each later reply for one to the request after its own.
-- In the end it credits `b` with an entry on the reply to a request without entries.
def strayReply : Run where
  founding := .fresh ["a", "b", "c"] (by decide) (by decide) {}
  actions  := [
    .command "a" .timeout, .deliver 1, .deliver 2, .command "a" (.replicate (.peer "b")),
    .command "b" .timeout, .command "b" .timeout, .command "b" .timeout, .deliver 3,
    .command "c" .timeout, .deliver 11, .command "a" .timeout, .deliver 15, .deliver 16,
    .command "a" (.replicate (.peer "b")), .deliver 10, .command "a" (.replicate (.peer "b")),
    .deliver 17, .deliver 19, .command "a" (.submit (.text [120])),
    .command "a" (.replicate (.peer "b")), .deliver 18, .deliver 21, .command "a" (.take 1),
    .command "b" .timeout, .deliver 23, .deliver 24, .command "b" (.submit (.text [121])),
    .command "b" (.replicate (.peer "c")), .deliver 25, .deliver 26, .command "b" (.take 1)]

-- Without sound credits, then, members hand out different entries at one position.
theorem strayReply_handed :
    strayReply.founding.Blank ∧
    ∃ e ∈ strayReply.handed 31 "a", ∃ e' ∈ strayReply.handed 31 "b", e.index = e'.index ∧ e ≠ e' := by
  have ha : strayReply.handed 31 "a" = [⟨3, 1, .text [120]⟩] := by decide +kernel
  have hb : strayReply.handed 31 "b" = [⟨4, 1, .text [121]⟩] := by decide +kernel
  rw [ha, hb]
  exact ⟨Founding.fresh_blank, _, List.mem_singleton_self _, _, List.mem_singleton_self _, rfl, by decide⟩

end Run
end RaftGroup
