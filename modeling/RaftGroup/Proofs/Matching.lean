import RaftGroup.Proofs.Election

namespace RaftGroup

open Entries Gist

namespace Timeline

variable {f : Founding} {sound : Prop} {m : Timeline f sound} {es es' : List Entry}

-- A leader of the term had the log at some time.
def Led (m : Timeline f sound) (t T : Nat) (es : List Entry) : Prop :=
  ∃ s ≤ t, ∃ i, m.Leads s i T ∧ (m.gist s i).log = es

theorem Leads.led (h : m.Leads t i T) : m.Led t T (m.gist t i).log :=
  ⟨t, Nat.le_refl t, i, h, rfl⟩

theorem Led.mono (ht : t ≤ t') : m.Led t T es → m.Led t' T es
  | ⟨s, hs, h⟩ => ⟨s, Nat.le_trans hs ht, h⟩

theorem Led.comparable (h : m.Led t T es) (h' : m.Led t' T es') : Comparable es es' := by
  obtain ⟨s, _, i, hl, rfl⟩ := h
  obtain ⟨s', _, j, hl', rfl⟩ := h'
  obtain rfl := leader_unique hl hl'
  cases Nat.le_total s s'
  case inl hs => exact .inl ((m.evolves i hs).grows (hl'.right.trans hl.right.symm) (by rw [hl'.left]; decide))
  case inr hs => exact .inr ((m.evolves i hs).grows (hl.right.trans hl'.right.symm) (by rw [hl.left]; decide))

-- A log that leaders have made.
structure Sound (m : Timeline f sound) (t : Nat) (es : List Entry) : Prop where
  index  : Consecutive 0 es
  sorted : ∀ k n a b, k ≤ n → term? es k = some a → term? es n = some b → a ≤ b
  led    : ∀ n T, term? es n = some T → ∃ log, m.Led t T log ∧ es.take (n + 1) <+: log

namespace Sound

theorem nil : m.Sound t [] where
  index  := nofun
  sorted := nofun
  led    := nofun

theorem mono (ht : t ≤ t') (h : m.Sound t es) : m.Sound t' es where
  index  := h.index
  sorted := h.sorted
  led    := fun n T hn =>
    have ⟨log, hl, hp⟩ := h.led n T hn
    ⟨log, hl.mono ht, hp⟩

theorem of_isPrefix (h : m.Sound t es') (hp : es <+: es') : m.Sound t es where
  index  := fun n e hn => h.index n e (prefix_getElem?_eq_some hp hn)
  sorted := fun k n a b hk ha hb => h.sorted k n a b hk (prefix_term?_eq_some hp ha) (prefix_term?_eq_some hp hb)
  led    := fun n T hn =>
    have ⟨log, hl, hp'⟩ := h.led n T (prefix_term?_eq_some hp hn)
    have ht := List.prefix_take_iff.mpr ⟨(List.take_prefix (n + 1) es).trans hp, List.length_take_le ..⟩
    ⟨log, hl, ht.trans hp'⟩

theorem concat {e : Entry} (h : m.Sound t es) (hi : e.index = es.length + 1)
    (ht : ∀ n T, term? es n = some T → T ≤ e.term) (hl : m.Led t e.term (es ++ [e])) : m.Sound t (es ++ [e]) where
  index n e' hn := by
    by_cases hl : n < es.length
    case pos => exact h.index n e' (by rwa [List.getElem?_append_left hl] at hn)
    case neg =>
      have := (List.getElem?_eq_some_iff.mp hn).choose
      rw [List.length_append, List.length_singleton] at this
      obtain rfl : n = es.length := by omega
      rw [List.getElem?_concat_length] at hn
      cases hn
      omega
  sorted k n a b hk ha hb := by
    cases term?_concat ha <;> cases term?_concat hb
    case inl.inl ha hb => exact h.sorted k n a b hk ha hb
    case inl.inr ha hb => exact hb.right ▸ ht k a ha
    case inr.inl ha hb =>
      have := lt_length_of_term? hb
      omega
    case inr.inr ha hb => exact Nat.le_of_eq (ha.right.symm.trans hb.right)
  led n T hn := by
    cases term?_concat hn
    case inl hn =>
      have ⟨log, hl, hp⟩ := h.led n T hn
      rw [List.take_append_of_le_length (lt_length_of_term? hn)]
      exact ⟨log, hl, hp⟩
    case inr hn => exact ⟨_, hn.right ▸ hl, List.take_prefix ..⟩

theorem take_eq (h : m.Sound t es) (h' : m.Sound t' es') (he : Ends es n T) (he' : Ends es' n T) :
    es.take n = es'.take n := by
  cases n
  case zero => rfl
  case succ n =>
    have ⟨_, hl, hp⟩ := h.led n T he
    have ⟨_, hl', hp'⟩ := h'.led n T he'
    have hn : (es.take (n + 1)).length = (es'.take (n + 1)).length := by
      rw [List.length_take_of_le he.le_length, List.length_take_of_le he'.le_length]
    exact ((hl.comparable hl').of_isPrefix hp hp').prefix_of_length_le (Nat.le_of_eq hn) |>.eq_of_length hn

end Sound

-- A member's log is sound, and has nothing of a later term. Whoever stands for a term has nothing of that term either.
structure Orderly (m : Timeline f sound) (t : Nat) (g : Gist) : Prop where
  sound  : m.Sound t g.log
  bound  : ∀ n T, term? g.log n = some T → T ≤ g.term
  stands : g.role = .candidate → ∀ n T, term? g.log n = some T → T < g.term

theorem Orderly.lastTerm_lt {g : Gist} (h : m.Orderly t g) (hr : g.role = .candidate) (ht : 0 < g.term) :
    lastTerm g.log < g.term := by
  have he := ends_lastTerm g.log
  cases hl : g.log.length <;> rw [hl] at he
  case zero => exact he ▸ ht
  case succ => exact h.stands hr _ _ he

theorem requests (h : (m.gist t i).Told (m.scene t).post j (.appendRequest r)) :
    ∃ s < t, m.Leads s j (m.gist t i).term ∧ Ends (m.gist s j).log r.prevIndex r.prevTerm ∧
      r.entries <+: (m.gist s j).log.drop r.prevIndex ∧ r.commit = (m.gist s j).commit := by
  have ⟨p, _, hp, s, hs, _, h⟩ := m.told h
  have ⟨hl, he, hr, hc⟩ := h.leads r (by rw [hp])
  exact ⟨s, hs, ⟨hl, by rw [← h.term, hp]⟩, he, hr, hc⟩

theorem Sound.absorbs {log : List Entry} {r : AppendRequest} (hs : m.Sound t es) (hl : m.Sound t' log)
    (he : Ends es r.prevIndex r.prevTerm) (he' : Ends log r.prevIndex r.prevTerm)
    (hr : r.entries <+: log.drop r.prevIndex)
    (h : Merged es c r.prevIndex r.entries success es') : es' = es ∨ es' <+: log := by
  refine (h.eq_or_eq_take hr (fun n T hn hn' => hs.take_eq hl (n := n + 1) hn hn') (hs.take_eq hl he he')).imp_right ?_
  rintro ⟨k, rfl⟩
  exact List.take_prefix ..

theorem orderly (hb : f.Blank) (t : Nat) (hi : i ∈ f.members) : m.Orderly t (m.gist t i) := by
  induction t using Nat.strongRecOn generalizing i
  case ind t ih =>
    cases t
    case zero =>
      have hl : (m.gist 0 i).log = [] := by
        rw [gist, m.zero]
        simp [World.scene, Founding.world, Engine.start, Engine.gist, hb i hi]
      exact ⟨hl ▸ .nil, by simp [hl, term?], by simp [hl, term?]⟩
    case succ t =>
      have ho := ih t (Nat.lt_succ_self t) hi
      have hs := ho.sound.mono (Nat.le_succ t)
      have he := m.evolves i (Nat.le_succ t)
      cases m.writes t i
      case kept hl =>
        refine ⟨hl ▸ hs, fun n T hn => Nat.le_trans (ho.bound n T (hl ▸ hn)) he.term, fun hr n T hn => ?_⟩
        rw [hl] at hn
        cases Nat.lt_or_eq_of_le he.term
        case inl ht => exact Nat.lt_of_le_of_lt (ho.bound n T hn) ht
        case inr ht => exact ht ▸ ho.stands (he.role_of_stands ht.symm hr) n T hn
      case appended e hr ht hn hi hl =>
        have led : m.Led (t + 1) e.term (m.gist (t + 1) i).log := Leads.led ⟨hr, ht.trans hn.symm⟩
        refine ⟨?_, fun n T hT => ?_, fun h => absurd (hr.symm.trans h) (by decide)⟩
        case refine_1 => exact hl ▸ hs.concat hi (fun n T hT => hn ▸ ho.bound n T hT) (hl ▸ led)
        case refine_2 =>
          rw [hl] at hT
          cases term?_concat hT
          case inl hT => exact ht ▸ ho.bound n T hT
          case inr hT => exact Nat.le_of_eq (by rw [← hT.right, hn, ht])
      case absorbed j r success hr ht told ends hm =>
        obtain ⟨s, hst, hl, he', hes, _⟩ := requests told
        have hl' := ih s (Nat.lt_succ_of_lt hst) hl.mem
        have hc : (m.gist (t + 1) i).role ≠ .candidate := by rw [hr]; decide
        cases ho.sound.absorbs hl'.sound ends he' hes hm
        case inl hg => exact ⟨hg ▸ hs, fun n T hn => ht ▸ ho.bound n T (hg ▸ hn), fun h => absurd h hc⟩
        case inr hp =>
          refine ⟨(hl'.sound.mono (by omega)).of_isPrefix hp, fun n T hn => ?_, fun h => absurd h hc⟩
          exact ht ▸ hl.right ▸ hl'.bound n T (prefix_term?_eq_some hp hn)

end Timeline

namespace Run

variable {r : Run}

theorem orderly_worlds (r : Run) (hb : r.founding.Blank) (s t : Nat) :
    ∃ (m : Timeline r.founding False) (u v : Nat),
      (∀ i ∈ r.founding.members, m.Orderly u ((r.world s).engine i).gist) ∧
      (∀ i ∈ r.founding.members, m.Orderly v ((r.world t).engine i).gist) := by
  have ⟨m, u, v, hu, hv⟩ := Timeline.of_worlds r False False.elim s t
  refine ⟨m, u, v, fun i hi => ?_, fun i hi => ?_⟩
  case refine_1 => exact Timeline.gist_of_scene hu i ▸ Timeline.orderly hb u hi
  case refine_2 => exact Timeline.gist_of_scene hv i ▸ Timeline.orderly hb v hi

-- Logs that hold entries of the same term at the same position agree up to there, whoever they belong to and whenever.
-- Terms do not fall along a log, and none is beyond the term of the member.
theorem log_matching (hb : r.founding.Blank) :
    (∀ s t, ∀ i ∈ r.founding.members, ∀ j ∈ r.founding.members, ∀ n e e',
      ((r.world s).entries i)[n]? = some e → ((r.world t).entries j)[n]? = some e' → e.term = e'.term →
        ((r.world s).entries i).take (n + 1) = ((r.world t).entries j).take (n + 1)) ∧
    (∀ t, ∀ i ∈ r.founding.members,
      ((r.world t).entries i).Pairwise (·.term ≤ ·.term) ∧
        ∀ e ∈ (r.world t).entries i, e.term ≤ ((r.world t).engine i).term) := by
  constructor
  case left =>
    intro s t i hi j hj n e e' he he' ht
    obtain ⟨m, u, v, hu, hv⟩ := r.orderly_worlds hb s t
    have hn : term? ((r.world s).entries i) n = some e.term := by rw [term?, he, Option.map_some]
    have hn' : term? ((r.world t).entries j) n = some e.term := by rw [term?, he', Option.map_some, ht]
    exact (hu i hi).sound.take_eq (hv j hj).sound (n := n + 1) hn hn'
  case right =>
    intro t i hi
    obtain ⟨m, u, _, hu, _⟩ := r.orderly_worlds hb t t
    constructor
    case left =>
      refine List.pairwise_iff_getElem.mpr fun k n hk hn hl => ?_
      exact (hu i hi).sound.sorted k n _ _ (Nat.le_of_lt hl) (term?_eq_some hk) (term?_eq_some hn)
    case right =>
      intro e he
      obtain ⟨n, hn, he⟩ := List.getElem_of_mem he
      exact (hu i hi).bound n _ (he ▸ term?_eq_some hn)

theorem log_matching_of_handover :
    handover.founding.Blank ∧
    ((handover.world 14).entries "a")[1]? = some ⟨2, 2, .text [121]⟩ ∧
    ((handover.world 14).entries "b")[1]? = some ⟨2, 2, .text [121]⟩ ∧
    ((handover.world 14).entries "a").take 2 = ((handover.world 14).entries "b").take 2 := by
  have ha : ((handover.world 14).entries "a")[1]? = some ⟨2, 2, .text [121]⟩ := by decide +kernel
  have hb : ((handover.world 14).entries "b")[1]? = some ⟨2, 2, .text [121]⟩ := by decide +kernel
  refine ⟨Founding.fresh_blank, ha, hb, ?_⟩
  exact (log_matching Founding.fresh_blank).left 14 14 "a" (by decide) "b" (by decide) 1 _ _ ha hb rfl

end Run
end RaftGroup
