import RaftGroup.Proofs.Matching

namespace RaftGroup

open Entries Gist

namespace Timeline

variable {f : Founding} {m : Timeline f True} {es part : List Entry}

def Held (m : Timeline f True) (t T : Nat) (es : List Entry) (i : String) : Prop :=
  ∃ s ≤ t, (m.gist s i).term = T ∧ es <+: (m.gist s i).log

theorem Held.mono (ht : t ≤ t') : m.Held t T es i → m.Held t' T es i
  | ⟨s, hs, h⟩ => ⟨s, Nat.le_trans hs ht, h⟩

theorem Held.of_isPrefix (hp : es <+: part) : m.Held t T part i → m.Held t T es i
  | ⟨s, hs, ht, h⟩ => ⟨s, hs, ht, hp.trans h⟩

theorem Sound.take_lastIndex {log : List Entry} {r : AppendRequest} (hs : m.Sound t es) (hl : m.Sound t' log)
    (he : Ends es r.prevIndex r.prevTerm) (he' : Ends log r.prevIndex r.prevTerm)
    (hr : r.entries <+: log.drop r.prevIndex) (hw : Within es r.prevIndex r.entries) :
    es.take r.lastIndex = log.take r.lastIndex := by
  cases hn : r.entries.length
  case zero =>
    rw [AppendRequest.lastIndex, hn]
    exact hs.take_eq hl he he'
  case succ n =>
    have hk : n < r.entries.length := by omega
    have ht := term?_eq_some hk
    rw [AppendRequest.lastIndex, hn]
    refine hs.take_eq hl (n := r.prevIndex + n + 1) ((hw n hk).trans ht) ?_
    exact (term?_drop ..).symm.trans ((prefix_term?_eq hr hk).symm.trans ht)

theorem covered (hb : f.Blank) (hl : m.Leads t i T) (hc : (m.gist t i).Covered (m.scene t).post j n) :
    n ≤ (m.gist t i).log.length ∧ m.Held t T ((m.gist t i).log.take n) j := by
  have ⟨p, hp, hpl, q, r, ha, hq, hn⟩ := hc
  rw [m.id_eq, hl.right] at hpl
  have ⟨u, hu, hj, hs⟩ := m.said hp
  have ⟨q', r', ha', hq', he, hw⟩ := hs.holds (by rw [hpl])
  cases ha.unique (ha'.mono (m.post_mono (Nat.le_of_lt hu)))
  rw [hq'] at hq
  cases hq
  simp only [hpl, m.id_eq] at hj hs hq' he hw
  have ⟨v, hv, _, hs'⟩ := m.said ha'.mem
  simp only [hq'] at hs'
  have ⟨hr', he', hes, _⟩ := hs'.leads r (by rw [hq'])
  have hT : (m.gist u j).term = T := by rw [← hs.term, hpl]
  have hl' : m.Leads v i T := ⟨hr', by rw [← hs'.term, hq', hT]⟩
  have ht := (orderly hb u hj).sound.take_lastIndex (orderly hb v hl.mem).sound he he' hes hw
  have hg := (m.evolves i (Nat.le_of_lt (Nat.lt_trans hv hu))).grows (hl.right.trans hl'.right.symm)
    (by rw [hl.left]; decide)
  have hn : n ≤ (m.gist v i).log.length := by
    have hd := hes.length_le
    have := he'.le_length
    rw [List.length_drop] at hd
    rw [AppendRequest.lastIndex] at hn
    omega
  refine ⟨Nat.le_trans hn hg.length_le, u, Nat.le_of_lt hu, hT, ?_⟩
  calc (m.gist t i).log.take n
    _ = (m.gist v i).log.take n               := prefix_take_eq hg hn
    _ = ((m.gist u j).log.take r.lastIndex).take n := by rw [ht, List.take_take, Nat.min_eq_left (by omega)]
    _ <+: (m.gist u j).log                    := (List.take_prefix ..).trans (List.take_prefix ..)

theorem matched (hb : f.Blank) (hr : (m.gist t i).rank = .leader ms) (hm : (s, n) ∈ ms) :
    n ≤ (m.gist t i).log.length ∧ (n = 0 ∨ m.Held t (m.gist t i).term ((m.gist t i).log.take n) s.id) := by
  induction t generalizing ms
  case zero => cases (m.rank_zero i).symm.trans hr
  case succ t hi =>
    cases m.gist_succ t i
    case inl hg =>
      obtain ⟨_, hg⟩ := hg
      rw [hg] at hr ⊢
      exact (hi hr hm).imp_right (Or.imp_right (Held.mono (Nat.le_succ t)))
    case inr hg =>
      obtain ⟨ht, hk⟩ := hg.right.knows hr trivial hm
      obtain rfl | ⟨known, hr', hm'⟩ | ⟨hl, hr', hc⟩ := hk
      case inl => exact ⟨Nat.zero_le _, .inl rfl⟩
      case inr.inl =>
        obtain ⟨hn, hh⟩ := hi hr' hm'
        have hp := (m.evolves i (Nat.le_succ t)).grows ht (by simp [role, hr, Rank.role])
        exact ⟨Nat.le_trans hn hp.length_le, prefix_take_eq hp hn ▸ ht ▸ hh.imp_right (Held.mono (Nat.le_succ t))⟩
      case inr.inr =>
        obtain ⟨hn, hh⟩ := covered hb ⟨hr', rfl⟩ hc
        exact ⟨hl ▸ hn, .inr (hl ▸ ht ▸ hh.mono (Nat.le_succ t))⟩

-- A leader's entries of its own term, with all before them, that a majority has held in the term.
structure Committed (m : Timeline f True) (T : Nat) (part : List Entry) : Prop where
  led  : ∃ t log, m.Led t T log ∧ part <+: log
  ends : ∃ n, part.length = n + 1 ∧ term? part n = some T
  most : ∃ t, f.Most (m.Held t T part)

theorem agreed (hb : f.Blank) (hi : i ∈ f.members) (hr : (m.gist t i).rank = .leader ms)
    (ho : term? (m.gist t i).log n = some (m.gist t i).term)
    (hq : quorumSize (m.gist t i).peers.length ≤ (ms.map Prod.snd ++ [(m.gist t i).log.length]).countP (n < ·)) :
    m.Committed (m.gist t i).term ((m.gist t i).log.take (n + 1)) where
  led  := ⟨t, _, Leads.led ⟨congrArg Rank.role hr, rfl⟩, List.take_prefix ..⟩
  ends := ⟨n, List.length_take_of_le (lt_length_of_term? ho), (term?_take _ (Nat.lt_succ_self n)).trans ho⟩
  most := by
    refine ⟨t, ?_⟩
    let vs := (ms.filter (n < ·.2)).map Prod.fst
    have hs : vs.Sublist (f.world.engine i).peers := followers hr ▸ List.filter_sublist.map Prod.fst
    have hp : .me i ∉ vs := fun hv =>
      have ⟨_, _, _, h⟩ := (Founding.mem_peers_world_iff hi).mp (hs.subset hv)
      by cases h
    refine .of_servers hi (List.nodup_cons.mpr ⟨hp, hs.nodup (f.nodup_peers_world i)⟩) (fun v hv => ?_) ?_
    case refine_1 =>
      cases List.mem_cons.mp hv
      case inl hv => exact ⟨.inl hv, hv ▸ ⟨t, Nat.le_refl t, rfl, List.take_prefix ..⟩⟩
      case inr hv =>
        have ⟨⟨s, k⟩, hk, he⟩ := List.mem_map.mp hv
        have ⟨hk, hn⟩ := List.mem_filter.mp hk
        replace hn : n + 1 ≤ k := of_decide_eq_true hn
        have hh := (matched hb hr hk).right.resolve_left (by omega)
        subst he
        exact ⟨.inr (hs.subset hv), hh.of_isPrefix (List.take_prefix_take_left hn)⟩
    case refine_2 =>
      have hl := lt_length_of_term? ho
      rw [m.peers_eq] at hq
      rw [List.countP_append, List.countP_map, List.countP_eq_length_filter] at hq
      simpa [Engine.quorum, vs, hl, Function.comp_def] using hq

-- A member keeps what does not contradict the leaders whose requests it takes in meanwhile.
theorem keeps (hs : s ≤ t) (hp : part <+: (m.gist s j).log)
    (hc : ∀ u < t, ∀ i T, m.Leads u i T → (m.gist s j).term ≤ T → T ≤ (m.gist t j).term →
      Comparable part (m.gist u i).log) : part <+: (m.gist t j).log := by
  induction hs
  case refl => exact hp
  case step t hs hi =>
    have he := m.evolves j (Nat.le_succ t)
    replace hi := hi fun u hu i T hl h h' => hc u (Nat.lt_succ_of_lt hu) i T hl h (Nat.le_trans h' he.term)
    cases m.writes t j
    case kept hl             => exact hl ▸ hi
    case appended hl         => exact hl ▸ hi.trans (List.prefix_append ..)
    case absorbed told _ hm =>
      have ⟨u, hu, hl, _, hes, _⟩ := requests told
      exact hm.prefix_of_comparable hes hi (hc u (Nat.lt_succ_of_lt hu) _ _ hl (m.evolves j hs).term he.term)

-- The up-to-date check: a log that is no worse than one with committed entries, and that can contradict them in
-- nothing, has them too.
theorem Committed.prefix_of_noBetter {log : List Entry} (hc : m.Committed T part) (hp : part <+: es)
    (hs : m.Sound t es) (hs' : m.Sound t' log)
    (hu : NoBetter es log)
    (hl : ∀ t T' led, T ≤ T' → T' ≤ lastTerm log → m.Led t T' led → Comparable part led) : part <+: log := by
  have ⟨n, hn, hT⟩ := hc.ends
  have hle := hp.length_le
  have he := ends_lastTerm es
  have hg := ends_lastTerm log
  rw [NoBetter] at hu
  generalize lastTerm es = a at he hu
  generalize lastTerm log = c at hg hu hl
  obtain ⟨k, hk⟩ : ∃ k, es.length = k + 1 := ⟨es.length - 1, by omega⟩
  rw [hk] at he
  have hTa : T ≤ a := hs.sorted n k T a (by omega) (prefix_term?_eq_some hp hT) he
  cases hl' : log.length
  case zero =>
    rw [hl'] at hg
    cases hg
    omega
  case succ k' =>
    rw [hl'] at hg
    have ⟨led, hled, hpl⟩ := hs'.led k' c hg
    rw [← hl', List.take_length] at hpl
    have hcmp := (hl t' c led (by omega) (Nat.le_refl c) hled).of_isPrefix (List.prefix_refl _) hpl
    refine hcmp.prefix_of_length_le (Nat.le_of_not_lt fun hlt => ?_)
    -- Otherwise the log would end within the committed entries, and with it its last term.
    have hpc := prefix_term?_eq_some (hcmp.symm.prefix_of_length_le (Nat.le_of_lt hlt)) hg
    have := hs.sorted k' n c T (by omega) (prefix_term?_eq_some hp hpc) (prefix_term?_eq_some hp hT)
    omega

theorem Committed.complete (hb : f.Blank) (hc : m.Committed T part) (hT : T < T') (hl : m.Led t T' es) :
    part <+: es := by
  induction T' using Nat.strongRecOn generalizing t es
  case ind T' hi =>
    obtain ⟨s, _, j, hl, rfl⟩ := hl
    have ⟨w, hw, hv⟩ := hl.wins
    have hC := (m.evolves j (Nat.le_of_lt hw)).grows (hl.right.trans hv.term.symm) (by rw [hl.left]; decide)
    refine .trans ?_ hC
    have comparable (t n led) (h : T ≤ n) (h' : n < T') (hl : m.Led t n led) : Comparable part led := by
      cases Nat.lt_or_eq_of_le h
      case inl h => exact .inl (hi n h' h hl)
      case inr h =>
        have ⟨_, _, hl₀, hp⟩ := hc.led
        exact (hl₀.comparable (h ▸ hl)).of_isPrefix hp (List.prefix_refl _)
    -- Someone has held what is committed, and voted later. Until then it has taken in nothing from the new leader.
    have ⟨_, hheld⟩ := hc.most
    have ⟨k, hk, ⟨u, _, hu, hp⟩, hvote⟩ := hheld.meet hv.most
    have kept (v) (hvw : v ≤ w) (ht : (m.gist v k).term = T') : part <+: (m.gist v k).log := by
      have huv : u ≤ v := Nat.le_of_not_lt fun hl => by
        have := (m.evolves k (Nat.le_of_lt hl)).term
        omega
      refine keeps huv hp fun x hx i n hx' h h' => comparable x n _ (hu ▸ h) (Nat.lt_of_le_of_ne (ht ▸ h') ?_) hx'.led
      exact fun hn => hv.not_leads (Nat.le_trans (Nat.le_of_lt hx) hvw) (hn ▸ hx')
    by_cases hkj : k = j
    case pos => exact hkj ▸ kept w (Nat.le_refl w) (hkj ▸ hv.term)
    case neg =>
      have ⟨v, hvw, ht, hup⟩ := hv.noBetter hvote hkj
      have ho := orderly (m := m) hb w hv.mem
      have hlt := hv.term ▸ ho.lastTerm_lt hv.role (hv.term ▸ Nat.zero_lt_of_lt hT)
      exact hc.prefix_of_noBetter (kept v hvw ht) (orderly hb v hk).sound ho.sound hup fun t n led h h' =>
        comparable t n led h (Nat.lt_of_le_of_lt h' hlt)

theorem Committed.comparable {part' : List Entry} (hb : f.Blank) (hc : m.Committed T part)
    (hc' : m.Committed T' part') : Comparable part part' := by
  have ⟨_, _, hl, hp⟩ := hc.led
  have ⟨_, _, hl', hp'⟩ := hc'.led
  obtain ht | rfl | ht := Nat.lt_trichotomy T T'
  · exact List.prefix_or_prefix_of_prefix (hc.complete hb ht hl') hp'
  · exact (hl.comparable hl').of_isPrefix hp hp'
  · exact List.prefix_or_prefix_of_prefix hp (hc'.complete hb ht hl)

theorem secured (hb : f.Blank) (t : Nat) (hi : i ∈ f.members) :
    (m.gist t i).commit = 0 ∨ ∃ T ≤ (m.gist t i).term, ∃ part, m.Committed T part ∧
      (m.gist t i).log.take (m.gist t i).commit <+: part := by
  induction t using Nat.strongRecOn generalizing i
  case ind t ih =>
    cases t
    case zero => exact .inl (m.commit_zero i)
    case succ t =>
      have he := m.evolves i (Nat.le_succ t)
      cases m.commits t i
      case kept hc =>
        refine hc ▸ (ih t (Nat.lt_succ_self t) hi).imp_right fun ⟨T, hT, part, hp, h⟩ => ?_
        exact ⟨T, Nat.le_trans hT he.term, part, hp, (he.keeps (m.commit_le_length t i)).right ▸ h⟩
      case agreed ht hl hr ho hq hc =>
        exact .inr ⟨_, Nat.le_of_eq ht.symm, _, agreed hb hi hr ho hq, hc ▸ hl ▸ List.prefix_refl _⟩
      case heard j r ht told ends within hc =>
        have ⟨u, hu, hl, he', hes, hcu⟩ := requests told
        have heq := (orderly hb (t + 1) hi).sound.take_lastIndex (orderly hb u hl.mem).sound ends he' hes within
        refine (ih u (Nat.lt_succ_of_lt hu) hl.mem).imp (fun h => by omega) fun ⟨T, hT, part, hp, h⟩ => ?_
        refine ⟨T, by rw [ht, ← hl.right]; exact hT, part, hp, .trans ?_ h⟩
        have hk := congrArg (List.take (min r.commit r.lastIndex)) heq
        rw [List.take_take, List.take_take, Nat.min_eq_left (Nat.min_le_right ..)] at hk
        rw [hc, hk, ← hcu]
        exact List.take_prefix_take_left (Nat.min_le_left ..)

theorem committed_isPrefix (hb : f.Blank) (hi : i ∈ f.members) (hT : (m.gist s i).term < T) (hl : m.Leads t j T) :
    (m.gist s i).log.take (m.gist s i).commit <+: (m.gist t j).log := by
  cases secured hb s hi
  case inl h => rw [h]; exact List.nil_prefix
  case inr h =>
    have ⟨T', hT', _, hc, hp⟩ := h
    exact hp.trans (hc.complete hb (Nat.lt_of_le_of_lt hT' hT) hl.led)

theorem committed_comparable (hb : f.Blank) (hi : i ∈ f.members) (hj : j ∈ f.members) :
    Comparable ((m.gist s i).log.take (m.gist s i).commit) ((m.gist t j).log.take (m.gist t j).commit) := by
  cases secured hb s hi
  case inl h => rw [h]; exact .inl List.nil_prefix
  case inr h =>
    cases secured hb t hj
    case inl h' => rw [h']; exact .inr List.nil_prefix
    case inr h' =>
      have ⟨_, _, _, hc, hp⟩ := h
      have ⟨_, _, _, hc', hp'⟩ := h'
      exact (hc.comparable hb hc').of_isPrefix hp hp'

theorem matched_isPrefix (hb : f.Blank) (hr : (m.gist t i).rank = .leader ms) (hm : (.peer j, n) ∈ ms)
    (ht : (m.gist t j).term = (m.gist t i).term) : (m.gist t i).log.take n <+: (m.gist t j).log := by
  cases (matched hb hr hm).right
  case inl hn => rw [hn]; exact List.nil_prefix
  case inr hh =>
    have ⟨s, hs, hT, hp⟩ := hh
    have hl : m.Leads t i (m.gist t i).term := ⟨congrArg Rank.role hr, rfl⟩
    refine keeps hs hp fun u _ k T hl' h h' => ?_
    obtain rfl : T = (m.gist t i).term := Nat.le_antisymm (ht ▸ h') (hT ▸ h)
    exact (hl.led.comparable hl'.led).of_isPrefix (List.take_prefix ..) (List.prefix_refl _)

end Timeline
end RaftGroup
