import RaftGroup.Proofs.Agreement
import RaftGroup.Proofs.Pending

namespace RaftGroup

def Letter.request? (l : Letter) (leader follower : String) (term : Nat) : Option AppendRequest :=
  if l.sender = leader ∧ l.receiver = follower ∧ l.message.term = term then
    match l.message.rpc with
    | .appendRequest r => some r
    | _                => none
  else none

theorem Letter.request?_eq_some {l : Letter} (h : l.request? i j T = some r) : l = ⟨i, j, ⟨T, .appendRequest r⟩⟩ := by
  rw [request?] at h
  split at h
  case isFalse => cases h
  case isTrue hl =>
    obtain ⟨rfl, rfl, rfl⟩ := hl
    split at h
    case h_2    => cases h
    case h_1 hr =>
      cases h
      rw [← hr]

def requests (post : List Posted) (leader follower : String) (term : Nat) : List AppendRequest :=
  post.filterMap fun p => p.letter.request? leader follower term

theorem requests_append (post post' : List Posted) (i j : String) (T : Nat) :
    requests (post ++ post') i j T = requests post i j T ++ requests post' i j T :=
  List.filterMap_append

theorem requests_eq_nil {post : List Posted} (h : ∀ p ∈ post, ∀ r, p.letter ≠ ⟨i, j, ⟨T, .appendRequest r⟩⟩) :
    requests post i j T = [] := by
  refine List.filterMap_eq_nil_iff.mpr fun p hp => Option.eq_none_iff_forall_ne_some.mpr fun r hr => ?_
  exact h p hp r (Letter.request?_eq_some hr)

theorem requests_length_le {post post' : List Posted} (hp : post <+: post') (i j : String) (T : Nat) :
    (requests post i j T).length ≤ (requests post' i j T).length := by
  obtain ⟨_, rfl⟩ := hp
  rw [requests_append, List.length_append]
  exact Nat.le_add_right ..

theorem requests_eq_of_getElem? {post : List Posted} (hq : post[k]? = some q)
    (hl : q.letter = ⟨i, j, ⟨T, .appendRequest req⟩⟩) :
    requests post i j T = requests (post.take k) i j T ++ req :: requests (post.drop (k + 1)) i j T := by
  have ⟨hk, he⟩ := List.getElem?_eq_some_iff.mp hq
  have hr : q.letter.request? i j T = some req := by rw [hl, Letter.request?, if_pos ⟨rfl, rfl, rfl⟩]
  calc requests post i j T
    _ = requests (post.take k ++ q :: post.drop (k + 1)) i j T := by
      rw [← he, ← List.drop_eq_getElem_cons hk, List.take_append_drop]
    _ = requests (post.take k) i j T ++ req :: requests (post.drop (k + 1)) i j T := by
      rw [requests_append]
      exact congrArg _ (List.filterMap_cons_some hr)

theorem requests_record (w : World) (m : String) (cause : Option Nat) (e : Engine) (os : List Outgoing) :
    requests (w.record m cause (.ok (e, os))).post i j T =
      requests w.post i j T ++ (os.flatMap (Group.letters e m)).filterMap (·.request? i j T) := by
  rw [World.record, requests_append]
  exact congrArg _ (List.filterMap_map ..)

theorem requests_record_of_none {w : World} {e : Engine}
    (h : ∀ o ∈ os, ∀ x ∈ Group.letters e m o, ∀ r, x ≠ ⟨i, j, ⟨T, .appendRequest r⟩⟩) :
    requests (w.record m cause (.ok (e, os))).post i j T = requests w.post i j T := by
  rw [requests_record, List.filterMap_eq_nil_iff.mpr, List.append_nil]
  intro x hx
  have ⟨o, ho, hx⟩ := List.mem_flatMap.mp hx
  exact Option.eq_none_iff_forall_ne_some.mpr fun r hr => h o ho x hx r (Letter.request?_eq_some hr)

-- A letter answers the request at the place, which its receiver has made in the term, before not too many later ones.
structure Posted.Prompt (p : Posted) (post : List Posted) (T c : Nat) (req : AppendRequest) : Prop where
  cause  : p.cause = some c
  posted : ∃ q, post[c]? = some q ∧ q.letter = ⟨p.letter.receiver, p.letter.sender, ⟨T, .appendRequest req⟩⟩
  later  : (requests (post.drop (c + 1)) p.letter.receiver p.letter.sender T).length < maxUnanswered

theorem Posted.Prompt.requests_eq {p : Posted} (h : p.Prompt post T c req) :
    requests post p.letter.receiver p.letter.sender T =
      requests (post.take c) p.letter.receiver p.letter.sender T ++
        req :: requests (post.drop (c + 1)) p.letter.receiver p.letter.sender T :=
  have ⟨_, hq, hl⟩ := h.posted
  requests_eq_of_getElem? hq hl

namespace Run

variable {r : Run} {p p' : Posted} {a a' : Nat}

-- What is delivered over a link is delivered once, and in the order in which it was sent.
def InOrder (r : Run) : Prop :=
  ∀ t t' k k' p p', t < t' → r.delivery? t = some (k, p) → r.delivery? t' = some (k', p') →
    p.letter.sender = p'.letter.sender → p.letter.receiver = p'.letter.receiver → k < k'

-- Each reply of its own term that a leader takes for an answer, as there are requests it could be about, answers a
-- request that it has made itself in the term, and that it has not forgotten over later ones.
def AnswersPromptly (r : Run) : Prop :=
  ∀ t k p T success u, r.delivery? t = some (k, p) → p.letter.message = ⟨T, .appendReply success⟩ →
    (r.world t).Leads p.letter.receiver T →
    ((r.world t).engine p.letter.receiver).unanswered? (.peer p.letter.sender) = some u → u ≠ [] →
    ∃ c req, p.Prompt (r.world t).post T c req

theorem Step.caused {w : World} (h : r.Step t w) (hp : w.post[a]? = some p) (ha : (r.world t).post.length ≤ a)
    (hc : p.cause = some k) : a = (r.world t).post.length ∧ ∃ q, r.delivery? t = some (k, q) ∧
      q.letter.sender = p.letter.receiver ∧ q.letter.receiver = p.letter.sender := by
  cases h
  case idle => exact absurd (List.getElem?_eq_some_iff.mp hp).choose (Nat.not_lt_of_le ha)
  case obeyed i c out _ _ _ =>
    obtain ⟨e, os⟩ := out
    replace hp := List.mem_of_getElem? ((List.getElem?_append_right ha).symm.trans hp)
    obtain ⟨_, _, rfl⟩ := List.mem_map.mp hp
    cases hc
  case heard k' q out _ hd ho =>
    obtain ⟨e, os⟩ := out
    replace hp := (List.getElem?_append_right ha).symm.trans hp
    cases Engine.hear_replies ho
    case inl hn =>
      subst hn
      cases hp
    case inr hm =>
      obtain ⟨m, rfl, _⟩ := hm
      have hn := (List.getElem?_eq_some_iff.mp hp).choose
      replace hn : a - (r.world t).post.length = 0 := Nat.lt_one_iff.mp hn
      rw [hn] at hp
      cases hp
      cases hc
      exact ⟨by omega, q, hd, rfl, rfl⟩

theorem delivered (hp : (r.world t).post[a]? = some p) (hc : p.cause = some k) :
    ∃ s < t, a = (r.world s).post.length ∧ ∃ q, r.delivery? s = some (k, q) ∧
      q.letter.sender = p.letter.receiver ∧ q.letter.receiver = p.letter.sender := by
  induction t
  case zero => cases hp
  case succ t hi =>
    by_cases ha : a < (r.world t).post.length
    case neg => exact ⟨t, Nat.lt_succ_self t, (r.step_world t).caused hp (Nat.le_of_not_lt ha) hc⟩
    case pos =>
      have he := prefix_getElem?_eq_some (r.post_mono (Nat.le_succ t)) (List.getElem?_eq_getElem ha)
      obtain ⟨s, hs, h⟩ := hi ((List.getElem?_eq_getElem ha).trans (he.symm.trans hp))
      exact ⟨s, Nat.lt_succ_of_lt hs, h⟩

theorem InOrder.cause_lt (h : r.InOrder) (hp : (r.world t).post[a]? = some p) (hp' : (r.world t').post[a']? = some p')
    (ha : a < a') (hs : p.letter.sender = p'.letter.sender) (hr : p.letter.receiver = p'.letter.receiver)
    (hc : p.cause = some c) (hc' : p'.cause = some c') : c < c' := by
  have ⟨s, _, he, q, hd, hs', hr'⟩ := delivered hp hc
  have ⟨t, _, he', q', hd', hs'', hr''⟩ := delivered hp' hc'
  have hlt : s < t := Nat.lt_of_not_le fun hl => by
    have := (r.post_mono hl).length_le
    omega
  exact h s t c c' q q' hlt hd hd' (hs'.trans (hr.trans hs''.symm)) (hr'.trans (hs.trans hr''.symm))

def Answered (r : Run) (t : Nat) (i j : String) (T n : Nat) : Prop :=
  ∃ s < t, ∃ k p c, r.delivery? s = some (k, p) ∧ p.letter.sender = j ∧ p.letter.receiver = i ∧ p.cause = some c ∧
    n ≤ (requests ((r.world s).post.take (c + 1)) i j T).length

theorem Answered.mono (ht : t ≤ t') : r.Answered t i j T n → r.Answered t' i j T n
  | ⟨s, hs, h⟩ => ⟨s, Nat.lt_of_lt_of_le hs ht, h⟩

-- Of the requests to a follower the first ones are out of account: they are too far back, or there has been a reply to
-- a later one or to the last of them.
structure Recalls (r : Run) (t : Nat) (i j : String) (T : Nat) (u : List Nat) (n : Nat) : Prop where
  eq   : u = ((requests (r.world t).post i j T).drop n).map AppendRequest.lastIndex
  le   : n ≤ (requests (r.world t).post i j T).length
  gone : n ≤ (requests (r.world t).post i j T).length - maxUnanswered ∨ r.Answered t i j T n

theorem Recalls.of_requests_eq (h : r.Recalls t i j T u n)
    (he : requests (r.world (t + 1)).post i j T = requests (r.world t).post i j T) : r.Recalls (t + 1) i j T u n where
  eq   := he ▸ h.eq
  le   := he ▸ h.le
  gone := by
    rw [he]
    exact h.gone.imp_right (.mono (Nat.le_succ t))

theorem Recalls.le_of_prompt (ho : r.InOrder) (hd : r.delivery? t = some (k, p))
    (hc : p.Prompt (r.world t).post T c req)
    (h : r.Recalls t p.letter.receiver p.letter.sender T u n) :
    n ≤ (requests ((r.world t).post.take c) p.letter.receiver p.letter.sender T).length := by
  cases h.gone
  case inl hn =>
    have hl := hc.later
    rw [hc.requests_eq, List.length_append, List.length_cons] at hn
    omega
  case inr hn =>
    have ⟨s, hs, k', p', c', hd', hs', hr', hc', hn⟩ := hn
    have hp := (delivery?_eq_some_iff.mp hd).right
    have hp' := (delivery?_eq_some_iff.mp hd').right
    have hk : k' < k := ho s t k' k p' p hs hd' hd hs' hr'
    have hlt : c' < c := ho.cause_lt hp' hp hk hs' hr' hc' hc.cause
    refine Nat.le_trans hn (requests_length_le ?_ ..)
    refine List.prefix_take_iff.mpr ⟨(List.take_prefix ..).trans (r.post_mono (Nat.le_of_lt hs)), ?_⟩
    exact Nat.le_trans (List.length_take_le ..) hlt

theorem Recalls.mem_of_prompt (ho : r.InOrder) (hd : r.delivery? t = some (k, p))
    (hc : p.Prompt (r.world t).post T c req)
    (h : r.Recalls t p.letter.receiver p.letter.sender T u n) : req.lastIndex ∈ u := by
  rw [h.eq, hc.requests_eq, List.drop_append_of_le_length (h.le_of_prompt ho hd hc)]
  exact List.mem_map.mpr ⟨req, List.mem_append_right _ (List.mem_cons_self ..), rfl⟩

theorem Recalls.paired (ho : r.InOrder) (hd : r.delivery? t = some (k, p))
    (hc : p.Prompt (r.world t).post T c req)
    (h : r.Recalls t p.letter.receiver p.letter.sender T u n)
    (he : requests (r.world (t + 1)).post p.letter.receiver p.letter.sender T =
      requests (r.world t).post p.letter.receiver p.letter.sender T) :
    r.Recalls (t + 1) p.letter.receiver p.letter.sender T u.tail (n + 1) where
  eq   := by rw [h.eq, ← List.map_tail, List.tail_drop, he]
  le   := by
    have := h.le_of_prompt ho hd hc
    rw [he, hc.requests_eq, List.length_append, List.length_cons]
    omega
  gone := by
    refine .inr ⟨t, Nat.lt_succ_self t, k, p, c, hd, rfl, rfl, hc.cause, ?_⟩
    have ⟨q, hq, hl⟩ := hc.posted
    have hk := (List.getElem?_eq_some_iff.mp hq).choose
    have hq' : ((r.world t).post.take (c + 1))[c]? = some q := by rwa [List.getElem?_take_of_lt (Nat.lt_succ_self c)]
    have hn := h.le_of_prompt ho hd hc
    rw [requests_eq_of_getElem? hq' hl, List.take_take, Nat.min_eq_left (Nat.le_succ c), List.length_append,
      List.length_cons]
    omega

theorem Recalls.sent (h : r.Recalls t i j T u n)
    (he : requests (r.world (t + 1)).post i j T = requests (r.world t).post i j T ++ [req]) :
    ∃ k, r.Recalls (t + 1) i j T ((if maxUnanswered ≤ u.length then u.drop 1 else u) ++ [req.lastIndex]) k := by
  have hl : u.length = (requests (r.world t).post i j T).length - n := by rw [h.eq, List.length_map, List.length_drop]
  have hn := h.le
  split
  case isTrue hm =>
    have := show 0 < maxUnanswered by decide
    refine ⟨n + 1, ?_, ?_, .inl ?_⟩
    · rw [he, List.drop_append_of_le_length (by omega), List.map_append, h.eq, ← List.map_drop, List.drop_drop]
      rfl
    · rw [he, List.length_append, List.length_singleton]
      omega
    · rw [he, List.length_append, List.length_singleton]
      omega
  case isFalse =>
    refine ⟨n, ?_, ?_, h.gone.imp (fun hg => ?_) (.mono (Nat.le_succ t))⟩
    · rw [he, List.drop_append_of_le_length hn, List.map_append, h.eq]
      rfl
    · rw [he, List.length_append]
      omega
    · rw [he, List.length_append]
      omega

theorem followers (hl : (r.world t).Leads i T) :
    ∃ l, ((r.world t).engine i).standing = .leader l ∧ i ∈ r.founding.members ∧
      ∀ s, s ∈ l.followers.map Prod.fst ↔ ∃ j ∈ r.founding.members, j ≠ i ∧ s = .peer j := by
  have ⟨m, u, _, hu, _⟩ := Timeline.of_worlds r False False.elim t t
  have hi := (Timeline.Leads.of_world hu hl).mem
  have hr := hl.left
  cases he : ((r.world t).engine i).standing <;> simp only [Engine.role, he, reduceCtorEq] at hr
  case leader l =>
    have hg : (m.gist u i).rank = .leader (matchedOf l.followers) := by
      rw [Timeline.gist_of_scene hu, Engine.gist, he, Standing.rank]
    have hf := Timeline.followers hg
    refine ⟨l, rfl, hi, fun s => ?_⟩
    rw [← Founding.mem_peers_world_iff hi, ← hf, matchedOf, List.map_map]
    rfl

theorem peer_of_unanswered? (hl : (r.world t).Leads i T) (h : (((r.world t).engine i).unanswered? s).isSome) :
    ∃ j, s = .peer j := by
  obtain ⟨l, he, _, hf⟩ := followers hl
  rw [Engine.unanswered?, Engine.replication?, he, Option.isSome_map] at h
  obtain ⟨k, hk⟩ := Option.isSome_iff_exists.mp h
  obtain ⟨_, _, hk, _⟩ := List.lookup_eq_some_iff.mp hk
  obtain ⟨j, _, _, hj⟩ := (hf s).mp (List.mem_map.mpr ⟨(s, k), by rw [hk]; simp, rfl⟩)
  exact ⟨j, hj⟩

theorem requests_eq_nil_of_elected (hn : ((r.world t).engine i).role ≠ .leader) (hl : (r.world (t + 1)).Leads i T)
    (j : String) : requests (r.world (t + 1)).post i j T = [] := by
  refine requests_eq_nil fun p hp req he => ?_
  have ⟨s, hs, hl'⟩ := requested hp (by rw [he])
  rw [he] at hl'
  have hs := Nat.le_of_lt_succ hs
  have hm := r.evolves i hs
  have hm' := r.evolves i (Nat.le_succ t)
  have ht : ((r.world t).engine i).term = ((r.world s).engine i).term :=
    Nat.le_antisymm (Nat.le_trans hm'.term (Nat.le_of_eq (hl.right.trans hl'.right.symm))) hm.term
  exact hn (Engine.gist_role _ ▸ hm.leads ht (Engine.gist_role _ ▸ hl'.left))

theorem requests_record_of_others (hl : (r.world t).Leads i T)
    (hs : ∀ o ∈ os, ∀ req, o.message.rpc = .appendRequest req →
      ∃ s, s ≠ .peer j ∧ o.dest = .to s ∧ (((r.world t).engine i).unanswered? s).isSome) :
    requests ((r.world t).record i cause (.ok (e, os))).post i j T = requests (r.world t).post i j T := by
  refine requests_record_of_none fun o ho x hx req hx' => ?_
  have hm := (Group.sender_of_mem_letters hx).right
  rw [hx'] at hm
  obtain ⟨s, hs, hd, hu⟩ := hs o ho req (by rw [← hm])
  obtain ⟨k, rfl⟩ := peer_of_unanswered? hl hu
  rw [Group.letters, hd] at hx
  rw [List.mem_singleton.mp hx] at hx'
  exact hs (congrArg Server.peer (congrArg Letter.receiver hx'))

theorem Recalls.of_ne (h : r.Recalls t i j T u n) (hm : i ≠ m)
    (hw : r.world (t + 1) = (r.world t).record m cause (.ok (e, os))) : r.Recalls (t + 1) i j T u n := by
  refine h.of_requests_eq ?_
  rw [hw]
  refine requests_record_of_none fun o _ x hx req hx' => hm ?_
  rw [← (Group.sender_of_mem_letters hx).left, hx']

theorem recalls_record (ho : r.InOrder) (hp : r.AnswersPromptly)
    (hw : r.world (t + 1) = (r.world t).record i cause (.ok (e, os)))
    (ha : ((r.world t).engine i).Accounts (.peer j) heard (e, os))
    (hh : ∀ l, heard = some l → ∃ k p, r.delivery? t = some (k, p) ∧ p.letter = l ∧ l.receiver = i)
    (hi : ∀ u, (r.world t).Leads i T → ((r.world t).engine i).unanswered? (.peer j) = some u →
      ∃ n, r.Recalls t i j T u n)
    (hl : (r.world (t + 1)).Leads i T) (hu : e.unanswered? (.peer j) = some u) :
    ∃ n, r.Recalls (t + 1) i j T u n := by
  have hT : e.term = T := by
    have := hl.right
    rwa [hw, World.record_engine_self] at this
  cases ha
  case elected hn hf =>
    have he := requests_eq_nil_of_elected hn hl j
    exact ⟨0, by rw [he, hf _ u hu]; rfl, Nat.zero_le _, .inl (Nat.zero_le _)⟩
  case kept hr ht he hs =>
    have hl' : (r.world t).Leads i T := ⟨hr, ht ▸ hT⟩
    obtain ⟨n, h⟩ := hi u hl' (he ▸ hu)
    exact ⟨n, h.of_requests_eq (by rw [hw, requests_record_of_others hl' hs])⟩
  case sent req hr ht he =>
    have hl' : (r.world t).Leads i T := ⟨hr, ht ▸ hT⟩
    rw [he] at hu
    obtain ⟨u', hu', rfl⟩ := Option.map_eq_some_iff.mp hu
    obtain ⟨n, h⟩ := hi u' hl' hu'
    refine h.sent ?_
    rw [hw, requests_record, hl'.right]
    simp [Group.letters, Letter.request?, Server.id]
  case paired l success hr hm hs hy ht he =>
    obtain ⟨k, p, hd, rfl, rfl⟩ := hh l hm
    cases hs
    have hl' : (r.world t).Leads p.letter.receiver T := ⟨hr, ht ▸ hT⟩
    rw [he] at hu
    obtain ⟨u', hu', rfl⟩ := Option.map_eq_some_iff.mp hu
    obtain ⟨n, h⟩ := hi u' hl' hu'
    have hq : requests (r.world (t + 1)).post p.letter.receiver p.letter.sender T =
        requests (r.world t).post p.letter.receiver p.letter.sender T := by
      rw [hw]
      exact requests_record_of_none fun _ ho => absurd ho List.not_mem_nil
    by_cases hn : u' = []
    case pos =>
      subst hn
      exact ⟨n, h.of_requests_eq hq⟩
    case neg =>
      obtain ⟨c, req, hc⟩ := hp t k p T success u' hd (hy.trans (by rw [hl'.right])) hl' hu' hn
      exact ⟨n + 1, h.paired ho hd hc hq⟩

theorem recalls (ho : r.InOrder) (hp : r.AnswersPromptly) (t : Nat) (hl : (r.world t).Leads i T)
    (hu : ((r.world t).engine i).unanswered? (.peer j) = some u) : ∃ n, r.Recalls t i j T u n := by
  induction t generalizing u
  case zero => exact absurd (show Role.follower = .leader from hl.left) (by decide)
  case succ t hi =>
    have other {m cause e os} (hm : i ≠ m) (hw : r.world (t + 1) = (r.world t).record m cause (.ok (e, os))) :
        ∃ n, r.Recalls (t + 1) i j T u n := by
      have he : (r.world (t + 1)).engine i = (r.world t).engine i := by rw [hw, World.record_engine_of_ne _ hm]
      obtain ⟨n, h⟩ := hi (by rwa [World.Leads, ← he]) (he ▸ hu)
      exact ⟨n, h.of_ne hm hw⟩
    have h := r.step_world t
    generalize hw : r.world (t + 1) = w at h
    cases h
    case idle =>
      rw [hw] at hl hu
      obtain ⟨n, h⟩ := hi hl hu
      exact ⟨n, h.of_requests_eq (by rw [hw])⟩
    case obeyed m c out _ _ hc =>
      obtain ⟨e, os⟩ := out
      by_cases hm : i = m
      case neg => exact other hm hw
      case pos =>
        subst hm
        have he : (r.world (t + 1)).engine i = e := by rw [hw, World.record_engine_self]
        have hr : e.role = .leader := he ▸ hl.left
        refine recalls_record ho hp hw (Engine.obey_accounts hc hr _) (fun _ h => ?_) (fun _ => hi) hl (he ▸ hu)
        cases h
    case heard k p out _ hd hc =>
      obtain ⟨e, os⟩ := out
      by_cases hm : i = p.letter.receiver
      case neg => exact other hm hw
      case pos =>
        subst hm
        have he : (r.world (t + 1)).engine p.letter.receiver = e := by rw [hw, World.record_engine_self]
        have hr : e.role = .leader := he ▸ hl.left
        refine recalls_record ho hp hw (Engine.hear_accounts hc hr _) ?_ (fun _ => hi) hl (he ▸ hu)
        rintro _ ⟨⟩
        exact ⟨k, p, hd, rfl, rfl⟩

theorem InOrder.creditsSoundly (ho : r.InOrder) (hp : r.AnswersPromptly) : r.CreditsSoundly := by
  intro t k p n hd _ hn
  obtain ⟨hm, oldest, rest, hu, rfl⟩ := Engine.credit?_eq_some hn
  have hl : (r.world t).Leads p.letter.receiver _ := ⟨Engine.role_of_unanswered? hu, rfl⟩
  have ⟨c, req, hc⟩ := hp t k p _ true _ hd hm hl hu (List.cons_ne_nil _ _)
  have ⟨_, h⟩ := recalls ho hp t hl hu
  have ⟨q, hq, he⟩ := hc.posted
  exact ⟨q, req, ⟨c, hc.cause, hq⟩, by rw [he], Replication.acknowledge_le (h.mem_of_prompt ho hd hc)⟩

-- On links that keep letters in order and do not copy them, a follower that is in the term of its leader has what the
-- leader knows to match, provided that the replies are to the leader's own requests and in time.
theorem matched_sound (hb : r.founding.Blank) (ho : r.InOrder) (hp : r.AnswersPromptly) :
    ∀ t i j T, (r.world t).Leads i T → j ∈ r.founding.members → j ≠ i → ((r.world t).engine j).term = T →
      ∃ known, ((r.world t).engine i).replication? (.peer j) = some known ∧
        ∀ n, 0 < n → n ≤ known.matched →
          ∃ e, (r.world t).entryAt? i n = some e ∧ (r.world t).entryAt? j n = some e := by
  intro t i j T hl hj hij hT
  obtain ⟨l, he, hi, hf⟩ := followers hl
  obtain ⟨f, hk, hs⟩ := List.mem_map.mp ((hf (.peer j)).mpr ⟨j, hj, hij, rfl⟩)
  obtain ⟨known, hk⟩ := Option.isSome_iff_exists.mp (List.lookup_isSome_iff.mpr ⟨f, hk, beq_iff_eq.mpr hs.symm⟩)
  refine ⟨known, by rw [Engine.replication?, he]; exact hk, fun n h₀ hn => ?_⟩
  obtain ⟨_, _, hm, _⟩ := List.lookup_eq_some_iff.mp hk
  obtain ⟨m, u, _, hu, _⟩ := Timeline.of_worlds r True (fun _ => ho.creditsSoundly hp) t t
  have hr : (m.gist u i).rank = .leader (matchedOf l.followers) := by
    rw [Timeline.gist_of_scene hu, Engine.gist, he, Standing.rank]
  have hm : (.peer j, known.matched) ∈ matchedOf l.followers := by
    rw [matchedOf, hm]
    simp
  have hc := (Timeline.matched hb hr hm).left
  have hp := Timeline.matched_isPrefix hb hr hm (by
    rw [Timeline.gist_of_scene hu, Timeline.gist_of_scene hu]
    exact hT.trans hl.right.symm)
  rw [Timeline.gist_of_scene hu] at hc hp
  rw [Timeline.gist_of_scene hu] at hp
  exact entryAt?_of_isPrefix hp hc h₀ hn

def link? (r : Run) (k : Nat) : Option (String × String) :=
  (r.world r.actions.length).post[k]?.map fun p => (p.letter.sender, p.letter.receiver)

def place? : Action → Option Nat
  | .deliver k   => some k
  | .command _ _ => none

theorem InOrder.of_places
    (h : (r.actions.filterMap place?).Pairwise fun k k' => k < k' ∨ r.link? k ≠ r.link? k') : r.InOrder := by
  intro t t' k k' p p' ht hd hd' hs hr
  have ⟨ha, hp⟩ := delivery?_eq_some_iff.mp hd
  have ⟨ha', hp'⟩ := delivery?_eq_some_iff.mp hd'
  have ⟨hn, he⟩ := List.getElem?_eq_some_iff.mp ha
  have ⟨hn', he'⟩ := List.getElem?_eq_some_iff.mp ha'
  have link {t k : Nat} {p : Posted} (hn : t < r.actions.length) (hp : (r.world t).post[k]? = some p) :
      r.link? k = some (p.letter.sender, p.letter.receiver) := by
    rw [link?, prefix_getElem?_eq_some (r.post_mono (Nat.le_of_lt hn)) hp, Option.map_some]
  have h := List.pairwise_iff_getElem.mp (List.pairwise_filterMap.mp h) t t' hn hn' ht k (he ▸ rfl) k' (he' ▸ rfl)
  refine h.resolve_right fun hl => hl ?_
  rw [link hn hp, link hn' hp', hs, hr]

theorem handover_answersPromptly : handover.AnswersPromptly := by
  intro t k p T success u hd hm _ _ _
  obtain ⟨rfl, rfl⟩ | ⟨rfl, rfl⟩ := handover_delivery? hd hm
  case inl =>
    cases hm
    have hq : (handover.world 6).post[2]? =
        some ⟨⟨"a", "b", ⟨1, .appendRequest ⟨"a", 0, 0, 0, [⟨1, 1, .text [120]⟩]⟩⟩⟩, none⟩ := by decide +kernel
    exact ⟨2, _, rfl, ⟨_, hq, rfl⟩, by decide +kernel⟩
  case inr =>
    cases hm
    have hq : (handover.world 14).post[6]? =
        some ⟨⟨"b", "a", ⟨2, .appendRequest ⟨"b", 1, 1, 0, [⟨2, 2, .text [121]⟩]⟩⟩⟩, none⟩ := by decide +kernel
    exact ⟨6, _, rfl, ⟨_, hq, rfl⟩, by decide +kernel⟩

theorem matched_sound_of_handover :
    handover.founding.Blank ∧ handover.InOrder ∧ handover.AnswersPromptly ∧
    (handover.world 7).Leads "a" 1 ∧ ((handover.world 7).engine "b").term = 1 ∧
    (((handover.world 7).engine "a").replication? (.peer "b")).map Replication.matched = some 1 ∧
    ∃ e, (handover.world 7).entryAt? "a" 1 = some e ∧ (handover.world 7).entryAt? "b" 1 = some e := by
  have ho : handover.InOrder := .of_places (by decide +kernel)
  have hl : (handover.world 7).Leads "a" 1 := by decide +kernel
  have ht : ((handover.world 7).engine "b").term = 1 := by decide +kernel
  have hk : (((handover.world 7).engine "a").replication? (.peer "b")).map Replication.matched = some 1 := by
    decide +kernel
  have ⟨known, hr, h⟩ :=
    matched_sound Founding.fresh_blank ho handover_answersPromptly 7 "a" "b" 1 hl (by decide) (by decide) ht
  rw [hr, Option.map_some] at hk
  refine ⟨Founding.fresh_blank, ho, handover_answersPromptly, hl, ht, by rw [hr, Option.map_some, hk], ?_⟩
  exact h 1 (by decide) (Nat.le_of_eq (Option.some.inj hk).symm)

-- `a` gives up each of its heartbeats before the replies to them come, and sends the next one. The replies come in
-- order, but only after so many requests that those which they answer are forgotten.
def lateReplies : Run where
  founding := pair
  actions  :=
    [.command "a" .timeout, .deliver 0, .deliver 1] ++
    (List.replicate (maxUnanswered + 1)
      [.command "a" (.replicate (.peer "b")), .command "a" .tick, .command "a" .tick]).flatten ++
    (List.range (maxUnanswered + 1)).map (fun k => .deliver (2 + k)) ++
    [.deliver 67, .command "a" (.submit (.text [120])), .command "a" (.replicate (.peer "b"))] ++
    (List.range maxUnanswered).map (fun k => .deliver (68 + k))

structure Overrates (w : World) (i j : String) (n : Nat) : Prop where
  leads   : w.Leads i (w.engine j).term
  matched : ((w.engine i).replication? (.peer j)).map Replication.matched = some n
  entry   : (w.entryAt? i n).isSome
  lacks   : w.entryAt? j n = none

instance (w : World) (i j : String) (n : Nat) : Decidable (Overrates w i j n) :=
  decidable_of_iff (w.Leads i (w.engine j).term ∧
      ((w.engine i).replication? (.peer j)).map Replication.matched = some n ∧ (w.entryAt? i n).isSome ∧
      w.entryAt? j n = none)
    ⟨fun ⟨h₁, h₂, h₃, h₄⟩ => ⟨h₁, h₂, h₃, h₄⟩, fun ⟨h₁, h₂, h₃, h₄⟩ => ⟨h₁, h₂, h₃, h₄⟩⟩

-- So the order on the links is not enough: neither when a request is forgotten over later ones, nor when a reply
-- answers a request of another term.
theorem overrated_in_order :
    (lateReplies.founding.Blank ∧ lateReplies.InOrder ∧ Overrates (lateReplies.world 330) "a" "b" 1) ∧
    (strayReply.founding.Blank ∧ strayReply.InOrder ∧ Overrates (strayReply.world 22) "a" "b" 1) :=
  ⟨⟨Founding.fresh_blank, .of_places (by decide +kernel), by decide +kernel⟩,
    Founding.fresh_blank, .of_places (by decide +kernel), by decide +kernel⟩

end Run
end RaftGroup
