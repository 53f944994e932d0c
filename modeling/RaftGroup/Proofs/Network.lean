import Mathlib.Logic.Relation
import RaftGroup.Proofs.Election
import RaftGroup.Proofs.Frames
import RaftGroup.Proofs.Settings

namespace RaftGroup

namespace World

variable {w w' : World}

def Sent (w : World) (l : Letter) : Prop :=
  ∃ p ∈ w.post, p.letter = l

theorem Sent.mono (hp : w.post <+: w'.post) : w.Sent l → w'.Sent l
  | ⟨p, hm, hl⟩ => ⟨p, hp.subset hm, hl⟩

theorem post_record (w : World) (i : String) (cause : Option Nat) (out : Except Overflow (Engine × List Outgoing)) :
    w.post <+: (w.record i cause out).post := by
  cases out
  case error => exact List.prefix_refl _
  case ok    => exact List.prefix_append ..

end World

namespace Founding

variable {f : Founding} {w w' w₁ w₂ : World} {e e' : Engine} {os os' : List Outgoing} {i : String}

theorem post_step (f : Founding) (w : World) (a : Action) : w.post <+: (f.step w a).post := by
  cases a
  case command =>
    rw [step]
    split
    case isTrue  => exact w.post_record ..
    case isFalse => exact List.prefix_refl _
  case deliver =>
    rw [step]
    split
    case h_1 => exact List.prefix_refl _
    case h_2 =>
      dsimp only
      split
      case isTrue  => exact w.post_record ..
      case isFalse => exact List.prefix_refl _

def Reaches (f : Founding) (w w' : World) : Prop :=
  ∃ actions : List Action, actions.foldl f.step w = w'

namespace Reaches

theorem refl (w : World) : f.Reaches w w :=
  ⟨[], rfl⟩

theorem trans : f.Reaches w w₁ → f.Reaches w₁ w₂ → f.Reaches w w₂
  | ⟨before, hb⟩, ⟨later, hl⟩ => ⟨before ++ later, by rw [List.foldl_append, hb, hl]⟩

theorem post_mono (h : f.Reaches w w') : w.post <+: w'.post := by
  obtain ⟨actions, rfl⟩ := h
  induction actions generalizing w
  case nil               => exact List.prefix_refl _
  case cons a actions ih => exact (f.post_step w a).trans ih

end Reaches

-- What one member does in a row: it becomes the engine, and the messages are sent.
structure Turns (f : Founding) (i : String) (w : World) (e : Engine) (os : List Outgoing) (w' : World) : Prop where
  reaches : f.Reaches w w'
  engine  : w'.engine = Function.update w.engine i e
  peers   : e.peers = (w.engine i).peers
  sent    : ∀ l ∈ os.flatMap (Group.letters e i), w'.Sent l

namespace Turns

theorem engine_self (h : f.Turns i w e os w') : w'.engine i = e := by
  rw [h.engine, Function.update_self]

theorem idle (f : Founding) (i : String) (w : World) : f.Turns i w (w.engine i) [] w where
  reaches := .refl w
  engine  := (Function.update_eq_self i w.engine).symm
  peers   := rfl
  sent    := nofun

theorem letters_of_peers (h : e'.peers = e.peers) : Group.letters e' i = Group.letters e i := by
  funext o
  rw [Group.letters, Group.letters, h]

theorem trans (h : f.Turns i w e os w₁) (h' : f.Turns i w₁ e' os' w₂) : f.Turns i w e' (os ++ os') w₂ where
  reaches := h.reaches.trans h'.reaches
  engine  := by rw [h'.engine, h.engine, Function.update_idem]
  peers   := by rw [h'.peers, h.engine_self, h.peers]
  sent l hl := by
    rw [List.flatMap_append] at hl
    cases List.mem_append.mp hl
    case inr hl => exact h'.sent l hl
    case inl hl =>
      rw [letters_of_peers (h'.peers.trans (congrArg Engine.peers h.engine_self))] at hl
      exact (h.sent l hl).mono h'.reaches.post_mono

theorem of_record (hr : f.Reaches w (w.record i cause (.ok (e, os)))) (hp : e.peers = (w.engine i).peers) :
    f.Turns i w e os (w.record i cause (.ok (e, os))) where
  reaches := hr
  engine  := rfl
  peers   := hp
  sent l hl := ⟨⟨l, cause⟩, List.mem_append_right _ (List.mem_map_of_mem hl), rfl⟩

theorem of_obey (hi : i ∈ f.members) (h : (w.engine i).obey c = .ok (e, os)) : ∃ w', f.Turns i w e os w' := by
  have hr : f.Reaches w (w.record i none (.ok (e, os))) :=
    ⟨[.command i c], by rw [List.foldl_cons, List.foldl_nil, step, if_pos hi, h]⟩
  exact ⟨_, of_record hr (Engine.peers_of_settings (Engine.obey_settings h))⟩

theorem of_hear (hi : l.receiver ∈ f.members) (hl : w.Sent l)
    (h : (w.engine l.receiver).hear l = .ok (e, os)) : ∃ w', f.Turns l.receiver w e os w' := by
  obtain ⟨p, hp, rfl⟩ := hl
  obtain ⟨k, hk⟩ := List.getElem?_of_mem hp
  obtain ⟨turn, ht, ho⟩ := map_eq_ok_iff.mp h
  have hs : e.peers = (w.engine p.letter.receiver).peers := by
    cases ho
    exact Engine.peers_of_settings (Engine.receive_settings ht)
  have hr : f.Reaches w (w.record p.letter.receiver (some k) (.ok (e, os))) := by
    refine ⟨[.deliver k], ?_⟩
    rw [List.foldl_cons, List.foldl_nil, step, hk]
    dsimp only
    rw [if_pos hi, h]
  exact ⟨_, of_record hr hs⟩

theorem replicateToAll {ps : List Server} (hi : i ∈ f.members) (h : (w.engine i).replicateToAll ps = .ok turn) :
    ∃ w', f.Turns i w turn.engine turn.result w' := by
  induction ps generalizing w turn
  case nil          => cases h; exact ⟨w, .idle f i w⟩
  case cons p ps ih =>
    obtain ⟨first, hp, h⟩ := bind_eq_ok_iff.mp h
    obtain ⟨rest, hr, h⟩ := bind_eq_ok_iff.mp h
    cases h
    obtain ⟨w₁, h₁⟩ := of_obey (c := .replicate p) hi (map_eq_ok_iff.mpr ⟨first, hp, rfl⟩)
    obtain ⟨w₂, h₂⟩ := ih (w := w₁) (by rw [h₁.engine_self]; exact hr)
    exact ⟨w₂, h₁.trans h₂⟩

theorem flush (h₁ : f.Turns i w e os w₁) (hi : i ∈ f.members) (h : Node.flush e = .ok rest) :
    ∃ w', f.Turns i w rest.engine (os ++ rest.result) w' := by
  have hs : (w₁.engine i).replicateToAll e.peers = .ok rest := by rw [h₁.engine_self]; exact h
  obtain ⟨w₂, h₂⟩ := replicateToAll hi hs
  exact ⟨w₂, h₁.trans h₂⟩

theorem tick (hi : i ∈ f.members) (h : Node.tick (w.engine i) = .ok turn) :
    ∃ w', f.Turns i w turn.engine turn.result w' := by
  obtain ⟨first, ht, h⟩ := bind_eq_ok_iff.mp h
  obtain ⟨sent, hs, h⟩ := bind_eq_ok_iff.mp h
  cases h
  obtain ⟨w₁, h₁⟩ := of_obey (c := .tick) hi (map_eq_ok_iff.mpr ⟨first, ht, rfl⟩)
  exact h₁.flush hi hs

theorem receive (hi : l.receiver ∈ f.members) (hl : w.Sent l)
    (h : Node.receive (w.engine l.receiver) l.message (.peer l.sender) = .ok turn) :
    ∃ w', f.Turns l.receiver w turn.engine turn.result w' := by
  obtain ⟨first, hr, h⟩ := bind_eq_ok_iff.mp h
  obtain ⟨sent, hs, h⟩ := bind_eq_ok_iff.mp h
  cases h
  obtain ⟨w₁, h₁⟩ := of_hear hi hl (map_eq_ok_iff.mpr ⟨first, hr, rfl⟩)
  exact h₁.flush hi hs

theorem submit (hi : i ∈ f.members) (h : Node.submit (w.engine i) payload = .ok turn) :
    ∃ w', f.Turns i w turn.engine (turn.result.toOption.elim [] Prod.snd) w' := by
  obtain ⟨first, hs, h⟩ := bind_eq_ok_iff.mp h
  obtain ⟨w₁, h₁⟩ := of_obey (c := .submit payload) hi (map_eq_ok_iff.mpr ⟨first, hs, rfl⟩)
  split at h
  case h_1 => cases h; exact ⟨w₁, h₁⟩
  case h_2 =>
    obtain ⟨sent, hf, h⟩ := bind_eq_ok_iff.mp h
    cases h
    exact h₁.flush hi hf

end Turns

theorem takeAll {ms : List String} (hn : ms.Nodup) (hm : ∀ i ∈ ms, i ∈ f.members) : ∃ w', f.Reaches w w' ∧
    ∀ i, w'.engine i = if i ∈ ms then (w.engine i).takeAllCommitted.2 else w.engine i := by
  induction ms generalizing w
  case nil          => exact ⟨w, .refl w, fun i => (if_neg List.not_mem_nil).symm⟩
  case cons m ms ih =>
    obtain ⟨w₁, h₁⟩ : ∃ w₁, f.Turns m w (w.engine m).takeAllCommitted.2 [] w₁ :=
      Turns.of_obey (c := .take (w.engine m).committedCount) (hm m List.mem_cons_self) rfl
    obtain ⟨w₂, hr, h₂⟩ := ih (w := w₁) hn.of_cons fun i hi => hm i (List.mem_cons_of_mem m hi)
    refine ⟨w₂, h₁.reaches.trans hr, fun i => ?_⟩
    rw [h₂, h₁.engine]
    by_cases hi : i = m
    case pos => subst hi; simp [hn.notMem]
    case neg => simp [hi]

end Founding

namespace Group

variable {g g' : Group} {f : Founding} {w w' : World} {e : Engine} {os : List Outgoing} {i : String}

-- The world has the same members, and whatever is on its way in the group has been sent in it. What has been sent stays
-- in the world, while the group forgets what has been delivered or lost.
structure Shows (g : Group) (f : Founding) (w : World) : Prop where
  nodes : g.nodes = f.members.map fun i => (i, w.engine i)
  queue : ∀ l ∈ g.queue, w.Sent l

def Ahead (g : Group) (f : Founding) (w : World) : Prop :=
  ∃ w', f.Reaches w w' ∧ g.Shows f w'

theorem Ahead.of_reaches (hr : f.Reaches w w') : g.Ahead f w' → g.Ahead f w
  | ⟨w₂, hr', h⟩ => ⟨w₂, hr.trans hr', h⟩

namespace Shows

theorem ahead (h : g.Shows f w) : g.Ahead f w :=
  ⟨w, .refl w, h⟩

theorem of_queue (h : g.Shows f w) (hn : g'.nodes = g.nodes) (hq : ∀ l ∈ g'.queue, l ∈ g.queue) : g'.Shows f w where
  nodes := hn.trans h.nodes
  queue l hl := h.queue l (hq l hl)

theorem add (h : g.Shows f w) (hs : ∀ l ∈ ls, w.Sent l) : { g with queue := g.queue ++ ls }.Shows f w where
  nodes := h.nodes
  queue l hl := (List.mem_append.mp hl).elim (h.queue l) (hs l)

theorem node? (h : g.Shows f w) (hn : g.node? i = some e) : i ∈ f.members ∧ e = w.engine i := by
  obtain ⟨xs, ys, hl, -⟩ := List.lookup_eq_some_iff.mp hn
  have hm : (i, e) ∈ f.members.map fun i => (i, w.engine i) := by
    rw [← h.nodes, hl]
    exact List.mem_append_right _ List.mem_cons_self
  obtain ⟨j, hj, hm⟩ := List.mem_map.mp hm
  cases hm
  exact ⟨hj, rfl⟩

theorem turn (h : g.Shows f w) (ht : f.Turns i w e os w') : (g.setNode i e).Shows f w' where
  nodes := by
    rw [setNode, h.nodes, List.map_map, ht.engine]
    refine List.map_congr_left fun j _ => ?_
    by_cases hj : j = i
    case pos => subst hj; simp
    case neg => simp [hj]
  queue l hl := (h.queue l hl).mono ht.reaches.post_mono

theorem tickEach (h : g.Shows f w) (ho : g.tickEach ids = .ok (g', added)) :
    ∃ w', f.Reaches w w' ∧ g'.Shows f w' ∧ ∀ l ∈ added, w'.Sent l := by
  induction ids generalizing g w added
  case nil           => cases ho; exact ⟨w, .refl w, h, nofun⟩
  case cons id ids ih =>
    rw [Group.tickEach] at ho
    split at ho
    case h_1      => exact ih h ho
    case h_2 e hn =>
      obtain ⟨turn, ht, ho⟩ := bind_eq_ok_iff.mp ho
      obtain ⟨⟨g₁, rest⟩, hr, ho⟩ := bind_eq_ok_iff.mp ho
      cases ho
      obtain ⟨hi, rfl⟩ := h.node? hn
      obtain ⟨w₁, h₁⟩ := Founding.Turns.tick hi ht
      obtain ⟨w₂, hr₂, h₂, hs⟩ := ih (h.turn h₁) hr
      refine ⟨w₂, h₁.reaches.trans hr₂, h₂, fun l hl => (List.mem_append.mp hl).elim (fun hl => ?_) (hs l)⟩
      exact (h₁.sent l hl).mono hr₂.post_mono

theorem tick (h : g.Shows f w) (ho : g.tick ids = .ok (g', n)) : g'.Ahead f w := by
  obtain ⟨⟨g₁, added⟩, ht, ho⟩ := bind_eq_ok_iff.mp ho
  cases ho
  obtain ⟨w₁, hr, h₁, hs⟩ := h.tickEach ht
  exact ⟨w₁, hr, h₁.add hs⟩

theorem submit (h : g.Shows f w) (ho : g.submit i payload = .ok (g', r)) : g'.Ahead f w := by
  rw [Group.submit] at ho
  split at ho
  case h_1      => cases ho; exact h.ahead
  case h_2 e hn =>
    obtain ⟨hi, rfl⟩ := h.node? hn
    obtain ⟨turn, ht, ho⟩ := bind_eq_ok_iff.mp ho
    obtain ⟨w₁, h₁⟩ := Founding.Turns.submit hi ht
    split at ho
    case h_1    => cases ho; exact ⟨w₁, h₁.reaches, h.turn h₁⟩
    case h_2 hr =>
      cases ho
      rw [hr] at h₁
      exact ⟨w₁, h₁.reaches, (h.turn h₁).add h₁.sent⟩

theorem submitEach (h : g.Shows f w) (ho : g.submitEach payload ids = .ok (g', r)) : g'.Ahead f w := by
  induction ids generalizing g g' w r
  case nil            => cases ho; exact h.ahead
  case cons id ids ih =>
    obtain ⟨⟨g₁, submission⟩, hs, ho⟩ := bind_eq_ok_iff.mp ho
    obtain ⟨⟨g₂, rest⟩, hr, ho⟩ := bind_eq_ok_iff.mp ho
    obtain ⟨w₁, hw, h₁⟩ := h.submit hs
    obtain rfl : g₂ = g' := by
      dsimp only at ho
      split at ho <;> cases ho <;> rfl
    exact .of_reaches hw (ih h₁ hr)

theorem handOver (h : g.Shows f w) (hl : w.Sent l) (ho : g.handOver l = .ok (g', d)) :
    ∃ w', f.Reaches w w' ∧ g'.Shows f w' ∧ g'.queue = g.queue ∧ ∀ l ∈ d.added, w'.Sent l := by
  rw [Group.handOver] at ho
  split at ho
  case isTrue  => cases ho; exact ⟨w, .refl w, h, rfl, nofun⟩
  case isFalse =>
    split at ho
    case h_1      => cases ho; exact ⟨w, .refl w, h, rfl, nofun⟩
    case h_2 e hn =>
      obtain ⟨turn, ht, ho⟩ := bind_eq_ok_iff.mp ho
      cases ho
      obtain ⟨hi, rfl⟩ := h.node? hn
      obtain ⟨w₁, h₁⟩ := Founding.Turns.receive hi hl ht
      exact ⟨w₁, h₁.reaches, h.turn h₁, rfl, h₁.sent⟩

theorem drop (h : g.Shows f w) (k : Nat) : (g.drop k).1.Shows f w :=
  h.of_queue rfl fun _ => List.mem_of_mem_eraseIdx

theorem deliver (h : g.Shows f w) (ho : g.deliver k = .ok (g', d)) : g'.Ahead f w := by
  rw [Group.deliver] at ho
  cases hk : g.queue[k]?
  case none =>
    simp only [Group.drop, hk] at ho
    cases ho
    exact (h.drop k).ahead
  case some l =>
    simp only [Group.drop, hk] at ho
    obtain ⟨⟨g₁, d₁⟩, hd, ho⟩ := bind_eq_ok_iff.mp ho
    cases ho
    obtain ⟨w₁, hr, h₁, -, hs⟩ := (h.drop k).handOver (h.queue l (List.mem_of_getElem? hk)) hd
    exact ⟨w₁, hr, h₁.add hs⟩

theorem drainFor (h : g.Shows f w) (hf : ∀ l ∈ front, w.Sent l) (hb : ∀ l ∈ back, w.Sent l)
    (ho : Group.drainFor limit front back g t = .ok (g', t')) : g'.Ahead f w := by
  fun_induction Group.drainFor limit front back g t generalizing w
  case case1 =>
    cases ho
    refine ⟨w, .refl w, h.nodes, fun l hl => ?_⟩
    exact (List.mem_append.mp hl).elim (hf l) fun hl => hb l (List.mem_reverse.mp hl)
  case case2 => cases ho; exact ⟨w, .refl w, h.nodes, nofun⟩
  case case3 ih => exact ih h (fun l hl => hb l (List.mem_reverse.mp hl)) nofun ho
  case case4 ih =>
    obtain ⟨⟨g₁, d⟩, hd, ho⟩ := bind_eq_ok_iff.mp ho
    obtain ⟨w₁, hr, h₁, -, hs⟩ := h.handOver (hf _ List.mem_cons_self) hd
    refine .of_reaches hr (ih _ _ h₁ (fun l hl => ?_) (fun l hl => ?_) ho)
    · exact (hf l (List.mem_cons_of_mem _ hl)).mono hr.post_mono
    · exact (List.mem_append.mp hl).elim (fun hl => hs l (List.mem_reverse.mp hl)) fun hl => (hb l hl).mono hr.post_mono

theorem drain (h : g.Shows f w) (ho : g.drain = .ok (g', t)) : g'.Ahead f w :=
  h.drainFor h.queue (fun _ hl => absurd hl List.not_mem_nil) ho

theorem apply (h : g.Shows f w) : g.apply.1.Ahead f w := by
  obtain ⟨w₁, hr, hw⟩ := f.takeAll (w := w) f.nodup fun i hi => hi
  refine ⟨w₁, hr, ?_, fun l hl => (h.queue l hl).mono hr.post_mono⟩
  rw [Group.apply, h.nodes]
  simp only [List.map_map]
  refine List.map_congr_left fun i hi => ?_
  simp only [Function.comp_apply, hw, if_pos hi]

theorem round (h : g.Shows f w) (ho : g.round = .ok (g', r)) : g'.Ahead f w := by
  obtain ⟨⟨g₁, _⟩, ht, ho⟩ := bind_eq_ok_iff.mp ho
  obtain ⟨⟨g₂, _⟩, hd, ho⟩ := bind_eq_ok_iff.mp ho
  cases ho
  obtain ⟨w₁, hr₁, h₁⟩ := h.tick ht
  obtain ⟨w₂, hr₂, h₂⟩ := h₁.drain hd
  obtain ⟨w₃, hr₃, h₃⟩ := h₂.apply
  exact ⟨w₃, hr₁.trans (hr₂.trans hr₃), h₃.nodes, h₃.queue⟩

theorem run (h : g.Shows f w) (ho : g.run n = .ok (g', rounds)) : g'.Ahead f w := by
  induction n generalizing g w rounds
  case zero      => cases ho; exact h.ahead
  case succ n ih =>
    obtain ⟨⟨g₁, _⟩, hf, ho⟩ := bind_eq_ok_iff.mp ho
    obtain ⟨⟨g₂, _⟩, hr, ho⟩ := bind_eq_ok_iff.mp ho
    cases ho
    obtain ⟨w₁, hw, h₁⟩ := h.round hf
    exact .of_reaches hw (ih h₁ hr)

end Shows

inductive Step (g : Group) : Group → Prop
  | tick (ok : g.tick ids = .ok (later, n)) : Step g later
  | submit (ok : g.submit member payload = .ok (later, submission)) : Step g later
  | submitLeaders (ok : g.submitLeaders payload = .ok (later, submissions)) : Step g later
  | deliver (ok : g.deliver k = .ok (later, delivery)) : Step g later
  | drop (k : Nat) : Step g (g.drop k).1
  | duplicate (k : Nat) : Step g (g.duplicate k).1
  | reverse : Step g g.reverse
  | clear : Step g g.clear.1
  | block (sender receiver : String) : Step g (g.block sender receiver)
  | heal : Step g g.heal
  | drain (ok : g.drain = .ok (later, traffic)) : Step g later
  | apply : Step g g.apply.1
  | showChanges : Step g g.showChanges.1
  | run (ok : g.run n = .ok (later, rounds)) : Step g later

theorem Shows.step (h : g.Shows f w) (hs : g.Step g') : g'.Ahead f w := by
  cases hs
  case tick ho          => exact h.tick ho
  case submit ho        => exact h.submit ho
  case submitLeaders ho => exact h.submitEach ho
  case deliver ho       => exact h.deliver ho
  case drop k           => exact (h.drop k).ahead
  case duplicate k      =>
    rw [duplicate]
    split
    case h_1      => exact h.ahead
    case h_2 l hl => exact (h.add fun _ hm => List.mem_singleton.mp hm ▸ h.queue l (List.mem_of_getElem? hl)).ahead
  case reverse          => exact Shows.ahead (h.of_queue rfl fun _ => List.mem_reverse.mp)
  case clear            => exact Shows.ahead (h.of_queue rfl fun _ hl => absurd hl List.not_mem_nil)
  case block            => exact Shows.ahead (h.of_queue rfl fun _ => id)
  case heal             => exact Shows.ahead (h.of_queue rfl fun _ => id)
  case drain ho         => exact h.drain ho
  case apply            => exact h.apply
  case showChanges      => exact Shows.ahead (h.of_queue rfl fun _ => id)
  case run ho           => exact h.run ho

theorem Shows.steps (h : g.Shows f w) (hs : Relation.ReflTransGen Step g g') : g'.Ahead f w := by
  induction hs
  case refl          => exact h.ahead
  case tail _ hs ih  =>
    obtain ⟨w₁, hr, h₁⟩ := ih
    exact .of_reaches hr (h₁.step hs)

section

variable {members : List Member}

def member? (members : List Member) (i : String) : Option Member :=
  members.find? (·.id = i)

def Member.storage (m : Member) : Storage :=
  { log := (Log.ofEntries m.entries).toOption.getD {} }

theorem member?_of_mem (hn : (members.map Member.id).Nodup) (hm : m ∈ members) : member? members m.id = some m := by
  induction members
  case nil               => cases hm
  case cons n members ih =>
    rw [List.map_cons, List.nodup_cons] at hn
    rw [member?, List.find?_cons]
    cases List.mem_cons.mp hm
    case inl hm => subst hm; simp
    case inr hm =>
      have hi : n.id ≠ m.id := fun hi => hn.left (hi ▸ List.mem_map_of_mem hm)
      simpa [hi, member?] using ih hn.right hm

def founding (members : List Member) (hn : (members.map Member.id).Nodup) (hf : members.length < wordSize) :
    Founding where
  members   := members.map Member.id
  peers _   := members.map fun m => .peer m.id
  storage i := (member? members i).elim {} Member.storage
  random i  := (member? members i).elim ⟨fun _ => 0, 0⟩ Member.random
  config i  := (member? members i).elim {} Member.config
  nodup     := hn
  fits      := by rwa [List.length_map]
  mem_peers_iff i hi j := by
    constructor
    case mpr =>
      intro hj
      obtain ⟨m, hm, rfl⟩ := List.mem_map.mp hj
      exact .inr ⟨.peer m.id, List.mem_map.mpr ⟨m, hm, rfl⟩, rfl⟩
    case mp =>
      rintro (rfl | ⟨p, hp, rfl⟩)
      · exact hi
      · obtain ⟨m, hm, rfl⟩ := List.mem_map.mp hp
        exact List.mem_map_of_mem hm

variable (hn : (members.map Member.id).Nodup) (hf : members.length < wordSize)

theorem founding_blank (he : ∀ m ∈ members, m.entries = []) : (founding members hn hf).Blank := by
  intro i hi
  obtain ⟨m, hm, rfl⟩ := List.mem_map.mp hi
  change (member? members m.id).elim {} Member.storage = {}
  rw [member?_of_mem hn hm, Option.elim_some, Member.storage, he m hm]
  rfl

theorem shows_start (hs : start members = .ok g) : g.Shows (founding members hn hf) (founding members hn hf).world := by
  obtain ⟨nodes, hm, hs⟩ := bind_eq_ok_iff.mp hs
  cases hs
  refine ⟨?_, nofun⟩
  let engine (m : Member) : Engine := .start m.id (members.map fun m => .peer m.id) m.storage m.random m.config
  have hr : members.Forall₂ (fun m n => (m.id, engine m) = n) nodes := by
    refine (mapM_eq_ok_iff.mp hm).imp fun m n hn => ?_
    obtain ⟨log, hl, hn⟩ := bind_eq_ok_iff.mp hn
    cases hn
    simp only [engine, Member.storage, hl]
    rfl
  calc nodes
    _ = members.map fun m => (m.id, engine m) := (List.forall₂_eq_eq_eq ▸ List.forall₂_map_left_iff.mpr hr).symm
    _ = (members.map Member.id).map fun i => (i, (founding members hn hf).world.engine i) := by
      rw [List.map_map]
      refine List.map_congr_left fun m hm => ?_
      simp only [Function.comp_apply, Founding.world, founding, member?_of_mem hn hm, Option.elim_some, engine]

include hn hf

-- Whatever has been done to a group since it was started, a run of its members comes to a world that shows it.
theorem exists_run (hs : start members = .ok g) (hr : Relation.ReflTransGen Step g g') :
    ∃ r : Run, r.founding = founding members hn hf ∧ ((∀ m ∈ members, m.entries = []) → r.founding.Blank) ∧
      g'.Shows r.founding (r.world r.actions.length) := by
  obtain ⟨w, ⟨actions, ha⟩, h⟩ := (shows_start hn hf hs).steps hr
  refine ⟨⟨founding members hn hf, actions⟩, rfl, founding_blank hn hf, ?_⟩
  rw [Run.world, List.take_length, ha]
  exact h

theorem leader_unique (hs : start members = .ok g) (hr : Relation.ReflTransGen Step g g') (hi : (i, e) ∈ g'.nodes)
    (hj : (j, e') ∈ g'.nodes) (hl : e.role = .leader) (hl' : e'.role = .leader) (ht : e.term = e'.term) : i = j := by
  obtain ⟨r, -, -, h⟩ := exists_run hn hf hs hr
  have leads {k : String} {d : Engine} (hk : (k, d) ∈ g'.nodes) (hd : d.role = .leader) :
      (r.world r.actions.length).Leads k d.term := by
    rw [h.nodes] at hk
    obtain ⟨_, _, hk⟩ := List.mem_map.mp hk
    cases hk
    exact ⟨hd, rfl⟩
  obtain ⟨_, _, _, hu, hv⟩ := Timeline.of_worlds r False False.elim r.actions.length r.actions.length
  exact Timeline.leader_unique (.of_world hu (leads hi hl)) (.of_world hv (ht ▸ leads hj hl'))

end

end Group
end RaftGroup
