import RaftGroup.Proofs.Dialing

namespace RaftGroup

structure Link where
  peer : Server
  direction : Direction
  number : Nat
  deriving DecidableEq

theorem Slot.mem_connections {s : Slot} (h : s.held d = some c) : c ∈ s.connections := by
  cases d
  case inbound  => exact List.mem_append_right _ (Option.mem_toList.mpr h)
  case outbound => exact List.mem_append_left _ (Option.mem_toList.mpr h)

namespace Links

variable {l l' : Links} {p q : Server} {c : Nat} {s : Slot} {i : Input} {x : Link}

def Holds (l : Links) (x : Link) : Prop :=
  (l.slot x.peer).held x.direction = some x.number

instance (l : Links) (x : Link) : Decidable (l.Holds x) :=
  inferInstanceAs (Decidable (_ = _))

def Input.brings? : Input → Option Link
  | .control (.identified p c _) => some ⟨p, .inbound, c⟩
  | .control (.connected p c _)  => some ⟨p, .outbound, c⟩
  | _                            => none

def Input.ends? : Input → Option Link
  | .control (.closed p c d) => some ⟨p, d, c⟩
  | _                        => none

-- The peer that has made itself known, unless its connection could not be put to use.
def Input.welcomes? : Input → Option (Server × Nat)
  | .control (.identified p c none) => some (p, c)
  | _                               => none

def refuses? (l : Links) : Input → Option Link
  | .control (.send p _ refusal) =>
    ((l.slot p).inbound.filter fun c => (refusal c).isSome).map fun c => ⟨p, .inbound, c⟩
  | _                            => none

def Single (l : Links) : Prop :=
  ∀ p, (l.own p).1 = none ∨ (l.own p).2 = none

theorem Moves.single (hs : l.Single) : l.Moves outcome out → out.1.Single := by
  have hu {p v} {own : Server → Option Nat × Option Nat} (ho : own = Function.update l.own p v)
      (hv : v.1 = none ∨ v.2 = none) (q : Server) : (own q).1 = none ∨ (own q).2 = none := by
    by_cases hq : q = p
    case pos => rwa [ho, hq, Function.update_self]
    case neg => rw [ho, Function.update_of_ne hq]; exact hs q
  intro hm
  cases hm
  case rests own _ _ _  => intro q; rw [own]; exact hs q
  case dials own _ _    => exact hu own (.inr rfl)
  case evicts own _ _   => exact hu own (.inr rfl)
  case opens own _ _    => exact hu own (.inl rfl)
  case fails own _ _    => exact hu own (.inl rfl)
  case loses own _ _    => exact hu own (.inr rfl)

theorem holds_setSlot_of_ne (s : Slot) (h : x.peer ≠ p) : (l.setSlot p s).Holds x ↔ l.Holds x := by
  rw [Holds, slot_setSlot_of_ne l s h, Holds]

theorem holds_setSlot (l : Links) (s : Slot) (p : Server) (d : Direction) (c : Nat) :
    (l.setSlot p s).Holds ⟨p, d, c⟩ ↔ s.held d = some c := by
  rw [Holds, slot_setSlot]

-- Whatever is held goes on being held, or is shut down.
def Spares (l : Links) (out : Links × List Effect) : Prop :=
  ∀ x, l.Holds x → out.1.Holds x ∨ .close x.number ∈ out.2

theorem spares_self (l : Links) (es : List Effect) : l.Spares (l, es) :=
  fun _ => .inl

theorem Spares.mono (h : l.Spares (l', es)) (hs : es ⊆ es') : l.Spares (l', es') :=
  fun x hx => (h x hx).imp_right fun hm => hs hm

theorem setSlot_spares (h : ∀ d c, (l.slot p).held d = some c → s.held d = some c ∨ .close c ∈ es) :
    l.Spares (l.setSlot p s, es) := by
  intro x hx
  by_cases hp : x.peer = p
  case pos =>
    subst hp
    exact (h x.direction x.number hx).imp_left (holds_setSlot ..).mpr
  case neg => exact .inl ((holds_setSlot_of_ne s hp).mpr hx)

theorem release_held (s : Slot) (d d' : Direction) : (s.release d).held d' = if d = d' then none else s.held d' := by
  cases d <;> cases d' <;> rfl

theorem release_holds_iff (hc : (l.slot p).held d = some c) :
    (l.setSlot p ((l.slot p).release d)).Holds x ↔ l.Holds x ∧ ⟨p, d, c⟩ ≠ x := by
  obtain ⟨q, d', n⟩ := x
  by_cases hq : q = p
  case neg =>
    have hx : (⟨p, d, c⟩ : Link) ≠ ⟨q, d', n⟩ := fun he => hq (congrArg Link.peer he).symm
    rw [holds_setSlot_of_ne _ hq, and_iff_left hx]
  case pos =>
    subst hq
    rw [holds_setSlot, release_held]
    split
    case isFalse hd => exact (and_iff_left fun he => hd (congrArg Link.direction he)).symm
    case isTrue hd  =>
      subst hd
      refine iff_of_false nofun fun ⟨h, hx⟩ => hx ?_
      rw [Option.some.inj (hc.symm.trans h)]

theorem Spares.release (hc : (l.slot p).held d = some c) (h : (l.setSlot p ((l.slot p).release d)).Spares (l', es)) :
    l.Spares (l', .close c :: es) := by
  intro x hx
  by_cases he : ⟨p, d, c⟩ = x
  case pos => exact .inr (he ▸ List.mem_cons_self)
  case neg => exact (h x ((release_holds_iff hc).mpr ⟨hx, he⟩)).imp_right (List.mem_cons_of_mem _)

theorem connect_spares (l : Links) (p : Server) : l.Spares (l.connect p) :=
  setSlot_spares (l := { l with nextId := l.nextId + 1 }) fun d _ hc => .inl (by cases d <;> exact hc)

theorem ensure_spares (l : Links) (p : Server) : l.Spares (l.ensure p) := by
  rw [ensure]
  split
  case isTrue  => exact l.spares_self _
  case isFalse => exact l.connect_spares p

theorem sendOutbound_spares (l : Links) (p : Server) (m : Message) (refusal : Nat → Option ConnectionError) :
    l.Spares (l.sendOutbound p m refusal) := by
  rw [sendOutbound]
  split
  case h_1 c hc =>
    split
    case h_1 => exact l.spares_self _
    case h_2 =>
      have h := Spares.release (d := .outbound) hc (connect_spares _ p)
      exact h.mono (List.cons_subset_cons _ (List.subset_cons_self ..))
  case h_2 => exact l.spares_self _
  case h_3 => exact l.connect_spares p

theorem send_spares (l : Links) (p : Server) (m : Message) (refusal : Nat → Option ConnectionError) :
    l.Spares (l.send p m refusal) := by
  rw [send]
  split
  case h_1      => exact l.sendOutbound_spares p m refusal
  case h_2 c hc =>
    split
    case h_1 => exact l.spares_self _
    case h_2 => exact Spares.release (d := .inbound) hc (sendOutbound_spares _ p m refusal)

theorem identified_spares (l : Links) (p : Server) (c : Nat) (fault : Option HostError) :
    l.Spares (l.identified p c fault) := by
  cases fault
  case some => exact l.spares_self _
  case none =>
    refine setSlot_spares fun d n hn => ?_
    cases d
    case outbound => exact .inl hn
    case inbound  => exact .inr (List.mem_map_of_mem (Option.mem_toList.mpr hn))

theorem connected_spares (hs : l.Single) (p : Server) (c : Nat) (fault : Option HostError) :
    l.Spares (l.connected p c fault) := by
  unfold connected
  split
  case isFalse   => exact l.spares_self _
  case isTrue hc =>
    have hw : (l.slot p).working = none := (hs p).resolve_left fun hn => nomatch hc.symm.trans hn
    cases fault
    case some => exact setSlot_spares fun d _ hn => .inl (by cases d <;> exact hn)
    case none =>
      refine setSlot_spares fun d n hn => .inl ?_
      cases d
      case inbound  => exact hn
      case outbound => exact absurd (hw.symm.trans hn) nofun

theorem connectFailed_spares (l : Links) (p : Server) (c : Nat) (cause : HostError) :
    l.Spares (l.connectFailed p c cause) := by
  unfold connectFailed
  split
  case isFalse => exact l.spares_self _
  case isTrue  => exact setSlot_spares fun d _ hn => .inl (by cases d <;> exact hn)

theorem closed_holds_iff (l : Links) (p : Server) (c : Nat) (d : Direction) (x : Link) :
    (l.closed p c d).1.Holds x ↔ l.Holds x ∧ ⟨p, d, c⟩ ≠ x := by
  unfold closed
  split
  case isTrue hc  => exact release_holds_iff hc
  case isFalse hc =>
    refine (and_iff_left_of_imp fun h he => ?_).symm
    subst he
    exact hc h

theorem take_spares (hr : l.stopped = false) (hi : i ≠ .control .shutdown) (hs : l.Single) (h : l.Holds x) :
    (l.take i).1.Holds x ∨ .close x.number ∈ (l.take i).2 ∨ i.ends? = some x := by
  cases i
  case accept    => exact .inl h
  case control c =>
    rw [take, step.eq_def, hr]
    cases c
    case ensure p                => exact (l.ensure_spares p x h).imp_right .inl
    case send p m refusal        => exact (l.send_spares p m refusal x h).imp_right .inl
    case identified p c fault    => exact (l.identified_spares p c fault x h).imp_right .inl
    case connected p c fault     => exact (connected_spares hs p c fault x h).imp_right .inl
    case connectFailed p c cause => exact (l.connectFailed_spares p c cause x h).imp_right .inl
    case closed p c d            =>
      by_cases hx : ⟨p, d, c⟩ = x
      case pos => exact .inr (.inr (congrArg some hx))
      case neg => exact .inl ((l.closed_holds_iff p c d x).mpr ⟨h, hx⟩)
    case shutdown                => exact absurd rfl hi

theorem take_brings (hr : l.stopped = false) (hx : i.brings? = some x) :
    (l.take i).1.Holds x ∨ .close x.number ∈ (l.take i).2 := by
  cases i
  case accept    => cases hx
  case control c =>
    rw [take, step.eq_def, hr]
    cases c
    case identified p c fault =>
      cases hx
      cases fault
      case none => exact .inl ((holds_setSlot ..).mpr rfl)
      case some => exact .inr List.mem_cons_self
    case connected p c fault  =>
      cases hx
      simp only [connected, Bool.false_eq_true, if_false]
      split
      case isFalse => exact .inr List.mem_cons_self
      case isTrue  =>
        cases fault
        case none => exact .inl ((holds_setSlot ..).mpr rfl)
        case some => exact .inr List.mem_cons_self
    all_goals cases hx

def inbound (l : Links) (p : Server) : Option Nat :=
  (l.slot p).inbound

theorem setSlot_inbound_of_eq (h : s.inbound = (l.slot p).inbound) : (l.setSlot p s).inbound = l.inbound := by
  funext q
  by_cases hq : q = p
  case pos => rw [hq, inbound, slot_setSlot, h, inbound]
  case neg => rw [inbound, slot_setSlot_of_ne l s hq, inbound]

theorem connect_inbound (l : Links) (p : Server) : (l.connect p).1.inbound = l.inbound :=
  setSlot_inbound_of_eq (l := { l with nextId := l.nextId + 1 }) rfl

theorem ensure_inbound (l : Links) (p : Server) : (l.ensure p).1.inbound = l.inbound := by
  rw [ensure]
  split
  case isTrue  => rfl
  case isFalse => exact l.connect_inbound p

theorem sendOutbound_inbound (l : Links) (p : Server) (m : Message) (refusal : Nat → Option ConnectionError) :
    (l.sendOutbound p m refusal).1.inbound = l.inbound := by
  rw [sendOutbound]
  split
  case h_1 =>
    split
    case h_1 => rfl
    case h_2 => exact (connect_inbound _ p).trans (setSlot_inbound_of_eq rfl)
  case h_2 => rfl
  case h_3 => exact l.connect_inbound p

theorem connected_inbound (l : Links) (p : Server) (c : Nat) (fault : Option HostError) :
    (l.connected p c fault).1.inbound = l.inbound := by
  unfold connected
  split
  case isFalse => rfl
  case isTrue  => cases fault <;> exact setSlot_inbound_of_eq rfl

theorem connectFailed_inbound (l : Links) (p : Server) (c : Nat) (cause : HostError) :
    (l.connectFailed p c cause).1.inbound = l.inbound := by
  unfold connectFailed
  split
  case isFalse => rfl
  case isTrue  => exact setSlot_inbound_of_eq rfl

theorem holds_iff_of_inbound_eq (h : l'.inbound = l.inbound) (q : Server) (n : Nat) :
    l'.Holds ⟨q, .inbound, n⟩ ↔ l.Holds ⟨q, .inbound, n⟩ :=
  iff_of_eq (congrArg (fun f : Server → Option Nat => f q = some n) h)

theorem send_holds_iff (l : Links) (p : Server) (m : Message) (refusal : Nat → Option ConnectionError) (q : Server)
    (n : Nat) : (l.send p m refusal).1.Holds ⟨q, .inbound, n⟩ ↔
      l.Holds ⟨q, .inbound, n⟩ ∧ l.refuses? (.control (.send p m refusal)) ≠ some ⟨q, .inbound, n⟩ := by
  have ho (l : Links) := holds_iff_of_inbound_eq (l.sendOutbound_inbound p m refusal) q n
  rw [send]
  split
  case h_1 hc   =>
    have hr : l.refuses? (.control (.send p m refusal)) = none := by rw [refuses?, hc]; rfl
    rw [ho, hr, and_iff_left (Option.some_ne_none _).symm]
  case h_2 c hc =>
    split
    case h_1 hn =>
      have hr : l.refuses? (.control (.send p m refusal)) = none := by rw [refuses?, hc, Option.filter_some, hn]; rfl
      rw [hr, and_iff_left (Option.some_ne_none _).symm]
    case h_2 hn =>
      have hr : l.refuses? (.control (.send p m refusal)) = some ⟨p, .inbound, c⟩ := by
        rw [refuses?, hc, Option.filter_some, hn]; rfl
      rw [hr, Ne, Option.some.injEq]
      exact (ho _).trans (release_holds_iff (d := .inbound) hc)

theorem take_holds_iff (hr : l.stopped = false) (hi : i ≠ .control .shutdown) (hw : i.welcomes? = none) (q : Server)
    (n : Nat) : (l.take i).1.Holds ⟨q, .inbound, n⟩ ↔
      l.Holds ⟨q, .inbound, n⟩ ∧ l.refuses? i ≠ some ⟨q, .inbound, n⟩ ∧ i.ends? ≠ some ⟨q, .inbound, n⟩ := by
  have hq {l' : Links} (h : l'.inbound = l.inbound) : l'.Holds ⟨q, .inbound, n⟩ ↔
      l.Holds ⟨q, .inbound, n⟩ ∧ (none : Option Link) ≠ some ⟨q, .inbound, n⟩ ∧
        (none : Option Link) ≠ some ⟨q, .inbound, n⟩ := by
    rw [holds_iff_of_inbound_eq h, and_iff_left ⟨nofun, nofun⟩]
  cases i
  case accept    => exact hq rfl
  case control c =>
    rw [take, step.eq_def, hr]
    cases c
    case ensure p                => exact hq (l.ensure_inbound p)
    case send p m refusal        => exact (l.send_holds_iff p m refusal q n).trans (by simp [Input.ends?])
    case identified p c fault    =>
      cases fault
      case none => cases hw
      case some => exact hq rfl
    case connected p c fault     => exact hq (l.connected_inbound p c fault)
    case connectFailed p c cause => exact hq (l.connectFailed_inbound p c cause)
    case closed p c d            => exact (l.closed_holds_iff p c d _).trans (by simp [Input.ends?, refuses?])
    case shutdown                => exact absurd rfl hi

theorem welcomes?_eq_some_iff : i.welcomes? = some (p, c) ↔ i = .control (.identified p c none) := by
  constructor
  case mpr => rintro rfl; rfl
  case mp =>
    intro h
    unfold Input.welcomes? at h
    split at h
    case h_1 => cases h; rfl
    case h_2 => cases h

theorem take_welcome_holds_iff (hr : l.stopped = false) (p : Server) (c : Nat) (q : Server) (n : Nat) :
    (l.take (.control (.identified p c none))).1.Holds ⟨q, .inbound, n⟩ ↔
      if q = p then c = n else l.Holds ⟨q, .inbound, n⟩ := by
  have ht : l.take (.control (.identified p c none)) = l.identified p c none := by rw [take, step.eq_def, hr]; rfl
  rw [ht, identified]
  split
  case isFalse hq => exact holds_setSlot_of_ne _ hq
  case isTrue hq  =>
    subst hq
    exact (holds_setSlot ..).trans Option.some_inj

theorem holds_of_refuses? (h : l.refuses? i = some x) : x.direction = .inbound ∧ l.Holds x := by
  unfold refuses? at h
  split at h
  case h_2 => cases h
  case h_1 =>
    obtain ⟨c, hc, rfl⟩ := Option.map_eq_some_iff.mp h
    exact ⟨rfl, (Option.filter_eq_some_iff.mp hc).left⟩

theorem shutdown_closes (h : l.Holds x) : .close x.number ∈ l.shutdown.2 := by
  obtain ⟨p, d, c⟩ := x
  rw [Holds, slot] at h
  cases hs : l.slots.lookup p
  case none   =>
    rw [hs] at h
    cases d <;> cases h
  case some s =>
    rw [hs] at h
    obtain ⟨xs, ys, hl, -⟩ := List.lookup_eq_some_iff.mp hs
    have hm : (p, s) ∈ l.slots := hl ▸ List.mem_append_right _ List.mem_cons_self
    exact List.mem_flatMap.mpr ⟨_, hm, List.mem_map_of_mem (Slot.mem_connections h)⟩

end Links

open Links (Input)

-- What has come so far, and what has become of it. The newest connection of a peer is the last one by which it has made
-- itself known and that could be put to use.
structure Custody where
  links : Links := {}
  effects : List Effect := []
  brought : List Link := []
  newest : Server → Option Nat := fun _ => none
  refused : List Link := []
  ended : List Link := []

namespace Custody

variable {past : Custody} {i : Input} {inputs : List Input} {x : Link} {p : Server} {c : Nat}

def next (past : Custody) (i : Input) : Custody where
  links   := (past.links.take i).1
  effects := past.effects ++ (past.links.take i).2
  brought := past.brought ++ i.brings?.toList
  newest  := match i.welcomes? with
    | some (p, c) => Function.update past.newest p (some c)
    | none        => past.newest
  refused := past.refused ++ (past.links.refuses? i).toList
  ended   := past.ended ++ i.ends?.toList

def after (past : Custody) (inputs : List Input) : Custody :=
  inputs.foldl next past

-- Its socket is shut down. A reader does that by itself before it reports that a connection has ended.
def Shut (past : Custody) (x : Link) : Prop :=
  .close x.number ∈ past.effects ∨ x ∈ past.ended

-- A connection comes once, under a number of its own, and it does not end before it has come.
structure Allows (past : Custody) (i : Input) : Prop where
  running : i ≠ .control .shutdown
  fresh   : ∀ x, i.brings? = some x → ∀ y ∈ past.brought, y.number ≠ x.number
  due     : ∀ x, i.ends? = some x → x ∈ past.brought

def Lawful : Custody → List Input → Prop
  | _, []         => True
  | past, i :: is => past.Allows i ∧ (past.next i).Lawful is

structure Kept (past : Custody) : Prop where
  running  : past.links.stopped = false
  single   : past.links.Single
  welcomed : ∀ p c, past.newest p = some c → ⟨p, .inbound, c⟩ ∈ past.brought
  refused  : ∀ x ∈ past.refused, x ∈ past.brought
  ended    : ∀ x ∈ past.ended, x ∈ past.brought
  held     : ∀ x ∈ past.brought, past.links.Holds x ∨ past.Shut x
  inbound  : ∀ p c, past.links.Holds ⟨p, .inbound, c⟩ ↔
    past.newest p = some c ∧ ⟨p, .inbound, c⟩ ∉ past.refused ∧ ⟨p, .inbound, c⟩ ∉ past.ended

theorem kept_start : Kept {} where
  running  := rfl
  single _ := .inl rfl
  welcomed := nofun
  refused  := nofun
  ended    := nofun
  held     := nofun
  inbound _ _ := iff_of_false nofun nofun

theorem Shut.next (h : past.Shut x) (i : Input) : (past.next i).Shut x :=
  h.imp (List.mem_append_left _) (List.mem_append_left _)

namespace Kept

theorem held_next (h : past.Kept) (ha : past.Allows i) (hx : x ∈ (past.next i).brought) :
    (past.next i).links.Holds x ∨ (past.next i).Shut x := by
  obtain hx | hx := List.mem_append.mp hx
  case inl =>
    obtain hx | hs := h.held x hx
    case inr => exact .inr (hs.next i)
    case inl =>
      refine (Links.take_spares h.running ha.running h.single hx).imp_right (Or.imp ?_ ?_)
      · exact List.mem_append_right _
      · exact fun he => List.mem_append_right _ (Option.mem_toList.mpr he)
  case inr =>
    exact (Links.take_brings h.running (Option.mem_toList.mp hx)).imp_right fun hm => .inl (List.mem_append_right _ hm)

theorem inbound_next (h : past.Kept) (ha : past.Allows i) (p : Server) (c : Nat) :
    (past.next i).links.Holds ⟨p, .inbound, c⟩ ↔
      (past.next i).newest p = some c ∧ ⟨p, .inbound, c⟩ ∉ (past.next i).refused ∧
        ⟨p, .inbound, c⟩ ∉ (past.next i).ended := by
  cases hw : i.welcomes?
  case none =>
    simp only [Custody.next, hw, Links.take_holds_iff h.running ha.running hw, h.inbound, List.mem_append,
      Option.mem_toList, not_or]
    rw [and_assoc, and_and_and_comm]
  case some x =>
    obtain ⟨q, n⟩ := x
    obtain rfl := Links.welcomes?_eq_some_iff.mp hw
    have hn : ∀ y ∈ past.brought, y.number ≠ n := ha.fresh ⟨q, .inbound, n⟩ rfl
    have hr : (past.next (.control (.identified q n none))).refused = past.refused := List.append_nil _
    have he : (past.next (.control (.identified q n none))).ended = past.ended := List.append_nil _
    rw [hr, he]
    refine (Links.take_welcome_holds_iff h.running q n p c).trans ?_
    simp only [Custody.next, hw]
    split
    case isFalse hp => rw [Function.update_of_ne hp, h.inbound]
    case isTrue hp  =>
      subst hp
      rw [Function.update_self, Option.some_inj]
      refine (and_iff_left_of_imp fun hc => ?_).symm
      subst hc
      exact ⟨fun hm => hn _ (h.refused _ hm) rfl, fun hm => hn _ (h.ended _ hm) rfl⟩

theorem welcomed_next (h : past.Kept) (p : Server) (c : Nat) (hn : (past.next i).newest p = some c) :
    ⟨p, .inbound, c⟩ ∈ (past.next i).brought := by
  cases hw : i.welcomes?
  case none =>
    simp only [Custody.next, hw] at hn
    exact List.mem_append_left _ (h.welcomed p c hn)
  case some x =>
    obtain ⟨q, n⟩ := x
    obtain rfl := Links.welcomes?_eq_some_iff.mp hw
    simp only [Custody.next, hw] at hn
    by_cases hp : p = q
    case neg =>
      rw [Function.update_of_ne hp] at hn
      exact List.mem_append_left _ (h.welcomed p c hn)
    case pos =>
      subst hp
      rw [Function.update_self] at hn
      cases hn
      exact List.mem_append_right _ List.mem_cons_self

theorem next (h : past.Kept) (ha : past.Allows i) : (past.next i).Kept where
  running  := Links.take_stopped h.running ha.running
  single   := (Links.take_moves h.running ha.running).single h.single
  welcomed     := h.welcomed_next
  refused x hx := by
    refine List.mem_append_left _ ?_
    obtain hx | hx := List.mem_append.mp hx
    case inl => exact h.refused x hx
    case inr =>
      obtain ⟨q, _, n⟩ := x
      obtain ⟨rfl, hx⟩ := Links.holds_of_refuses? (Option.mem_toList.mp hx)
      exact h.welcomed q n ((h.inbound q n).mp hx).left
  ended x hx   := by
    refine List.mem_append_left _ ?_
    obtain hx | hx := List.mem_append.mp hx
    case inl => exact h.ended x hx
    case inr => exact ha.due x (Option.mem_toList.mp hx)
  held _       := h.held_next ha
  inbound      := h.inbound_next ha

theorem after (h : past.Kept) (hl : past.Lawful inputs) : (past.after inputs).Kept := by
  induction inputs generalizing past
  case nil          => exact h
  case cons i is hi => exact hi (h.next hl.left) hl.right

end Kept

-- Whatever comes, every connection that has come is held in its place or is shut down. The one that is held from a peer
-- is the one by which the peer has made itself known last, unless that one has refused a message or has ended. A
-- connection that could not be put to use when the peer made itself known does not count here. The end of a connection
-- that is not held has no effect. A shutdown leaves nothing, and nothing comes after it.
theorem connections_kept (inputs : List Input) (h : Lawful {} inputs) :
    let past := ({} : Custody).after inputs
    let last := past.next (.control .shutdown)
    (∀ x ∈ past.brought, past.links.Holds x ∨ past.Shut x) ∧
    (∀ p c, (past.links.slot p).inbound = some c ↔
      past.newest p = some c ∧ ⟨p, .inbound, c⟩ ∉ past.refused ∧ ⟨p, .inbound, c⟩ ∉ past.ended) ∧
    (∀ x : Link, ¬past.links.Holds x →
      past.links.take (.control (.closed x.peer x.number x.direction)) = (past.links, [])) ∧
    last.links.slots = [] ∧ (∀ x ∈ last.brought, last.Shut x) ∧
    ∀ c, last.links.take (.control c) = (last.links, []) := by
  intro past last
  have hk : past.Kept := kept_start.after h
  have ht : past.links.take (.control .shutdown) = past.links.shutdown := by
    rw [Links.take, Links.step.eq_def, hk.running]
    rfl
  refine ⟨hk.held, hk.inbound, fun x hx => ?_, ?_, fun x hx => ?_, fun c => ?_⟩
  case refine_1 =>
    rw [Links.take, Links.step.eq_def, hk.running]
    exact if_neg hx
  case refine_2 => exact congrArg (fun out : Links × List Effect => out.1.slots) ht
  case refine_3 =>
    have hx : x ∈ past.brought := (List.mem_append.mp hx).resolve_right List.not_mem_nil
    obtain hx | hs := hk.held x hx
    · exact .inl (List.mem_append_right _ (ht ▸ Links.shutdown_closes hx))
    · exact hs.next _
  case refine_4 =>
    have hs : last.links.stopped = true := congrArg (fun out : Links × List Effect => out.1.stopped) ht
    rw [Links.take, Links.step.eq_def, hs]
    rfl

-- A peer connects twice. The end of its first connection is heard of after the second one has taken its place, and
-- that one refuses a message, which our own connection then takes. Last comes a connection that was never asked for.
def reconnection (p : Server) (m : Message) : List Input := [
  .control (.ensure p),
  .control (.identified p 2),
  .control (.connected p 1),
  .control (.identified p 3),
  .control (.closed p 2 .inbound),
  .control (.send p m fun c => if c = 3 then some .writerStopped else none),
  .control (.connected p 4)
]

theorem connections_kept_of_reconnection :
    let inputs := reconnection (.peer "b") ⟨1, .appendReply true⟩
    let past := ({} : Custody).after inputs
    Lawful {} inputs ∧ past.links.slot (.peer "b") = { working := some 1 } ∧
    (∀ x ∈ past.brought, x ≠ ⟨.peer "b", .outbound, 1⟩ → past.Shut x) ∧
    (past.next (.control .shutdown)).Shut ⟨.peer "b", .outbound, 1⟩ := by
  intro inputs past
  have hl : Lawful {} inputs := by
    refine ⟨⟨nofun, nofun, nofun⟩, ⟨nofun, ?_, nofun⟩, ⟨nofun, ?_, nofun⟩, ⟨nofun, ?_, nofun⟩, ⟨nofun, nofun, ?_⟩,
      ⟨nofun, nofun, nofun⟩, ⟨nofun, ?_, nofun⟩, trivial⟩
    all_goals rintro x ⟨⟩; decide
  obtain ⟨hx, -, -, -, hs, -⟩ := connections_kept inputs hl
  refine ⟨hl, by decide, fun x hm ho => (hx x hm).resolve_left ?_, hs _ (by decide)⟩
  revert x
  decide

end Custody
end RaftGroup
