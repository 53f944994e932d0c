import Mathlib.Logic.Function.Basic
import RaftGroup.Transport.Links

namespace RaftGroup

namespace Effect

def dials (p : Server) : Effect → Bool
  | .dial q _ => q = p
  | _         => false

def fails (p : Server) : Effect → Bool
  | .failed q _ => q = p
  | _           => false

def Quiet (es : List Effect) : Prop :=
  ∀ e ∈ es, ∀ p, e.dials p = false ∧ e.fails p = false

theorem quiet_nil : Quiet [] := nofun

theorem Quiet.close (h : Quiet es) (c : Nat) : Quiet (.close c :: es) :=
  List.forall_mem_cons.mpr ⟨fun _ => ⟨rfl, rfl⟩, h⟩

theorem quiet_write (c : Nat) (m : Message) : Quiet [.write c m] :=
  List.forall_mem_singleton.mpr fun _ => ⟨rfl, rfl⟩

theorem quiet_connected (p : Server) : Quiet [.connected p] :=
  List.forall_mem_singleton.mpr fun _ => ⟨rfl, rfl⟩

theorem quiet_map_close (cs : List Nat) : Quiet (cs.map .close) := by
  intro e he p
  obtain ⟨c, _, rfl⟩ := List.mem_map.mp he
  exact ⟨rfl, rfl⟩

def About (p : Server) (es : List Effect) : Prop :=
  ∀ q, p ≠ q → ∀ e ∈ es, e.dials q = false ∧ e.fails q = false

theorem Quiet.about (h : Quiet es) (p : Server) : About p es :=
  fun q _ e he => h e he q

theorem about_dial (p : Server) (c : Nat) : About p [.dial p c] :=
  fun _ hq => List.forall_mem_singleton.mpr ⟨decide_eq_false hq, rfl⟩

theorem about_failed (p : Server) (reason : String) : About p [.failed p reason] :=
  fun _ hq => List.forall_mem_singleton.mpr ⟨rfl, decide_eq_false hq⟩

theorem About.append (h : About p es) (h' : About p es') : About p (es ++ es') :=
  fun q hq => List.forall_mem_append.mpr ⟨h q hq, h' q hq⟩

theorem Quiet.not_mem (h : Quiet es) : .dial p c ∉ es :=
  fun hm => by simpa [dials] using (h _ hm p).left

end Effect

open Effect

namespace Links

inductive Input
  | accept
  | control (c : Control)

-- The attempt that an event is the outcome of.
def Input.outcome? : Input → Option (Server × Nat)
  | .control (.connected p c _)     => some (p, c)
  | .control (.connectFailed p c _) => some (p, c)
  | _                               => none

def take (l : Links) : Input → Links × List Effect
  | .accept    => (l.accept.1, [])
  | .control c => l.step c

def own (l : Links) (p : Server) : Option Nat × Option Nat :=
  ((l.slot p).pending, (l.slot p).working)

-- What an input can do to our own connections.
inductive Moves (l : Links) : (outcome : Option (Server × Nat)) → Links × List Effect → Prop
  | rests (own : l'.own = l.own) (next : l.nextId ≤ l'.nextId) (quiet : Quiet es)
      (stale : ∀ p c, outcome = some (p, c) → (l.own p).1 ≠ some c) : Moves l outcome (l', es)
  | dials (free : l.own p = (none, none)) (own : l'.own = Function.update l.own p (some l.nextId, none))
      (next : l'.nextId = l.nextId + 1) (quiet : Quiet es) : Moves l none (l', es ++ [.dial p l.nextId])
  | evicts (held : (l.own p).2 = some c) (own : l'.own = Function.update l.own p (some l.nextId, none))
      (next : l'.nextId = l.nextId + 1) (quiet : Quiet es) :
      Moves l none (l', es ++ [.failed p reason, .dial p l.nextId])
  | opens (pending : (l.own p).1 = some c) (own : l'.own = Function.update l.own p (none, some c))
      (next : l'.nextId = l.nextId) (quiet : Quiet es) : Moves l (some (p, c)) (l', es)
  | fails (pending : (l.own p).1 = some c) (own : l'.own = Function.update l.own p (none, (l.own p).2))
      (next : l'.nextId = l.nextId) (quiet : Quiet es) : Moves l (some (p, c)) (l', es ++ [.failed p reason])
  | loses (held : (l.own p).2 = some c) (own : l'.own = Function.update l.own p ((l.own p).1, none))
      (next : l'.nextId = l.nextId) (quiet : Quiet es) : Moves l none (l', es ++ [.failed p reason])

variable {l l' l₁ : Links} {p q : Server} {c : Nat} {s : Slot} {i : Input}

theorem slot_setSlot_of_ne (l : Links) (s : Slot) (h : q ≠ p) : (l.setSlot p s).slot q = l.slot q := by
  have hl : (l.slots.filter fun x => x.1 ≠ p).lookup q = l.slots.lookup q := by
    induction l.slots
    case nil          => rfl
    case cons x xs ih =>
      rw [List.filter_cons]
      split
      case isTrue     => rw [List.lookup_cons, List.lookup_cons, ih]
      case isFalse hx =>
        have hx : x.1 = p := by simpa using hx
        rw [ih, List.lookup_cons, beq_false_of_ne (hx ▸ h)]
  rw [slot, slot, setSlot, List.lookup_cons, beq_false_of_ne h, hl]

@[simp]
theorem own_setSlot (l : Links) (p : Server) (s : Slot) :
    (l.setSlot p s).own = Function.update l.own p (s.pending, s.working) := by
  funext q
  by_cases h : q = p
  case pos => rw [h, own, slot_setSlot, Function.update_self]
  case neg => rw [own, slot_setSlot_of_ne l s h, Function.update_of_ne h, own]

theorem connect_own (l : Links) (p : Server) :
    (l.connect p).1.own = Function.update l.own p (some l.nextId, (l.own p).2) :=
  own_setSlot { l with nextId := l.nextId + 1 } p _

theorem setSlot_own_of_eq (hp : s.pending = (l.slot p).pending) (hw : s.working = (l.slot p).working) :
    (l.setSlot p s).own = l.own := by
  rw [own_setSlot, hp, hw]
  exact Function.update_eq_self p l.own

theorem connect_moves (hf : l.own p = (none, none)) : l.Moves none (l.connect p) := by
  have ho := connect_own l p
  rw [hf] at ho
  exact .dials hf ho rfl quiet_nil

theorem Moves.close (ho : l₁.own = l.own) (hn : l₁.nextId = l.nextId) (c : Nat) :
    l₁.Moves outcome out → l.Moves outcome (out.1, .close c :: out.2)
  | rests own next quiet stale    => .rests (own.trans ho) (hn ▸ next) (quiet.close c) (ho ▸ stale)
  | dials free own next quiet     => hn ▸ .dials (ho ▸ free) (hn ▸ ho ▸ own) (hn ▸ next) (quiet.close c)
  | evicts held own next quiet    => hn ▸ .evicts (ho ▸ held) (hn ▸ ho ▸ own) (hn ▸ next) (quiet.close c)
  | opens pending own next quiet  => .opens (ho ▸ pending) (ho ▸ own) (next.trans hn) (quiet.close c)
  | fails pending own next quiet  => .fails (ho ▸ pending) (ho ▸ own) (next.trans hn) (quiet.close c)
  | loses held own next quiet     => .loses (ho ▸ held) (ho ▸ own) (next.trans hn) (quiet.close c)

theorem ensure_moves (l : Links) (p : Server) : l.Moves none (l.ensure p) := by
  rw [ensure]
  split
  case isTrue    => exact .rests rfl (Nat.le_refl _) quiet_nil nofun
  case isFalse h =>
    refine connect_moves ?_
    simp only [Slot.Linked, not_or, Bool.not_eq_true, Option.isSome_eq_false_iff, Option.isNone_iff_eq_none] at h
    rw [own, h.right.left, h.right.right]

theorem sendOutbound_moves (l : Links) (p : Server) (m : Message) (refusal : Nat → Option ConnectionError) :
    l.Moves none (l.sendOutbound p m refusal) := by
  rw [sendOutbound]
  split
  case h_1 c hc =>
    split
    case h_1         => exact .rests rfl (Nat.le_refl _) (quiet_write c m) nofun
    case h_2 cause _ =>
      have ho := connect_own (l.setSlot p { l.slot p with working := none }) p
      rw [own_setSlot, Function.update_self, Function.update_idem] at ho
      exact .evicts hc ho rfl (quiet_nil.close c)
  case h_2       => exact .rests rfl (Nat.le_refl _) quiet_nil nofun
  case h_3 hw hp => exact connect_moves (by rw [own, hw, hp])

theorem send_moves (l : Links) (p : Server) (m : Message) (refusal : Nat → Option ConnectionError) :
    l.Moves none (l.send p m refusal) := by
  rw [send]
  split
  case h_1   => exact l.sendOutbound_moves p m refusal
  case h_2 c _ =>
    split
    case h_1 => exact .rests rfl (Nat.le_refl _) (quiet_write c m) nofun
    case h_2 =>
      have ho : (l.setSlot p { l.slot p with inbound := none }).own = l.own := setSlot_own_of_eq rfl rfl
      exact .close ho rfl c (sendOutbound_moves _ p m refusal)

theorem identified_moves (l : Links) (p : Server) (c : Nat) (fault : Option HostError) :
    l.Moves none (l.identified p c fault) := by
  cases fault
  case none => exact .rests (setSlot_own_of_eq rfl rfl) (Nat.le_refl _) (quiet_map_close _) nofun
  case some => exact .rests rfl (Nat.le_refl _) (quiet_nil.close c) nofun

theorem connected_moves (l : Links) (p : Server) (c : Nat) (fault : Option HostError) :
    l.Moves (some (p, c)) (l.connected p c fault) := by
  unfold connected
  split
  case isFalse h =>
    refine .rests rfl (Nat.le_refl _) (quiet_nil.close c) fun q d hq => ?_
    cases hq
    exact h
  case isTrue h =>
    cases fault
    case none => exact .opens h (own_setSlot l p _) rfl (quiet_connected p)
    case some => exact .fails h (own_setSlot l p { l.slot p with pending := none }) rfl (quiet_nil.close c)

theorem connectFailed_moves (l : Links) (p : Server) (c : Nat) (cause : HostError) :
    l.Moves (some (p, c)) (l.connectFailed p c cause) := by
  unfold connectFailed
  split
  case isFalse h =>
    refine .rests rfl (Nat.le_refl _) quiet_nil fun q d hq => ?_
    cases hq
    exact h
  case isTrue h => exact .fails h (own_setSlot l p { l.slot p with pending := none }) rfl quiet_nil

theorem closed_moves (l : Links) (p : Server) (c : Nat) (d : Direction) : l.Moves none (l.closed p c d) := by
  unfold closed
  split
  case isFalse => exact .rests rfl (Nat.le_refl _) quiet_nil nofun
  case isTrue h =>
    cases d
    case inbound  => exact .rests (setSlot_own_of_eq rfl rfl) (Nat.le_refl _) quiet_nil nofun
    case outbound => exact .loses h (own_setSlot l p { l.slot p with working := none }) rfl quiet_nil

theorem take_moves (hs : l.stopped = false) (hi : i ≠ .control .shutdown) : l.Moves i.outcome? (l.take i) := by
  cases i
  case accept    => exact .rests rfl (Nat.le_succ _) quiet_nil nofun
  case control c =>
    rw [take, step.eq_def, hs]
    cases c
    case ensure p                => exact l.ensure_moves p
    case send p m refusal        => exact l.send_moves p m refusal
    case identified p c fault    => exact l.identified_moves p c fault
    case connected p c fault     => exact l.connected_moves p c fault
    case connectFailed p c cause => exact l.connectFailed_moves p c cause
    case closed p c d            => exact l.closed_moves p c d
    case shutdown                => exact absurd rfl hi

theorem sendOutbound_stopped (l : Links) (p : Server) (m : Message) (refusal : Nat → Option ConnectionError) :
    (l.sendOutbound p m refusal).1.stopped = l.stopped := by
  rw [sendOutbound]
  split
  case h_1 => split <;> rfl
  case h_2 => rfl
  case h_3 => rfl

theorem take_stopped (hs : l.stopped = false) (hi : i ≠ .control .shutdown) : (l.take i).1.stopped = false := by
  cases i
  case accept    => exact hs
  case control c =>
    rw [take, step.eq_def, hs]
    cases c
    case shutdown => exact absurd rfl hi
    case ensure p =>
      simp only [ensure, Bool.false_eq_true, if_false]
      split <;> exact hs
    case send p m refusal =>
      simp only [send, Bool.false_eq_true, if_false]
      split
      case h_1 => exact (sendOutbound_stopped ..).trans hs
      case h_2 =>
        split
        case h_1 => exact hs
        case h_2 => exact (sendOutbound_stopped ..).trans hs
    case identified p c fault => cases fault <;> exact hs
    all_goals
      simp only [connected, connectFailed, closed, Bool.false_eq_true, if_false]
      repeat' split
      all_goals exact hs

theorem Moves.of_dial (hm : .dial q c ∈ out.2) :
    l.Moves outcome out → c = l.nextId ∧ out.1.nextId = l.nextId + 1 ∧ (l.own q = (none, none) ∨ (l.own q).2 ≠ none)
  | rests _ _ quiet _          => absurd hm quiet.not_mem
  | opens _ _ _ quiet          => absurd hm quiet.not_mem
  | dials free _ next quiet    => by
    have hm := (List.mem_append.mp hm).resolve_left quiet.not_mem
    cases List.mem_singleton.mp hm
    exact ⟨rfl, next, .inl free⟩
  | evicts held _ next quiet   => by
    have hm := (List.mem_append.mp hm).resolve_left quiet.not_mem
    cases List.mem_singleton.mp ((List.mem_cons.mp hm).resolve_left nofun)
    exact ⟨rfl, next, .inr (by rw [held]; nofun)⟩
  | fails _ _ _ quiet          =>
    absurd ((List.mem_append.mp hm).resolve_left quiet.not_mem) (by simp)
  | loses _ _ _ quiet          =>
    absurd ((List.mem_append.mp hm).resolve_left quiet.not_mem) (by simp)

theorem Moves.nextId_le : l.Moves outcome out → l.nextId ≤ out.1.nextId
  | rests _ next _ _ => next
  | dials _ _ next _ | evicts _ _ next _ => by rw [next]; exact Nat.le_succ _
  | opens _ _ next _ | fails _ _ next _ | loses _ _ next _ => Nat.le_of_eq next.symm

end Links

open Links (Input)

-- The books on one peer. What is under way has begun and has had no outcome, and there is never a connection besides.
-- As many attempts have begun as have been reported to have ended, and one more if there is one.
structure Account (own : Option Nat × Option Nat) (effects : List Effect) (outcomes : List (Server × Nat))
    (p : Server) : Prop where
  awaited : ∀ c, own.1 = some c ↔ .dial p c ∈ effects ∧ (p, c) ∉ outcomes
  single  : own.1 = none ∨ own.2 = none
  balance : effects.countP (dials p) = effects.countP (fails p) + if own = (none, none) then 0 else 1

namespace Account

variable {own : Option Nat × Option Nat} {effects es : List Effect} {outcomes os : List (Server × Nat)} {p : Server}

theorem others (h : Account own effects outcomes p) (he : ∀ e ∈ es, e.dials p = false ∧ e.fails p = false)
    (ho : ∀ c, (p, c) ∉ os) : Account own (effects ++ es) (outcomes ++ os) p where
  awaited c := by
    have hd : .dial p c ∉ es := fun hm => by simpa [dials] using (he _ hm).left
    simp only [h.awaited, List.mem_append, hd, ho c, or_false]
  single    := h.single
  balance   := by
    have hd : es.countP (dials p) = 0 := List.countP_eq_zero.mpr fun e hm => by simp [(he e hm).left]
    have hf : es.countP (fails p) = 0 := List.countP_eq_zero.mpr fun e hm => by simp [(he e hm).right]
    rw [List.countP_append, List.countP_append, hd, hf]
    exact h.balance

theorem quiet (h : Account own effects outcomes p) (he : Quiet es) : Account own (effects ++ es) outcomes p := by
  have hq : Account own (effects ++ es) (outcomes ++ []) p := h.others (fun e hm => he e hm p) nofun
  rwa [List.append_nil] at hq

theorem update {own : Server → Option Nat × Option Nat} (h : ∀ q, Account (own q) effects outcomes q)
    (hp : Account v (effects ++ es) (outcomes ++ os) p) (he : About p es) (ho : ∀ q, p ≠ q → ∀ c, (q, c) ∉ os)
    (q : Server) : Account (Function.update own p v q) (effects ++ es) (outcomes ++ os) q := by
  by_cases hq : q = p
  case pos => rw [hq, Function.update_self]; exact hp
  case neg => rw [Function.update_of_ne hq]; exact (h q).others (he q (Ne.symm hq)) (ho q (Ne.symm hq))

theorem dial (h : Account (none, none) effects outcomes p) (hn : ∀ c, .dial p c ∈ effects → c < n)
    (hb : ∀ c, (p, c) ∈ outcomes → .dial p c ∈ effects) :
    Account (some n, none) (effects ++ [.dial p n]) outcomes p where
  awaited c := by
    have ha := h.awaited c
    simp only [reduceCtorEq, false_iff] at ha
    have ho : (p, n) ∉ outcomes := fun ho => absurd (hn n (hb n ho)) (Nat.lt_irrefl n)
    simp only [Option.some.injEq, List.mem_append, List.mem_singleton, Effect.dial.injEq, true_and]
    constructor
    case mp  => rintro rfl; exact ⟨.inr rfl, ho⟩
    case mpr => rintro ⟨hm | rfl, hc⟩; exacts [absurd ⟨hm, hc⟩ ha, rfl]
  single    := .inr rfl
  balance   := by
    have := h.balance
    simp [dials, fails] at this ⊢
    exact this

theorem done (h : Account (some c, w) effects outcomes p) (d : Nat) :
    ¬(.dial p d ∈ effects ∧ (p, d) ∉ outcomes ++ [(p, c)]) := by
  rintro ⟨hm, ho⟩
  rw [List.mem_append, not_or] at ho
  cases (h.awaited d).mpr ⟨hm, ho.left⟩
  exact ho.right List.mem_cons_self

theorem opened (h : Account (some c, w) effects outcomes p) :
    Account (none, some c) effects (outcomes ++ [(p, c)]) p where
  awaited d := iff_of_false nofun (h.done d)
  single    := .inl rfl
  balance   := by
    have := h.balance
    simp at this ⊢
    exact this

theorem failed (h : Account (some c, w) effects outcomes p) (reason : String) :
    Account (none, w) (effects ++ [.failed p reason]) (outcomes ++ [(p, c)]) p where
  awaited d := by
    have hd := h.done d
    exact iff_of_false nofun fun ⟨hm, ho⟩ => hd ⟨(List.mem_append.mp hm).resolve_right (by simp), ho⟩
  single    := .inl rfl
  balance   := by
    obtain rfl : w = none := h.single.resolve_left nofun
    have := h.balance
    simp [dials, fails] at this ⊢
    exact this

theorem lost (h : Account (pending, some c) effects outcomes p) (reason : String) :
    Account (pending, none) (effects ++ [.failed p reason]) outcomes p where
  awaited d := by
    rw [h.awaited, List.mem_append]
    simp
  single    := .inr rfl
  balance   := by
    obtain rfl : pending = none := h.single.resolve_right nofun
    have := h.balance
    simp [dials, fails] at this ⊢
    exact this

end Account

structure Past where
  links : Links := {}
  effects : List Effect := []
  outcomes : List (Server × Nat) := []

namespace Past

variable {past : Past} {i : Input} {inputs : List Input} {p : Server} {c : Nat}

def next (past : Past) (i : Input) : Past where
  links    := (past.links.take i).1
  effects  := past.effects ++ (past.links.take i).2
  outcomes := past.outcomes ++ i.outcome?.toList

def after (past : Past) (inputs : List Input) : Past :=
  inputs.foldl next past

-- An attempt has one outcome, which comes after it has begun. Everything else can come at any time.
structure Allows (past : Past) (i : Input) : Prop where
  running : i ≠ .control .shutdown
  due     : ∀ p c, i.outcome? = some (p, c) → .dial p c ∈ past.effects ∧ (p, c) ∉ past.outcomes

def Lawful : Past → List Input → Prop
  | _, []         => True
  | past, i :: is => past.Allows i ∧ (past.next i).Lawful is

structure Kept (past : Past) : Prop where
  running  : past.links.stopped = false
  numbered : ∀ p c, .dial p c ∈ past.effects → c < past.links.nextId
  begun    : ∀ p c, (p, c) ∈ past.outcomes → .dial p c ∈ past.effects
  accounts : ∀ p, Account (past.links.own p) past.effects past.outcomes p

theorem kept_start : Kept {} where
  running  := rfl
  numbered := nofun
  begun    := nofun
  accounts _ := ⟨fun _ => by simp [Links.own, Links.slot], .inl rfl, rfl⟩

theorem Kept.pending (h : past.Kept) (ha : past.Allows i) (ho : i.outcome? = some (p, c)) :
    (past.links.own p).1 = some c :=
  ((h.accounts p).awaited c).mpr (ha.due p c ho)

theorem Kept.moves (h : past.Kept) (ha : past.Allows i) : past.links.Moves i.outcome? (past.links.take i) :=
  Links.take_moves h.running ha.running

theorem Kept.accounts_next (h : past.Kept) (ha : past.Allows i) (q : Server) :
    Account ((past.next i).links.own q) (past.next i).effects (past.next i).outcomes q := by
  have hm := h.moves ha
  have hd := fun p c => h.pending (p := p) (c := c) ha
  have hq (p) {es} (quiet : Quiet es) : Account (past.links.own p) (past.effects ++ es) past.outcomes p :=
    (h.accounts p).quiet quiet
  have hn {p es} (he : ∀ c, .dial p c ∉ es) : ∀ c, .dial p c ∈ past.effects ++ es → c < past.links.nextId :=
    fun c hm => h.numbered p c ((List.mem_append.mp hm).resolve_right (he c))
  have hb {p es} : ∀ c, (p, c) ∈ past.outcomes → .dial p c ∈ past.effects ++ es :=
    fun c hm => List.mem_append_left _ (h.begun p c hm)
  rw [next]
  generalize past.links.take i = out at hm
  generalize i.outcome? = outcome at hm hd
  match hm with
  | .rests own _ quiet stale =>
    cases outcome
    case some x => exact absurd (hd x.1 x.2 rfl) (stale x.1 x.2 rfl)
    case none   => rw [own]; exact (h.accounts q).others (fun e hm => quiet e hm q) nofun
  | .dials (p := p) free own _ quiet =>
    have hp := hq p quiet
    rw [free] at hp
    have hp := hp.dial (hn fun _ => quiet.not_mem) hb
    rw [own]
    exact Account.update h.accounts (by simpa using hp) ((quiet.about p).append (about_dial p _))
      (fun _ _ _ => List.not_mem_nil) q
  | @Links.Moves.evicts _ p c es' l' reason held own _ quiet =>
    have hp := hq p quiet
    rw [← Prod.eta (past.links.own p), held] at hp
    have hp := hp.lost reason
    rw [(h.accounts p).single.resolve_right (by rw [held]; nofun), List.append_assoc] at hp
    have he : ∀ c, .dial p c ∉ es' ++ [.failed p reason] := fun c hm =>
      absurd ((List.mem_append.mp hm).resolve_left quiet.not_mem) (by simp)
    have hp := hp.dial (hn he) hb
    rw [own]
    exact Account.update h.accounts (by simpa using hp)
      ((quiet.about p).append ((about_failed p reason).append (about_dial p _))) (fun _ _ _ => List.not_mem_nil) q
  | .opens (p := p) pending own _ quiet =>
    have hp := hq p quiet
    rw [← Prod.eta (past.links.own p), pending] at hp
    rw [own]
    exact Account.update h.accounts hp.opened (quiet.about p) (fun q hq => by simp [Ne.symm hq]) q
  | @Links.Moves.fails _ p c es' l' reason pending own _ quiet =>
    have hp := hq p quiet
    rw [← Prod.eta (past.links.own p), pending] at hp
    have hp := hp.failed reason
    rw [own]
    exact Account.update h.accounts (by simpa using hp) ((quiet.about p).append (about_failed p reason))
      (fun q hq => by simp [Ne.symm hq]) q
  | @Links.Moves.loses _ p c es' l' reason held own _ quiet =>
    have hp := hq p quiet
    rw [← Prod.eta (past.links.own p), held] at hp
    have hp := hp.lost reason
    rw [own]
    exact Account.update h.accounts (by simpa using hp) ((quiet.about p).append (about_failed p reason))
      (fun _ _ _ => List.not_mem_nil) q

theorem Kept.next (h : past.Kept) (ha : past.Allows i) : (past.next i).Kept where
  running      := Links.take_stopped h.running ha.running
  accounts     := h.accounts_next ha
  numbered p c := fun hm => by
    obtain hm | hm := List.mem_append.mp hm
    · exact Nat.lt_of_lt_of_le (h.numbered p c hm) (h.moves ha).nextId_le
    · have ⟨hc, hn, _⟩ := (h.moves ha).of_dial hm
      exact hc ▸ hn ▸ Nat.lt_succ_self _
  begun p c    := fun hm => by
    refine List.mem_append_left _ ?_
    obtain hm | hm := List.mem_append.mp hm
    · exact h.begun p c hm
    · exact (ha.due p c (Option.mem_toList.mp hm)).left

theorem Kept.after (h : past.Kept) : past.Lawful inputs → (past.after inputs).Kept := by
  intro hl
  induction inputs generalizing past
  case nil          => exact h
  case cons i is ih => exact ih (h.next hl.left) hl.right

theorem Kept.balance (h : past.Kept) (p : Server) : past.effects.countP (dials p) =
    past.effects.countP (fails p) + if (past.links.slot p).outbound = .none then 0 else 1 := by
  have hb := (h.accounts p).balance
  have ho : past.links.own p = (none, none) ↔ (past.links.slot p).outbound = .none := by
    rw [Links.own, Slot.outbound]
    cases (past.links.slot p).working <;> cases (past.links.slot p).pending <;> simp
  simpa only [ho] using hb

-- Whatever comes, as long as an attempt has its outcome once: every attempt is reported to have ended, or it is under
-- way, or its connection is in use. An attempt is not begun while another one to the same peer is under way, and the
-- connection that one comes to is the one that is waited for.
theorem dials_accounted (inputs : List Input) (h : Lawful {} inputs) :
    let past := ({} : Past).after inputs
    (∀ p, past.effects.countP (dials p) =
        past.effects.countP (fails p) + (if (past.links.slot p).outbound = .none then 0 else 1) ∧
      ¬((past.links.slot p).pending.isSome ∧ (past.links.slot p).working.isSome)) ∧
    ∀ i, past.Allows i →
      (∀ p c, .dial p c ∈ (past.links.take i).2 → (past.links.slot p).pending = none) ∧
      ∀ p c fault, i = .control (.connected p c fault) → (past.links.slot p).pending = some c := by
  intro past
  have hk : past.Kept := kept_start.after h
  refine ⟨fun p => ⟨hk.balance p, fun ⟨hp, hw⟩ => ?_⟩, fun i ha => ⟨fun p c hm => ?_, ?_⟩⟩
  case refine_1 =>
    obtain h | h := (hk.accounts p).single
    · exact absurd hp (by rw [show (past.links.slot p).pending = none from h]; nofun)
    · exact absurd hw (by rw [show (past.links.slot p).working = none from h]; nofun)
  case refine_2 =>
    obtain ⟨-, -, hf | hw⟩ := (hk.moves ha).of_dial hm
    · exact congrArg Prod.fst hf
    · exact (hk.accounts p).single.resolve_right hw
  case refine_3 =>
    rintro p c fault rfl
    exact hk.pending ha rfl

-- A connection is opened and then given up as its queue is full, and the next attempt fails. That the first connection
-- has closed is heard of last, and changes nothing. The third attempt comes to a connection that is lost while it is in
-- use.
def eviction (p : Server) (m : Message) : List Input := [
  .control (.ensure p),
  .control (.connected p 1),
  .control (.send p m fun _ => some (.queueFull 0)),
  .control (.connectFailed p 2 .unreachable),
  .control (.closed p 1 .outbound),
  .control (.send p m fun _ => none),
  .control (.connected p 3),
  .control (.closed p 3 .outbound),
  .control (.send p m fun _ => none)
]

theorem dials_accounted_of_eviction :
    let inputs := eviction (.peer "b") ⟨1, .appendReply true⟩
    let past := ({} : Past).after inputs
    Lawful {} inputs ∧
    past.effects.countP (dials (.peer "b")) = past.effects.countP (fails (.peer "b")) + 1 ∧
    past.effects.countP (fails (.peer "b")) = 3 ∧
    past.Allows (.control (.connected (.peer "b") 4)) ∧ (past.links.slot (.peer "b")).pending = some 4 := by
  intro inputs past
  have hl : Lawful {} inputs := by
    refine ⟨⟨nofun, nofun⟩, ⟨nofun, ?_⟩, ⟨nofun, nofun⟩, ⟨nofun, ?_⟩, ⟨nofun, nofun⟩, ⟨nofun, nofun⟩, ⟨nofun, ?_⟩,
      ⟨nofun, nofun⟩, ⟨nofun, nofun⟩, trivial⟩
    all_goals rintro p c ⟨⟩; decide
  have ha : past.Allows (.control (.connected (.peer "b") 4)) := by
    refine ⟨nofun, ?_⟩
    rintro p c ⟨⟩
    decide
  have ⟨hc, hn⟩ := dials_accounted inputs hl
  exact ⟨hl, (hc _).left, by decide, ha, (hn _ ha).right _ _ _ rfl⟩

end Past

end RaftGroup
