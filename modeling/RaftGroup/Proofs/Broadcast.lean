import RaftGroup.Bus

namespace RaftGroup

namespace Bus

inductive Act (α : Type)
  | send (x : α)
  | subscribe
  | unsubscribe (k : Nat)
  | receive (k : Nat)
  | fetch
  | hand
  deriving DecidableEq, Repr

variable {α : Type} {b b' : Bus α} {s s' : Subscription α} {x : α} {k : Nat}

def act (b : Bus α) : Act α → Bus α
  | .send x        => b.send x
  | .subscribe     => b.subscribe.1
  | .unsubscribe k => (b.unsubscribe k).1
  | .receive k     => ((b.receive? k).map Prod.snd).getD b
  | .fetch         => b.fetch
  | .hand          => b.hand

def run (b : Bus α) (acts : List (Act α)) : Bus α :=
  acts.foldl act b

def Act.sent : Act α → List α
  | .send x => [x]
  | _       => []

def sent (acts : List (Act α)) : List α :=
  acts.flatMap Act.sent

def taken (b : Bus α) (k : Nat) : Act α → List α
  | .receive j => if j = k then ((b.receive? k).bind Prod.fst).toList else []
  | _          => []

def takenBy (b : Bus α) (k : Nat) : List (Act α) → List α
  | []        => []
  | a :: acts => b.taken k a ++ (b.act a).takenBy k acts

def inbox (b : Bus α) (k : Nat) : List α :=
  ((b.kept? k).map Subscription.inbox).getD []

def received (b : Bus α) (k : Nat) (acts : List (Act α)) : List α :=
  b.takenBy k acts ++ (b.run acts).inbox k

-- What has been sent and has not been handed on: the message that is held, and after it the queue.
def pending (b : Bus α) : List α :=
  b.held.toList ++ b.queue

theorem pending_send (b : Bus α) (x : α) : (b.send x).pending = b.pending ++ [x] :=
  (List.append_assoc ..).symm

theorem pending_unsubscribe (b : Bus α) (k : Nat) : (b.unsubscribe k).1.pending = b.pending := by
  rw [unsubscribe]
  split <;> rfl

theorem pending_receive (b : Bus α) (k : Nat) : (b.act (.receive k)).pending = b.pending := by
  rw [act, receive?]
  cases b.kept? k <;> rfl

theorem pending_fetch (b : Bus α) : b.fetch.pending = b.pending := by
  rw [fetch]
  split
  case h_1 hh hq => rw [pending, pending, hh, hq]; rfl
  case h_2       => rfl

theorem held_fetch (hp : b.pending = x :: xs) : b.fetch.held = some x := by
  rw [fetch]
  split
  case h_1 hh hq =>
    rw [pending, hh, hq] at hp
    exact congrArg some (List.cons.inj hp).left
  case h_2 hn =>
    rw [pending] at hp
    cases hh : b.held
    case none   => rw [hh] at hp; exact absurd hp (hn x xs hh)
    case some y => rw [hh] at hp; exact congrArg some (List.cons.inj hp).left

theorem pending_hand (b : Bus α) (hh : b.held = some x) : b.pending = x :: b.hand.pending := by
  rw [pending, pending, hand, hh]
  rfl

theorem kept?_eq_some_iff : b.kept? k = some s ↔ b.subscriptions[k]? = some s ∧ s.kept = true :=
  Option.filter_eq_some_iff

theorem kept?_set (b : Bus α) (j k : Nat) (s : Subscription α) (hj : j < b.subscriptions.length) :
    kept? { b with subscriptions := b.subscriptions.set j s } k =
      if j = k then (some s).filter Subscription.kept else b.kept? k := by
  rw [kept?, List.getElem?_set]
  simp only [hj, if_true]
  split <;> rfl

theorem lt_of_kept? (h : b.kept? k = some s) : k < b.subscriptions.length :=
  (List.getElem?_eq_some_iff.mp (kept?_eq_some_iff.mp h).left).choose

theorem kept?_subscribe (hk : k < b.subscriptions.length) : b.subscribe.1.kept? k = b.kept? k := by
  rw [kept?, kept?, subscribe, List.getElem?_append_left hk]

theorem kept?_subscribe_self (b : Bus α) : b.subscribe.1.kept? b.subscribe.2 = some {} := by
  rw [kept?, subscribe, List.getElem?_concat_length]
  rfl

theorem kept?_unsubscribe (b : Bus α) (j k : Nat) :
    (b.unsubscribe j).1.kept? k = if j = k then none else b.kept? k := by
  rw [unsubscribe]
  split
  case h_1 hn =>
    split
    case isTrue hj => exact hj ▸ hn
    case isFalse   => rfl
  case h_2 hs => exact kept?_set b j k _ (lt_of_kept? hs)

theorem kept?_receive (b : Bus α) (j k : Nat) :
    (b.act (.receive j)).kept? k =
      if j = k then (b.kept? k).map fun s => { s with inbox := s.inbox.tail } else b.kept? k := by
  rw [act, receive?]
  cases hs : b.kept? j
  case none =>
    split
    case isTrue hj => subst hj; rw [hs]; exact hs
    case isFalse   => rfl
  case some s =>
    refine (kept?_set b j k _ (lt_of_kept? hs)).trans ?_
    split
    case isTrue hj => subst hj; rw [hs]; exact Option.filter_eq_some_iff.mpr ⟨rfl, (kept?_eq_some_iff.mp hs).right⟩
    case isFalse   => rfl

theorem subscriptions_fetch (b : Bus α) : b.fetch.subscriptions = b.subscriptions := by
  rw [fetch]
  split <;> rfl

theorem kept?_fetch (b : Bus α) (k : Nat) : b.fetch.kept? k = b.kept? k := by
  rw [kept?, kept?, subscriptions_fetch]

theorem kept?_hand (hh : b.held = some x) : b.hand.kept? k = (b.kept? k).map (·.offer x) := by
  rw [hand, hh, kept?, kept?, List.getElem?_map]
  cases b.subscriptions[k]?
  case none   => rfl
  case some s => simp only [Option.map_some, Option.filter_some, Subscription.offer_kept]; split <;> rfl

theorem length_act_le (b : Bus α) (a : Act α) : b.subscriptions.length ≤ (b.act a).subscriptions.length := by
  cases a
  case send          => exact Nat.le_refl _
  case subscribe     => exact (List.length_append ▸ Nat.le_add_right ..)
  case unsubscribe j =>
    rw [act, unsubscribe]
    split
    case h_1 => exact Nat.le_refl _
    case h_2 => exact Nat.le_of_eq List.length_set.symm
  case receive j     =>
    rw [act, receive?]
    cases b.kept? j
    case none   => exact Nat.le_refl _
    case some s => exact Nat.le_of_eq List.length_set.symm
  case fetch         => exact Nat.le_of_eq (congrArg List.length (subscriptions_fetch b).symm)
  case hand          =>
    rw [act, hand]
    split
    case h_1 => exact Nat.le_refl _
    case h_2 => exact Nat.le_of_eq (List.length_map _).symm

-- A subscription from one time to another. It has been handed what is no longer pending, in that order, and nothing
-- else.
structure Flow (b : Bus α) (s : Subscription α) (sent taken : List α) (b' : Bus α) (s' : Subscription α) : Prop where
  listed   : s.listed = true → s'.listed = true
  conserve : s.listed = true → s.inbox ++ (b.pending ++ sent) = taken ++ (s'.inbox ++ b'.pending)

namespace Flow

theorem idle (s : Subscription α) (hp : b'.pending = b.pending) : Flow b s [] [] b' s where
  listed     := id
  conserve _ := by rw [hp, List.append_nil, List.nil_append]

theorem trans (h : Flow b s sent₁ taken₁ b₁ s₁) (h' : Flow b₁ s₁ sent₂ taken₂ b₂ s₂) :
    Flow b s (sent₁ ++ sent₂) (taken₁ ++ taken₂) b₂ s₂ where
  listed hl   := h'.listed (h.listed hl)
  conserve hl := by
    calc s.inbox ++ (b.pending ++ (sent₁ ++ sent₂))
      _ = s.inbox ++ (b.pending ++ sent₁) ++ sent₂      := by simp only [List.append_assoc]
      _ = taken₁ ++ (s₁.inbox ++ b₁.pending) ++ sent₂   := by rw [h.conserve hl]
      _ = taken₁ ++ (s₁.inbox ++ (b₁.pending ++ sent₂)) := by simp only [List.append_assoc]
      _ = taken₁ ++ taken₂ ++ (s₂.inbox ++ b₂.pending)  := by rw [h'.conserve (h.listed hl), List.append_assoc]

theorem send (s : Subscription α) : Flow b s [x] [] (b.send x) s where
  listed     := id
  conserve _ := by rw [pending_send, List.nil_append]

theorem receive (hp : b'.pending = b.pending) :
    Flow b s [] s.inbox.head?.toList b' { s with inbox := s.inbox.tail } where
  listed     := id
  conserve _ := by
    rw [hp, List.append_nil, ← List.append_assoc]
    cases s.inbox <;> rfl

theorem hand (hh : b.held = some x) (hk : s.kept = true) : Flow b s [] [] b.hand (s.offer x) where
  listed hl   := by rw [Subscription.offer, if_pos hl, if_pos hk]; exact hl
  conserve hl := by
    rw [Subscription.offer, if_pos hl, if_pos hk, pending_hand b hh]
    simp only [List.append_nil, List.nil_append, List.append_assoc, List.singleton_append]

end Flow

theorem act_kept (a : Act α) (hk : k < b.subscriptions.length) (h : (b.act a).kept? k = some s') :
    ∃ s, b.kept? k = some s ∧ Flow b s a.sent (b.taken k a) (b.act a) s' := by
  cases a
  case send x        => exact ⟨s', h, .send s'⟩
  case subscribe     => exact ⟨s', (kept?_subscribe hk).symm.trans h, .idle s' rfl⟩
  case unsubscribe j =>
    rw [act, kept?_unsubscribe] at h
    split at h
    case isTrue  => cases h
    case isFalse => exact ⟨s', h, .idle s' (pending_unsubscribe b j)⟩
  case receive j =>
    rw [kept?_receive] at h
    rw [taken, receive?]
    split at h
    case isFalse hj => rw [if_neg hj]; exact ⟨s', h, .idle s' (pending_receive b j)⟩
    case isTrue hj  =>
      obtain ⟨s, hs, rfl⟩ := Option.map_eq_some_iff.mp h
      rw [if_pos hj, hs]
      exact ⟨s, rfl, .receive (pending_receive b j)⟩
  case fetch => exact ⟨s', (kept?_fetch b k).symm.trans h, .idle s' (pending_fetch b)⟩
  case hand  =>
    cases hh : b.held
    case none =>
      have hd : b.hand = b := by rw [hand, hh]
      rw [act, hd] at h ⊢
      exact ⟨s', h, .idle s' rfl⟩
    case some x =>
      rw [act, kept?_hand hh] at h
      obtain ⟨s, hs, rfl⟩ := Option.map_eq_some_iff.mp h
      exact ⟨s, hs, .hand hh (kept?_eq_some_iff.mp hs).right⟩

theorem run_kept (acts : List (Act α)) (hk : k < b.subscriptions.length) (h : (b.run acts).kept? k = some s') :
    ∃ s, b.kept? k = some s ∧ Flow b s (sent acts) (b.takenBy k acts) (b.run acts) s' := by
  induction acts generalizing b
  case nil            => exact ⟨s', h, .idle s' rfl⟩
  case cons a acts ih =>
    obtain ⟨s₁, hs₁, hf⟩ := ih (b := b.act a) (Nat.lt_of_lt_of_le hk (length_act_le b a)) h
    obtain ⟨s, hs, hf'⟩ := act_kept a hk hs₁
    exact ⟨s, hs, hf'.trans hf⟩

theorem received_append_pending (b : Bus α) (acts : List (Act α))
    (h : ((b.subscribe.1.run acts).kept? b.subscribe.2).isSome) :
    b.subscribe.1.received b.subscribe.2 acts ++ (b.subscribe.1.run acts).pending = b.pending ++ sent acts := by
  obtain ⟨s', hs'⟩ := Option.isSome_iff_exists.mp h
  have hk := lt_of_kept? (kept?_subscribe_self b)
  obtain ⟨s, hs, hf⟩ := run_kept acts hk hs'
  cases (kept?_subscribe_self b).symm.trans hs
  rw [received, inbox, hs', List.append_assoc]
  exact (hf.conserve rfl).symm

-- Whoever subscribes now and keeps the subscription is handed only what is sent from now on, in that order and each
-- once, and has all of it when nothing is pending.
def OnlyLater (b : Bus α) : Prop :=
  ∀ later, ((b.subscribe.1.run later).kept? b.subscribe.2).isSome →
    b.subscribe.1.received b.subscribe.2 later <+: sent later ∧
    ((b.subscribe.1.run later).pending = [] → b.subscribe.1.received b.subscribe.2 later = sent later)

theorem onlyLater_of_pending_nil (hp : b.pending = []) : b.OnlyLater := by
  intro later hk
  have hr := received_append_pending b later hk
  rw [hp, List.nil_append] at hr
  refine ⟨⟨_, hr⟩, fun hn => ?_⟩
  rwa [hn, List.append_nil] at hr

theorem not_onlyLater_of_pending_cons (hp : b.pending = x :: xs) : ¬b.OnlyLater := by
  intro ho
  have hh : b.subscribe.1.fetch.held = some x := held_fetch (b := b.subscribe.1) hp
  have hk : ((b.subscribe.1.run [.fetch, .hand]).kept? b.subscribe.2).isSome := by
    change (b.subscribe.1.fetch.hand.kept? _).isSome
    rw [kept?_hand hh, kept?_fetch, kept?_subscribe_self]
    rfl
  have hr := received_append_pending b [.fetch, .hand] hk
  have hn : b.subscribe.1.received b.subscribe.2 [.fetch, .hand] = [] :=
    List.prefix_nil.mp (ho [.fetch, .hand] hk).left
  have hd : x :: (b.subscribe.1.run [.fetch, .hand]).pending = x :: xs := by
    change x :: b.subscribe.1.fetch.hand.pending = x :: xs
    rw [← pending_hand _ hh, pending_fetch]
    exact hp
  rw [hn, (List.cons.inj hd).right, hp] at hr
  exact absurd (congrArg List.length hr) (by simp [sent, Act.sent])

-- In any order of steps: what a subscriber is handed, followed by what is still pending, is what was pending when it
-- subscribed, followed by what has been sent since then. So it is sure to see only what is sent after it has subscribed
-- if nothing was pending at that time, neither queued nor held, and only then.
theorem onlyLater_iff (before : List (Act α)) :
    let b := run {} before
    (∀ later, ((b.subscribe.1.run later).kept? b.subscribe.2).isSome →
      b.subscribe.1.received b.subscribe.2 later ++ (b.subscribe.1.run later).pending = b.pending ++ sent later) ∧
    (b.OnlyLater ↔ b.pending = []) := by
  intro b
  refine ⟨received_append_pending b, fun ho => ?_, onlyLater_of_pending_nil⟩
  cases hp : b.pending
  case nil       => rfl
  case cons x xs => exact absurd ho (not_onlyLater_of_pending_cons hp)

theorem onlyLater_of_drained :
    let b : Bus Nat := run {} [.subscribe, .send 1, .fetch, .hand]
    let later := [Act.send 2, .unsubscribe 0, .fetch, .send 3, .hand, .receive 1, .fetch, .hand]
    b.pending = [] ∧ b.OnlyLater ∧ b.subscribe.1.takenBy b.subscribe.2 later = [2] ∧
    b.subscribe.1.received b.subscribe.2 later = [2, 3] := by
  intro b later
  have hb : b.pending = [] := rfl
  have ho : b.OnlyLater := (onlyLater_iff [.subscribe, .send 1, .fetch, .hand]).right.mpr hb
  exact ⟨hb, ho, by decide, (ho later (by decide)).right (by decide)⟩

theorem not_onlyLater_of_queued :
    ¬(run {} [Act.send 1]).OnlyLater ∧
    (run {} [Act.send 1, .fetch]).queue = [] ∧ ¬(run {} [Act.send 1, .fetch]).OnlyLater := by
  have hq : ¬[1] <+: ([] : List Nat) := by decide
  refine ⟨fun ho => ?_, rfl, fun ho => ?_⟩
  case refine_1 => exact hq (ho [.fetch, .hand] (by decide)).left
  case refine_2 => exact hq (ho [.hand] (by decide)).left

end Bus
end RaftGroup
