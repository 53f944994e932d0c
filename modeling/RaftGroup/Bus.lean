namespace RaftGroup

structure Subscription (α : Type) where
  inbox : List α := []
  kept : Bool := true
  listed : Bool := true
  deriving DecidableEq, Repr

-- A message leaves the queue before the list of subscriptions is looked at. In between it is held.
structure Bus (α : Type) where
  queue : List α := []
  held : Option α := none
  subscriptions : List (Subscription α) := []
  deriving DecidableEq, Repr

namespace Subscription

def offer (s : Subscription α) (x : α) : Subscription α :=
  if s.listed then
    if s.kept then { s with inbox := s.inbox ++ [x] } else { s with listed := false }
  else s

theorem offer_kept (s : Subscription α) (x : α) : (s.offer x).kept = s.kept := by
  unfold offer
  repeat' split
  all_goals rfl

end Subscription

namespace Bus

def subscribe (b : Bus α) : Bus α × Nat :=
  ({ b with subscriptions := b.subscriptions ++ [{}] }, b.subscriptions.length)

def send (b : Bus α) (x : α) : Bus α :=
  { b with queue := b.queue ++ [x] }

def fetch (b : Bus α) : Bus α :=
  match b.held, b.queue with
  | none, x :: xs => { b with queue := xs, held := some x }
  | _, _          => b

-- Hands the message to everyone who subscribes at that time. A subscription that has been given up is noticed by it.
def hand (b : Bus α) : Bus α :=
  match b.held with
  | none   => b
  | some x => { b with held := none, subscriptions := b.subscriptions.map (·.offer x) }

def dispatch (b : Bus α) : Bus α :=
  b.fetch.hand

def kept? (b : Bus α) (k : Nat) : Option (Subscription α) :=
  b.subscriptions[k]?.filter (·.kept)

def unsubscribe (b : Bus α) (k : Nat) : Bus α × Bool :=
  match b.kept? k with
  | none   => (b, false)
  | some s => ({ b with subscriptions := b.subscriptions.set k { s with inbox := [], kept := false } }, true)

def receive? (b : Bus α) (k : Nat) : Option (Option α × Bus α) :=
  (b.kept? k).map fun s =>
    (s.inbox.head?, { b with subscriptions := b.subscriptions.set k { s with inbox := s.inbox.tail } })

def count (b : Bus α) : Nat :=
  (b.subscriptions.filter (·.listed)).length

end Bus
end RaftGroup
