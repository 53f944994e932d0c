import RaftGroup.Transport.Error

namespace RaftGroup

inductive Direction
  | inbound
  | outbound
  deriving DecidableEq, Repr

def Direction.name : Direction → String
  | inbound  => "Inbound"
  | outbound => "Outbound"

structure Slot where
  pending : Option Nat := none
  working : Option Nat := none
  inbound : Option Nat := none
  deriving DecidableEq, Repr

inductive Outbound
  | none
  | pending
  | working
  deriving DecidableEq, Repr

def Outbound.name : Outbound → String
  | none    => "None"
  | pending => "Pending"
  | working => "Working"

namespace Slot

def Linked (s : Slot) : Prop :=
  s.inbound.isSome ∨ s.working.isSome ∨ s.pending.isSome

instance (s : Slot) : Decidable s.Linked :=
  inferInstanceAs (Decidable (_ ∨ _))

def outbound (s : Slot) : Outbound :=
  if s.working.isSome then .working else if s.pending.isSome then .pending else .none

def held (s : Slot) : Direction → Option Nat
  | .inbound  => s.inbound
  | .outbound => s.working

def release (s : Slot) : Direction → Slot
  | .inbound  => { s with inbound := none }
  | .outbound => { s with working := none }

def connections (s : Slot) : List Nat :=
  s.working.toList ++ s.inbound.toList

end Slot

inductive Control
  -- What becomes of the frame in the queue of a connection is up to the connection. Whether a connection that has been
  -- opened can be put to use is up to the host.
  | ensure (peer : Server)
  | send (peer : Server) (message : Message) (refusal : Nat → Option ConnectionError)
  | identified (peer : Server) (connection : Nat) (fault : Option HostError := none)
  | connected (peer : Server) (connection : Nat) (fault : Option HostError := none)
  | connectFailed (peer : Server) (connection : Nat) (cause : HostError)
  | closed (peer : Server) (connection : Nat) (direction : Direction)
  | shutdown

inductive Effect
  | dial (peer : Server) (connection : Nat)
  | write (connection : Nat) (message : Message)
  | close (connection : Nat)
  | connected (peer : Server)
  | failed (peer : Server) (reason : String)
  deriving DecidableEq, Repr

-- For each peer at most one connection in each direction, and at most one that is being opened. Connections are known
-- by numbers that are never used again.
structure Links where
  slots : List (Server × Slot) := []
  nextId : Nat := 1
  stopped : Bool := false
  deriving DecidableEq, Repr

namespace Links

def slot (l : Links) (peer : Server) : Slot :=
  (l.slots.lookup peer).getD {}

def setSlot (l : Links) (peer : Server) (s : Slot) : Links :=
  { l with slots := (peer, s) :: l.slots.filter fun p => p.1 ≠ peer }

theorem slot_setSlot (l : Links) (peer : Server) (s : Slot) : (l.setSlot peer s).slot peer = s := by
  simp [slot, setSlot]

def accept (l : Links) : Links × Nat :=
  ({ l with nextId := l.nextId + 1 }, l.nextId)

def connect (l : Links) (peer : Server) : Links × List Effect :=
  ({ l with nextId := l.nextId + 1 }.setSlot peer { l.slot peer with pending := some l.nextId },
    [.dial peer l.nextId])

def ensure (l : Links) (peer : Server) : Links × List Effect :=
  if (l.slot peer).Linked then (l, []) else l.connect peer

-- Our own connection carries the message, or is given up and opened anew. Without one the message is dropped.
def sendOutbound (l : Links) (peer : Server) (m : Message) (refusal : Nat → Option ConnectionError) :
    Links × List Effect :=
  match (l.slot peer).working, (l.slot peer).pending with
  | some c, _ =>
    match refusal c with
    | none       => (l, [.write c m])
    | some cause =>
      let (l, effects) := (l.setSlot peer { l.slot peer with working := none }).connect peer
      (l, .close c :: .failed peer cause.message :: effects)
  | none, some _ => (l, [])
  | none, none   => l.connect peer

-- A connection accepted from the peer is preferred to our own.
def send (l : Links) (peer : Server) (m : Message) (refusal : Nat → Option ConnectionError) : Links × List Effect :=
  match (l.slot peer).inbound with
  | none   => l.sendOutbound peer m refusal
  | some c =>
    match refusal c with
    | none   => (l, [.write c m])
    | some _ =>
      let (l, effects) := (l.setSlot peer { l.slot peer with inbound := none }).sendOutbound peer m refusal
      (l, .close c :: effects)

def connected (l : Links) (peer : Server) (c : Nat) (fault : Option HostError) : Links × List Effect :=
  if (l.slot peer).pending = some c then
    match fault with
    | none       => (l.setSlot peer { l.slot peer with pending := none, working := some c }, [.connected peer])
    | some cause =>
      (l.setSlot peer { l.slot peer with pending := none }, [.close c, .failed peer cause.message])
  else (l, [.close c])

def connectFailed (l : Links) (peer : Server) (c : Nat) (cause : HostError) : Links × List Effect :=
  if (l.slot peer).pending = some c then
    (l.setSlot peer { l.slot peer with pending := none }, [.failed peer cause.message])
  else (l, [])

-- The newest connection from a peer takes the place of an older one.
def identified (l : Links) (peer : Server) (c : Nat) (fault : Option HostError) : Links × List Effect :=
  match fault with
  | none   => (l.setSlot peer { l.slot peer with inbound := some c }, (l.slot peer).inbound.toList.map .close)
  | some _ => (l, [.close c])

def closed (l : Links) (peer : Server) (c : Nat) (d : Direction) : Links × List Effect :=
  if (l.slot peer).held d = some c then
    (l.setSlot peer ((l.slot peer).release d),
      match d with
      | .inbound  => []
      | .outbound => [.failed peer s!"connection {c} closed"])
  else (l, [])

def shutdown (l : Links) : Links × List Effect :=
  ({ l with slots := [], stopped := true }, l.slots.flatMap fun (_, s) => s.connections.map .close)

-- After a shutdown nothing happens any more.
def step (l : Links) (c : Control) : Links × List Effect :=
  if l.stopped then (l, [])
  else match c with
    | .ensure peer                => l.ensure peer
    | .send peer m refusal        => l.send peer m refusal
    | .identified peer c fault    => l.identified peer c fault
    | .connected peer c fault     => l.connected peer c fault
    | .connectFailed peer c cause => l.connectFailed peer c cause
    | .closed peer c d            => l.closed peer c d
    | .shutdown                   => l.shutdown

end Links
end RaftGroup
