import RaftGroup.Node

namespace RaftGroup

structure Letter where
  sender : String
  receiver : String
  message : Message
  deriving DecidableEq

structure Group where
  nodes : List (String × Engine)
  queue : List Letter := []
  blocked : List (String × String) := []
  shown : List Snapshot

namespace Group

structure Member where
  id : String
  random : RandomSource
  entries : List Entry
  config : Config

def snapshots (nodes : List (String × Engine)) : List Snapshot :=
  nodes.map fun (_, e) => e.snapshot

def start (members : List Member) : Except Log.Error Group := do
  let peers := members.map fun m => Server.peer m.id
  let nodes ← members.mapM fun m => do
    let log ← Log.ofEntries m.entries
    return (m.id, Engine.start m.id peers { log } m.random m.config)
  return { nodes, shown := snapshots nodes }

def node? (g : Group) (id : String) : Option Engine :=
  g.nodes.lookup id

def setNode (g : Group) (id : String) (e : Engine) : Group :=
  { g with nodes := g.nodes.map fun n => if n.1 = id then (id, e) else n }

def letters (e : Engine) (sender : String) (o : Outgoing) : List Letter :=
  match o.dest with
  | .to s      => [⟨sender, s.id, o.message⟩]
  | .broadcast => e.peers.map fun s => ⟨sender, s.id, o.message⟩

def post (g : Group) (id : String) (e : Engine) (os : List Outgoing) : Group × Nat :=
  let added := os.flatMap (letters e id)
  ({ g.setNode id e with queue := g.queue ++ added }, added.length)

def tickEach (g : Group) : List String → Except Overflow (Group × List Letter)
  | []        => return (g, [])
  | id :: ids =>
    match g.node? id with
    | none   => g.tickEach ids
    | some e => do
      let turn ← Node.tick e
      let (g, rest) ← (g.setNode id turn.engine).tickEach ids
      return (g, turn.result.flatMap (letters turn.engine id) ++ rest)

def tick (g : Group) (ids : List String) : Except Overflow (Group × Nat) := do
  let (g, added) ← g.tickEach ids
  return ({ g with queue := g.queue ++ added }, added.length)

def tickAll (g : Group) : Except Overflow (Group × Nat) :=
  g.tick (g.nodes.map Prod.fst)

abbrev Submission := Except (AppendError Storage.Error) (Nat × Nat)

def submit (g : Group) (id : String) (payload : Payload) : Except Overflow (Group × Option Submission) :=
  match g.node? id with
  | none   => return (g, none)
  | some e => do
    let turn ← Node.submit e payload
    match turn.result with
    | .error cause     => return (g.setNode id turn.engine, some (.error cause))
    | .ok (index, sent) =>
      let (g, added) := g.post id turn.engine sent
      return (g, some (.ok (index, added)))

def submitEach (g : Group) (payload : Payload) : List String → Except Overflow (Group × List (String × Nat))
  | []        => return (g, [])
  | id :: ids => do
    let (g, submission) ← g.submit id payload
    let (g, rest) ← g.submitEach payload ids
    match submission with
    | some (.ok (index, _)) => return (g, (id, index) :: rest)
    | _                     => return (g, rest)

def submitLeaders (g : Group) (payload : Payload) : Except Overflow (Group × List (String × Nat)) :=
  g.submitEach payload (g.nodes.filterMap fun (id, e) => if e.role = .leader then some id else none)

def Blocked (g : Group) (l : Letter) : Prop :=
  ∃ b ∈ g.blocked, (b.1 = l.sender ∨ b.1 = "*") ∧ (b.2 = l.receiver ∨ b.2 = "*")

instance (g : Group) (l : Letter) : Decidable (g.Blocked l) :=
  inferInstanceAs (Decidable (∃ b ∈ g.blocked, _))

structure Delivery where
  letter : Letter
  delivered : Bool
  added : List Letter

-- The queue stays as it is. What the receiver sends is in the delivery.
def handOver (g : Group) (l : Letter) : Except Overflow (Group × Delivery) :=
  if g.Blocked l then return (g, ⟨l, false, []⟩)
  else match g.node? l.receiver with
    | none   => return (g, ⟨l, false, []⟩)
    | some e => do
      let turn ← Node.receive e l.message (.peer l.sender)
      return (g.setNode l.receiver turn.engine, ⟨l, true, turn.result.flatMap (letters turn.engine l.receiver)⟩)

def drop (g : Group) (k : Nat) : Group × Option Letter :=
  ({ g with queue := g.queue.eraseIdx k }, g.queue[k]?)

def deliver (g : Group) (k : Nat) : Except Overflow (Group × Option Delivery) := do
  match g.drop k with
  | (g, none)   => return (g, none)
  | (g, some l) =>
    let (g, d) ← g.handOver l
    return ({ g with queue := g.queue ++ d.added }, some d)

def duplicate (g : Group) (k : Nat) : Group × Bool :=
  match g.queue[k]? with
  | none   => (g, false)
  | some l => ({ g with queue := g.queue ++ [l] }, true)

def reverse (g : Group) : Group := { g with queue := g.queue.reverse }

def clear (g : Group) : Group × Nat := ({ g with queue := [] }, g.queue.length)

def block (g : Group) (sender receiver : String) : Group :=
  { g with blocked := g.blocked ++ [(sender, receiver)] }

def heal (g : Group) : Group := { g with blocked := [] }

structure Traffic where
  delivered : Nat := 0
  lost : Nat := 0

def Traffic.count (t : Traffic) (d : Delivery) : Traffic :=
  if d.delivered then { t with delivered := t.delivered + 1 } else { t with lost := t.lost + 1 }

-- Delivers the messages of `front` in turn, then those of `back`, the last one first. What a delivery adds goes onto
-- `back`. What is left over becomes the queue.
def drainFor (limit : Nat) (front back : List Letter) (g : Group) (t : Traffic) : Except Overflow (Group × Traffic) :=
  match limit, front, back with
  | 0, _, _                => return ({ g with queue := front ++ back.reverse }, t)
  | _ + 1, [], []          => return ({ g with queue := [] }, t)
  | limit + 1, [], b :: bs => drainFor (limit + 1) (b :: bs).reverse [] g t
  | limit + 1, l :: ls, _  => do
    let (g, d) ← g.handOver l
    drainFor limit ls (d.added.reverse ++ back) g (t.count d)
termination_by (limit, back.length)

def drain (g : Group) : Except Overflow (Group × Traffic) :=
  drainFor 2000 g.queue [] g {}

def apply (g : Group) : Group × List (String × List Entry) :=
  let taken := g.nodes.map fun (id, e) => (id, e.takeAllCommitted)
  ({ g with nodes := taken.map fun (id, _, e) => (id, e) },
    taken.filterMap fun (id, entries, _) => if entries.isEmpty then none else some (id, entries))

def showChanges (g : Group) : Group × List (String × Snapshot) :=
  let now := snapshots g.nodes
  let changed := ((g.nodes.map Prod.fst).zip (now.zip g.shown)).filterMap fun (id, new, old) =>
    if new = old then none else some (id, new)
  ({ g with shown := now }, changed)

structure Round where
  traffic : Traffic
  applied : List (String × List Entry)
  changed : List (String × Snapshot)

def round (g : Group) : Except Overflow (Group × Round) := do
  let (g, _) ← g.tickAll
  let (g, traffic) ← g.drain
  let (g, applied) := g.apply
  let (g, changed) := g.showChanges
  return (g, ⟨traffic, applied, changed⟩)

def run (g : Group) : Nat → Except Overflow (Group × List Round)
  | 0     => return (g, [])
  | n + 1 => do
    let (g, first) ← g.round
    let (g, rest) ← g.run n
    return (g, first :: rest)

end Group
end RaftGroup
