import HermitMoq.OriginNodes
import HermitMoq.Pending
import HermitMoq.Runs

/-!
# One Origin and Its Handles

The model of an origin with everything that acts on it: the producers derived from the
first one by `scope` and `with_root`, the consumers, the broadcasts that have closed, and
the cleanup tasks that `publish_broadcast` spawns. Every operation takes the locks it
needs for its whole duration, so the operations are the atomic steps of a system; a
cleanup runs at any time after its broadcast has closed.

An operation on a handle, task or consumer that does not exist leaves the state as it is.
Two fields are logs that no operation reads: `received` holds the updates each consumer
was given, `sent` the updates the nodes sent.
-/

namespace HermitMoq

/-- A producer: a root that is stripped from all paths, and the reachable nodes. -/
structure OriginProducer where
  /-- The prefix put in front of every path. -/
  root : Path
  /-- The nodes this producer may publish to. -/
  nodes : OriginNodes

/-- A consumer with its pending updates. -/
structure OriginConsumer where
  /-- The prefix stripped from every path. -/
  root : Path
  /-- The nodes this consumer is registered at. -/
  nodes : OriginNodes
  /-- The coalesced updates that were not delivered yet. -/
  pending : OriginConsumerState
  /-- The delivered updates, oldest first. -/
  received : List OriginAnnounce
  /-- Whether the consumer was dropped. -/
  dropped : Bool

namespace OriginConsumer

/-- A consumer that has received nothing yet. -/
def fresh (root : Path) (nodes : OriginNodes) (pending : OriginConsumerState) : OriginConsumer :=
  ⟨root, nodes, pending, [], false⟩

/-- A consumer after one more update was delivered. -/
def deliver (update : OriginAnnounce) (pending : OriginConsumerState) (c : OriginConsumer) :
    OriginConsumer :=
  ⟨c.root, c.nodes, pending, c.received ++ [update], c.dropped⟩

/-- A consumer after it was dropped. -/
def drop (c : OriginConsumer) : OriginConsumer :=
  ⟨c.root, c.nodes, c.pending, c.received, true⟩

end OriginConsumer

/-- The task spawned by `publish_broadcast`: wait for the broadcast to close, then remove
it from the node. -/
structure Cleanup where
  /-- The node the publish started from. -/
  node : ℕ
  /-- The absolute path. -/
  full : Path
  /-- The published broadcast. -/
  broadcast : BroadcastConsumer
  /-- The path below the node. -/
  rest : Path
  deriving DecidableEq

/-- An origin with its handles and tasks. -/
structure OriginSystem where
  /-- The identity of the origin. -/
  info : Origin
  /-- The nodes. -/
  tree : OriginTree
  /-- The producers, the unscoped one first. -/
  producers : List OriginProducer
  /-- The consumers, in the order of their ids. -/
  consumers : List OriginConsumer
  /-- The cleanup tasks that have not run. -/
  cleanups : List Cleanup
  /-- The channels of the broadcasts that have closed. -/
  closed : List ℕ
  /-- The updates sent by the nodes, oldest first. -/
  sent : List Notice

/-- The operations on an origin. -/
inductive OriginOp
  /-- `OriginProducer::publish_broadcast`. -/
  | publish (producer : ℕ) (path : Path) (broadcast : BroadcastConsumer)
  /-- `OriginProducer::scope`. -/
  | scope (producer : ℕ) (prefixes : List Path)
  /-- `OriginProducer::with_root`. -/
  | withRoot (producer : ℕ) (path : Path)
  /-- A broadcast closes. -/
  | close (state : ℕ)
  /-- The cleanup task at a position runs. -/
  | cleanup (task : ℕ)
  /-- `OriginProducer::consume`. -/
  | consume (producer : ℕ)
  /-- `OriginConsumer::scope`. -/
  | consumerScope (consumer : ConsumerId) (prefixes : List Path)
  /-- `OriginConsumer::with_root`; with the empty path, `OriginConsumer::clone`. -/
  | consumerWithRoot (consumer : ConsumerId) (path : Path)
  /-- Dropping a consumer. -/
  | dropConsumer (consumer : ConsumerId)
  /-- `OriginConsumer::poll_announced` or `try_announced`. -/
  | poll (consumer : ConsumerId)

/-! ### Notification -/

/-- `OriginConsumerNotify::announce`, `reannounce` and `unannounce`. -/
def notifyOne (notice : Notice) (consumers : List OriginConsumer) :
    ConsumerId × Path → Except Panic (List OriginConsumer)
  | (id, root) =>
    match notice.path.stripPrefix root with
    | none => .error .stripPrefixUnwrap
    | some path =>
      .ok (consumers.modify id fun c => { c with pending := c.pending.apply path notice })

/-- Tell all listeners. -/
def notifyAll (notice : Notice) (consumers : List OriginConsumer) :
    List (ConsumerId × Path) → Except Panic (List OriginConsumer)
  | [] => .ok consumers
  | l :: ls =>
    match notifyOne notice consumers l with
    | .ok consumers => notifyAll notice consumers ls
    | .error e => .error e

/-- Send the update of a leaf, if there is one, to the consumers above it. -/
def notify (tree : OriginTree) (leaf : ℕ) (consumers : List OriginConsumer) :
    Option Notice → Except Panic (List OriginConsumer)
  | none => .ok consumers
  | some notice => notifyAll notice consumers (tree.listeners leaf)

/-! ### New consumers -/

/-- The announcements of `consume_initial`. -/
def announceInitial (root : Path) (pending : OriginConsumerState) :
    List (Path × BroadcastConsumer) → Except Panic OriginConsumerState
  | [] => .ok pending
  | (path, broadcast) :: rest =>
    match path.stripPrefix root with
    | none => .error .stripPrefixUnwrap
    | some path => announceInitial root (pending.applyAnnounce path broadcast) rest

/-- The loop of `OriginConsumer::new`: consume every node. -/
def consumeNodes (id : ConsumerId) (root : Path) (tree : OriginTree)
    (pending : OriginConsumerState) :
    OriginNodes → Except Panic (OriginTree × OriginConsumerState)
  | [] => .ok (tree, pending)
  | (_, node) :: rest =>
    match announceInitial root pending (tree.consumeInitial node) with
    | .ok pending => consumeNodes id root (tree.register node id root) pending rest
    | .error e => .error e

namespace OriginSystem

/-- `OriginConsumer::new`. -/
def newConsumer (s : OriginSystem) (root : Path) (nodes : OriginNodes) :
    Except Panic OriginSystem :=
  match consumeNodes s.consumers.length root s.tree ∅ nodes with
  | .ok (tree, pending) =>
    .ok { s with tree, consumers := s.consumers ++ [.fresh root nodes pending] }
  | .error e => .error e

/-- The loop of `OriginConsumer::drop`: unregister at every node. -/
def unconsumeNodes (id : ConsumerId) (tree : OriginTree) :
    OriginNodes → Except Panic OriginTree
  | [] => .ok tree
  | (_, node) :: rest =>
    match tree.unconsume node id with
    | .ok tree => unconsumeNodes id tree rest
    | .error e => .error e

/-! ### The steps -/

/-- The origin of `Origin::produce`: one unscoped producer. -/
def init (info : Origin) : OriginSystem :=
  ⟨info, TrieHeap.empty, [⟨Path.empty, [(Path.empty, 0)]⟩], [], [], [], []⟩

/-- Where `publish_broadcast` publishes: the node, the rest of the path and the absolute
path, or `none` if it returns `false`. -/
def target (s : OriginSystem) (producer : ℕ) (path : Path) (broadcast : BroadcastConsumer) :
    Option (ℕ × Path × Path) := do
  let handle ← s.producers[producer]?
  if broadcast.hops.contains s.info then none
  else
    let (node, rest) ← OriginNodes.get handle.nodes path
    some (node, rest, handle.root.join path)

/-- The accepted part of `OriginProducer::publish_broadcast`. -/
def publishAt (s : OriginSystem) (node : ℕ) (rest full : Path)
    (broadcast : BroadcastConsumer) : Except Panic OriginSystem :=
  let (tree, leaf, notice) := OriginTree.publish full broadcast s.tree node rest.parts
  match notify tree leaf s.consumers notice with
  | .ok consumers =>
    .ok { s with
      tree, consumers
      cleanups := s.cleanups ++ [⟨node, full, broadcast, rest⟩]
      sent := s.sent ++ notice.toList }
  | .error e => .error e

/-- The body of a cleanup task. -/
def removeAt (s : OriginSystem) (task : Cleanup) : Except Panic OriginSystem :=
  match OriginTree.remove task.full task.broadcast s.tree task.node task.rest.parts with
  | .ok (tree, leaf, notice) =>
    match notify tree leaf s.consumers notice with
    | .ok consumers => .ok { s with tree, consumers, sent := s.sent ++ notice.toList }
    | .error e => .error e
  | .error e => .error e

/-- A new producer from a derived node list. -/
def addProducer (s : OriginSystem) (root : Path) :
    Except Panic (OriginTree × Option OriginNodes) → Except Panic OriginSystem
  | .ok (tree, some nodes) => .ok { s with tree, producers := s.producers ++ [⟨root, nodes⟩] }
  | .ok (tree, none) => .ok { s with tree }
  | .error e => .error e

/-- A new consumer from a derived node list. -/
def addConsumer (s : OriginSystem) (root : Path) :
    Except Panic (OriginTree × Option OriginNodes) → Except Panic OriginSystem
  | .ok (tree, some nodes) => { s with tree }.newConsumer root nodes
  | .ok (tree, none) => .ok { s with tree }
  | .error e => .error e

/-- Consumers that have not been dropped. -/
def live (s : OriginSystem) (id : ConsumerId) : Option OriginConsumer :=
  s.consumers[id]?.filter fun c => !c.dropped

/-- One operation. -/
def step (s : OriginSystem) : OriginOp → Except Panic OriginSystem
  | .publish producer path broadcast =>
    match s.target producer path broadcast with
    | some (node, rest, full) => s.publishAt node rest full broadcast
    | none => .ok s
  | .scope producer prefixes =>
    match s.producers[producer]? with
    | some p => s.addProducer p.root
        (OriginNodes.select s.tree p.nodes (PathPrefixes.new prefixes))
    | none => .ok s
  | .withRoot producer path =>
    match s.producers[producer]? with
    | some p => s.addProducer (p.root.join path) (OriginNodes.root s.tree p.nodes path)
    | none => .ok s
  | .close state => .ok { s with closed := state :: s.closed }
  | .cleanup task =>
    match s.cleanups[task]? with
    | some t =>
      if t.broadcast.state ∈ s.closed then
        { s with cleanups := s.cleanups.eraseIdx task }.removeAt t
      else .ok s
    | none => .ok s
  | .consume producer =>
    match s.producers[producer]? with
    | some p => s.newConsumer p.root p.nodes
    | none => .ok s
  | .consumerScope consumer prefixes =>
    match s.live consumer with
    | some c => s.addConsumer c.root
        (OriginNodes.select s.tree c.nodes (PathPrefixes.new prefixes))
    | none => .ok s
  | .consumerWithRoot consumer path =>
    match s.live consumer with
    | some c => s.addConsumer (c.root.join path) (OriginNodes.root s.tree c.nodes path)
    | none => .ok s
  | .dropConsumer consumer =>
    match s.live consumer with
    | some c =>
      match unconsumeNodes consumer s.tree c.nodes with
      | .ok tree => .ok { s with tree, consumers := s.consumers.modify consumer .drop }
      | .error e => .error e
    | none => .ok s
  | .poll consumer =>
    match s.live consumer with
    | some c =>
      match c.pending.take with
      | some (update, pending) =>
        .ok { s with consumers := s.consumers.modify consumer (.deliver update pending) }
      | none => .ok s
    | none => .ok s

/-- `get_broadcast` of a producer. -/
def getBroadcast (s : OriginSystem) (producer : ℕ) (path : Path) : Option BroadcastConsumer := do
  let handle ← s.producers[producer]?
  let (node, rest) ← OriginNodes.get handle.nodes path
  s.tree.consumeBroadcast node rest

end OriginSystem

end HermitMoq
