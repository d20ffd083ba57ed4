import HermitMoq.Accounting
import Mathlib.Combinatorics.SimpleGraph.Basic

/-!
# A Cluster of Relays

Relays that are linked by moq-lite sessions (Lite04 and later) announce the broadcasts of
their origins to each other. Every session runs in both directions, and each direction is
one announce stream: the subscriber opens it with an `AnnounceInterest` that carries its
own origin id as `exclude_hop`; the publisher answers with the updates of a consumer of its
origin, its own id appended to the hop chains; the subscriber publishes what it receives
into its own origin.

The steps are the sections between two waits: one update of the loop in
`Publisher::run_announce`, one message of the loop in `Subscriber::run_announce_prefix`,
one cleanup of an origin. Streams are reliable and ordered. All sessions use the unscoped
handles of the origins, so that the only announce prefix is the empty path. The stats
guards of both loops are left out.

Channels of broadcasts are numbered per relay. The broadcasts an application produces on a
relay have an empty hop chain and may be published at any number of paths, also at a path
where they are published already (`Cluster.Fresh` excludes this: the defect of
`HermitMoq.Accounting`).
-/

namespace HermitMoq

/-- The message that opens an announce stream. -/
structure AnnounceInterest where
  /-- Only broadcasts below this path are asked for. -/
  pathPrefix : Path
  /-- Broadcasts whose hop chain contains this id are skipped, if it is not zero. -/
  excludeHop : UInt64

/-- The messages of an announce stream. -/
inductive Announce
  /-- A broadcast is available. -/
  | active (suffix : Path) (hops : OriginList)
  /-- A broadcast has ended. -/
  | ended (suffix : Path) (hops : OriginList)

/-- The relays of a cluster, their links and identities. -/
structure Topology (V : Type*) where
  /-- The links. -/
  graph : SimpleGraph V
  /-- The identity of the origin of each relay. -/
  info : V → Origin
  /-- The random identity of each session, from publisher to subscriber. -/
  sessionOrigin : V → V → Origin
  info_injective : Function.Injective info
  info_ne_zero : ∀ x, (info x).id ≠ 0

/-- A running `run_announce` task. -/
structure AnnounceTask where
  /-- The consumer whose updates are announced. -/
  origin : ConsumerId
  /-- The prefix asked for. -/
  pathPrefix : Path
  /-- The id to skip. -/
  excludeHop : UInt64

/-- One direction of a session. -/
structure Session where
  /-- The consumer the publisher was created with. -/
  origin : Option ConsumerId
  /-- The request that the publisher has not read yet. -/
  interest : Option AnnounceInterest
  /-- The publisher's task. -/
  task : Option AnnounceTask
  /-- The messages written and not read yet. -/
  stream : List Announce
  /-- The broadcasts the subscriber holds for the announced paths. -/
  producers : AList fun _ : Path => BroadcastConsumer

/-- One relay. -/
structure Relay (V : Type*) where
  /-- The origin with its handles and tasks. -/
  origin : OriginSystem
  /-- The next unused channel. -/
  next : ℕ
  /-- The channels produced by applications. -/
  locals : List ℕ
  /-- The `run_broadcast` tasks: the publisher and the path a channel is served from. -/
  upstream : AList fun _ : ℕ => V × Path

/-- A cluster. -/
structure Cluster (V : Type*) where
  /-- The relays. -/
  relays : V → Relay V
  /-- The sessions, from publisher to subscriber. -/
  sessions : V → V → Session

/-- What may go wrong. -/
inductive ClusterError
  /-- An origin panics. -/
  | panic (p : Panic)
  /-- The `expect` of `run_announce` that the origin returned a path below the prefix. -/
  | invalidPath
  /-- The `expect` of `start_announce` that an empty hop chain has room for an entry. -/
  | noRoom
  /-- `Error::Duplicate`: a path is announced twice. -/
  | duplicate

/-- The steps of a cluster. -/
inductive ClusterOp (V : Type*)
  /-- An application produces a broadcast. -/
  | produce (x : V)
  /-- An application publishes a broadcast. -/
  | publish (x : V) (path : Path) (state : ℕ)
  /-- An application closes a broadcast. -/
  | close (x : V) (state : ℕ)
  /-- A cleanup task runs. -/
  | cleanup (x : V) (task : ℕ)
  /-- A session is set up and the subscriber asks for announcements. -/
  | connect (y x : V)
  /-- The publisher accepts the announce stream. -/
  | recvAnnounce (y x : V)
  /-- The publisher takes one update from its consumer. -/
  | announce (y x : V)
  /-- The subscriber reads one message. -/
  | receive (y x : V)

namespace Session

/-- A session that is not set up yet. -/
def init : Session := ⟨none, none, none, [], ∅⟩

end Session

/-- The message `Publisher::run_announce` writes for one update, if any. -/
def AnnounceTask.message (t : AnnounceTask) (selfOrigin : Origin) :
    OriginAnnounce → Except ClusterError (Option Announce)
  | (path, update) =>
    match path.stripPrefix t.pathPrefix with
    | none => .error .invalidPath
    | some suffix =>
      match update with
      | some b =>
        if t.excludeHop ≠ 0 ∧ b.hops.list.any (·.id == t.excludeHop) then .ok none
        else if b.hops.contains selfOrigin then .ok none
        else
          match b.hops.push selfOrigin with
          | none => .ok none
          | some hops => .ok (some (.active suffix hops))
      | none => .ok (some (.ended suffix OriginList.new))

namespace Cluster

variable {V : Type*} [DecidableEq V]

/-- Replace one relay. -/
def setRelay (c : Cluster V) (x : V) (r : Relay V) : Cluster V :=
  { c with relays := Function.update c.relays x r }

/-- Replace one direction of a session. -/
def setSession (c : Cluster V) (y x : V) (s : Session) : Cluster V :=
  { c with sessions := Function.update c.sessions y (Function.update (c.sessions y) x s) }

/-- An operation on the origin of a relay. -/
def act (c : Cluster V) (x : V) (op : OriginOp) : Except ClusterError (Cluster V) :=
  match (c.relays x).origin.step op with
  | .ok origin => .ok (c.setRelay x { c.relays x with origin })
  | .error e => .error (.panic e)

/-- The relays before anything has happened. -/
def init (T : Topology V) : Cluster V where
  relays x := ⟨OriginSystem.init (T.info x), 0, [], ∅⟩
  sessions _ _ := Session.init

/-- `Subscriber::start_announce`. -/
def startAnnounce (T : Topology V) (c : Cluster V) (y x : V) (path : Path) (hops : OriginList) :
    Except ClusterError (Cluster V) :=
  let r := c.relays x
  let s := c.sessions y x
  if hops.contains r.origin.info then .ok c
  else
    match if hops.len = 0 then hops.push (T.sessionOrigin y x) else some hops with
    | none => .error .noRoom
    | some hops =>
      let broadcast : BroadcastConsumer := ⟨r.next, hops⟩
      match s.producers.lookup path with
      | some _ => .error .duplicate
      | none =>
        let c := c.setRelay x { r with
          next := r.next + 1
          upstream := r.upstream.insert r.next (y, path) }
        let c := c.setSession y x { s with producers := s.producers.insert path broadcast }
        c.act x (.publish 0 path broadcast)

/-- One message of the loop of `Subscriber::run_announce_prefix`. -/
def receive (T : Topology V) (c : Cluster V) (y x : V) (pathPrefix : Path) :
    Announce → Except ClusterError (Cluster V)
  | .active suffix hops => c.startAnnounce T y x (pathPrefix.join suffix) hops
  | .ended suffix _ =>
    let s := c.sessions y x
    match s.producers.lookup (pathPrefix.join suffix) with
    | some b =>
      (c.setSession y x { s with
        producers := s.producers.erase (pathPrefix.join suffix) }).act x (.close b.state)
    | none => .ok c

/-- `Publisher::recv_announce`: start a task for the consumer of the prefix. If there is
nothing below the prefix to serve, the stream is finished. -/
def recvAnnounce (c : Cluster V) (y x : V) (origin : ConsumerId) (interest : AnnounceInterest) :
    Except ClusterError (Cluster V) :=
  let id := (c.relays y).origin.consumers.length
  match c.act y (.consumerScope origin [interest.pathPrefix]) with
  | .ok c =>
    let s := c.sessions y x
    .ok (c.setSession y x { s with
      interest := none
      task := (c.relays y).origin.consumers[id]?.map fun _ =>
        ⟨id, interest.pathPrefix, interest.excludeHop⟩ })
  | .error e => .error e

/-- One update of the loop of `Publisher::run_announce`. -/
def announce (T : Topology V) (c : Cluster V) (y x : V) (task : AnnounceTask) :
    Except ClusterError (Cluster V) :=
  match ((c.relays y).origin.live task.origin).bind fun consumer => consumer.pending.take with
  | none => .ok c
  | some (update, _) =>
    match c.act y (.poll task.origin) with
    | .error e => .error e
    | .ok c =>
      match task.message (T.info y) update with
      | .error e => .error e
      | .ok message =>
        let s := c.sessions y x
        .ok (c.setSession y x { s with stream := s.stream ++ message.toList })

/-- One step. -/
def step (T : Topology V) [DecidableRel T.graph.Adj] (c : Cluster V) :
    ClusterOp V → Except ClusterError (Cluster V)
  | .produce x =>
    let r := c.relays x
    .ok (c.setRelay x { r with next := r.next + 1, locals := r.next :: r.locals })
  | .publish x path state =>
    if state ∈ (c.relays x).locals then c.act x (.publish 0 path ⟨state, OriginList.new⟩)
    else .ok c
  | .close x state =>
    if state ∈ (c.relays x).locals then c.act x (.close state) else .ok c
  | .cleanup x task => c.act x (.cleanup task)
  | .connect y x =>
    if T.graph.Adj y x ∧ (c.sessions y x).origin = none then
      match c.act y (.consume 0) with
      | .ok c' =>
        .ok (c'.setSession y x { c.sessions y x with
          origin := some (c.relays y).origin.consumers.length
          interest := some ⟨Path.empty, (T.info x).id⟩ })
      | .error e => .error e
    else .ok c
  | .recvAnnounce y x =>
    match (c.sessions y x).origin, (c.sessions y x).interest with
    | some origin, some interest => c.recvAnnounce y x origin interest
    | _, _ => .ok c
  | .announce y x =>
    match (c.sessions y x).task with
    | some task => c.announce T y x task
    | none => .ok c
  | .receive y x =>
    match (c.sessions y x).stream with
    | message :: rest =>
      (c.setSession y x { c.sessions y x with stream := rest }).receive T y x Path.empty message
    | [] => .ok c

/-- No application publishes a broadcast at a path where its relay already stores it. -/
def Fresh (c : Cluster V) : ClusterOp V → Prop
  | .publish x path state =>
    (c.relays x).origin.Fresh (.publish 0 path ⟨state, OriginList.new⟩)
  | _ => True

instance (c : Cluster V) : DecidablePred c.Fresh
  | .publish x path state =>
    inferInstanceAs
      (Decidable ((c.relays x).origin.Fresh (.publish 0 path ⟨state, OriginList.new⟩)))
  | .produce _ | .close _ _ | .cleanup _ _ | .connect _ _ | .recvAnnounce _ _ | .announce _ _
  | .receive _ _ => isTrue trivial

/-- Nothing is left to happen by itself: every session is set up, no message and no update
is undelivered, and no cleanup is due. -/
structure Quiescent (T : Topology V) (c : Cluster V) : Prop where
  interest : ∀ {y x}, T.graph.Adj y x → (c.sessions y x).interest = none
  task : ∀ {y x}, T.graph.Adj y x → ∃ task consumer, (c.sessions y x).task = some task ∧
    (c.relays y).origin.live task.origin = some consumer ∧ consumer.pending.take = none
  stream : ∀ {y x}, T.graph.Adj y x → (c.sessions y x).stream = []
  cleanups : ∀ {x t}, t ∈ (c.relays x).origin.cleanups →
    t.broadcast.state ∉ (c.relays x).origin.closed

instance [Fintype V] (T : Topology V) [DecidableRel T.graph.Adj] (c : Cluster V) :
    Decidable (c.Quiescent T) :=
  decidable_of_iff
    ((∀ y x, T.graph.Adj y x → (c.sessions y x).interest.isNone ∧ (c.sessions y x).stream.isEmpty ∧
        ((c.sessions y x).task.bind fun t => (c.relays y).origin.live t.origin).any
          fun consumer => consumer.pending.take.isNone) ∧
      ∀ x, ∀ t ∈ (c.relays x).origin.cleanups,
        t.broadcast.state ∉ (c.relays x).origin.closed) (by
    constructor
    · rintro ⟨hsession, hcleanups⟩
      refine ⟨fun h => ?_, fun h => ?_, fun h => ?_, fun ht => hcleanups _ _ ht⟩
      · exact Option.isNone_iff_eq_none.mp (hsession _ _ h).1
      · obtain ⟨consumer, hc, htake⟩ := (Option.any_eq_true _ _).mp (hsession _ _ h).2.2
        obtain ⟨task, ht, hc⟩ := Option.bind_eq_some_iff.mp hc
        exact ⟨task, consumer, ht, hc, Option.isNone_iff_eq_none.mp htake⟩
      · exact List.isEmpty_iff.mp (hsession _ _ h).2.1
    · intro hq
      refine ⟨fun y x h => ⟨?_, ?_, ?_⟩, fun x t ht => hq.cleanups ht⟩
      · exact Option.isNone_iff_eq_none.mpr (hq.interest h)
      · exact List.isEmpty_iff.mpr (hq.stream h)
      · obtain ⟨task, consumer, ht, hc, htake⟩ := hq.task h
        rw [ht, Option.bind_some, hc, Option.any_some, htake, Option.isNone_none])

/-- A broadcast of an application is published at a path and neither closed nor removed. -/
def LocalAt (c : Cluster V) (path : Path) (x : V) : Prop :=
  ∃ t ∈ (c.relays x).origin.cleanups, t.full = path ∧
    t.broadcast.state ∈ (c.relays x).locals ∧ t.broadcast.state ∉ (c.relays x).origin.closed

end Cluster

end HermitMoq
