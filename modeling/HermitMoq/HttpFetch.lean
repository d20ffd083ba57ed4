import HermitMoq.FrameStreaming
import HermitMoq.TrackCache

/-!
# Fetching a Group over HTTP

The relay serves a group, or one of its frames, as the body of an HTTP response (`ServeGroup` in
`moq-relay/src/web.rs`). The task of the connection polls the body with `poll_frame`, which makes
a future of `ServeGroup::next`, polls it once and drops it. Inside, `next` waits for a frame to be
complete or for the next frame of the group, each with `kio::wait`, whose future owns the waiter
that the channel of the frame or group lists weakly, and within `timeout_at`, whose future owns a
timer that wakes the task as long as it exists.

The frames are those of `HermitMoq.Frame`. Others act on the group and on its frames between two
polls. `waiters` is a log no operation reads: all waiters that were created for the task.
-/

namespace HermitMoq

/-! ### Groups -/

/-- A frame of a group. -/
structure FrameHandle where
  id : ℕ
  size : ℕ
  deriving DecidableEq, Repr

/-- The errors of a fetch. -/
inductive FetchError
  | timeout
  | cacheFull
  | net (e : FrameError)
  deriving DecidableEq, Repr

/-- The value of the channel of a group. -/
structure GroupValue where
  cached : GroupState FrameHandle
  abort : Option FrameError
  deriving DecidableEq, Repr

namespace GroupValue

/-- `GroupState::poll_get_frame`; none is `Pending`. -/
def pollGetFrame (v : GroupValue) (index : ℕ) : Option (Except FetchError (Option FrameHandle)) :=
  if index < v.cached.offset then some (.error .cacheFull)
  else
    match v.cached.frames[index - v.cached.offset]? with
    | some frame => some (.ok (some frame))
    | none => if v.cached.fin then some (.ok none) else v.abort.map fun e => .error (.net e)

/-- `GroupProducer::append_frame`, once the group may be modified. -/
def appendFrame (v : GroupValue) (frame : FrameHandle) : GroupValue :=
  match v.cached.writeFrame FrameHandle.size frame with
  | .ok cached => { v with cached }
  | .error _ => v

/-- `GroupProducer::finish`. -/
def finish (v : GroupValue) : GroupValue := { v with cached := v.cached.finish }

/-- The frames are cleared. -/
def clear (v : GroupValue) : GroupValue :=
  { v with cached := { v.cached with frames := [], cache := 0 } }

end GroupValue

/-- What others do with a group. -/
inductive GroupOp
  /-- `GroupProducer::create_frame`. -/
  | createFrame (size : ℕ)
  /-- `GroupProducer::finish`. -/
  | finish
  /-- `GroupProducer::abort`. -/
  | abort (err : FrameError)
  /-- `GroupProducer::drop`. -/
  | drop
  /-- `Waiter::new` of another consumer. -/
  | newWaiter
  /-- A waiter is dropped. -/
  | dropWaiter (w : WaiterId)
  /-- `GroupConsumer::poll_get_frame` of another consumer. -/
  | pollGetFrame (w : WaiterId) (index : ℕ)
  deriving DecidableEq, Repr

/-- The group takes a frame of this size. -/
def GroupOp.accepts (g : Channel GroupValue) (size : ℕ) : Bool :=
  size ≤ maxFrameSize && !g.state.closed && !g.state.value.cached.fin

/-- The frame that an operation creates. -/
def GroupOp.created (g : Channel GroupValue) : GroupOp → List Frame
  | .createFrame size => if accepts g size then [Frame.new size] else []
  | _ => []

/-- The steps of the channel. A frame that is too large or comes too late is refused before the
group is modified; the last producer clears a group that is not finished. -/
def GroupOp.ops (g : Channel GroupValue) (id : ℕ) : GroupOp → List (KioOp GroupValue)
  | .createFrame size =>
    if accepts g size then [.write ⟨some fun v => v.appendFrame ⟨id, size⟩, false⟩] else []
  | .finish => [.write ⟨some GroupValue.finish, false⟩]
  | .abort err => [.write ⟨some fun v => { v.clear with abort := some err }, true⟩]
  | .drop =>
    let clear := g.producers = 1 ∧ g.state.value.cached.fin = false
    (if clear then [.write ⟨some GroupValue.clear, false⟩] else []) ++
      [.dropProducer, .resume g.tasks.length]
  | .newWaiter => [.newWaiter]
  | .dropWaiter w => [.dropWaiter w]
  | .pollGetFrame w index => [.consumerPoll w fun v => (v.pollGetFrame index).isSome]

/-- `FrameProducer::consume`: the frame, and which of its consumers is the new one. -/
def Frame.consumer (s : Frame) : Frame × ℕ :=
  let o := s.step .consume
  let s := if o.reply = .unfinished then (o.next.step (.resume s.channel.tasks.length)).next
    else o.next
  (s, s.readers.length - 1)

/-- The frame is complete or aborted, or its last producer is dropped. -/
def Frame.settled (s : Frame) : Bool :=
  (allReady s.channel.state.value).isSome || s.channel.state.closed

/-! ### The body of the response -/

/-- A `FrameConsumer`. -/
structure FrameRef where
  id : ℕ
  reader : ℕ
  deriving DecidableEq, Repr

/-- `ServeGroup`; a `GroupConsumer` is its index. -/
structure ServeGroup where
  group : Option ℕ
  frame : Option FrameRef
  deadline : ℕ
  deriving DecidableEq, Repr

/-- The channels. -/
inductive WaitPlace
  | group
  | frame (id : ℕ)
  deriving DecidableEq, Repr

/-- A fetch, with what it depends on. -/
structure HttpFetch where
  /-- The channel of the group. -/
  group : Channel GroupValue
  /-- The frames, in the order of their creation. -/
  frames : List Frame
  serve : ServeGroup
  now : ℕ
  /-- The timers that would wake the task, by their deadlines. -/
  timers : List ℕ
  /-- The waiters that were created for the task. -/
  waiters : List (WaitPlace × WaiterId)

/-- What `poll_frame` returns: some bytes, the end, or an error. -/
abbrev Polled := Poll (Except FetchError (Option (List UInt8)))

namespace HttpFetch

/-- A frame is changed. -/
def modifyFrame (s : HttpFetch) (id : ℕ) (f : Frame → Frame) : HttpFetch :=
  { s with frames := s.frames.modify id f }

/-- The waiter of a future is dropped with it. -/
def dropWaiter (s : HttpFetch) : WaitPlace × WaiterId → HttpFetch
  | (.group, w) => { s with group := (s.group.step (.dropWaiter w)).next }
  | (.frame id, w) => s.modifyFrame id fun frame => (frame.step (.dropWaiter w)).next

/-- `timeout_at`, around a future that is pending: its timer has elapsed or is set. A future that
is not finished is returned with the waiter it owns. -/
def timeoutAt (s : HttpFetch) (held : WaitPlace × WaiterId) :
    Polled × HttpFetch × Option (WaitPlace × WaiterId) :=
  if s.serve.deadline ≤ s.now then (.ready (.error .timeout), s.dropWaiter held, none)
  else (.pending, { s with timers := s.serve.deadline :: s.timers }, some held)

/-- The first part of the loop of `next`: `FrameConsumer::read_all`. The frame that is served
exists. -/
def readAll (s : HttpFetch) (f : FrameRef) : Polled × HttpFetch × Option (WaitPlace × WaiterId) :=
  match s.frames[f.id]? with
  | none => (.ready (.error (.net .dropped)), s, none)
  | some frame =>
    let w := frame.channel.nextWaiter
    let o := (frame.step .newWaiter).next.pollReadAll f.reader w 0
    let s := { s with
      frames := s.frames.set f.id o.next
      waiters := (.frame f.id, w) :: s.waiters }
    let taken := { s with serve := { s.serve with frame := none } }.dropWaiter (.frame f.id, w)
    match o.reply with
    | .all bytes => (.ready (.ok (some bytes)), taken, none)
    | .err e => (.ready (.error (.net e)), taken, none)
    | _ => s.timeoutAt (.frame f.id, w)

/-- The next frame is served: the loop of `next` goes on with its first part. -/
def serveFrame (s : HttpFetch) (index id : ℕ) :
    Polled × HttpFetch × Option (WaitPlace × WaiterId) :=
  let reader := (s.frames[id]?.map fun frame => frame.consumer.2).getD 0
  let s := s.modifyFrame id fun frame => frame.consumer.1
  { s with serve := { s.serve with
      group := some (index + 1), frame := some ⟨id, reader⟩ } }.readAll ⟨id, reader⟩

/-- The second part of the loop of `next`: `GroupConsumer::next_frame`. -/
def nextFrame (s : HttpFetch) (index : ℕ) : Polled × HttpFetch × Option (WaitPlace × WaiterId) :=
  let w := s.group.nextWaiter
  let g := (s.group.step .newWaiter).next
  let o := g.step (.consumerPoll w fun v => (v.pollGetFrame index).isSome)
  let s := { s with group := o.next, waiters := (.group, w) :: s.waiters }
  let polled := s.dropWaiter (.group, w)
  match o.reply, g.state.value.pollGetFrame index with
  | .ready, some (.ok (some frame)) => polled.serveFrame index frame.id
  | .ready, some (.ok none) =>
    (.ready (.ok none), { polled with serve := { s.serve with group := none } }, none)
  | .ready, some (.error e) => (.ready (.error e), polled, none)
  | .closed, _ => (.ready (.error (.net (g.state.value.abort.getD .dropped))), polled, none)
  | _, _ => s.timeoutAt (.group, w)

/-- A poll of `ServeGroup::next`, from its start. -/
def next (s : HttpFetch) : Polled × HttpFetch × Option (WaitPlace × WaiterId) :=
  match s.serve.frame, s.serve.group with
  | some f, _ => s.readAll f
  | none, some index => s.nextFrame index
  | none, none => (.ready (.ok none), s, none)

/-- A future is dropped after a poll. If it is not finished, its waiter and its timer are dropped
with it. -/
def dropFuture : Polled × HttpFetch × Option (WaitPlace × WaiterId) → Polled × HttpFetch
  | (polled, s, some held) =>
    (polled, { s with timers := s.timers.erase s.serve.deadline }.dropWaiter held)
  | (polled, s, none) => (polled, s)

/-- `Body::poll_frame`: a future of `next` is polled once and dropped. -/
def pollFrame (s : HttpFetch) : Polled × HttpFetch := dropFuture s.next

/-! ### Runs -/

/-- What happens besides the polls. -/
inductive Event
  | group (op : GroupOp)
  | frame (id : ℕ) (op : FrameOp)
  | elapse (duration : ℕ)

/-- The state after an event. -/
def after (s : HttpFetch) : Event → HttpFetch
  | .group op =>
    { s with
      group := s.group.exec (op.ops s.group s.frames.length)
      frames := s.frames ++ op.created s.group }
  | .frame id op => s.modifyFrame id fun frame => (frame.step op).next
  | .elapse duration => { s with now := s.now + duration }

/-- The event wakes the task. -/
def wakes (s : HttpFetch) : Event → Bool
  | .group op =>
    (s.group.wokenIn (op.ops s.group s.frames.length)).any fun w => (.group, w) ∈ s.waiters
  | .frame id op =>
    s.frames[id]?.any fun frame => (frame.step op).woken.any fun w => (.frame id, w) ∈ s.waiters
  | .elapse duration => s.timers.any fun deadline => deadline ≤ s.now + duration

/-- The state after events. -/
def afterAll (s : HttpFetch) (events : List Event) : HttpFetch := events.foldl after s

/-- Some of the events wakes the task. -/
def wakesIn (s : HttpFetch) : List Event → Bool
  | [] => false
  | event :: events => s.wakes event || (s.after event).wakesIn events

/-- The end of `serve_fetch`: the group is served, or the frame at an index that was waited for. -/
def serveFetch (s : HttpFetch) (frame : Option ℕ) (deadline : ℕ) : HttpFetch :=
  match frame with
  | none => { s with serve := ⟨some 0, none, deadline⟩ }
  | some index =>
    match s.group.state.value.pollGetFrame index with
    | some (.ok (some frame)) =>
      let reader := (s.frames[frame.id]?.map fun frame => frame.consumer.2).getD 0
      { s.modifyFrame frame.id fun frame => frame.consumer.1 with
        serve := ⟨none, some ⟨frame.id, reader⟩, deadline⟩ }
    | _ => s

/-- An event, the start of a fetch, or a poll of its body. -/
inductive Step
  | event (event : Event)
  | serve (frame : Option ℕ) (deadline : ℕ)
  | poll

/-- One step. -/
def step (s : HttpFetch) : Step → HttpFetch
  | .event event => s.after event
  | .serve frame deadline => s.serveFetch frame deadline
  | .poll => s.pollFrame.2

/-- A run, from a new group. -/
def run (steps : List Step) : HttpFetch :=
  steps.foldl step ⟨Channel.new ⟨.empty, none⟩, [], ⟨none, none, 0⟩, 0, [], []⟩

/-! ### What is waited for -/

/-- A frame that is complete or aborted, or will never be. -/
def settled (s : HttpFetch) (id : ℕ) : Bool := (s.frames[id]?.map Frame.settled).getD true

/-- What the fetch waits for has come: the frame is complete or aborted, there is a next frame,
the group is finished or aborted, or the deadline has passed. -/
def due (s : HttpFetch) : Bool :=
  s.serve.deadline ≤ s.now ||
    match s.serve.frame, s.serve.group with
    | some f, _ => s.settled f.id
    | none, some index =>
      (s.group.state.value.pollGetFrame index).isSome || s.group.state.closed
    | none, none => true

/-- There is a next frame that is complete or aborted, or there will be none. -/
def nextSettled (s : HttpFetch) (index : ℕ) : Bool :=
  match s.group.state.value.pollGetFrame index with
  | some (.ok (some frame)) => s.settled frame.id
  | some _ => true
  | none => s.group.state.closed

/-- A poll has its answer at once. -/
def answered (s : HttpFetch) : Bool :=
  s.serve.deadline ≤ s.now ||
    match s.serve.frame, s.serve.group with
    | some f, _ => s.settled f.id
    | none, some index => s.nextSettled index
    | none, none => true

end HttpFetch

end HermitMoq
