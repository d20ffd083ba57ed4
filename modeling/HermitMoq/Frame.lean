import HermitMoq.Kio

/-!
# Frames

A frame declares its size up front and has a buffer of that size. One writer fills the buffer,
through `write` or through the `BufMut` interface; consumers read what has been written so
far, each from its own offset. How much has been written is an atomic counter of the buffer,
beside a kio channel whose value tells whether the frame is complete or aborted.

A call of `write` takes three steps: the checks, the store of the counter, and the lock
section after it. A call of `advance_mut` is the last two of them. Other handles of the frame
can do anything in between, except write.
-/

namespace HermitMoq

/-- The errors of a frame. -/
inductive FrameError
  /-- `Error::WrongSize`. -/
  | wrongSize
  /-- `Error::Dropped`. -/
  | dropped
  /-- Any error that `abort` was called with. -/
  | aborted (code : ℕ)
  deriving DecidableEq, Repr

/-- The buffer of a frame. -/
structure FrameBuf where
  /-- The declared size. -/
  capacity : ℕ
  /-- The bytes below the counter. -/
  data : List UInt8
  /-- The counter is at most the capacity. -/
  fits : data.length ≤ capacity

namespace FrameBuf

/-- `FrameBuf::new`. -/
def new (size : ℕ) : FrameBuf := ⟨size, [], Nat.zero_le _⟩

/-- The counter. -/
def written (b : FrameBuf) : ℕ := b.data.length

/-- `remaining_mut`. -/
def remaining (b : FrameBuf) : ℕ := b.capacity - b.written

/-- Bytes are copied behind the counter, which then moves over them. -/
def append (b : FrameBuf) (bytes : List UInt8) (h : b.written + bytes.length ≤ b.capacity) :
    FrameBuf :=
  ⟨b.capacity, b.data ++ bytes, by rwa [List.length_append]⟩

/-- The bytes between two offsets. -/
def slice (b : FrameBuf) (first last : ℕ) : List UInt8 := (b.data.take last).drop first

end FrameBuf

/-- The value of the channel of a frame. -/
structure FrameState where
  /-- All bytes have been written. -/
  fin : Bool
  /-- The error that aborted the frame. -/
  abort : Option FrameError
  deriving DecidableEq, Repr

/-- How far the writer is in a call. -/
inductive Writer
  /-- There is no call. -/
  | idle
  /-- `write` has made its checks. -/
  | checked (chunk : List UInt8)
  /-- `advance_mut` has moved the counter. -/
  | advanced (prev cnt : ℕ)
  deriving DecidableEq, Repr

/-- A frame with its handles. -/
structure Frame where
  /-- The kio channel. -/
  channel : Channel FrameState
  /-- The buffer. -/
  buf : FrameBuf
  /-- The offsets of the consumers, dropped ones excepted. -/
  readers : List (Option ℕ)
  /-- The call of the writer. -/
  writer : Writer

/-- The steps of a frame. -/
inductive FrameOp
  /-- `Waiter::new`. -/
  | newWaiter
  /-- A waiter is dropped. -/
  | dropWaiter (w : WaiterId)
  /-- `FrameProducer::consume`. -/
  | consume
  /-- `FrameConsumer::clone`. -/
  | cloneConsumer (i : ℕ)
  /-- `FrameConsumer::drop`. -/
  | dropConsumer (i : ℕ)
  /-- `FrameProducer::clone`. -/
  | cloneProducer
  /-- `FrameProducer::drop`. -/
  | dropProducer
  /-- An unfinished operation on the channel takes the lock. -/
  | resume (i : ℕ)
  /-- `FrameConsumer::poll_read_chunk`. -/
  | pollReadChunk (i : ℕ) (w : WaiterId)
  /-- `FrameConsumer::poll_read_all`. -/
  | pollReadAll (i : ℕ) (w : WaiterId)
  /-- The poll of `FrameProducer::unused`. -/
  | pollUnused (w : WaiterId)
  /-- `FrameProducer::write`. -/
  | write (chunk : List UInt8)
  /-- Bytes are put into `chunk_mut`, then `advance_mut` is called. -/
  | advanceMut (bytes : List UInt8)
  /-- The writer goes on. -/
  | resumeWrite
  /-- `FrameProducer::finish`. -/
  | finish
  /-- `FrameProducer::abort`. -/
  | abort (err : FrameError)

/-- What a step returns. -/
inductive FrameReply
  /-- Done. -/
  | ok
  /-- `Err`. -/
  | err (e : FrameError)
  /-- `Poll::Ready` of `poll_read_chunk`. -/
  | chunk (bytes : Option (List UInt8))
  /-- `Poll::Ready` of `poll_read_all`. -/
  | all (bytes : List UInt8)
  /-- `Poll::Pending`. -/
  | pending
  /-- The operation goes on. -/
  | unfinished
  /-- The assertion of `advance_mut` failed. -/
  | assertion
  /-- The step was not possible. -/
  | none
  deriving DecidableEq, Repr

/-- The effect of a step. -/
structure FrameOutcome where
  /-- The frame afterwards. -/
  next : Frame
  /-- What the step returns. -/
  reply : FrameReply
  /-- The waiters that are woken. -/
  woken : List WaiterId

namespace Frame

/-- `FrameProducer::new`. -/
def new (size : ℕ) : Frame := ⟨Channel.new ⟨false, none⟩, FrameBuf.new size, [], .idle⟩

/-- A step that leaves the channel alone. -/
def done (s : Frame) (reply : FrameReply) : FrameOutcome := ⟨s, reply, []⟩

/-- The reply to an operation on the channel. A closed channel shows its error. -/
def answer (s : Frame) : Reply → FrameReply
  | .ready => .ok
  | .closed => .err (s.channel.state.value.abort.getD .dropped)
  | .pending => .pending
  | .unfinished => .unfinished
  | .none => .none

/-- An operation on the channel. -/
def act (s : Frame) (op : KioOp FrameState) : FrameOutcome :=
  let o := s.channel.step op
  ⟨{ s with channel := o.next }, s.answer o.reply, o.woken⟩

/-- The offset of a consumer. -/
def readIdx (s : Frame) (i : ℕ) : Option ℕ := s.readers[i]?.join

/-- The helper `FrameConsumer::poll`; `ok` gives the offsets and the reply for an answer. -/
def poll {β : Type} (s : Frame) (w : WaiterId) (f : FrameState → Option (Except FrameError β))
    (ok : β → List (Option ℕ) × FrameReply) : FrameOutcome :=
  let o := s.channel.step (.consumerPoll w fun state => (f state).isSome)
  match o.reply, f s.channel.state.value with
  | .ready, some (.ok b) =>
    ⟨{ s with channel := o.next, readers := (ok b).1 }, (ok b).2, o.woken⟩
  | .ready, some (.error e) => ⟨{ s with channel := o.next }, .err e, o.woken⟩
  | reply, _ => ⟨{ s with channel := o.next }, s.answer reply, o.woken⟩

/-- The closure of `poll_read_chunk`. -/
def chunkReady (written readIdx : ℕ) (state : FrameState) :
    Option (Except FrameError (Option ℕ)) :=
  if written > readIdx then some (.ok (some written))
  else if state.fin then some (.ok none)
  else state.abort.map .error

/-- The closure of `poll_read_all`. -/
def allReady (state : FrameState) : Option (Except FrameError Unit) :=
  if state.fin then some (.ok ()) else state.abort.map .error

/-- `FrameConsumer::poll_read_chunk`. -/
def pollReadChunk (s : Frame) (i : ℕ) (w : WaiterId) (readIdx : ℕ) : FrameOutcome :=
  s.poll w (chunkReady s.buf.written readIdx) fun
    | some written =>
      (s.readers.set i (some written), .chunk (some (s.buf.slice readIdx written)))
    | none => (s.readers, .chunk none)

/-- `FrameConsumer::poll_read_all`. -/
def pollReadAll (s : Frame) (i : ℕ) (w : WaiterId) (readIdx : ℕ) : FrameOutcome :=
  s.poll w allReady fun () =>
    (s.readers.set i (some s.buf.capacity), .all (s.buf.slice readIdx s.buf.written))

/-- The first half of `advance_mut`. -/
def advance (s : Frame) (bytes : List UInt8) : FrameOutcome :=
  if h : s.buf.written + bytes.length ≤ s.buf.capacity then
    { s with
      buf := s.buf.append bytes h
      writer := .advanced s.buf.written bytes.length }.done .unfinished
  else { s with writer := .idle }.done .assertion

/-- The second half of `advance_mut`: its guard is only used if the buffer is full. -/
def notify (s : Frame) (prev cnt : ℕ) : FrameOutcome :=
  let o := s.channel.step (.write
    ⟨if prev + cnt = s.buf.capacity then some fun state => { state with fin := true } else none,
      false⟩)
  ⟨{ s with channel := o.next, writer := .idle }, .ok, o.woken⟩

/-- One step. -/
def step (s : Frame) : FrameOp → FrameOutcome
  | .newWaiter => s.act .newWaiter
  | .dropWaiter w => s.act (.dropWaiter w)
  | .consume =>
    { s with
      readers := if s.channel.consumers = 0 then s.readers else s.readers ++ [some 0] }.act
        .consume
  | .cloneConsumer i =>
    match s.readIdx i with
    | some idx => { s with readers := s.readers ++ [some idx] }.act .cloneConsumer
    | none => s.done .none
  | .dropConsumer i =>
    match s.readIdx i with
    | some _ => { s with readers := s.readers.set i none }.act .dropConsumer
    | none => s.done .none
  | .cloneProducer => s.act .cloneProducer
  | .dropProducer =>
    -- the writer borrows its handle
    if s.writer ≠ .idle ∧ s.channel.producerHandles ≤ 1 then s.done .none
    else s.act .dropProducer
  | .resume i =>
    { s with
      readers := if s.channel.tasks[i]? = some KioTask.consume then s.readers ++ [some 0]
        else s.readers }.act (.resume i)
  | .pollReadChunk i w =>
    match s.readIdx i with
    | some idx => s.pollReadChunk i w idx
    | none => s.done .none
  | .pollReadAll i w =>
    match s.readIdx i with
    | some idx => s.pollReadAll i w idx
    | none => s.done .none
  | .pollUnused w => s.act (.pollUnused w)
  | .write chunk =>
    if s.channel.producerHandles = 0 ∨ s.writer ≠ .idle then s.done .none
    else if chunk.length > s.buf.remaining then s.done (.err .wrongSize)
    else
      match s.channel.state.value.abort with
      | some e => s.done (.err e)
      | none =>
        -- `put_slice` makes no call of `advance_mut` if there is nothing to put
        if chunk = [] then s.done .ok else { s with writer := .checked chunk }.done .unfinished
  | .advanceMut bytes =>
    if s.channel.producerHandles = 0 ∨ s.writer ≠ .idle then s.done .none else s.advance bytes
  | .resumeWrite =>
    match s.writer with
    | .idle => s.done .none
    | .checked chunk => s.advance chunk
    | .advanced prev cnt => s.notify prev cnt
  | .finish =>
    if s.channel.producerHandles = 0 then s.done .none
    else if s.buf.written ≠ s.buf.capacity then s.done (.err .wrongSize)
    else s.act (.write ⟨some fun state => { state with fin := true }, false⟩)
  | .abort err =>
    if s.channel.producerHandles = 0 then s.done .none
    else s.act (.write ⟨some fun state => { state with abort := some err }, true⟩)

/-- Take steps one after another. -/
def exec (s : Frame) (ops : List FrameOp) : Frame :=
  ops.foldl (fun s op => (s.step op).next) s

/-- The waiters that a run wakes. -/
def wokenIn (s : Frame) : List FrameOp → List WaiterId
  | [] => []
  | op :: ops => (s.step op).woken ++ (s.step op).next.wokenIn ops

end Frame

end HermitMoq
