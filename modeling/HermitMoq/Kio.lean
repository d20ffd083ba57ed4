import Mathlib.Data.List.Basic

/-!
# The Channel of kio

Producers and consumers of a `kio` channel share a value behind a mutex. A poll that finds
its answer missing registers the waiter of its task in one of three lists: for changes of
the value, for the closing of the channel, or for the first consumer to come or the last one
to go. Lists hold weak references; a slot whose waiter was dropped is reused by a later
registration, which looks at no more than two slots behind a rotating cursor.

The steps of a channel are its lock sections and the accesses to its two atomic counters. An
operation that needs several of them leaves a task behind that finishes it later, so that
others can act in between. The wakers that a lock section drains are woken right after it
by the same thread, from a list nobody else can reach, and belong to the same step.

Handles are counted, since only the owner of one can clone or drop it. `waiting` is a log no
operation reads: the registrations of polls that answered `Pending`, until their waiter is
dropped or their list is drained.
-/

namespace HermitMoq

/-- The identity of a waiter, of its `Arc<Waker>`. -/
abbrev WaiterId := ℕ

/-- A list of weak wakers with a cursor into it. -/
structure WaiterList where
  /-- The registered waiters, dropped ones included. -/
  entries : List WaiterId
  /-- The slot to look at next. -/
  cursor : ℕ
  /-- The cursor is a slot, unless there are none. -/
  valid : cursor < entries.length ∨ cursor = 0

namespace WaiterList

/-- `WaiterList::new`; also what `take` leaves behind. -/
def new : WaiterList := ⟨[], 0, Or.inr rfl⟩

theorem cursor_lt (l : WaiterList) (h : 0 < l.entries.length) : l.cursor < l.entries.length := by
  rcases l.valid with hlt | hzero
  · exact hlt
  · omega

/-- Append a slot. -/
def push (l : WaiterList) (w : WaiterId) : WaiterList :=
  ⟨l.entries ++ [w], l.cursor, by
    rw [List.length_append, List.length_singleton]
    rcases l.valid with hlt | hzero
    · exact Or.inl (by omega)
    · exact Or.inr hzero⟩

/-- Reuse the slot at the cursor. -/
def reuse (l : WaiterList) (w : WaiterId) : WaiterList :=
  ⟨l.entries.set l.cursor w, l.cursor, by rw [List.length_set]; exact l.valid⟩

/-- Move the cursor on. -/
def advance (l : WaiterList) (h : 0 < l.entries.length) : WaiterList :=
  ⟨l.entries, (l.cursor + 1) % l.entries.length, Or.inl (Nat.mod_lt _ h)⟩

/-- The loop of `WaiterList::register`: look at `n` slots, reuse the first dead one, and
append if there is none. -/
def probe (alive : WaiterId → Bool) (w : WaiterId) :
    (n : ℕ) → (l : WaiterList) → n ≤ l.entries.length → WaiterList
  | 0, l, _ => l.push w
  | n + 1, l, h =>
    if alive (l.entries.get ⟨l.cursor, l.cursor_lt (by omega)⟩) then
      probe alive w n (l.advance (by omega)) (Nat.le_of_succ_le h)
    else l.reuse w

/-- `WaiterList::register`. -/
def register (alive : WaiterId → Bool) (w : WaiterId) (l : WaiterList) : WaiterList :=
  probe alive w (min l.entries.length 2) l (Nat.min_le_left _ _)

variable {alive : WaiterId → Bool} {w e : WaiterId} {l : WaiterList}

theorem mem_probe_self {n : ℕ} (h : n ≤ l.entries.length) :
    w ∈ (probe alive w n l h).entries := by
  induction n generalizing l with
  | zero => simp [probe, push]
  | succ n ih =>
    rw [probe]
    split_ifs
    · exact ih _
    · exact List.mem_set (l.cursor_lt (by omega)) w

/-- A slot is only overwritten if its waiter was dropped. -/
theorem mem_probe {n : ℕ} (h : n ≤ l.entries.length) (he : e ∈ l.entries)
    (ha : alive e = true) : e ∈ (probe alive w n l h).entries := by
  induction n generalizing l with
  | zero => exact List.mem_append_left _ he
  | succ n ih =>
    rw [probe]
    split_ifs with hslot
    · exact ih _ he
    · obtain ⟨i, hi⟩ := List.mem_iff_getElem?.mp he
      refine List.mem_iff_getElem?.mpr ⟨i, ?_⟩
      have hne : l.cursor ≠ i := by
        rintro rfl
        obtain ⟨_, hget⟩ := List.getElem?_eq_some_iff.mp hi
        rw [List.get_eq_getElem, hget] at hslot
        exact hslot ha
      rw [reuse, List.getElem?_set_ne hne, hi]

end WaiterList

/-- The three lists of a channel. -/
inductive Topic
  /-- `waiters_value`. -/
  | value
  /-- `waiters_closed`. -/
  | closed
  /-- `waiters_consumer`. -/
  | consumer
  deriving DecidableEq, Repr

/-- What a pending poll waits for. -/
inductive Question (α : Type*)
  /-- `Producer::poll` or `Consumer::poll`, with their closure. -/
  | value (ready : α → Bool)
  /-- `poll_closed`. -/
  | closed
  /-- `poll_used`. -/
  | used
  /-- `poll_unused`. -/
  | unused

/-- The list a poll registers in. -/
def Question.topic {α : Type*} : Question α → Topic
  | value _ => .value
  | closed => .closed
  | used => .consumer
  | unused => .consumer

/-- The state behind the mutex. -/
structure KioState (α : Type*) where
  /-- The shared value. -/
  value : α
  /-- The three lists of waiters. -/
  waiters : Topic → WaiterList
  /-- Whether the channel is closed. -/
  closed : Bool

/-- What the holder of a `Mut` guard does before dropping it. -/
structure Guard (α : Type*) where
  /-- The mutable access to the value, if there is one. -/
  modify : Option (α → α)
  /-- Whether `Mut::close` is called. -/
  close : Bool

/-- The flag that `deref_mut` and `close` set. -/
def Guard.modified {α : Type*} (g : Guard α) : Bool := g.modify.isSome || g.close

/-- The rest of an operation after one of its atomic accesses. -/
inductive KioTask
  /-- `Weak::poll_used` after its first check. -/
  | pollUsed (w : WaiterId)
  /-- `Weak::poll_unused` after its first check. -/
  | pollUnused (w : WaiterId)
  /-- `consume` of the first consumer, after counting it. -/
  | consume
  /-- `Consumer::drop` of the last consumer, after counting it out. -/
  | dropConsumer
  /-- `Producer::drop` of the last producer, after counting it out. -/
  | dropProducer
  /-- `produce`, after counting the producer. -/
  | produce
  deriving DecidableEq, Repr

/-- A channel with its counters, handles, unfinished operations and waiters. -/
structure Channel (α : Type*) where
  /-- The state behind the mutex. -/
  state : KioState α
  /-- The producer counter. -/
  producers : ℕ
  /-- The consumer counter. -/
  consumers : ℕ
  /-- The producer handles. -/
  producerHandles : ℕ
  /-- The consumer handles. -/
  consumerHandles : ℕ
  /-- The operations that are not finished. -/
  tasks : List KioTask
  /-- The waiters that were not dropped. -/
  alive : List WaiterId
  /-- The identity of the next waiter. -/
  nextWaiter : ℕ
  /-- The registrations of pending polls. -/
  waiting : List (WaiterId × Question α)

/-- The atomic steps. -/
inductive KioOp (α : Type*)
  /-- `Waiter::new`. -/
  | newWaiter
  /-- A waiter is dropped. -/
  | dropWaiter (w : WaiterId)
  /-- `Producer::poll`; the guard is used if the answer is there. -/
  | producerPoll (w : WaiterId) (ready : α → Bool) (guard : Guard α)
  /-- `Consumer::poll`. -/
  | consumerPoll (w : WaiterId) (ready : α → Bool)
  /-- `poll_closed` of a producer or consumer. -/
  | pollClosed (w : WaiterId)
  /-- `Producer::poll_used`. -/
  | pollUsed (w : WaiterId)
  /-- `Producer::poll_unused`. -/
  | pollUnused (w : WaiterId)
  /-- The first check of `Weak::poll_used`. -/
  | weakPollUsed (w : WaiterId)
  /-- The first check of `Weak::poll_unused`. -/
  | weakPollUnused (w : WaiterId)
  /-- `write` of a producer, consumer or weak handle, and the use of its guard. -/
  | write (guard : Guard α)
  /-- `consume` of a producer or weak handle. -/
  | consume
  /-- `Consumer::clone`. -/
  | cloneConsumer
  /-- `Consumer::drop`. -/
  | dropConsumer
  /-- `Producer::clone`. -/
  | cloneProducer
  /-- `Producer::drop`. -/
  | dropProducer
  /-- `produce` of a consumer or weak handle. -/
  | produce
  /-- An unfinished operation takes the lock. -/
  | resume (i : ℕ)

/-- What a step returns. -/
inductive Reply
  /-- `Poll::Ready` with the answer, or a completed operation. -/
  | ready
  /-- The channel is closed. -/
  | closed
  /-- `Poll::Pending`. -/
  | pending
  /-- The operation goes on. -/
  | unfinished
  /-- The step was not possible. -/
  | none
  deriving DecidableEq, Repr

/-- The effect of a step. -/
structure Outcome (α : Type*) where
  /-- The channel afterwards. -/
  next : Channel α
  /-- What the step returns. -/
  reply : Reply
  /-- The waiters that are woken. -/
  woken : List WaiterId

namespace Channel

variable {α : Type*}

/-- `Producer::new`. -/
def new (value : α) : Channel α :=
  ⟨⟨value, fun _ => WaiterList.new, false⟩, 1, 0, 1, 0, [], [], 0, []⟩

/-- A step that wakes nobody. -/
def done (c : Channel α) (reply : Reply) : Outcome α := ⟨c, reply, []⟩

/-- `Waiter::register` in one of the lists. -/
def register (c : Channel α) (w : WaiterId) (topic : Topic) : Channel α :=
  { c with state := { c.state with
      waiters := Function.update c.state.waiters topic
        ((c.state.waiters topic).register (fun e => decide (e ∈ c.alive)) w) } }

/-- Answer `Pending` to a waiter that has registered. -/
def pending (c : Channel α) (w : WaiterId) (question : Question α) : Outcome α :=
  ⟨{ c with waiting := (w, question) :: c.waiting }, .pending, []⟩

/-- `WaiterList::take` on some of the lists, followed by `WaiterList::wake`. -/
def drain (c : Channel α) (topics : Topic → Bool) (reply : Reply) : Outcome α where
  next := { c with
    state := { c.state with
      waiters := fun t => if topics t then WaiterList.new else c.state.waiters t }
    waiting := c.waiting.filter fun r => !topics r.2.topic }
  reply := reply
  woken := ([Topic.value, Topic.closed, Topic.consumer].filter topics).flatMap fun t =>
    (c.state.waiters t).entries.filter fun e => decide (e ∈ c.alive)

/-- The use of a `Mut` guard. -/
def apply (c : Channel α) (guard : Guard α) : Channel α :=
  { c with state :=
    ⟨guard.modify.elim c.state.value fun f => f c.state.value, c.state.waiters,
      c.state.closed || guard.close⟩ }

/-- The use of a `Mut` guard and its drop. -/
def release (c : Channel α) (guard : Guard α) : Outcome α :=
  let c := c.apply guard
  if guard.modified then c.drain (fun t => t == .value || c.state.closed) .ready
  else c.done .ready

/-- `Producer::poll`. -/
def producerPoll (c : Channel α) (w : WaiterId) (ready : α → Bool) (guard : Guard α) :
    Outcome α :=
  if c.state.closed then c.done .closed
  else if ready c.state.value then c.release guard
  else (c.register w .value).pending w (.value ready)

/-- `Consumer::poll`. -/
def consumerPoll (c : Channel α) (w : WaiterId) (ready : α → Bool) : Outcome α :=
  if ready c.state.value then c.done .ready
  else if c.state.closed then c.done .closed
  else (c.register w .value).pending w (.value ready)

/-- `poll_closed`. -/
def pollClosed (c : Channel α) (w : WaiterId) : Outcome α :=
  if c.state.closed then c.done .ready
  else (c.register w .closed).pending w .closed

/-- Whether `used` or `unused` has its answer. -/
def counted (c : Channel α) : Question α → Bool
  | .used => decide (c.consumers > 0)
  | .unused => decide (c.consumers = 0)
  | _ => false

/-- The common part of the polls for `used` and `unused`: register, then check again. -/
def registerCounted (c : Channel α) (w : WaiterId) (question : Question α) : Outcome α :=
  let c := c.register w .consumer
  if c.counted question then c.done .ready else c.pending w question

/-- `Producer::poll_used` and `Producer::poll_unused`. -/
def pollCounted (c : Channel α) (w : WaiterId) (question : Question α) : Outcome α :=
  if c.state.closed then c.done .closed
  else if c.counted question then c.done .ready
  else c.registerCounted w question

/-- The lock section of `Weak::poll_used` and `Weak::poll_unused`. -/
def weakPollCounted (c : Channel α) (w : WaiterId) (question : Question α) : Outcome α :=
  if c.state.closed then c.done .closed else c.registerCounted w question

/-- The lock sections of unfinished operations. -/
def finish (c : Channel α) : KioTask → Outcome α
  | .pollUsed w => c.weakPollCounted w .used
  | .pollUnused w => c.weakPollCounted w .unused
  | .consume =>
    { c with consumerHandles := c.consumerHandles + 1 }.drain (fun t => t == Topic.consumer)
      .ready
  | .dropConsumer => c.drain (fun t => t == Topic.consumer) .ready
  | .dropProducer =>
    if c.state.closed then c.done .ready
    else { c with state := { c.state with closed := true } }.drain (fun _ => true) .ready
  | .produce =>
    if c.state.closed then { c with producers := c.producers - 1 }.done .closed
    else { c with producerHandles := c.producerHandles + 1 }.done .ready

/-- Leave the rest of an operation for later. -/
def suspend (c : Channel α) (task : KioTask) : Outcome α :=
  { c with tasks := c.tasks ++ [task] }.done .unfinished

/-- One step. -/
def step (c : Channel α) : KioOp α → Outcome α
  | .newWaiter =>
    { c with alive := c.nextWaiter :: c.alive, nextWaiter := c.nextWaiter + 1 }.done .ready
  | .dropWaiter w =>
    -- a waiter is borrowed by the polls that use it
    if KioTask.pollUsed w ∈ c.tasks ∨ KioTask.pollUnused w ∈ c.tasks then c.done .none
    else
      { c with
        alive := c.alive.filter fun e => e ≠ w
        waiting := c.waiting.filter fun r => r.1 ≠ w }.done .ready
  | .producerPoll w ready guard =>
    if w ∈ c.alive then c.producerPoll w ready guard else c.done .none
  | .consumerPoll w ready => if w ∈ c.alive then c.consumerPoll w ready else c.done .none
  | .pollClosed w => if w ∈ c.alive then c.pollClosed w else c.done .none
  | .pollUsed w => if w ∈ c.alive then c.pollCounted w .used else c.done .none
  | .pollUnused w => if w ∈ c.alive then c.pollCounted w .unused else c.done .none
  | .weakPollUsed w =>
    if w ∈ c.alive then
      if c.counted .used then c.done .ready else c.suspend (.pollUsed w)
    else c.done .none
  | .weakPollUnused w =>
    if w ∈ c.alive then
      if c.counted .unused then c.done .ready else c.suspend (.pollUnused w)
    else c.done .none
  | .write guard => if c.state.closed then c.done .closed else c.release guard
  | .consume =>
    if c.consumers = 0 then { c with consumers := c.consumers + 1 }.suspend .consume
    else { c with
      consumers := c.consumers + 1, consumerHandles := c.consumerHandles + 1 }.done .ready
  | .cloneConsumer =>
    if c.consumerHandles = 0 then c.done .none
    else { c with
      consumers := c.consumers + 1, consumerHandles := c.consumerHandles + 1 }.done .ready
  | .dropConsumer =>
    if c.consumerHandles = 0 then c.done .none
    else if c.consumers > 1 then
      { c with
        consumers := c.consumers - 1, consumerHandles := c.consumerHandles - 1 }.done .ready
    else
      { c with
        consumers := c.consumers - 1
        consumerHandles := c.consumerHandles - 1 }.suspend .dropConsumer
  | .cloneProducer =>
    if c.producerHandles = 0 then c.done .none
    else { c with
      producers := c.producers + 1, producerHandles := c.producerHandles + 1 }.done .ready
  | .dropProducer =>
    if c.producerHandles = 0 then c.done .none
    else if c.producers > 1 then
      { c with
        producers := c.producers - 1, producerHandles := c.producerHandles - 1 }.done .ready
    else
      { c with
        producers := c.producers - 1
        producerHandles := c.producerHandles - 1 }.suspend .dropProducer
  | .produce => { c with producers := c.producers + 1 }.suspend .produce
  | .resume i =>
    match c.tasks[i]? with
    | some task => { c with tasks := c.tasks.eraseIdx i }.finish task
    | none => c.done .none

/-- Take steps one after another. -/
def exec (c : Channel α) (ops : List (KioOp α)) : Channel α :=
  ops.foldl (fun c op => (c.step op).next) c

end Channel

end HermitMoq
