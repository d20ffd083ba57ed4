import HermitMoq.HttpFetch

/-!
# The Wake-Ups of an HTTP Fetch

Between two polls of the body there is no future, so all waiters that were created for the task
are dropped and no timer is set. Whatever happens to the group and its frames then, the task is
not woken, and neither does the deadline wake it.
-/

namespace HermitMoq

open List HttpFetch

/-! ### Channels and frames -/

/-- A channel whose waiters are in order. -/
structure Channel.Idle {α : Type} (c : Channel α) : Prop where
  sound : c.Sound
  fresh : c.Fresh

variable {w : WaiterId}

namespace Channel

variable {α : Type} {c : Channel α}

theorem Idle.new (value : α) : (new value).Idle :=
  ⟨.new value, nofun⟩

theorem Idle.step (h : c.Idle) (op : KioOp α) : (c.step op).next.Idle :=
  ⟨(h.sound.step op).sound, h.fresh.step op⟩

theorem Idle.exec (h : c.Idle) (ops : List (KioOp α)) : (c.exec ops).Idle := by
  induction ops generalizing c with
  | nil => exact h
  | cons op ops ih => exact ih (h.step op)

theorem reply_consumerPoll (hw : w ∈ c.alive) (ready : α → Bool) :
    (c.step (.consumerPoll w ready)).reply =
      if ready c.state.value then .ready else if c.state.closed then .closed else .pending := by
  rw [Channel.step, if_pos hw, consumerPoll]
  split_ifs <;> rfl

end Channel

/-- A change of a channel that keeps it in order and leaves dropped waiters dropped. -/
structure Calm {α : Type} (c c' : Channel α) : Prop where
  idle : c.Idle → c'.Idle
  dropped : ∀ {w}, c.Dropped w → c'.Dropped w

variable {α : Type} (c : Channel α)

theorem Calm.refl : Calm c c := ⟨id, id⟩

theorem Calm.trans {c c' c'' : Channel α} (h : Calm c c') (h' : Calm c' c'') : Calm c c'' :=
  ⟨fun hc => h'.idle (h.idle hc), fun hw => h'.dropped (h.dropped hw)⟩

theorem Calm.step (op : KioOp α) : Calm c (c.step op).next :=
  ⟨fun h => h.step op, fun h => (h.step op).1⟩

theorem Calm.exec (ops : List (KioOp α)) : Calm c (c.exec ops) :=
  ⟨fun h => h.exec ops, fun h => (h.exec ops).1⟩

namespace Frame

variable {s : Frame} (reader : ℕ)

theorem calm_step (op : FrameOp) : Calm s.channel (s.step op).next.channel := by
  rcases (s.step_form op).actsLike with ⟨hchannel, -⟩ | ⟨kop, hchannel, -, -⟩
  · rw [hchannel]
    exact .refl _
  · rw [hchannel]
    exact .step _ kop

/-- A step of a frame wakes no waiter that was dropped. -/
theorem not_mem_woken_of_dropped (h : s.channel.Dropped w) (op : FrameOp) :
    w ∉ (s.step op).woken := by
  rcases (s.step_form op).actsLike with ⟨-, hwoken⟩ | ⟨kop, -, hwoken, -⟩
  · rw [hwoken]
    exact not_mem_nil
  · rw [hwoken]
    exact (h.step kop).2

theorem calm_consumer : Calm s.channel s.consumer.1.channel := by
  rw [consumer]
  split_ifs
  · exact (calm_step .consume).trans (calm_step _)
  · exact calm_step .consume

/-- The frame after a poll of `read_all` whose waiter is dropped. -/
def visited (s : Frame) (reader : ℕ) : Frame :=
  (((s.step .newWaiter).next.pollReadAll reader s.channel.nextWaiter 0).next.step
    (.dropWaiter s.channel.nextWaiter)).next

/-- The poll of a reader is three steps of its channel. -/
theorem channel_visited : (s.visited reader).channel =
    ((((s.channel.step .newWaiter).next.step (.consumerPoll s.channel.nextWaiter
      fun state => (allReady state).isSome)).next.step
        (.dropWaiter s.channel.nextWaiter)).next) := by
  have hpoll := (poll_channel (s := (s.step .newWaiter).next) s.channel.nextWaiter allReady
    fun () => ((s.step .newWaiter).next.readers.set reader
      (some (s.step .newWaiter).next.buf.capacity),
        .all ((s.step .newWaiter).next.buf.slice 0 (s.step .newWaiter).next.buf.written))).1
  show (((s.step .newWaiter).next.pollReadAll reader s.channel.nextWaiter 0).next.channel.step
    (.dropWaiter s.channel.nextWaiter)).next = _
  rw [pollReadAll, hpoll]
  rfl

theorem calm_visited : Calm s.channel (s.visited reader).channel := by
  rw [channel_visited]
  exact ((Calm.step _ _).trans (.step _ _)).trans (.step _ _)

theorem dropped_visited (h : s.channel.Idle) (reader : ℕ) :
    (s.visited reader).channel.Dropped s.channel.nextWaiter := by
  rw [channel_visited]
  exact Channel.dropped_of_poll h.sound h.fresh _

/-- A new consumer changes nothing of what a frame tells. -/
theorem settled_consumer : s.consumer.1.settled = s.settled := by
  have hconsume : (s.channel.step .consume).next.state = s.channel.state := by
    rw [Channel.step]
    split_ifs <;> rfl
  have hstate : s.consumer.1.channel.state.value = s.channel.state.value ∧
      s.consumer.1.channel.state.closed = s.channel.state.closed := by
    rw [consumer]
    split_ifs with hreply
    · -- the operation of the first consumer goes on
      have htask : (s.channel.step .consume).next.tasks[s.channel.tasks.length]? =
          some KioTask.consume := by
        rw [Channel.step]
        split_ifs with hfirst
        · exact getElem?_concat_length
        · rw [step, act, Channel.step, if_neg hfirst] at hreply
          cases hreply
      show ((s.channel.step .consume).next.step (.resume s.channel.tasks.length)).next.state.value =
        _ ∧ ((s.channel.step .consume).next.step
          (.resume s.channel.tasks.length)).next.state.closed = _
      rw [← hconsume]
      generalize (s.channel.step .consume).next = c at htask
      rw [Channel.step, htask]
      exact ⟨rfl, rfl⟩
    · show (s.channel.step .consume).next.state.value = _ ∧ _
      rw [← hconsume]
      exact ⟨rfl, rfl⟩
  rw [settled, hstate.1, hstate.2]
  rfl

/-- A poll of `read_all` is answered exactly if the frame is settled. -/
theorem reply_pollReadAll (hw : w ∈ s.channel.alive) (reader idx : ℕ) :
    if s.settled then
      (∃ bytes, (s.pollReadAll reader w idx).reply = .all bytes) ∨
        ∃ e, (s.pollReadAll reader w idx).reply = .err e
    else (s.pollReadAll reader w idx).reply = .pending := by
  rw [pollReadAll, poll, settled, Channel.step, if_pos hw, Channel.consumerPoll]
  cases hready : allReady s.channel.state.value with
  | some answer =>
    cases answer with
    | ok => exact .inl ⟨_, rfl⟩
    | error e => exact .inr ⟨e, rfl⟩
  | none =>
    simp only [Option.isSome_none, Bool.false_or, Bool.false_eq_true, if_false]
    split_ifs
    · exact .inr ⟨_, rfl⟩
    · rfl

end Frame

namespace HttpFetch

/-! ### The invariant -/

/-- A waiter that was dropped, in its channel. -/
def DroppedAt (s : HttpFetch) : WaitPlace → WaiterId → Prop
  | .group, w => s.group.Dropped w
  | .frame id, w => ∃ frame, s.frames[id]? = some frame ∧ frame.channel.Dropped w

/-- **Nothing is registered**: all waiters of the task are dropped, and no timer is set. -/
structure Quiet (s : HttpFetch) : Prop where
  group : s.group.Idle
  frames : ∀ {id : ℕ} {frame : Frame}, s.frames[id]? = some frame → frame.channel.Idle
  timers : s.timers = []
  waiters : ∀ {place : WaitPlace} {w : WaiterId}, (place, w) ∈ s.waiters → s.DroppedAt place w

variable {s : HttpFetch}

/-- The invariant does not depend on what is served. -/
theorem Quiet.serving (h : s.Quiet) (serve : ServeGroup) (now : ℕ) :
    { s with serve, now }.Quiet :=
  ⟨h.group, h.frames, h.timers, fun {place _} hw => by
    have := h.waiters hw
    cases place <;> exact this⟩

theorem Quiet.setGroup (h : s.Quiet) {group : Channel GroupValue} (hcalm : Calm s.group group) :
    { s with group }.Quiet where
  group := hcalm.idle h.group
  frames := h.frames
  timers := h.timers
  waiters {place w} hw := by
    have hdropped := h.waiters hw
    cases place with
    | group => exact hcalm.dropped hdropped
    | frame id => exact hdropped

/-- Frames are changed, each by itself, and new ones come. -/
theorem Quiet.setFrames (h : s.Quiet) {frames : List Frame}
    (hold : ∀ {id : ℕ} {frame : Frame}, s.frames[id]? = some frame →
      ∃ frame', frames[id]? = some frame' ∧ Calm frame.channel frame'.channel)
    (hnew : ∀ {id : ℕ} {frame' : Frame}, frames[id]? = some frame' → s.frames[id]? = none →
      frame'.channel.Idle) : { s with frames }.Quiet where
  group := h.group
  frames {id frame'} hframe' := by
    cases hframe : s.frames[id]? with
    | none => exact hnew hframe' hframe
    | some frame =>
      obtain ⟨frame'', hframe'', hcalm⟩ := hold hframe
      obtain rfl : frame' = frame'' := Option.some.inj (hframe'.symm.trans hframe'')
      exact hcalm.idle (h.frames hframe)
  timers := h.timers
  waiters {place w} hw := by
    have hdropped := h.waiters hw
    cases place with
    | group => exact hdropped
    | frame id =>
      obtain ⟨_, hframe, hdropped⟩ := hdropped
      obtain ⟨frame', hframe', hcalm⟩ := hold hframe
      exact ⟨frame', hframe', hcalm.dropped hdropped⟩

theorem Quiet.modifyFrame (h : s.Quiet) (id : ℕ) {f : Frame → Frame}
    (hcalm : ∀ frame, Calm frame.channel (f frame).channel) : (s.modifyFrame id f).Quiet := by
  refine h.setFrames ?_ ?_
  · intro id' frame hframe
    rw [getElem?_modify, hframe]
    exact ⟨_, rfl, by split_ifs; exacts [hcalm frame, .refl _]⟩
  · intro id' frame' hframe' hnone
    rw [getElem?_modify, hnone] at hframe'
    cases hframe'

/-- The task has one more waiter, which is dropped. -/
theorem Quiet.logged (h : s.Quiet) {place : WaitPlace} (hw : s.DroppedAt place w) :
    { s with waiters := (place, w) :: s.waiters }.Quiet :=
  ⟨h.group, h.frames, h.timers, fun {place' w'} hmem => by
    have hdropped : s.DroppedAt place' w' := by
      rcases mem_cons.mp hmem with heq | hmem
      · cases heq
        exact hw
      · exact h.waiters hmem
    cases place' <;> exact hdropped⟩

/-! ### Events -/

variable {frame : Frame} {f : FrameRef}

theorem idle_of_mem_created {g : Channel GroupValue} {op : GroupOp} (h : frame ∈ op.created g) :
    frame.channel.Idle := by
  cases op with
  | createFrame size =>
    rw [GroupOp.created] at h
    split_ifs at h
    · rw [mem_singleton.mp h]
      exact .new _
    · cases h
  | _ => cases h

/-- An event leaves a quiet system quiet. -/
theorem Quiet.after (h : s.Quiet) (event : Event) : (s.after event).Quiet := by
  cases event with
  | group op =>
    refine Quiet.setFrames (h.setGroup (.exec _ _)) ?_ ?_
    · intro id frame hframe
      exact ⟨frame, (List.getElem?_append_left (List.getElem?_eq_some_iff.mp hframe).1).trans
        hframe, .refl _⟩
    · intro id frame' hframe' hnone
      rw [getElem?_append_right (getElem?_eq_none_iff.mp hnone)] at hframe'
      exact idle_of_mem_created (mem_of_getElem? hframe')
  | frame id op => exact h.modifyFrame id fun frame => frame.calm_step op
  | elapse duration => exact h.serving s.serve _

/-- No event wakes the task. -/
theorem Quiet.wakes (h : s.Quiet) (event : Event) : s.wakes event = false := by
  cases event with
  | group op =>
    rw [HttpFetch.wakes, any_eq_false]
    intro w hw
    rw [decide_eq_true_iff]
    intro hmem
    exact ((h.waiters hmem).exec _).2 hw
  | frame id op =>
    rw [HttpFetch.wakes]
    cases hframe : s.frames[id]? with
    | none => rfl
    | some frame =>
      rw [Option.any_some, any_eq_false]
      intro w hw
      rw [decide_eq_true_iff]
      intro hmem
      obtain ⟨frame', hframe', hdropped⟩ := h.waiters hmem
      obtain rfl : frame = frame' := Option.some.inj (hframe.symm.trans hframe')
      exact Frame.not_mem_woken_of_dropped hdropped op hw
  | elapse duration =>
    rw [HttpFetch.wakes, h.timers]
    rfl

theorem Quiet.wakesIn (h : s.Quiet) (events : List Event) : s.wakesIn events = false := by
  induction events generalizing s with
  | nil => rfl
  | cons event events ih => rw [wakesIn, h.wakes, ih (h.after event), Bool.or_false]

/-! ### Polls -/

/-- A future that is pending within `timeout_at`, and then dropped. -/
theorem dropFuture_timeoutAt (s : HttpFetch) (held : WaitPlace × WaiterId) :
    dropFuture (s.timeoutAt held) =
      (if s.serve.deadline ≤ s.now then .ready (.error .timeout) else .pending,
        s.dropWaiter held) := by
  rw [timeoutAt]
  split_ifs
  · rfl
  · rw [dropFuture]
    rw [erase_cons_head]

/-- The state after a poll of `read_all` whose waiter is dropped. -/
def visitFrame (s : HttpFetch) (f : FrameRef) (frame : Frame) : HttpFetch :=
  { s with
    frames := s.frames.set f.id (frame.visited f.reader)
    waiters := (.frame f.id, frame.channel.nextWaiter) :: s.waiters }

/-- A poll of a frame leaves a quiet system quiet. -/
theorem Quiet.visitFrame (h : s.Quiet) (hframe : s.frames[f.id]? = some frame) :
    (s.visitFrame f frame).Quiet := by
  have hlt := (List.getElem?_eq_some_iff.mp hframe).1
  have hset : { s with frames := s.frames.set f.id (frame.visited f.reader) }.Quiet := by
    refine h.setFrames ?_ ?_
    · intro id frame' hframe'
      rw [getElem?_set]
      split_ifs with hid
      · subst hid
        obtain rfl : frame = frame' := Option.some.inj (hframe.symm.trans hframe')
        exact ⟨_, rfl, Frame.calm_visited _⟩
      · exact ⟨frame', hframe', .refl _⟩
    · intro id frame' hframe' hnone
      rw [getElem?_set] at hframe'
      split_ifs at hframe' with hid
      · exact absurd (hid ▸ hnone) (by rw [hframe]; rintro ⟨⟩)
      · exact absurd (hframe'.symm.trans hnone) (by rintro ⟨⟩)
  refine hset.logged ⟨frame.visited f.reader, ?_, Frame.dropped_visited (h.frames hframe) _⟩
  exact getElem?_set_self hlt

/-- A frame is polled and the future dropped: if it is not settled, the poll is pending until the
deadline. -/
theorem dropFuture_readAll (hframe : s.frames[f.id]? = some frame) :
    ∃ serve, (dropFuture (s.readAll f)).2 = { s.visitFrame f frame with serve } ∧
      ((dropFuture (s.readAll f)).1 = .pending ↔ s.now < s.serve.deadline ∧ ¬ frame.settled) := by
  have hdrop : ∀ serve, dropWaiter { s with
      serve
      frames := s.frames.set f.id ((frame.step .newWaiter).next.pollReadAll f.reader
        frame.channel.nextWaiter 0).next
      waiters := (.frame f.id, frame.channel.nextWaiter) :: s.waiters }
        (.frame f.id, frame.channel.nextWaiter) = { s.visitFrame f frame with serve } := by
    intro serve
    have hlt := (List.getElem?_eq_some_iff.mp hframe).1
    show modifyFrame _ _ _ = _
    rw [modifyFrame, modify_eq_set_getElem?, getElem?_set_self hlt]
    dsimp only [Option.map_eq_map, Option.map_some, Option.getD_some]
    rw [set_set]
    rfl
  have hreply := Frame.reply_pollReadAll (s := (frame.step .newWaiter).next)
    (w := frame.channel.nextWaiter) mem_cons_self f.reader 0
  replace hreply : if frame.settled then _ else _ := hreply
  rw [readAll, hframe]
  dsimp only
  split_ifs at hreply with hsettled
  · rcases hreply with ⟨_, hreply⟩ | ⟨_, hreply⟩
    · rw [hreply]
      exact ⟨_, hdrop _, by simp [hsettled, dropFuture]⟩
    · rw [hreply]
      exact ⟨_, hdrop _, by simp [hsettled, dropFuture]⟩
  · rw [hreply]
    rw [dropFuture_timeoutAt]
    refine ⟨s.serve, hdrop _, ?_⟩
    split_ifs with hdeadline
    · simp [Nat.not_lt.mpr hdeadline]
    · simp [hsettled, Nat.not_le.mp hdeadline]

/-- Reading a frame waits until it is settled or the deadline has passed. -/
theorem Quiet.dropFuture_readAll (h : s.Quiet) (f : FrameRef) :
    (dropFuture (s.readAll f)).2.Quiet ∧
      ((dropFuture (s.readAll f)).1 = .pending ↔
        s.now < s.serve.deadline ∧ ¬ s.settled f.id) := by
  cases hframe : s.frames[f.id]? with
  | none =>
    rw [readAll, settled, hframe]
    exact ⟨h, by simp [dropFuture]⟩
  | some frame =>
    obtain ⟨serve, hstate, hpending⟩ := HttpFetch.dropFuture_readAll hframe
    rw [hstate, hpending, settled, hframe]
    exact ⟨(h.visitFrame hframe).serving serve _, Iff.rfl⟩

/-- The state after a poll of `next_frame` whose waiter is dropped. -/
def visitGroup (s : HttpFetch) (index : ℕ) : HttpFetch :=
  { s with
    group := (((s.group.step .newWaiter).next.step (.consumerPoll s.group.nextWaiter
      fun v => (v.pollGetFrame index).isSome)).next.step (.dropWaiter s.group.nextWaiter)).next
    waiters := (.group, s.group.nextWaiter) :: s.waiters }

theorem Quiet.visitGroup (h : s.Quiet) (index : ℕ) : (s.visitGroup index).Quiet := by
  refine Quiet.logged (h.setGroup (((Calm.step _ _).trans (.step _ _)).trans (.step _ _))) ?_
  exact Channel.dropped_of_poll h.group.sound h.group.fresh _

/-- Serving a frame waits until it is settled or the deadline has passed. -/
theorem Quiet.dropFuture_serveFrame (h : s.Quiet) (index id : ℕ) :
    (dropFuture (s.serveFrame index id)).2.Quiet ∧
      ((dropFuture (s.serveFrame index id)).1 = .pending ↔
        s.now < s.serve.deadline ∧ ¬ s.settled id) := by
  have hquiet := h.modifyFrame id (f := fun frame => frame.consumer.1) fun _ =>
    Frame.calm_consumer
  have hsettled : (s.modifyFrame id fun frame => frame.consumer.1).settled id = s.settled id := by
    rw [settled, settled, HttpFetch.modifyFrame]
    rw [getElem?_modify_eq]
    cases s.frames[id]? with
    | none => rfl
    | some frame => exact Frame.settled_consumer
  rw [serveFrame, ← hsettled]
  exact (hquiet.serving _ _).dropFuture_readAll _

/-- A poll for the next frame: it is answered if there is one that is settled, or if there will be
none. -/
theorem Quiet.dropFuture_nextFrame (h : s.Quiet) (index : ℕ) :
    (dropFuture (s.nextFrame index)).2.Quiet ∧
      ((dropFuture (s.nextFrame index)).1 = .pending ↔
        s.now < s.serve.deadline ∧ ¬ s.nextSettled index) := by
  have hvisit := h.visitGroup index
  have hreply : ((s.group.step .newWaiter).next.step (.consumerPoll s.group.nextWaiter
      fun v => (v.pollGetFrame index).isSome)).reply =
      if (s.group.state.value.pollGetFrame index).isSome then .ready
      else if s.group.state.closed then .closed else .pending :=
    Channel.reply_consumerPoll mem_cons_self _
  have hvalue : (s.group.step .newWaiter).next.state.value = s.group.state.value := rfl
  rw [nextFrame, nextSettled]
  rw [hreply, hvalue]
  cases hpoll : s.group.state.value.pollGetFrame index with
  | none =>
    simp only [Option.isSome_none, Bool.false_eq_true, if_false]
    split_ifs with hclosed
    · exact ⟨hvisit, by simp [dropFuture, hclosed]⟩
    · rw [dropFuture_timeoutAt]
      refine ⟨hvisit, ?_⟩
      split_ifs with hdeadline
      · simp [Nat.not_lt.mpr hdeadline]
      · simp [hclosed, Nat.not_le.mp hdeadline]
  | some answer =>
    rcases answer with e | _ | frame
    · exact ⟨hvisit, by simp [dropFuture]⟩
    · exact ⟨hvisit.serving _ _, by simp [dropFuture]⟩
    · exact hvisit.dropFuture_serveFrame index frame.id

/-- A poll leaves nothing registered, and is pending exactly if it has no answer. -/
theorem Quiet.pollFrame (h : s.Quiet) :
    s.pollFrame.2.Quiet ∧ (s.pollFrame.1 = .pending ↔ s.answered = false) := by
  rw [HttpFetch.pollFrame, next, answered, Bool.or_eq_false_iff, decide_eq_false_iff_not,
    Nat.not_le, ← Bool.not_eq_true]
  cases s.serve.frame with
  | some f => exact h.dropFuture_readAll f
  | none =>
    cases s.serve.group with
    | none => exact ⟨h, by simp [dropFuture]⟩
    | some index => exact h.dropFuture_nextFrame index

/-- A request that is served leaves nothing registered. -/
theorem Quiet.serveFetch (h : s.Quiet) (frame : Option ℕ) (deadline : ℕ) :
    (s.serveFetch frame deadline).Quiet := by
  rw [serveFetch.eq_def]
  cases frame with
  | none => exact h.serving _ _
  | some index =>
    dsimp only
    split
    · exact (h.modifyFrame _ fun _ => Frame.calm_consumer).serving _ _
    · exact h

/-- No run leaves anything registered. -/
theorem quiet_run (steps : List Step) : (run steps).Quiet := by
  refine foldlRecOn steps step ?_ ?_
  · exact ⟨.new _, by rintro id frame ⟨⟩, rfl, by rintro place w ⟨⟩⟩
  · intro s h step _
    cases step with
    | event event => exact h.after event
    | serve frame deadline => exact h.serveFetch frame deadline
    | poll => exact h.pollFrame.1

theorem due_after_deadline : (s.afterAll [.elapse s.serve.deadline]).due = true := by
  show (decide (s.serve.deadline ≤ s.now + s.serve.deadline) || _) = true
  rw [decide_eq_true (Nat.le_add_left _ _), Bool.true_or]

/-- **A wake-up stays registered exactly if none is needed.** In every run, a poll that is pending
leaves the task with a wake-up, whatever happens next, only if it is not pending: it was answered
at once. After any poll, no events wake the task. -/
theorem fetch_wakes_iff (steps : List Step) :
    let s := run steps
    ((s.pollFrame.1 = .pending → ∀ events, (s.pollFrame.2.afterAll events).due = true →
      s.pollFrame.2.wakesIn events = true) ↔ s.answered = true) ∧
    ∀ events, s.pollFrame.2.wakesIn events = false := by
  intro s
  obtain ⟨hquiet, hpending⟩ := (quiet_run steps).pollFrame
  refine ⟨⟨fun hwakes => ?_, fun hanswered hp => ?_⟩, hquiet.wakesIn⟩
  · by_contra hanswered
    -- the deadline passes
    have hp := hpending.mpr (Bool.not_eq_true _ ▸ hanswered)
    have hwoken := hwakes hp [.elapse s.pollFrame.2.serve.deadline] due_after_deadline
    rw [hquiet.wakesIn] at hwoken
    cases hwoken
  · rw [hpending.mp hp] at hanswered
    cases hanswered

/-- A poll is pending, and the task is not woken when what it waits for has come. -/
def Missed (s : HttpFetch) (events : List Event) : Prop :=
  s.pollFrame.1 = .pending ∧ (s.pollFrame.2.afterAll events).due = true ∧
    s.pollFrame.2.wakesIn events = false

/-- A fetch that waits for a frame misses that it is complete, and the deadline. A fetch that
waits for the next frame misses it, the end of the group, that it is aborted, and the deadline. -/
theorem pending_never_woken :
    (∀ events ∈ [[.frame 0 (.advanceMut [7]), .frame 0 .resumeWrite], [.elapse 30]],
      (run [.event (.group (.createFrame 1)), .serve none 30]).Missed events) ∧
    (∀ events ∈ [[.group (.createFrame 1)], [.group .finish], [.group (.abort .dropped)],
      [.elapse 30]], (run [.serve none 30]).Missed events) := by
  simp only [forall_mem_cons, not_mem_nil, false_imp_iff, implies_true, and_true]
  exact ⟨⟨⟨rfl, rfl, rfl⟩, rfl, rfl, rfl⟩, ⟨rfl, rfl, rfl⟩, ⟨rfl, rfl, rfl⟩, ⟨rfl, rfl, rfl⟩,
    rfl, rfl, rfl⟩

end HttpFetch

end HermitMoq
