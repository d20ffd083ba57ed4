import HermitMoq.Frame
import HermitMoq.KioHandles
import HermitMoq.KioWakeups

/-!
# Streaming a Frame

Every run of a frame is a run of its channel, so a consumer whose `poll_read_chunk` answered
`Pending` stays registered until it is woken or dropped. The lock section at the end of
`advance_mut` takes a guard of the channel but uses it mutably only if the buffer is full. A
write that completes the frame therefore wakes the consumer, and every other write moves the
counter without waking anyone.
-/

namespace HermitMoq

open List FrameState

/-- The bytes that a step accepts from the writer. -/
def FrameOp.accepts : FrameOp → FrameReply → List UInt8
  | .write chunk, .unfinished => chunk
  | .advanceMut bytes, .unfinished => bytes
  | _, _ => []

/-- The reply is not one of the answers of `poll_read_chunk` and `poll_read_all`. -/
def FrameReply.NoBytes : FrameReply → Prop
  | .chunk _ => False
  | .all _ => False
  | _ => True

namespace Frame

variable {s : Frame} {op : FrameOp} {o : FrameOutcome} {w : WaiterId}

/-! ### The forms of a step -/

theorem answer_noBytes (r : Reply) : (s.answer r).NoBytes := by
  cases r <;> trivial

/-- What a step does to the offsets of the consumers, and what it gives them. -/
inductive ReaderStep (s : Frame) (op : FrameOp) (o : FrameOutcome) : Prop
  /-- Nothing. -/
  | keep (hreaders : o.next.readers = s.readers) (hreply : o.reply.NoBytes)
  /-- `consume`, possibly when it takes the lock. -/
  | create (hreaders : o.next.readers = s.readers ++ [some 0]) (hop : ∀ i, op ≠ .cloneConsumer i)
      (hreply : o.reply.NoBytes)
  | clone (i idx : ℕ) (hop : op = .cloneConsumer i) (hidx : s.readIdx i = some idx)
      (hreaders : o.next.readers = s.readers ++ [some idx]) (hreply : o.reply.NoBytes)
  | drop (i : ℕ) (hreaders : o.next.readers = s.readers.set i none) (hreply : o.reply.NoBytes)
  /-- `poll_read_chunk` with bytes. -/
  | chunk (i : ℕ) (w : WaiterId) (idx : ℕ) (hop : op = .pollReadChunk i w)
      (hidx : s.readIdx i = some idx)
      (hreaders : o.next.readers = s.readers.set i (some s.buf.written))
      (hreply : o.reply = .chunk (some (s.buf.slice idx s.buf.written)))
  /-- `poll_read_chunk` at the end. -/
  | finished (i : ℕ) (w : WaiterId) (idx : ℕ) (hop : op = .pollReadChunk i w)
      (hidx : s.readIdx i = some idx) (hfin : s.channel.state.value.fin = true)
      (hle : s.buf.written ≤ idx) (hreaders : o.next.readers = s.readers)
      (hreply : o.reply = .chunk none)
  /-- `poll_read_all` with the rest. -/
  | all (i : ℕ) (w : WaiterId) (idx : ℕ) (hop : op = .pollReadAll i w)
      (hidx : s.readIdx i = some idx) (hfin : s.channel.state.value.fin = true)
      (hreaders : o.next.readers = s.readers.set i (some s.buf.capacity))
      (hreply : o.reply = .all (s.buf.slice idx s.buf.written))

/-- What a step is, by its operation and by the call of the writer. -/
inductive Form (s : Frame) (op : FrameOp) : FrameOutcome → Prop
  | done (reply : FrameReply) (hreply : reply.NoBytes) (haccepts : op.accepts reply = []) :
      Form s op (s.done reply)
  /-- An operation on the channel, which marks only a full frame as complete. -/
  | act (kop : KioOp FrameState) (readers : List (Option ℕ))
      (hdrop : ∀ w, kop = .dropWaiter w → op = .dropWaiter w)
      (hfin : (s.channel.step kop).next.state.value.fin = s.channel.state.value.fin ∨
        s.buf.written = s.buf.capacity)
      (hreaders : ReaderStep s op ({ s with readers }.act kop))
      (haccepts : ∀ reply, op.accepts reply = []) : Form s op ({ s with readers }.act kop)
  | chunk (i : ℕ) (w : WaiterId) (idx : ℕ) (hop : op = .pollReadChunk i w)
      (hidx : s.readIdx i = some idx) : Form s op (s.pollReadChunk i w idx)
  | all (i : ℕ) (w : WaiterId) (idx : ℕ) (hop : op = .pollReadAll i w)
      (hidx : s.readIdx i = some idx) : Form s op (s.pollReadAll i w idx)
  /-- `write` has checked that its bytes fit. -/
  | check (chunk : List UInt8) (hop : op = .write chunk) (hidle : s.writer = .idle)
      (hfits : ¬ chunk.length > s.buf.remaining) :
      Form s op ({ s with writer := .checked chunk }.done .unfinished)
  | advance (bytes : List UInt8) (hcall : op = .advanceMut bytes ∧ s.writer = .idle ∨
      op = .resumeWrite ∧ s.writer = .checked bytes) : Form s op (s.advance bytes)
  | notify (prev cnt : ℕ) (hop : op = .resumeWrite) (hwriter : s.writer = .advanced prev cnt) :
      Form s op (s.notify prev cnt)

theorem Form.unguarded {kop : KioOp FrameState} {readers : List (Option ℕ)}
    (hreaders : ReaderStep s op ({ s with readers }.act kop)) (hkop : kop.guarded = false)
    (hdrop : ∀ w, kop = .dropWaiter w → op = .dropWaiter w)
    (haccepts : ∀ reply, op.accepts reply = []) : s.Form op ({ s with readers }.act kop) :=
  .act kop readers hdrop (.inl (congrArg fin (s.channel.value_step hkop))) hreaders haccepts

/-- What each operation of a frame can do. -/
theorem step_form (s : Frame) (op : FrameOp) : s.Form op (s.step op) := by
  cases op with
  | newWaiter => exact .unguarded (.keep rfl trivial) rfl (by simp) fun _ => rfl
  | dropWaiter w | cloneProducer | pollUnused w =>
    exact .unguarded (.keep rfl (answer_noBytes _)) rfl (by simp) fun _ => rfl
  | consume =>
    refine .unguarded ?_ rfl (by simp) fun _ => rfl
    by_cases hnone : s.channel.consumers = 0
    · exact .keep (if_pos hnone) (answer_noBytes _)
    · exact .create (if_neg hnone) (by simp) (answer_noBytes _)
  | resume i =>
    refine .unguarded ?_ rfl (by simp) fun _ => rfl
    by_cases htask : s.channel.tasks[i]? = some KioTask.consume
    · exact .create (if_pos htask) (by simp) (answer_noBytes _)
    · exact .keep (if_neg htask) (answer_noBytes _)
  | cloneConsumer i =>
    rw [step]
    cases hidx : s.readIdx i with
    | none => exact .done _ trivial rfl
    | some idx =>
      exact .unguarded (.clone i idx rfl hidx rfl (answer_noBytes _)) rfl (by simp) fun _ => rfl
  | dropConsumer i =>
    rw [step]
    cases s.readIdx i with
    | none => exact .done _ trivial rfl
    | some idx => exact .unguarded (.drop i rfl (answer_noBytes _)) rfl (by simp) fun _ => rfl
  | dropProducer =>
    rw [step]
    split_ifs
    · exact .done _ trivial rfl
    · exact .unguarded (.keep rfl (answer_noBytes _)) rfl (by simp) fun _ => rfl
  | pollReadChunk i w =>
    rw [step]
    cases hidx : s.readIdx i with
    | none => exact .done _ trivial rfl
    | some idx => exact .chunk i w idx rfl hidx
  | pollReadAll i w =>
    rw [step]
    cases hidx : s.readIdx i with
    | none => exact .done _ trivial rfl
    | some idx => exact .all i w idx rfl hidx
  | write chunk =>
    rw [step]
    split_ifs with hbusy hlen
    · exact .done _ trivial rfl
    · exact .done _ trivial rfl
    · cases s.channel.state.value.abort <;> exact .done _ trivial rfl
    · cases s.channel.state.value.abort with
      | some e => exact .done _ trivial rfl
      | none => exact .check chunk rfl (not_not.mp (not_or.mp hbusy).2) hlen
  | advanceMut bytes =>
    rw [step]
    split_ifs with hbusy
    · exact .done _ trivial rfl
    · exact .advance bytes (.inl ⟨rfl, not_not.mp (not_or.mp hbusy).2⟩)
  | resumeWrite =>
    rw [step]
    cases hwriter : s.writer with
    | idle => exact .done _ trivial rfl
    | checked chunk => exact .advance chunk (.inr ⟨rfl, hwriter⟩)
    | advanced prev cnt => exact .notify prev cnt rfl hwriter
  | finish =>
    rw [step]
    split_ifs with _ hfull
    · exact .done _ trivial rfl
    · exact .done _ trivial rfl
    · exact .act _ s.readers (by simp) (.inr (not_not.mp hfull)) (.keep rfl (answer_noBytes _))
        fun _ => rfl
  | abort err =>
    rw [step]
    split_ifs
    · exact .done _ trivial rfl
    · refine .act _ s.readers (by simp) (.inl ?_) (.keep rfl (answer_noBytes _)) fun _ => rfl
      rcases s.channel.value_write ⟨some fun state => { state with abort := some err }, true⟩ with
        hvalue | hvalue
      · exact congrArg fin hvalue
      · exact (congrArg fin hvalue :)

/-! ### Runs of the channel -/

/-- A step of a frame takes no step of the channel, or one that drops no other waiter. -/
def ActsLike (s : Frame) (op : FrameOp) (o : FrameOutcome) : Prop :=
  (o.next.channel = s.channel ∧ o.woken = []) ∨
    ∃ kop, o.next.channel = (s.channel.step kop).next ∧ o.woken = (s.channel.step kop).woken ∧
      ∀ w, kop = .dropWaiter w → op = .dropWaiter w

section Poll

variable {β : Type} (w) (f : FrameState → Option (Except FrameError β))
  (ok : β → List (Option ℕ) × FrameReply)

theorem poll_channel :
    (s.poll w f ok).next.channel =
        (s.channel.step (.consumerPoll w fun state => (f state).isSome)).next ∧
      (s.poll w f ok).woken =
        (s.channel.step (.consumerPoll w fun state => (f state).isSome)).woken := by
  rw [poll]
  split <;> exact ⟨rfl, rfl⟩

/-- A poll whose answers are not `Pending` is pending because the channel is. -/
theorem pending_of_poll (hok : ∀ b, (ok b).2 ≠ .pending) (hp : (s.poll w f ok).reply = .pending) :
    (s.channel.step (.consumerPoll w fun state => (f state).isSome)).reply = .pending := by
  rw [poll] at hp
  split at hp
  · exact absurd hp (hok _)
  · cases hp
  · cases hreply : (s.channel.step (.consumerPoll w fun state => (f state).isSome)).reply with
    | pending => rfl
    | _ =>
      rw [hreply] at hp
      cases hp

end Poll

theorem Form.actsLike (h : s.Form op o) : s.ActsLike op o := by
  cases h with
  | done | check => exact .inl ⟨rfl, rfl⟩
  | act kop _ hdrop => exact .inr ⟨kop, rfl, rfl, hdrop⟩
  | chunk | all => exact .inr ⟨_, (poll_channel _ _ _).1, (poll_channel _ _ _).2, by simp⟩
  | advance bytes =>
    rw [Frame.advance]
    split_ifs <;> exact .inl ⟨rfl, rfl⟩
  | notify => exact .inr ⟨.write _, rfl, rfl, by simp⟩

/-- A run of a frame is a run of its channel. -/
theorem exec_channel (s : Frame) (ops : List FrameOp) : ∃ kops : List (KioOp FrameState),
    (s.exec ops).channel = s.channel.exec kops ∧ s.wokenIn ops = s.channel.wokenIn kops ∧
      ∀ w, KioOp.dropWaiter w ∈ kops → FrameOp.dropWaiter w ∈ ops := by
  induction ops generalizing s with
  | nil => exact ⟨[], rfl, rfl, nofun⟩
  | cons op ops ih =>
    obtain ⟨kops, hexec, hwoken, hdrop⟩ := ih (s.step op).next
    rcases (s.step_form op).actsLike with ⟨hch, hw⟩ | ⟨kop, hch, hw, hkop⟩
    · refine ⟨kops, ?_, ?_, fun w h => mem_cons_of_mem _ (hdrop w h)⟩
      · rw [← hch]
        exact hexec
      · rw [wokenIn, hw, nil_append, hwoken, hch]
    · refine ⟨kop :: kops, ?_, ?_, fun w h => ?_⟩
      · rw [hch] at hexec
        exact hexec
      · rw [wokenIn, hw, hwoken, hch, Channel.wokenIn]
      · rcases mem_cons.mp h with rfl | h
        · exact mem_cons.mpr (.inl (hkop w rfl).symm)
        · exact mem_cons_of_mem _ (hdrop w h)

theorem sound_exec (size : ℕ) (ops : List FrameOp) : ((new size).exec ops).channel.Sound := by
  obtain ⟨kops, hexec, -⟩ := exec_channel (new size) ops
  rw [hexec]
  exact (Channel.Sound.new _).exec kops

/-! ### The writer -/

/-- What a step does to the buffer and to the call of the writer. -/
inductive WriterStep (s t : Frame) : Prop
  /-- Nothing. -/
  | keep (hbuf : t.buf = s.buf) (hwriter : t.writer = s.writer)
  /-- A call returns or fails. -/
  | finish (hbuf : t.buf = s.buf) (hwriter : t.writer = .idle)
  /-- `write` has checked that its bytes fit. -/
  | check (chunk : List UInt8) (hbuf : t.buf = s.buf) (hwriter : t.writer = .checked chunk)
      (hfits : s.buf.written + chunk.length ≤ s.buf.capacity)
  /-- Bytes are put behind the counter. -/
  | append (bytes : List UInt8) (hfits : s.buf.written + bytes.length ≤ s.buf.capacity)
      (hbuf : t.buf = s.buf.append bytes hfits)
      (hwriter : t.writer = .advanced s.buf.written bytes.length)

theorem keeps_poll {β : Type} (w : WaiterId) (f : FrameState → Option (Except FrameError β))
    (ok : β → List (Option ℕ) × FrameReply) :
    (s.poll w f ok).next.buf = s.buf ∧ (s.poll w f ok).next.writer = s.writer := by
  rw [poll]
  split <;> exact ⟨rfl, rfl⟩

/-- What an operation does to the writer is one of these. -/
theorem Form.writerStep (h : s.Form op o) : WriterStep s o.next := by
  cases h with
  | done | act => exact .keep rfl rfl
  | chunk | all => exact .keep (keeps_poll _ _ _).1 (keeps_poll _ _ _).2
  | check chunk _ _ hfits =>
    refine .check chunk rfl rfl ?_
    have hle : s.buf.written ≤ s.buf.capacity := s.buf.fits
    rw [FrameBuf.remaining] at hfits
    omega
  | advance bytes =>
    rw [Frame.advance]
    split_ifs with hfits
    · exact .append bytes hfits rfl rfl
    · exact .finish rfl rfl
  | notify => exact .finish rfl rfl

/-- The checks of a call still hold when it goes on, and the counter is where it left it. -/
def WriterOk (s : Frame) : Prop :=
  match s.writer with
  | .idle => True
  | .checked chunk => s.buf.written + chunk.length ≤ s.buf.capacity
  | .advanced prev cnt => s.buf.written = prev + cnt

/-- The checks of the writer hold after every step. -/
theorem WriterOk.step {t : Frame} (hs : s.WriterOk) (h : WriterStep s t) : t.WriterOk := by
  rw [WriterOk] at hs ⊢
  cases h with
  | keep hbuf hwriter =>
    rw [hbuf, hwriter]
    exact hs
  | finish hbuf hwriter =>
    rw [hwriter]
    trivial
  | check chunk hbuf hwriter hfits =>
    rw [hbuf, hwriter]
    exact hfits
  | append bytes hfits hbuf hwriter =>
    rw [hbuf, hwriter]
    exact length_append

theorem WriterStep.capacity_eq {t : Frame} (h : WriterStep s t) :
    t.buf.capacity = s.buf.capacity := by
  cases h with
  | keep hbuf hwriter => rw [hbuf]
  | finish hbuf hwriter => rw [hbuf]
  | check chunk hbuf hwriter hfits => rw [hbuf]
  | append bytes hfits hbuf hwriter => rw [hbuf, FrameBuf.append]

theorem writerOk_exec (hs : s.WriterOk) (ops : List FrameOp) :
    (s.exec ops).WriterOk ∧ (s.exec ops).buf.capacity = s.buf.capacity := by
  induction ops generalizing s with
  | nil => exact ⟨hs, rfl⟩
  | cons op ops ih =>
    have hstep := (s.step_form op).writerStep
    obtain ⟨hok, hcap⟩ := ih (hs.step hstep)
    exact ⟨hok, hcap.trans hstep.capacity_eq⟩

/-! ### Wake-ups -/

/-- A `poll_read_chunk` that answers `Pending` has registered its waiter. -/
theorem waiting_of_pollReadChunk {i : ℕ} (hp : (s.step (.pollReadChunk i w)).reply = .pending) :
    ∃ ready, (w, Question.value ready) ∈ (s.step (.pollReadChunk i w)).next.channel.waiting := by
  rw [step] at hp ⊢
  cases hidx : s.readIdx i with
  | none =>
    rw [hidx] at hp
    cases hp
  | some idx =>
    rw [hidx] at hp
    have hpending := pending_of_poll w _ _ (by rintro (_ | _) <;> simp) hp
    obtain ⟨_, hasks, hwaiting⟩ := Channel.waiting_of_pending hpending
    cases hasks
    refine ⟨fun state => (chunkReady s.buf.written idx state).isSome, ?_⟩
    dsimp only
    rw [pollReadChunk, (poll_channel w _ _).1, hwaiting]
    exact mem_cons_self

/-- The lock section of a write wakes a consumer that waits for bytes exactly if the write
has completed the frame. -/
theorem notify_wakes_iff (hs : s.channel.Sound) {ready : FrameState → Bool}
    (hr : (w, Question.value ready) ∈ s.channel.waiting) (prev cnt : ℕ) :
    w ∈ (s.notify prev cnt).woken ↔ prev + cnt = s.buf.capacity := by
  have hopen : s.channel.state.closed = false := by
    rcases hs.unanswered _ hr with ⟨hopen, -⟩ | ⟨-, hopen, -⟩
    · exact hopen
    · exact hopen
  by_cases hfull : prev + cnt = s.buf.capacity
  · refine iff_of_true ?_ hfull
    rw [notify, if_pos hfull]
    exact (hs.owed hr _).modified rfl ⟨hopen, rfl⟩
  · -- the guard is dropped unused
    refine iff_of_false ?_ hfull
    rw [notify, if_neg hfull]
    simp [Channel.step, hopen, Channel.release, Guard.modified, Channel.done]

/-- **A write wakes a consumer whose `poll_read_chunk` is pending exactly if it completes the
frame.** The write is any call that has moved the counter and is about to take the lock. -/
theorem write_wakes_iff_full (size : ℕ) (ops later : List FrameOp) (i : ℕ) (w : WaiterId)
    (prev cnt : ℕ) :
    let s := (new size).exec ops
    let t := (s.step (.pollReadChunk i w)).next.exec later
    (s.step (.pollReadChunk i w)).reply = .pending →
    w ∉ (s.step (.pollReadChunk i w)).next.wokenIn later →
    FrameOp.dropWaiter w ∉ later →
    t.writer = .advanced prev cnt →
    t.buf.written = prev + cnt ∧
      (w ∈ (t.step .resumeWrite).woken ↔ prev + cnt = size) := by
  intro s t hp hwoken hdrop hwriter
  -- the registration
  have hs : (s.step (.pollReadChunk i w)).next.channel.Sound := by
    have hrun := sound_exec size (ops ++ [.pollReadChunk i w])
    rwa [exec, foldl_append] at hrun
  obtain ⟨ready, hr⟩ := waiting_of_pollReadChunk hp
  obtain ⟨kops, hexec, hkwoken, hkdrop⟩ := exec_channel (s.step (.pollReadChunk i w)).next later
  have hr' : (w, Question.value ready) ∈ t.channel.waiting := by
    rw [hexec]
    exact Channel.mem_waiting_exec hs hr (hkwoken ▸ hwoken) fun h => hdrop (hkdrop w h)
  have hs' : t.channel.Sound := by
    rw [hexec]
    exact hs.exec kops
  -- the writer
  obtain ⟨hok, hcap⟩ : t.WriterOk ∧ t.buf.capacity = size := by
    have hrun := writerOk_exec (s := new size) trivial (ops ++ .pollReadChunk i w :: later)
    rwa [exec, foldl_append] at hrun
  rw [WriterOk, hwriter] at hok
  refine ⟨hok, ?_⟩
  rw [step, hwriter, ← hcap]
  exact notify_wakes_iff hs' hr' prev cnt

/-- A consumer waits for a frame of one byte, which is written at once. -/
theorem write_wakes_iff_full_one :
    let s := (new 1).exec [.newWaiter, .consume, .resume 0]
    let later := [FrameOp.write [7], .resumeWrite]
    (s.step (.pollReadChunk 0 0)).reply = .pending ∧
      0 ∈ (((s.step (.pollReadChunk 0 0)).next.exec later).step .resumeWrite).woken := by
  intro s later
  refine ⟨by decide, ?_⟩
  exact (write_wakes_iff_full 1 [.newWaiter, .consume, .resume 0] later 0 0 0 1 (by decide)
    (by decide) (by simp [later]) (by decide)).2.mpr rfl

/-- The first of two bytes is written while a consumer waits. Nobody is woken, though the
consumer would get the byte if it asked again. -/
theorem first_write_wakes_nobody :
    let s := (new 2).exec [.newWaiter, .consume, .resume 0]
    let t := (s.step (.pollReadChunk 0 0)).next.exec [.write [7], .resumeWrite]
    (s.step (.pollReadChunk 0 0)).reply = .pending ∧
      (s.step (.pollReadChunk 0 0)).next.wokenIn [.write [7], .resumeWrite, .resumeWrite] = [] ∧
      0 ∈ t.channel.alive ∧
      ((t.step .resumeWrite).next.step (.pollReadChunk 0 0)).reply = .chunk (some [7]) := by
  decide

end Frame

end HermitMoq
