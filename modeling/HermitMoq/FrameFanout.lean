import HermitMoq.FrameStreaming

/-!
# Reading a Frame Through Many Consumers

The consumers of a frame share its buffer and keep their own offsets. A history keeps, beside the
frame, the bytes that the writer handed in, and for every consumer the position at which it was
created and the bytes it was given since.
-/

namespace HermitMoq

open List FrameState FrameBuf HermitMoq.Frame

/-- The bytes that a call of `write` is about to copy. -/
def Writer.pending : Writer → List UInt8
  | .checked chunk => chunk
  | _ => []

variable {i idx : ℕ}

namespace Frame

variable {s : Frame} {op : FrameOp} {o : FrameOutcome} (w : WaiterId)

/-! ### The end of a frame -/

theorem value_poll {β : Type} (f : FrameState → Option (Except FrameError β))
    (ok : β → List (Option ℕ) × FrameReply) :
    (s.poll w f ok).next.channel.state.value = s.channel.state.value := by
  rw [(poll_channel w f ok).1]
  exact s.channel.value_step rfl

/-- A frame is marked as complete when a call of the writer ends that has filled the buffer, and
by `finish`, if the buffer is full. -/
theorem Form.fin (h : s.Form op o) :
    o.next.channel.state.value.fin = s.channel.state.value.fin ∨ s.buf.written = s.buf.capacity ∨
      ∃ prev cnt, s.writer = .advanced prev cnt ∧ prev + cnt = s.buf.capacity := by
  cases h with
  | done | check => exact .inl rfl
  | act _ _ _ hfin => exact hfin.imp_right .inl
  | chunk | all => exact .inl (congrArg FrameState.fin (value_poll _ _ _))
  | advance bytes =>
    rw [Frame.advance]
    split_ifs <;> exact .inl rfl
  | notify prev cnt _ hwriter =>
    by_cases hfull : prev + cnt = s.buf.capacity
    · exact .inr (.inr ⟨prev, cnt, hwriter, hfull⟩)
    · rw [Frame.notify, if_neg hfull]
      exact .inl (congrArg FrameState.fin ((s.channel.value_write _).elim id id))

/-- A frame that is marked as complete is full. -/
def FinOk (s : Frame) : Prop :=
  s.channel.state.value.fin = true → s.buf.written = s.buf.capacity

/-- No step marks a frame as complete that is not full. -/
theorem FinOk.step (hs : s.FinOk) (hwriter : s.WriterOk) (op : FrameOp) :
    (s.step op).next.FinOk := by
  intro hfin
  have hfull : s.buf.written = s.buf.capacity := by
    rcases (s.step_form op).fin with hkeep | hfull | ⟨_, _, hadvanced, hfull⟩
    · exact hs (hkeep ▸ hfin)
    · exact hfull
    · rw [WriterOk, hadvanced] at hwriter
      exact hwriter.trans hfull
  cases (s.step_form op).writerStep with
  | keep hbuf _ | finish hbuf _ | check chunk hbuf _ _ => rwa [hbuf]
  | append bytes hfits hbuf _ =>
    -- nothing fits into a full buffer
    have hlength : (s.buf.append bytes hfits).written = s.buf.written + bytes.length :=
      length_append
    rw [hbuf, hlength]
    exact Nat.le_antisymm hfits (hfull ▸ Nat.le_add_right _ _)

/-! ### The bytes of the writer -/

theorem data_advance {bytes : List UInt8} (hfits : s.buf.written + bytes.length ≤ s.buf.capacity) :
    (s.advance bytes).next.buf.data = s.buf.data ++ bytes ∧
      (s.advance bytes).next.writer.pending = [] ∧ (s.advance bytes).reply = .unfinished := by
  rw [advance, dif_pos hfits]
  exact ⟨rfl, rfl, rfl⟩

/-- The buffer and the bytes that are about to be copied grow by what the step accepts. -/
theorem Form.data (hwriter : s.WriterOk) (h : s.Form op o) :
    o.next.buf.data ++ o.next.writer.pending =
      s.buf.data ++ s.writer.pending ++ op.accepts o.reply := by
  cases h with
  | done reply _ haccepts =>
    rw [show (s.done reply).reply = reply from rfl, haccepts]
    exact (append_nil _).symm
  | act kop _ _ _ _ haccepts =>
    rw [haccepts]
    exact (append_nil _).symm
  | chunk i w idx hop | all i w idx hop =>
    rw [hop]
    dsimp only [pollReadChunk, pollReadAll]
    rw [(keeps_poll w _ _).1, (keeps_poll w _ _).2]
    exact (append_nil _).symm
  | check chunk hop hidle =>
    rw [hop, hidle]
    exact congrArg (· ++ chunk) (append_nil _).symm
  | advance bytes hcall =>
    rcases hcall with ⟨rfl, hidle⟩ | ⟨rfl, hchecked⟩
    · by_cases hfits : s.buf.written + bytes.length ≤ s.buf.capacity
      · obtain ⟨hdata, hpending, hreply⟩ := data_advance hfits
        rw [hdata, hpending, hreply, hidle, append_nil]
        exact congrArg (· ++ bytes) (append_nil _).symm
      · rw [Frame.advance, dif_neg hfits, hidle]
        exact (append_nil _).symm
    · rw [WriterOk, hchecked] at hwriter
      obtain ⟨hdata, hpending, -⟩ := data_advance hwriter
      rw [hdata, hpending, hchecked]
      rfl
  | notify prev cnt hop hadvanced =>
    rw [hop, hadvanced]
    exact (append_nil _).symm

theorem data_grows (op : FrameOp) : s.buf.data <+: (s.step op).next.buf.data := by
  cases (s.step_form op).writerStep with
  | keep hbuf _ | finish hbuf _ | check chunk hbuf _ _ => exact hbuf ▸ prefix_rfl
  | append bytes hfits hbuf _ =>
    rw [hbuf]
    exact prefix_append _ _

/-! ### The offsets of the consumers -/

/-- A poll gives the answer of its closure, or no bytes. -/
theorem readerStep_poll {β : Type} {op : FrameOp}
    (f : FrameState → Option (Except FrameError β)) (ok : β → List (Option ℕ) × FrameReply)
    (hok : ∀ {b o}, f s.channel.state.value = some (.ok b) → o.next.readers = (ok b).1 →
      o.reply = (ok b).2 → ReaderStep s op o) : ReaderStep s op (s.poll w f ok) := by
  rw [poll]
  split
  · rename_i hvalue
    exact hok hvalue rfl rfl
  · exact .keep rfl trivial
  · exact .keep rfl (answer_noBytes _)

theorem readerStep_chunk (hidx : s.readIdx i = some idx) :
    ReaderStep s (.pollReadChunk i w) (s.pollReadChunk i w idx) := by
  refine readerStep_poll w _ _ fun {b o} hvalue hreaders hreply => ?_
  rw [chunkReady] at hvalue
  split_ifs at hvalue with hlt hfin
  · cases hvalue
    exact .chunk i w idx rfl hidx hreaders hreply
  · cases hvalue
    exact .finished i w idx rfl hidx hfin (Nat.le_of_not_lt hlt) hreaders hreply
  · cases habort : s.channel.state.value.abort <;> rw [habort] at hvalue <;> cases hvalue

theorem readerStep_all (hidx : s.readIdx i = some idx) :
    ReaderStep s (.pollReadAll i w) (s.pollReadAll i w idx) := by
  refine readerStep_poll w _ _ fun {b o} hvalue hreaders hreply => ?_
  rw [allReady] at hvalue
  split_ifs at hvalue with hfin
  · exact .all i w idx rfl hidx hfin hreaders hreply
  · cases habort : s.channel.state.value.abort <;> rw [habort] at hvalue <;> cases hvalue

/-- What an operation does to the readers is one of these. -/
theorem Form.readerStep (h : s.Form op o) : ReaderStep s op o := by
  cases h with
  | done _ hreply => exact .keep rfl hreply
  | act _ _ _ _ hreaders => exact hreaders
  | chunk i w idx hop hidx => exact hop ▸ readerStep_chunk w hidx
  | all i w idx hop hidx => exact hop ▸ readerStep_all w hidx
  | check | notify => exact .keep rfl trivial
  | advance bytes =>
    rw [Frame.advance]
    split_ifs <;> exact .keep rfl trivial

end Frame

namespace FrameBuf

variable {b b' : FrameBuf}

theorem length_slice (first : ℕ) {last : ℕ} (hle : last ≤ b.written) :
    (b.slice first last).length = last - first := by
  rw [slice, length_drop, length_take_of_le hle]

theorem slice_append_slice {first mid last : ℕ} (hfirst : first ≤ mid) (hmid : mid ≤ last)
    (hlast : last ≤ b.written) : b.slice first mid ++ b.slice mid last = b.slice first last := by
  have htake : b.data.take mid = (b.data.take last).take mid := by
    rw [take_take, Nat.min_eq_left hmid]
  have hlength : (b.data.take mid).length = mid :=
    length_take_of_le (Nat.le_trans hmid hlast)
  rw [slice, slice, slice,
    ← drop_append_of_le_length (Nat.le_trans hfirst (Nat.le_of_eq hlength.symm)), htake,
    take_append_drop]

/-- Bytes that are put behind the counter do not change a piece before it. -/
theorem slice_of_grows (hgrows : b.data <+: b'.data) {first last : ℕ} (hle : last ≤ b.written) :
    b'.slice first last = b.slice first last := by
  obtain ⟨_, hdata⟩ := hgrows
  rw [slice, slice, ← hdata, take_append_of_le_length hle]

end FrameBuf

/-- What a consumer has seen. -/
structure FanReader where
  /-- The position at which it was created. -/
  start : ℕ
  /-- The bytes it was given. -/
  got : List UInt8
  deriving DecidableEq

namespace FanReader

/-- The position up to which a consumer was given bytes. -/
def position (r : FanReader) : ℕ := r.start + r.got.length

/-- The consumer is given bytes. -/
def give (bytes : List UInt8) (r : FanReader) : FanReader := { r with got := r.got ++ bytes }

/-- The consumer was given the bytes between its first position and its last one. -/
structure Reads (r : FanReader) (b : FrameBuf) : Prop where
  le : r.position ≤ b.written
  got_eq : r.got = b.slice r.start r.position

variable {r : FanReader} {b b' : FrameBuf}

theorem Reads.mono (hr : r.Reads b) (hgrows : b.data <+: b'.data) : r.Reads b' :=
  ⟨Nat.le_trans hr.le hgrows.length_le, by rw [FrameBuf.slice_of_grows hgrows hr.le, ← hr.got_eq]⟩

theorem reads_new {start : ℕ} (hle : start ≤ b.written) : (⟨start, []⟩ : FanReader).Reads b := by
  refine ⟨hle, ?_⟩
  have hlength : (b.slice start start).length = 0 := by
    rw [FrameBuf.length_slice start hle, Nat.sub_self]
  exact (length_eq_zero_iff.mp hlength).symm

theorem position_give (hr : r.Reads b) :
    (r.give (b.slice r.position b.written)).position = b.written := by
  have hle := hr.le
  have hlength := FrameBuf.length_slice r.position (Nat.le_refl b.written)
  rw [position, give, length_append, hlength, ← Nat.add_assoc]
  exact Nat.add_sub_of_le hle

/-- A consumer that is given all bytes behind its position has read to the counter. -/
theorem Reads.give (hr : r.Reads b) : (r.give (b.slice r.position b.written)).Reads b := by
  refine ⟨Nat.le_of_eq (position_give hr), ?_⟩
  have hstart : r.start ≤ r.position := Nat.le_add_right _ _
  have hslice := FrameBuf.slice_append_slice hstart hr.le (Nat.le_refl _)
  rw [← hr.got_eq] at hslice
  rw [position_give hr]
  exact hslice

end FanReader

/-- The offsets of the consumers are where the bytes they were given end. -/
structure Offsets (offsets : List (Option ℕ)) (b : FrameBuf) (readers : List FanReader) :
    Prop where
  length : readers.length = offsets.length
  offset {i idx : ℕ} : offsets[i]?.join = some idx → ∃ r, readers[i]? = some r ∧ r.position = idx
  reads {i : ℕ} {r : FanReader} : readers[i]? = some r → r.Reads b

namespace Offsets

variable {offsets : List (Option ℕ)} {b b' : FrameBuf} {readers : List FanReader}

section

variable (hs : Offsets offsets b readers)

include hs

theorem mono (hgrows : b.data <+: b'.data) :
    Offsets offsets b' readers :=
  ⟨hs.length, hs.offset, fun hat => (hs.reads hat).mono hgrows⟩

/-- A new reader starts at a chunk that is written. -/
theorem create {idx : ℕ} (hidx : idx ≤ b.written) :
    Offsets (offsets ++ [some idx]) b (readers ++ [⟨idx, []⟩]) := by
  refine ⟨by simp [hs.length], fun {i idx'} hat => ?_, fun {i r} hat => ?_⟩
  · rw [getElem?_append] at hat ⊢
    rw [hs.length]
    split_ifs at hat ⊢ with hi
    · exact hs.offset hat
    · have hzero : i - offsets.length = 0 := by
        by_contra hne
        rw [getElem?_eq_none (Nat.pos_of_ne_zero hne)] at hat
        cases hat
      rw [hzero] at hat ⊢
      cases hat
      exact ⟨_, rfl, rfl⟩
  · rw [getElem?_append] at hat
    split_ifs at hat with hi
    · exact hs.reads hat
    · rw [mem_singleton.mp (mem_of_getElem? hat)]
      exact FanReader.reads_new hidx

theorem drop (i : ℕ) : Offsets (offsets.set i none) b readers := by
  refine ⟨by simp [hs.length], fun {j idx} hat => ?_, hs.reads⟩
  rw [getElem?_set] at hat
  split_ifs at hat with hij
  · cases hat
  · cases hat
  · exact hs.offset hat

/-- A consumer reads to the counter. -/
theorem read (hidx : offsets[i]?.join = some idx) :
    Offsets (offsets.set i (some b.written)) b
      (readers.modify i (FanReader.give (b.slice idx b.written))) := by
  obtain ⟨_, hreader, hposition⟩ := hs.offset hidx
  have hreads := hs.reads hreader
  subst hposition
  refine ⟨by simp [hs.length], fun {j idx'} hat => ?_, fun {j r} hat => ?_⟩
  · rw [getElem?_set] at hat
    rw [getElem?_modify]
    split_ifs at hat with hij hlt
    · subst hij
      cases hat
      rw [hreader]
      exact ⟨_, by simp, FanReader.position_give hreads⟩
    · cases hat
    · obtain ⟨r, hr, hpos⟩ := hs.offset hat
      exact ⟨r, by simp [hr, hij], hpos⟩
  · rw [getElem?_modify] at hat
    by_cases hij : i = j
    · subst hij
      rw [hreader] at hat
      simp only [if_true, Option.map_eq_map, Option.map_some] at hat
      exact Option.some.inj hat ▸ hreads.give
    · simp only [hij, if_false, Option.map_eq_map, Option.map_id'] at hat
      exact hs.reads hat

end

end Offsets

/-- A frame with the history of its writer and its consumers. -/
structure FanOut where
  frame : Frame
  /-- The bytes of the calls of the writer that passed their checks. -/
  accepted : List UInt8
  /-- The consumers, in the order of their creation. -/
  readers : List FanReader

namespace FanOut

/-- A new frame. -/
def init (size : ℕ) : FanOut := ⟨.new size, [], []⟩

/-- The bytes that a step gives to a consumer. -/
def gives : FrameOp → FrameReply → Option (ℕ × List UInt8)
  | .pollReadChunk i _, .chunk (some bytes) => some (i, bytes)
  | .pollReadAll i _, .all bytes => some (i, bytes)
  | _, _ => none

/-- The position at which a consumer is created: that of the consumer it is cloned from, or the
start of the frame. -/
def createdAt (h : FanOut) : FrameOp → ℕ
  | .cloneConsumer i => (h.readers[i]?).elim 0 FanReader.position
  | _ => 0

/-- Record the bytes that a consumer is given. -/
def give (readers : List FanReader) : Option (ℕ × List UInt8) → List FanReader
  | some (i, bytes) => readers.modify i (FanReader.give bytes)
  | none => readers

/-- One step, with the record of what it does. -/
def step (h : FanOut) (op : FrameOp) : FanOut :=
  let o := h.frame.step op
  let readers := give h.readers (gives op o.reply)
  { frame := o.next
    accepted := h.accepted ++ op.accepts o.reply
    readers :=
      if h.frame.readers.length < o.next.readers.length then readers ++ [⟨h.createdAt op, []⟩]
      else readers }

/-- Take steps one after another. -/
def run (size : ℕ) (ops : List FrameOp) : FanOut := ops.foldl step (init size)

/-- What a consumer was given is the piece of the buffer between its first position and its
offset. -/
structure Faithful (size : ℕ) (h : FanOut) : Prop where
  capacity : h.frame.buf.capacity = size
  writer : h.frame.WriterOk
  fin : h.frame.FinOk
  accepted : h.frame.buf.data ++ h.frame.writer.pending = h.accepted
  readers : Offsets h.frame.readers h.frame.buf h.readers

theorem faithful_init (size : ℕ) : (init size).Faithful size where
  capacity := rfl
  writer := trivial
  fin := nofun
  accepted := rfl
  readers := ⟨rfl, nofun, nofun⟩

variable {op : FrameOp}

theorem gives_of_noBytes {reply : FrameReply} (h : reply.NoBytes) : gives op reply = none := by
  cases reply with
  | chunk bytes | all bytes => exact h.elim
  | _ => cases op <;> rfl

theorem createdAt_of_ne {h : FanOut} (hop : ∀ i, op ≠ .cloneConsumer i) : h.createdAt op = 0 := by
  cases op with
  | cloneConsumer i => exact absurd rfl (hop i)
  | _ => rfl

variable {size : ℕ} {h : FanOut}

theorem readers_of_keep (hlength : (h.frame.step op).next.readers.length = h.frame.readers.length) :
    (h.step op).readers = give h.readers (gives op (h.frame.step op).reply) :=
  if_neg (Nat.not_lt.mpr (Nat.le_of_eq hlength))

theorem readers_of_create {idx : Option ℕ}
    (hreaders : (h.frame.step op).next.readers = h.frame.readers ++ [idx])
    (hreply : (h.frame.step op).reply.NoBytes) :
    (h.step op).readers = h.readers ++ [⟨h.createdAt op, []⟩] := by
  have hlt : h.frame.readers.length < (h.frame.step op).next.readers.length := by
    rw [hreaders, length_append]
    exact Nat.lt_succ_self _
  rw [step, if_pos hlt, gives_of_noBytes hreply]
  rfl

/-- A step keeps the offsets at the end of what was given. -/
theorem Faithful.offsets_step (hs : h.Faithful size) (op : FrameOp) :
    Offsets (h.frame.step op).next.readers h.frame.buf (h.step op).readers := by
  cases (h.frame.step_form op).readerStep with
  | keep hreaders hreply =>
    rw [readers_of_keep (by rw [hreaders]), hreaders, gives_of_noBytes hreply]
    exact hs.readers
  | create hreaders hop hreply =>
    rw [readers_of_create hreaders hreply, hreaders, createdAt_of_ne hop]
    exact hs.readers.create (Nat.zero_le _)
  | clone i idx hop hidx hreaders hreply =>
    obtain ⟨_, hr, hposition⟩ := hs.readers.offset hidx
    have hcreated : h.createdAt op = idx := by
      rw [hop, createdAt, hr]
      exact hposition
    rw [readers_of_create hreaders hreply, hreaders, hcreated]
    exact hs.readers.create (hposition ▸ (hs.readers.reads hr).le)
  | drop i hreaders hreply =>
    rw [readers_of_keep (by rw [hreaders, length_set]), hreaders, gives_of_noBytes hreply]
    exact hs.readers.drop i
  | chunk i w idx hop hidx hreaders hreply =>
    rw [readers_of_keep (by rw [hreaders, length_set]), hreaders, hreply, hop]
    exact hs.readers.read hidx
  | finished i w idx hop hidx hfin hle hreaders hreply =>
    rw [readers_of_keep (by rw [hreaders]), hreaders, hreply, hop]
    exact hs.readers
  | all i w idx hop hidx hfin hreaders hreply =>
    rw [readers_of_keep (by rw [hreaders, length_set]), hreaders, hreply, hop, ← hs.fin hfin]
    exact hs.readers.read hidx

/-- Every step hands out the bytes as they were written. -/
theorem Faithful.step (hs : h.Faithful size) (op : FrameOp) : (h.step op).Faithful size where
  capacity := (step_form _ op).writerStep.capacity_eq.trans hs.capacity
  writer := hs.writer.step (step_form _ op).writerStep
  fin := hs.fin.step hs.writer op
  accepted := by
    rw [show (h.step op).frame = (h.frame.step op).next from rfl, (step_form _ op).data hs.writer,
      hs.accepted]
    rfl
  readers := (hs.offsets_step op).mono (data_grows op)

/-- So does every run. -/
theorem faithful_run (size : ℕ) (ops : List FrameOp) : (run size ops).Faithful size := by
  have hfold : ∀ (ops : List FrameOp) {h : FanOut}, h.Faithful size →
      (ops.foldl FanOut.step h).Faithful size := by
    intro ops
    induction ops with
    | nil => exact fun hs => hs
    | cons op ops ih => exact fun hs => ih (hs.step op)
  exact hfold ops (faithful_init size)

/-- **Consumers get what was written.** For every frame, every run of its writer and its consumers,
and every state it comes to: what a consumer was given is the beginning of what was written from the
position at which it was created or cloned; `poll_read_all` has an answer only if all bytes are
written, `poll_read_chunk` ends only if the consumer was given all bytes up to the end, and a write
that does not fit is refused and changes nothing. -/
theorem fan_out (size : ℕ) (ops : List FrameOp) :
    let h := run size ops
    (h.frame.buf.data ++ h.frame.writer.pending = h.accepted ∧
      ∀ r ∈ h.readers, r.got <+: h.frame.buf.data.drop r.start) ∧
    (∀ i w bytes, (h.frame.step (.pollReadAll i w)).reply = .all bytes →
      h.frame.buf.data.length = size ∧
        ∃ r, h.readers[i]? = some r ∧ bytes = h.frame.buf.data.drop (r.start + r.got.length)) ∧
    (∀ i w, (h.frame.step (.pollReadChunk i w)).reply = .chunk none →
      ∃ r, h.readers[i]? = some r ∧ r.start + r.got.length = size) ∧
    ∀ chunk, h.frame.channel.producerHandles ≠ 0 → h.frame.writer = .idle →
      chunk.length > size - h.accepted.length →
      h.frame.step (.write chunk) = ⟨h.frame, .err .wrongSize, []⟩ := by
  intro h
  have hs : h.Faithful size := faithful_run size ops
  refine ⟨⟨hs.accepted, fun r hr => ?_⟩, fun i w bytes hreply => ?_, fun i w hreply => ?_,
    fun chunk hhandles hidle hlarge => ?_⟩
  · obtain ⟨i, hat⟩ := mem_iff_getElem?.mp hr
    rw [(hs.readers.reads hat).got_eq]
    rw [slice, drop_take]
    exact take_prefix _ _
  · cases (h.frame.step_form (.pollReadAll i w)).readerStep with
    | all j v idx hop hidx hfin hreaders hall =>
      cases hop
      cases hreply.symm.trans hall
      obtain ⟨r, hr, hposition⟩ := hs.readers.offset hidx
      refine ⟨(hs.fin hfin).trans hs.capacity, r, hr, ?_⟩
      rw [slice, written, take_length, ← hposition]
      rfl
    | finished j v idx hop => cases hop
    | chunk j v idx hop => cases hop
    | keep _ hnone | create _ _ hnone | clone _ _ _ _ _ hnone | drop _ _ hnone =>
      rw [hreply] at hnone
      exact hnone.elim
  · cases (h.frame.step_form (.pollReadChunk i w)).readerStep with
    | finished j v idx hop hidx hfin hle =>
      cases hop
      obtain ⟨r, hr, hposition⟩ := hs.readers.offset hidx
      refine ⟨r, hr, ?_⟩
      have hread := (hs.readers.reads hr).le
      have hfull := (hs.fin hfin).trans hs.capacity
      rw [FanReader.position] at hposition hread
      omega
    | chunk j v idx hop hidx hreaders hchunk => cases hreply.symm.trans hchunk
    | all j v idx hop => cases hop
    | keep _ hnone | create _ _ hnone | clone _ _ _ _ _ hnone | drop _ _ hnone =>
      rw [hreply] at hnone
      exact hnone.elim
  · have hremaining : chunk.length > h.frame.buf.remaining := by
      have hdata : h.frame.buf.data = h.accepted := by
        rw [← hs.accepted, hidle]
        exact (append_nil _).symm
      rwa [remaining, written, hdata, hs.capacity]
    rw [Frame.step, if_neg (by simp [hhandles, hidle]), if_pos hremaining]
    rfl

/-- A frame of three bytes is written in two calls. One consumer reads the first byte and is cloned;
both read the rest. -/
def clonedReader : List FrameOp :=
  [.newWaiter, .consume, .resume 0, .write [7], .resumeWrite, .resumeWrite, .pollReadChunk 0 0,
    .cloneConsumer 0, .write [8, 9], .resumeWrite, .resumeWrite, .pollReadAll 0 0,
    .pollReadChunk 1 0]

/-- The clone gets what the first consumer had not read. -/
theorem fan_out_clone :
    (run 3 clonedReader).readers = [⟨0, [7, 8, 9]⟩, ⟨1, [8, 9]⟩] ∧
      ∃ r, (run 3 clonedReader).readers[1]? = some r ∧ r.start + r.got.length = 3 :=
  ⟨by decide, (fan_out 3 clonedReader).2.2.1 1 0 (by decide)⟩

end FanOut

end HermitMoq
