import HermitMoq.Frame
import HermitMoq.LiteEncoding
import HermitMoq.MessageFraming
import HermitMoq.TrackCache

/-!
# Groups on a Stream

A group is sent on a stream of its own: a header, and then every frame with its size
(`Publisher::serve_group` of the lite protocol and `Publisher::run_group` of the IETF drafts). The
receiver (`Subscriber::recv_group`) reads the sizes through its buffer and the payloads straight
into the buffers of the frames. It finishes the group at the end of the stream, and aborts it on
any error.

The subscription that a group belongs to is known to the receiver, and its track takes the group.
-/

namespace HermitMoq

/-! ### Headers -/

namespace Lite

/-- `DataType::decode`; there is one type. -/
def decodeDataType (version : Version) : Decode Unit := do
  let t ← Decode.u64 version
  if t = 0 then pure () else Decode.fail .invalidValue

/-- `DataType::encode`. -/
def encodeDataType (version : Version) : Encode := Encode.u64 version 0

end Lite

namespace Ietf

/-- `GroupFlags`. -/
structure GroupFlags where
  hasExtensions : Bool := false
  hasSubgroup : Bool := false
  hasSubgroupObject : Bool := false
  hasEnd : Bool := true
  hasPriority : Bool := true
  deriving DecidableEq, Repr

/-- The drafts before the bit `FIRST_OBJECT`. -/
def Version.beforeFirstObject : Version → Bool
  | .draft14 | .draft15 | .draft16 | .draft17 => true
  | _ => false

/-- `GroupFlags::encode`. -/
def GroupFlags.encode (flags : GroupFlags) (version : Version) : Except EncodeError ℕ :=
  if flags.hasSubgroup && flags.hasSubgroupObject then .error .invalidState
  else
    let id := if flags.hasPriority then 0x10 else 0x30
    let id := if flags.hasExtensions then id ||| 0x01 else id
    let id := if flags.hasSubgroupObject then id ||| 0x02 else id
    let id := if flags.hasSubgroup then id ||| 0x04 else id
    let id := if flags.hasEnd then id ||| 0x08 else id
    .ok (if version.beforeFirstObject then id else id ||| 0x40)

/-- The flags of an id in the range from `0x10` to `0x1d`. -/
def GroupFlags.ofBase (hasPriority : Bool) (base : ℕ) : Decode GroupFlags :=
  let flags : GroupFlags := {
    hasExtensions := base &&& 0x01 != 0
    hasSubgroupObject := base &&& 0x02 != 0
    hasSubgroup := base &&& 0x04 != 0
    hasEnd := base &&& 0x08 != 0
    hasPriority }
  if flags.hasSubgroup && flags.hasSubgroupObject then Decode.fail .invalidValue else pure flags

/-- `GroupFlags::decode`. -/
def GroupFlags.decode (id : ℕ) (version : Version) : Decode GroupFlags :=
  let id := if version.beforeFirstObject then id else id &&& (2 ^ 64 - 1 - 0x40)
  if 0x10 ≤ id ∧ id ≤ 0x1d then ofBase true id
  else if 0x30 ≤ id ∧ id ≤ 0x3d then ofBase false (id - (0x30 - 0x10))
  else Decode.fail .invalidValue

/-- `GroupHeader`. -/
structure GroupHeader where
  trackAlias : ℕ
  groupId : ℕ
  subGroupId : ℕ
  publisherPriority : UInt8
  flags : GroupFlags
  deriving DecidableEq, Repr

/-- `GroupHeader::encode`. -/
def GroupHeader.encode (version : Version) (header : GroupHeader) :
    Except EncodeError (List Put) := do
  let id ← header.flags.encode version
  if !header.flags.hasSubgroup && header.subGroupId != 0 then .error .invalidState
  else
    Output.seq [Encode.u64 version id, Encode.u64 version header.trackAlias,
      Encode.u64 version header.groupId,
      if header.flags.hasSubgroup then Encode.u64 version header.subGroupId else .ok [],
      if header.flags.hasPriority then Encode.u8 header.publisherPriority else .ok []]

/-- `GroupHeader::decode`. -/
def GroupHeader.decode (version : Version) : Decode GroupHeader := do
  let flags ← GroupFlags.decode (← Decode.u64 version) version
  let trackAlias ← Decode.u64 version
  let groupId ← Decode.u64 version
  let subGroupId ← (if flags.hasSubgroup then Decode.u64 version else pure 0)
  let publisherPriority ← (if flags.hasPriority then Decode.u8 else pure 128)
  pure { trackAlias, groupId, subGroupId, publisherPriority, flags }

end Ietf

/-! ### The publisher -/

/-- A frame of the group that is sent, as the chunks that `read_chunk` returns. -/
abbrev SentFrame := List (List UInt8)

/-- The payload of a frame. -/
def SentFrame.payload (frame : SentFrame) : List UInt8 := frame.flatten

/-- The chunks of a frame, one after another. -/
def SentFrame.write (frame : SentFrame) : Encode := .ok (frame.map .slice)

/-- A frame of `serve_group`. -/
def Lite.encodeFrame (version : Lite.Version) (frame : SentFrame) : Encode :=
  .seq [Encode.u64 version frame.payload.length, frame.write]

/-- The bytes that `serve_group` writes before it finishes the stream. -/
def Lite.serveGroup (version : Lite.Version) (msg : Lite.Group) (frames : List SentFrame) :
    Encode :=
  .seq (Lite.encodeDataType version :: Lite.Kind.encode version 0 .group msg ::
    frames.map (Lite.encodeFrame version))

/-- The size and the payload of a frame of `run_group`; an empty object has a status. -/
def Ietf.encodePayload (version : Ietf.Version) (frame : SentFrame) : Encode :=
  .seq [Encode.u64 version frame.payload.length,
    if frame.payload.length = 0 then Encode.u8 0 else frame.write]

/-- A frame of `run_group`: the difference of object ids is zero, and there are no extensions. -/
def Ietf.encodeFrame (version : Ietf.Version) (flags : Ietf.GroupFlags) (frame : SentFrame) :
    Encode :=
  .seq [Encode.u64 version 0, if flags.hasExtensions then Encode.u64 version 0 else .ok [],
    encodePayload version frame]

/-- The bytes that `run_group` writes before it finishes the stream. -/
def Ietf.runGroup (version : Ietf.Version) (msg : Ietf.GroupHeader) (frames : List SentFrame) :
    Encode :=
  .seq (msg.encode version :: frames.map (Ietf.encodeFrame version msg.flags))

/-! ### The reader -/

/-- What comes of reading from a stream into a buffer with room for `limit` bytes. -/
inductive Read (limit : ℕ)
  | some (bytes : List UInt8) (fits : bytes.length ≤ limit)
  | none
  | transport
  | waiting

namespace Reader

/-- All bytes that are still to be read. -/
def total (r : Reader) : List UInt8 := r.buffer ++ r.stream.chunks.flatten

/-- A chunk behind what is left of it. -/
def putBack (chunk : List UInt8) (chunks : List (List UInt8)) : List (List UInt8) :=
  if chunk.isEmpty then chunks else chunk :: chunks

/-- `Reader::read_buf`, with room for `limit` bytes: the buffer first, and then the stream. -/
def readBuf (limit : ℕ) (r : Reader) : Read limit × Reader :=
  if !r.buffer.isEmpty && 0 < limit then
    (.some (r.buffer.take limit) (List.length_take_le _ _),
      { r with buffer := r.buffer.drop limit })
  else
    match r.stream.chunks with
    | chunk :: chunks => (.some (chunk.take limit) (List.length_take_le _ _),
        { r with stream := { r.stream with chunks := putBack (chunk.drop limit) chunks } })
    | [] =>
      match r.stream.ending with
      | .waiting => (.waiting, r)
      | .finished => (.none, r)
      | .reset => (.transport, r)

end Reader

/-! ### The group of the receiver -/

/-- The errors that a group is aborted with. -/
inductive RecvError
  | decode (e : DecodeError)
  /-- The transport failed. -/
  | transport
  | wrongSize
  | unsupported
  | net (e : NetError)
  deriving DecidableEq, Repr

/-- A frame, its buffer and what its channel tells. -/
structure RecvFrame where
  buf : FrameBuf
  fin : Bool
  abort : Option RecvError

namespace RecvFrame

/-- `FrameProducer::new`. -/
def new (size : ℕ) : RecvFrame := ⟨.new size, false, none⟩

/-- What there is room for can be put into the buffer. -/
theorem fits_put (f : RecvFrame) {bytes : List UInt8} (h : bytes.length ≤ f.buf.remaining) :
    f.buf.written + bytes.length ≤ f.buf.capacity :=
  (Nat.add_le_add_left h _).trans (Nat.add_sub_of_le f.buf.fits).le

/-- Bytes are put into the buffer: `advance_mut` sets `fin` once it is full. -/
def put (f : RecvFrame) (bytes : List UInt8) (h : bytes.length ≤ f.buf.remaining) : RecvFrame where
  buf := f.buf.append bytes (f.fits_put h)
  fin := f.fin || decide (f.buf.written + bytes.length = f.buf.capacity)
  abort := f.abort

theorem remaining_put_lt (f : RecvFrame) {bytes : List UInt8}
    (h : bytes.length ≤ f.buf.remaining) (hbytes : 0 < bytes.length) :
    (f.put bytes h).buf.remaining < f.buf.remaining := by
  have hlen : (f.put bytes h).buf.written = f.buf.written + bytes.length := List.length_append
  have hcapacity : (f.put bytes h).buf.capacity = f.buf.capacity := rfl
  unfold FrameBuf.remaining at *
  omega

/-- `FrameProducer::finish`. -/
def finish (f : RecvFrame) : Except RecvError RecvFrame :=
  if f.buf.written ≠ f.buf.capacity then .error .wrongSize else .ok { f with fin := true }

end RecvFrame

/-- A group of the receiver. Its frames are shared with consumers, so they are listed whether or
not the group still has them; those that it has are given by their sizes. -/
structure RecvGroup where
  sequence : ℕ
  frames : List RecvFrame
  cached : GroupState ℕ
  abort : Option RecvError

namespace RecvGroup

/-- `GroupProducer::new`. -/
def new (sequence : ℕ) : RecvGroup := ⟨sequence, [], .empty, none⟩

/-- `GroupProducer::finish`; an aborted group stays so. -/
def finish (g : RecvGroup) : RecvGroup :=
  if g.abort.isSome then g else { g with cached := g.cached.finish }

/-- `GroupProducer::abort`. -/
def abortWith (g : RecvGroup) (e : RecvError) : RecvGroup :=
  if g.abort.isSome then g
  else { g with abort := some e, cached := { g.cached with frames := [], cache := 0 } }

end RecvGroup

/-! ### The receiver -/

/-- What comes of a call. -/
inductive Result (α : Type)
  | ok (a : α)
  | error (e : RecvError)
  /-- The call waits for the stream. -/
  | waiting
  /-- The bound on the rounds of a loop is reached. -/
  | exhausted
  deriving DecidableEq, Repr

/-- The receiver, with its reader and its group as state. -/
def Recv (α : Type) := Reader → RecvGroup → Result α × Reader × RecvGroup

namespace Recv

variable {α β : Type}

/-- One call after another. -/
def bind (m : Recv α) (f : α → Recv β) : Recv β := fun r g =>
  match m r g with
  | (.ok a, r, g) => f a r g
  | (.error e, r, g) => (.error e, r, g)
  | (.waiting, r, g) => (.waiting, r, g)
  | (.exhausted, r, g) => (.exhausted, r, g)

instance : Monad Recv where
  pure a := fun r g => (.ok a, r, g)
  bind := bind

/-- An error of the receiver. -/
def fail (e : RecvError) : Recv α := fun r g => (.error e, r, g)

/-- `Reader::decode`. -/
def decode (p : Decode α) : Recv α := fun r g =>
  match r.decode p with
  | (.value a, r) => (.ok a, r, g)
  | (.failed e, r) => (.error (.decode e), r, g)
  | (.transport, r) => (.error .transport, r, g)
  | (.waiting, r) => (.waiting, r, g)

/-- `Reader::has_more`. -/
def hasMore : Recv Bool := fun r g =>
  if !r.buffer.isEmpty then (.ok true, r, g)
  else
    match r.stream.chunks with
    | chunk :: chunks => (.ok true, ⟨r.buffer ++ chunk, chunks, r.stream.ending⟩, g)
    | [] =>
      match r.stream.ending with
      | .waiting => (.waiting, r, g)
      | .finished => (.ok false, r, g)
      | .reset => (.error .transport, r, g)

/-- `Reader::decode_maybe`. -/
def decodeMaybe (p : Decode α) : Recv (Option α) := do
  if ← hasMore then do
    let a ← decode p
    pure (some a)
  else pure none

/-- The loop of `Reader::skip`, over the chunks to come. -/
def skipChunks (ending : StreamEnd) : ℕ → List (List UInt8) → Result Unit × Reader
  | 0, chunks => (.ok (), ⟨[], chunks, ending⟩)
  | _ + 1, [] =>
    match ending with
    | .waiting => (.waiting, ⟨[], [], ending⟩)
    | .finished => (.error (.decode .short), ⟨[], [], ending⟩)
    | .reset => (.error .transport, ⟨[], [], ending⟩)
  | size + 1, chunk :: chunks =>
    if chunk.length ≤ size + 1 then skipChunks ending (size + 1 - chunk.length) chunks
    else (.ok (), ⟨[], chunk.drop (size + 1) :: chunks, ending⟩)

/-- `Reader::skip`. -/
def skip (size : ℕ) : Recv Unit := fun r g =>
  if size ≤ r.buffer.length then (.ok (), { r with buffer := r.buffer.drop size }, g)
  else
    let (result, r) := skipChunks r.stream.ending (size - r.buffer.length) r.stream.chunks
    (result, r, g)

/-- `run_frame`: bytes are read straight into the buffer of the frame until it is full. -/
def runFrame (r : Reader) (f : RecvFrame) : Result Unit × Reader × RecvFrame :=
  if f.buf.remaining = 0 then (.ok (), r, f)
  else
    match r.readBuf f.buf.remaining with
    | (.some bytes fits, r) =>
      if _h : 0 < bytes.length then runFrame r (f.put bytes fits)
      else (.error .wrongSize, r, f)
    | (.none, r) => (.error .wrongSize, r, f)
    | (.transport, r) => (.error .transport, r, f)
    | (.waiting, r) => (.waiting, r, f)
  termination_by f.buf.remaining
  decreasing_by exact f.remaining_put_lt fits _h

/-- `GroupProducer::create_frame`, and the frame read and finished or aborted; while the call
waits, the frame is as far as it was read. -/
def recvFrame (size : ℕ) : Recv Unit := fun r g =>
  match g.cached.writeFrame id size with
  | .error e => (.error (.net e), r, g)
  | .ok cached =>
    let g := { g with cached }
    match runFrame r (.new size) with
    | (.ok (), r, f) =>
      match f.finish with
      | .ok f => (.ok (), r, { g with frames := g.frames ++ [f] })
      | .error e => (.error e, r, { g with frames := g.frames ++ [f] })
    | (.error e, r, f) =>
      (.error e, r, { g with frames := g.frames ++ [{ f with abort := some e }] })
    | (result, r, f) => (result, r, { g with frames := g.frames ++ [f] })

/-- The loop of `run_group`: `object` tells whether there was a frame. -/
def loop (object : Recv Bool) : ℕ → Recv Unit
  | 0 => fun r g => (.exhausted, r, g)
  | fuel + 1 => do
    if ← object then loop object fuel else pure ()

/-- The end of `recv_group`. Every round of the loop reads a byte at least. -/
def recvGroup (object : Recv Bool) (sequence : ℕ) (r : Reader) : RecvGroup :=
  match loop object (r.total.length + 1) r (.new sequence) with
  | (.ok (), _, g) => g.finish
  | (.error e, _, g) => g.abortWith e
  | (_, _, g) => g

end Recv

/-- A round of `run_group` of the lite protocol. -/
def Lite.recvObject (version : Lite.Version) : Recv Bool := do
  match ← Recv.decodeMaybe (Decode.u64 version) with
  | none => pure false
  | some size =>
    if size > maxFrameSize then Recv.fail (.net .frameTooLarge)
    else do
      Recv.recvFrame size
      pure true

/-- `recv_group` of the lite protocol, after the type of the stream. -/
def Lite.recvGroup (version : Lite.Version) (stream : RecvStream) : Option RecvGroup :=
  match Reader.decode (Lite.decodeDataType version) ⟨[], stream⟩ with
  | (.value (), r) =>
    match r.decode (Lite.Kind.decode .group version) with
    | (.value (header : Lite.Group), r) =>
      some (Recv.recvGroup (Lite.recvObject version) header.sequence r)
    | _ => none
  | _ => none

/-- The rest of a round of `run_group`, after the extensions: an empty object has a status. -/
def Ietf.recvPayload (version : Ietf.Version) (flags : Ietf.GroupFlags) : Recv Bool := do
  let size ← Recv.decode (Decode.u64 version)
  if size = 0 then do
    let status ← Recv.decode (Decode.u64 version)
    if status = 0 then do
      Recv.recvFrame 0
      pure true
    else if status = 3 ∧ !flags.hasEnd then pure false
    else Recv.fail .unsupported
  else if size > maxFrameSize then Recv.fail (.net .frameTooLarge)
  else do
    Recv.recvFrame size
    pure true

/-- A round of `run_group` of the IETF drafts. -/
def Ietf.recvObject (version : Ietf.Version) (flags : Ietf.GroupFlags) : Recv Bool := do
  match ← Recv.decodeMaybe (Decode.u64 version) with
  | none => pure false
  | some idDelta =>
    if idDelta ≠ 0 then Recv.fail .unsupported
    else do
      if flags.hasExtensions then do
        let size ← Recv.decode (Decode.u64 version)
        Recv.skip size
      recvPayload version flags

/-- The loop of `Reader::decode_peek`. -/
def Reader.peekLoop {α : Type} (p : Decode α) (ending : StreamEnd) (chunks : List (List UInt8))
    (buffer : List UInt8) : Option (α × Reader) :=
  match p.run buffer with
  | .ok (a, _) => some (a, ⟨buffer, chunks, ending⟩)
  | .error .short =>
    match chunks with
    | chunk :: chunks => peekLoop p ending chunks (buffer ++ chunk)
    | [] => none
  | .error _ => none

/-- `SETUP_V17`, the type of a stream that is not for a group. -/
def Ietf.setupV17 : ℕ := 0x2f00

/-- `run_uni_group` and `recv_group` of the IETF drafts, on a stream whose type is peeked at. -/
def Ietf.recvGroup (version : Ietf.Version) (stream : RecvStream) : Option RecvGroup :=
  match Reader.peekLoop (Decode.u64 version) stream.ending stream.chunks [] with
  | some (kind, r) =>
    if kind = setupV17 then none
    else if kind ≤ 0xff ∧ kind &&& 0x90 = 0x10 then
      match r.decode (GroupHeader.decode version) with
      | (.value header, r) =>
        if header.subGroupId ≠ 0 then none
        else some (Recv.recvGroup (recvObject version header.flags) header.groupId r)
      | _ => none
    else none
  | none => none

end HermitMoq
