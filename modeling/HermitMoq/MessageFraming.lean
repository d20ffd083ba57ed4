import HermitMoq.IetfMessages
import HermitMoq.LiteMessages

/-!
# Messages on a Stream

`Reader::decode` reads from a stream until what it has buffered decodes: it takes `short` to
mean that more bytes are needed. A message starts with its size, so once that many bytes are
there, no more are needed. But the decoder of the body reports a field that is cut off by the
end of the body with the same error, and `Message::decode` passes it on. The reader then goes
on to buffer whatever the stream delivers, and nothing that comes can change the outcome.
-/

namespace HermitMoq

/-! ### The reader -/

/-- How a stream goes on when it has delivered all its chunks. -/
inductive StreamEnd
  | waiting
  | finished
  | reset
  deriving DecidableEq, Repr

/-- What a stream still delivers. -/
structure RecvStream where
  chunks : List (List UInt8)
  ending : StreamEnd
  deriving DecidableEq, Repr

/-- What comes of a call of `Reader::decode`. -/
inductive Decoded (α : Type)
  | value (a : α)
  | failed (e : DecodeError)
  /-- The transport failed. -/
  | transport
  /-- The call waits for the stream. -/
  | waiting
  deriving DecidableEq, Repr

/-- `Reader`. -/
structure Reader where
  buffer : List UInt8
  stream : RecvStream
  deriving DecidableEq, Repr

namespace Reader

variable {α : Type} {p : Decode α}

/-- The loop of `Reader::decode`, over the chunks to come. -/
def decodeLoop (p : Decode α) (ending : StreamEnd) (chunks : List (List UInt8))
    (buffer : List UInt8) : Decoded α × Reader :=
  match p.run buffer with
  | .ok (a, rest) => (.value a, ⟨rest, chunks, ending⟩)
  | .error .short =>
    match chunks with
    | chunk :: chunks => decodeLoop p ending chunks (buffer ++ chunk)
    | [] =>
      match ending with
      | .waiting => (.waiting, ⟨buffer, [], ending⟩)
      | .finished => (.failed .short, ⟨buffer, [], ending⟩)
      | .reset => (.transport, ⟨buffer, [], ending⟩)
  | .error e => (.failed e, ⟨buffer, chunks, ending⟩)

/-- `Reader::decode`. -/
def decode (p : Decode α) (r : Reader) : Decoded α × Reader :=
  decodeLoop p r.stream.ending r.stream.chunks r.buffer

/-- A buffer that does not run short is all the reader needs. -/
theorem stream_decode {r : Reader} (h : p.run r.buffer ≠ .error .short) :
    (r.decode p).2.stream = r.stream := by
  rw [decode, decodeLoop.eq_def]
  cases hrun : p.run r.buffer with
  | ok v => rfl
  | error e =>
    rw [hrun] at h
    cases e with
    | short => exact (h rfl).elim
    | _ => rfl

/-- As long as the buffer runs short, whatever arrives, the reader buffers all there is. -/
theorem decode_of_short {buf : List UInt8}
    (h : ∀ extra, p.run (buf ++ extra) = .error .short) (stream : RecvStream) :
    (decode p ⟨buf, stream⟩).2 = ⟨buf ++ stream.chunks.flatten, [], stream.ending⟩ := by
  obtain ⟨chunks, ending⟩ := stream
  show (decodeLoop p ending chunks buf).2 = _
  induction chunks generalizing buf with
  | nil =>
    have hbuf := h []
    rw [List.append_nil] at hbuf
    rw [decodeLoop.eq_def, hbuf]
    cases ending <;> simp
  | cons chunk chunks ih =>
    have hbuf := h []
    rw [List.append_nil] at hbuf
    rw [decodeLoop.eq_def, hbuf]
    have hnext : ∀ extra, p.run (buf ++ chunk ++ extra) = .error .short := fun extra => by
      rw [List.append_assoc]
      exact h (chunk ++ extra)
    simpa using ih hnext

end Reader

/-! ### Messages of either protocol -/

/-- A kind of message, in a version of its protocol. -/
inductive Message
  | lite (kind : Lite.Kind) (version : Lite.Version)
  | ietf (kind : Ietf.Kind) (version : Ietf.Version)
  deriving DecidableEq, Repr

namespace Message

/-- The values of a message. -/
def Value : Message → Type
  | lite kind _ => kind.Value
  | ietf kind _ => kind.Value

/-- The decoder of the size that a message starts with. -/
def decodeSize : Message → Decode ℕ
  | lite _ version => Decode.u64 version
  | ietf _ _ => Decode.u16

/-- `Message::decode_msg`. -/
def decodeMsg : (m : Message) → Decode m.Value
  | lite kind version => kind.decodeMsg version
  | ietf kind version => kind.decodeMsg version

/-- `Message::decode`. -/
def decode : (m : Message) → Decode m.Value
  | lite kind version => kind.decode version
  | ietf kind version => kind.decode version

/-- Messages of both protocols are frames. -/
theorem decode_eq_framed (m : Message) :
    m.decode = Parser.framed m.decodeSize m.decodeMsg .long (by decide) := by
  cases m <;> rfl

/-- Sizes are read without a look at what is left. -/
theorem blind_decodeSize (m : Message) : m.decodeSize.Blind := by
  cases m with
  | lite kind version => exact Decode.blind_quic
  | ietf kind version => exact fun _ => trivial

/-- The buffer starts with the size of a message and the whole of `body`. -/
def Whole (m : Message) (buf body : List UInt8) : Prop :=
  ∃ n rest, m.decodeSize.run buf = .ok (n, rest) ∧ n ≤ rest.length ∧ body = rest.take n

variable {m : Message} {buf body : List UInt8}

section

variable (h : m.Whole buf body) (extra : List UInt8)

include h

/-- A whole message stays one. -/
theorem Whole.append :
    m.Whole (buf ++ extra) body := by
  obtain ⟨n, rest, hsize, hlen, rfl⟩ := h
  have hfits : m.decodeSize.Fits buf := by
    by_contra hno
    rw [(Parser.run_eq_short_iff _ _).mpr hno] at hsize
    cases hsize
  refine ⟨n, rest ++ extra, ?_, ?_, (List.take_append_of_le_length hlen).symm⟩
  · rw [Parser.run_append m.blind_decodeSize hfits, hsize]
    rfl
  · rw [List.length_append]
    omega

/-- Of a whole message, only the reads of the body matter. -/
theorem Whole.fits_iff : m.decode.Fits buf ↔ m.decodeMsg.Fits body := by
  obtain ⟨_, _, hsize, hlen, rfl⟩ := h
  rw [decode_eq_framed, Parser.fits_framed hsize hlen]

/-- A whole message whose body runs short keeps doing so. -/
theorem Whole.short_append (hno : ¬ m.decodeMsg.Fits body)
    (extra : List UInt8) : m.decode.run (buf ++ extra) = .error .short := by
  rw [Parser.run_eq_short_iff, (h.append extra).fits_iff]
  exact hno

/-- What follows a whole message changes nothing. -/
theorem Whole.run_append :
    m.decode.run (buf ++ extra) = (m.decode.run buf).map fun r => (r.1, r.2 ++ extra) := by
  by_cases hfits : m.decodeMsg.Fits body
  · have hblind : m.decode.Blind := by
      rw [decode_eq_framed]
      exact Parser.blind_framed m.blind_decodeSize
    exact Parser.run_append hblind (h.fits_iff.mpr hfits) extra
  · have hbuf := h.short_append hfits []
    rw [List.append_nil] at hbuf
    rw [h.short_append hfits, hbuf]
    rfl

end

/-- A message is settled by what is in the buffer: it decodes to a value or to an error that no
more bytes can help, what follows does not matter, and the reader leaves the stream alone. -/
structure Settled (m : Message) (buf : List UInt8) : Prop where
  notShort : m.decode.run buf ≠ .error .short
  append : ∀ extra,
    m.decode.run (buf ++ extra) = (m.decode.run buf).map fun r => (r.1, r.2 ++ extra)
  stream : ∀ stream, (Reader.decode m.decode ⟨buf, stream⟩).2.stream = stream

/-- **Whole messages.** A whole message is settled exactly if its fields are within its body;
otherwise the reader buffers the stream to its end. What follows the message never matters. -/
theorem settled_iff_fits (m : Message) (buf body : List UInt8) (h : m.Whole buf body) :
    (m.Settled buf ↔ m.decodeMsg.Fits body) ∧
      (∀ extra,
        m.decode.run (buf ++ extra) = (m.decode.run buf).map fun r => (r.1, r.2 ++ extra)) ∧
      (¬ m.decodeMsg.Fits body → ∀ stream,
        (Reader.decode m.decode ⟨buf, stream⟩).2 =
          ⟨buf ++ stream.chunks.flatten, [], stream.ending⟩) := by
  have hshort : m.decode.run buf = .error .short ↔ ¬ m.decodeMsg.Fits body := by
    rw [Parser.run_eq_short_iff, h.fits_iff]
  refine ⟨⟨fun hs => ?_, fun hfits => ?_⟩, h.run_append, fun hno stream => ?_⟩
  · by_contra hno
    exact hs.notShort (hshort.mpr hno)
  · have hrun : m.decode.run buf ≠ .error .short := fun hs => hshort.mp hs hfits
    exact ⟨hrun, h.run_append, fun stream => Reader.stream_decode hrun⟩
  · exact Reader.decode_of_short (h.short_append hno) stream

-- A group whose body has room for one of its two fields: the message is there in full, but the
-- reader waits for more and buffers what is not part of it.
example :
    (lite .group .lite03).decode.run [1, 0] = .error .short ∧
      (Reader.decode (lite .group .lite03).decode ⟨[1, 0], [[5, 6], [7]], .waiting⟩).2 =
        ⟨[1, 0, 5, 6, 7], [], .waiting⟩ :=
  ⟨rfl, rfl⟩

end Message

/-! ### Chunks -/

namespace Reader

variable {α : Type} {p : Decode α}

/-- The reader once all that its stream delivers is buffered. -/
def whole (r : Reader) : Reader :=
  ⟨r.buffer ++ r.stream.chunks.flatten, [], r.stream.ending⟩

/-- A decoder that does not ask how many bytes are left finds the same in any chunks, and leaves
the same bytes behind. -/
theorem decode_whole (hp : p.Blind) (r : Reader) :
    (r.decode p).1 = (r.whole.decode p).1 ∧ (r.decode p).2.whole = (r.whole.decode p).2.whole := by
  obtain ⟨buffer, chunks, ending⟩ := r
  simp only [decode, whole]
  induction chunks generalizing buffer with
  | nil => simp
  | cons chunk chunks ih =>
    by_cases hfits : p.Fits buffer
    · have hrun := Parser.run_append hp hfits (chunk :: chunks).flatten
      have hshort := mt (Parser.run_eq_short_iff p buffer).mp (not_not.mpr hfits)
      rw [decodeLoop.eq_def, decodeLoop.eq_def _ _ [], hrun]
      cases hbuf : p.run buffer with
      | ok v => simp [Except.map]
      | error e => cases e <;> simp_all [Except.map]
    · rw [decodeLoop.eq_def, (Parser.run_eq_short_iff p buffer).mpr hfits]
      simpa using ih (buffer ++ chunk)

end Reader

namespace Message

/-- Messages of these kinds, read one after another. -/
def readAll : List Message → Reader → List (Σ m : Message, Decoded m.Value)
  | [], _ => []
  | m :: ms, r => ⟨m, (r.decode m.decode).1⟩ :: readAll ms (r.decode m.decode).2

/-- Only the bytes matter, not how many of them are buffered. -/
theorem readAll_congr (ms : List Message) {r r' : Reader} (h : r.whole = r'.whole) :
    readAll ms r = readAll ms r' := by
  induction ms generalizing r r' with
  | nil => rfl
  | cons m ms ih =>
    have hblind : m.decode.Blind := by
      rw [decode_eq_framed]
      exact Parser.blind_framed m.blind_decodeSize
    obtain ⟨hvalue, hrest⟩ := Reader.decode_whole hblind r
    obtain ⟨hvalue', hrest'⟩ := Reader.decode_whole hblind r'
    rw [← h] at hvalue' hrest'
    rw [readAll, readAll, hvalue, hvalue', ih (hrest.trans hrest'.symm)]

/-- **However a stream is cut into chunks**, the messages that are read from it, one after another,
are those that are read if all its bytes are there at once. -/
theorem readAll_whole (ms : List Message) (r : Reader) : readAll ms r = readAll ms r.whole :=
  readAll_congr ms (by simp [Reader.whole])

end Message

end HermitMoq
