import HermitMoq.GroupTransfer

/-!
# The Delivery of Groups

A group, from the publisher to the subscriber, in every version of the lite protocol and in every
IETF draft. The publisher writes the header and the frames as far as the stream takes them,
finishes the stream after the last frame, and resets it if it gives up before: a `Writer` that is
dropped resets its stream. What has been sent arrives in any chunks. Nothing is assumed about when
a stream is reset, by the publisher or by the transport.
-/

namespace HermitMoq

open List Output Encode Put Reader Decode

open Encode (transfers_u64 transfers_u8)

/-! ### The publisher's stream -/

/-- What a publisher has written to its stream. -/
structure SendStream where
  unsent : List UInt8
  sent : List UInt8
  finished : Bool
  dropped : Bool
  deriving DecidableEq, Repr

/-- What a publisher does with its stream. -/
inductive SendStep
  /-- `Writer::write`: the stream takes up to `n` bytes. -/
  | write (n : ℕ)
  /-- `Writer::finish`, which is called after the last frame. -/
  | finish
  /-- The writer is dropped, because of an error or because the publisher is cancelled. -/
  | drop
  deriving DecidableEq, Repr

variable {bytes : List UInt8} {x : ℕ} {s : SendStream}

namespace SendStream

/-- A stream with these bytes to write. -/
def new (bytes : List UInt8) : SendStream := ⟨bytes, [], false, false⟩

/-- One step of the publisher. -/
def step (s : SendStream) : SendStep → SendStream
  | .write n =>
    if s.dropped then s
    else { s with unsent := s.unsent.drop n, sent := s.sent ++ s.unsent.take n }
  | .finish => if s.unsent.isEmpty && !s.dropped then { s with finished := true } else s
  | .drop => { s with dropped := true }

/-- Steps of the publisher. -/
def run (s : SendStream) (steps : List SendStep) : SendStream := steps.foldl step s

/-- What the stream delivers: a part of what was sent in chunks that are not empty. The end is
seen only behind all of it. -/
structure Delivers (s : SendStream) (stream : RecvStream) : Prop where
  chunks : ∀ chunk ∈ stream.chunks, chunk ≠ []
  sent : stream.chunks.flatten <+: s.sent
  finished : stream.ending = .finished → s.finished = true ∧ stream.chunks.flatten = s.sent

/-- The bytes are written in order, and all of them before the stream is finished. -/
structure Sends (s : SendStream) (bytes : List UInt8) : Prop where
  append : s.sent ++ s.unsent = bytes
  finished : s.finished = true → s.unsent = []

/-- Every step of the sender keeps the bytes in order. -/
theorem sends_step (h : s.Sends bytes) (step : SendStep) :
    (s.step step).Sends bytes := by
  cases step with
  | write n =>
    rw [SendStream.step]
    split_ifs
    · exact h
    · refine ⟨?_, fun hfinished => ?_⟩
      · show s.sent ++ s.unsent.take n ++ s.unsent.drop n = bytes
        rw [append_assoc, take_append_drop]
        exact h.append
      · show s.unsent.drop n = []
        rw [h.finished hfinished, drop_nil]
  | finish =>
    rw [SendStream.step]
    split_ifs with hempty
    · rw [Bool.and_eq_true, List.isEmpty_iff] at hempty
      exact ⟨h.append, fun _ => hempty.1⟩
    · exact h
  | drop => exact ⟨h.append, h.finished⟩

theorem sends_new (bytes : List UInt8) : (new bytes).Sends bytes :=
  ⟨rfl, fun h => absurd h Bool.false_ne_true⟩

theorem sends_run (h : s.Sends bytes) (steps : List SendStep) : (s.run steps).Sends bytes := by
  induction steps generalizing s with
  | nil => exact h
  | cons step steps ih => exact ih (sends_step h step)

variable {steps : List SendStep} {stream : RecvStream}

theorem Delivers.part (h : ((new bytes).run steps).Delivers stream) :
    stream.chunks.flatten <+: bytes := by
  have hsends := sends_run (sends_new bytes) steps
  exact h.sent.trans ⟨_, hsends.append⟩

/-- Behind the end there is nothing more. -/
theorem Delivers.all (h : ((new bytes).run steps).Delivers stream)
    (hfinished : stream.ending = .finished) : stream.chunks.flatten = bytes := by
  have hsends := sends_run (sends_new bytes) steps
  obtain ⟨hfin, hsent⟩ := h.finished hfinished
  have hbytes := hsends.append
  rw [hsends.finished hfin, append_nil] at hbytes
  exact hsent.trans hbytes

end SendStream

/-! ### Frames -/

/-- No integer is read from no bytes. -/
theorem Version.ne_nil_of_reads (version : Version)
    (h : version.u64.Reads bytes x) : bytes ≠ [] := by
  rintro rfl
  have hrun := h.run
  rcases version.coders with ⟨-, hu64, -⟩ | ⟨_, -, hu64, -⟩
  all_goals
    rw [hu64] at hrun
    exact absurd hrun (by rintro ⟨⟩)

theorem SentFrame.written_slices (frame : SentFrame) :
    Put.written (frame.map .slice) = frame.payload := by
  induction frame with
  | nil => rfl
  | cons chunk frame ih => exact congrArg (chunk ++ ·) ih

variable {frame : SentFrame} {puts : List Put}

/-- The size of a frame can be written. -/
theorem SentFrame.transfers_size {V : Type} [VarIntCode V] (version : V)
    (hsize : frame.payload.length ≤ maxFrameSize) :
    Transfers (Encode.u64 version frame.payload.length) (Decode.u64 version)
      frame.payload.length :=
  transfers_u64 (Nat.lt_of_le_of_lt hsize (by decide))

namespace Lite

variable {version : Version}

/-- What is written for a frame is received. -/
theorem transports_frame (version : Version) (hsize : frame.payload.length ≤ maxFrameSize) :
    ∃ puts, encodeFrame version frame = .ok puts ∧
      Recv.Transports (recvObject version) (Put.written puts) frame.payload := by
  obtain ⟨head, hhead, hreads⟩ := SentFrame.transfers_size version hsize
  refine ⟨head ++ (frame.map .slice ++ []), ?_, ?_⟩
  · rw [encodeFrame, seq, hhead]
    rfl
  · rw [append_nil, written_append, frame.written_slices]
    refine Recv.transports_decodeMaybe blind_quic hreads
      (Version.ne_nil_of_reads (.lite version) hreads) ?_
    dsimp only
    rw [if_neg (Nat.not_lt.mpr hsize)]
    exact Recv.completes_recvFrame hsize

end Lite

namespace Ietf

variable {version : Version} {flags : GroupFlags}

theorem blind_u64 : (Decode.u64 version).Blind := HermitMoq.Version.blind_u64 (.ietf version)

theorem passes_u64 (hreads : (Decode.u64 version).Reads (Put.written puts) x) :
    Recv.Passes (Recv.decode (Decode.u64 version)) (Put.written puts) x :=
  Recv.passes_decode blind_u64 hreads

/-- The payload of a frame is received behind its size, and an empty one behind its status. -/
theorem completes_payload (version : Version) (flags : GroupFlags)
    (hsize : frame.payload.length ≤ maxFrameSize) :
    ∃ puts, encodePayload version frame = .ok puts ∧
      Recv.Completes (recvPayload version flags) (Put.written puts) frame.payload := by
  obtain ⟨head, hhead, hreads⟩ := SentFrame.transfers_size version hsize
  by_cases hzero : frame.payload.length = 0
  · obtain ⟨status, hstatus, hreads'⟩ : Transfers (u64 version 0) (u64 version) 0 :=
      transfers_u64 (by decide)
    have hu8 : u8 0 = .ok status := (u8_eq_u64 version (by decide)).trans hstatus
    have hnil : frame.payload = [] := length_eq_zero_iff.mp hzero
    refine ⟨head ++ (status ++ []), ?_, ?_⟩
    · rw [encodePayload, if_pos hzero, seq, hhead, hu8]
      rfl
    · rw [append_nil, written_append]
      refine (passes_u64 hreads).completes ?_
      rw [if_pos hzero, ← append_nil (written status)]
      refine (passes_u64 hreads').completes ?_
      rw [if_pos rfl, hnil]
      have hempty : ([] : List UInt8).length ≤ maxFrameSize := Nat.zero_le _
      exact Recv.completes_recvFrame hempty
  · refine ⟨head ++ (frame.map .slice ++ []), ?_, ?_⟩
    · rw [encodePayload, if_neg hzero, seq, hhead]
      rfl
    · rw [append_nil, written_append, frame.written_slices]
      refine (passes_u64 hreads).completes ?_
      rw [if_neg hzero, if_neg (Nat.not_lt.mpr hsize)]
      exact Recv.completes_recvFrame hsize

/-- What is written for a frame is received. -/
theorem transports_frame (version : Version) (flags : GroupFlags)
    (hsize : frame.payload.length ≤ maxFrameSize) :
    ∃ puts, encodeFrame version flags frame = .ok puts ∧
      Recv.Transports (recvObject version flags) (Put.written puts) frame.payload := by
  obtain ⟨zero, hzero, hreads⟩ : Transfers (u64 version 0) (u64 version) 0 :=
    transfers_u64 (by decide)
  obtain ⟨puts, hputs, hcompletes⟩ := completes_payload version flags hsize
  have hne := HermitMoq.Version.ne_nil_of_reads (.ietf version) hreads
  by_cases hextensions : flags.hasExtensions = true
  · refine ⟨zero ++ (zero ++ (puts ++ [])), ?_, ?_⟩
    · rw [encodeFrame, if_pos hextensions, seq, seq, seq, hzero, hputs]
      rfl
    · rw [append_nil, written_append, written_append]
      refine Recv.transports_decodeMaybe blind_u64 hreads hne ?_
      dsimp only
      rw [if_neg (not_not.mpr rfl), if_pos hextensions]
      refine (passes_u64 hreads).completes ?_
      exact Recv.passes_skip_zero.completes hcompletes
  · refine ⟨zero ++ ([] ++ (puts ++ [])), ?_, ?_⟩
    · rw [encodeFrame, if_neg hextensions, seq, seq, seq, hzero, hputs]
      rfl
    · rw [append_nil, nil_append, written_append]
      refine Recv.transports_decodeMaybe blind_u64 hreads hne ?_
      dsimp only
      rw [if_neg (not_not.mpr rfl), if_neg hextensions]
      exact hcompletes

end Ietf

/-! ### Headers -/

/-- The receiver takes these bytes for the header of a group with this sequence number. -/
structure Opens (recv : RecvStream → Option RecvGroup) (object : Recv Bool) (sequence : ℕ)
    (header : List UInt8) : Prop where
  whole : ∀ {stream : RecvStream} {rest : List UInt8},
    Reader.Ready ⟨[], stream⟩ stream.ending (header ++ rest) →
    ∃ r : Reader, r.Ready stream.ending rest ∧ recv stream = some (Recv.recvGroup object sequence r)
  part : ∀ {stream : RecvStream} {part extra : List UInt8},
    Reader.Ready ⟨[], stream⟩ stream.ending part → part ++ extra = header → extra ≠ [] →
    recv stream = none

namespace Lite

variable {version : Version} {msg : Group}

theorem blind_decodeDataType : (decodeDataType version).Blind := by
  refine blind_quic.bind fun t => ?_
  split_ifs <;> trivial

theorem length_u64_le (h : Encode.u64 version x = .ok puts) :
    (Put.written puts).length ≤ 8 := by
  rw [Encode.u64] at h
  split_ifs at h with hx
  rw [← counted_eq]
  exact (counted_quic (n := 7) h (by decide) hx).1

/-- The body of a header is small. -/
theorem length_group_lt {body : List Put} (hbody : Kind.encodeMsg version 0 .group msg = .ok body) :
    (Put.written body).length < 2 ^ 62 := by
  replace hbody : seq [u64 version msg.subscribe, u64 version msg.sequence] =
    .ok body := hbody
  obtain ⟨_, _, hfirst, hothers, rfl⟩ := seq_cons_eq_ok.mp hbody
  obtain ⟨_, _, hsecond, ⟨⟩, rfl⟩ := seq_cons_eq_ok.mp hothers
  have hlen := length_u64_le hfirst
  have hlen' := length_u64_le hsecond
  rw [append_nil, written_append, length_append]
  omega

/-- What is written for a header is received. -/
theorem opens_header (version : Version) (hmsg : Kind.Fits .group msg) :
    ∃ kind header, encodeDataType version = .ok kind ∧
      Kind.encode version 0 .group msg = .ok header ∧
      Opens (recvGroup version) (recvObject version) msg.sequence
        (Put.written kind ++ Put.written header) := by
  obtain ⟨kind, hkind, hreads⟩ :
      Transfers (encodeDataType version) (decodeDataType version) () :=
    Transfers.then_pure (transfers_u64 (by decide)) rfl
  have hsent : Kind.sentIn .group version = true := rfl
  obtain ⟨_, hbody, -⟩ := Kind.transfers hmsg hsent 0
  obtain ⟨header, hheader, hreads'⟩ :=
    (Kind.delivered hmsg hsent hbody (length_group_lt hbody)).transfers
  have hblind : (Kind.decode .group version).Blind := Parser.blind_framed blind_quic
  refine ⟨kind, header, hkind, hheader, ?_⟩
  constructor
  · intro stream rest hr
    rw [append_assoc] at hr
    obtain ⟨r₁, hdecode, hr₁⟩ := decode_reads blind_decodeDataType hreads hr
    obtain ⟨r₂, hdecode', hr₂⟩ := decode_reads hblind hreads' hr₁
    refine ⟨r₂, hr₂, ?_⟩
    rw [recvGroup, hdecode]
    dsimp only
    rw [hdecode']
    rfl
  · intro stream part extra hr hpart hextra
    rcases part_cases hpart with ⟨_, hextra', hfirst⟩ | ⟨_, rfl, hsecond⟩
    · rw [recvGroup, decode_part blind_decodeDataType hreads hr hfirst hextra']
      cases stream.ending <;> rfl
    · obtain ⟨_, hdecode, hr₁⟩ := decode_reads blind_decodeDataType hreads hr
      rw [recvGroup, hdecode]
      dsimp only
      rw [decode_part hblind hreads' hr₁ hsecond hextra]
      cases stream.ending <;> rfl

end Lite

namespace Reader

variable {α : Type} {p : Decode α} {a : α} {ending : StreamEnd} {chunks : List (List UInt8)}
  {buffer rest part extra : List UInt8}

/-- Peeking at a value that is there in full leaves all bytes to be read. -/
theorem peekLoop_reads (hblind : p.Blind) (hreads : p.Reads bytes a)
    (hr : Ready ⟨buffer, chunks, ending⟩ ending (bytes ++ rest)) :
    ∃ r, peekLoop p ending chunks buffer = some (a, r) ∧ r.Ready ending (bytes ++ rest) := by
  induction chunks generalizing buffer with
  | nil =>
    have hbuffer : buffer = bytes ++ rest := by simpa [total] using hr.total
    refine ⟨_, ?_, hr⟩
    rw [peekLoop.eq_def, hbuffer, hreads rest]
  | cons chunk chunks ih =>
    rcases run_buffer hblind hreads hr.total with hshort | ⟨_, hrun, -⟩
    · rw [peekLoop.eq_def, hshort]
      exact ih hr.shift
    · exact ⟨_, by rw [peekLoop.eq_def, hrun], hr⟩

/-- Peeking at a value that is cut off comes to nothing. -/
theorem peekLoop_part (hblind : p.Blind) (hreads : p.Reads bytes a)
    (hr : Ready ⟨buffer, chunks, ending⟩ ending part) (hpart : part ++ extra = bytes)
    (hextra : extra ≠ []) : peekLoop p ending chunks buffer = none := by
  induction chunks generalizing buffer with
  | nil =>
    obtain rfl : buffer = part := by simpa [total] using hr.total
    rw [peekLoop.eq_def, hreads.run_part hblind hpart hextra]
  | cons chunk chunks ih =>
    have hbuffer : buffer ++ ((chunk :: chunks).flatten ++ extra) = bytes := by
      rw [← append_assoc, ← hpart, ← hr.total]
      rfl
    rw [peekLoop.eq_def, hreads.run_part hblind hbuffer (by simp [hextra])]
    exact ih hr.shift

end Reader

namespace Ietf

variable {version : Version} {header : GroupHeader}

/-- The flags of a header are read back from its type, which is one of a group. -/
theorem GroupFlags.decode_encode (version : Version) {flags : GroupFlags}
    (hflags : (flags.hasSubgroup && flags.hasSubgroupObject) = false) :
    ∃ id, flags.encode version = .ok id ∧ GroupFlags.decode id version = pure flags ∧
      id < 0x80 ∧ id &&& 0x90 = 0x10 := by
  obtain ⟨extensions, subgroup, subgroupObject, last, priority⟩ := flags
  rw [GroupFlags.encode, if_neg (by rw [hflags]; exact Bool.false_ne_true)]
  refine ⟨_, rfl, ?_⟩
  rw [GroupFlags.decode]
  generalize version.beforeFirstObject = before
  cases extensions <;> cases subgroup <;> cases subgroupObject <;> cases last <;>
    cases priority <;> cases before <;>
      first | exact ⟨rfl, by decide, by decide⟩ | exact absurd hflags Bool.true_eq_false.mp

/-- The numbers of a header fit, and its flags do not contradict each other. -/
structure GroupHeader.Fits (header : GroupHeader) : Prop where
  trackAlias : header.trackAlias < 2 ^ 62
  groupId : header.groupId < 2 ^ 62
  subGroupId : header.subGroupId = 0
  flags : (header.flags.hasSubgroup && header.flags.hasSubgroupObject) = false

/-- What is read of a header; a priority that is not written has a default. -/
def GroupHeader.carried (header : GroupHeader) : GroupHeader :=
  { header with
    publisherPriority := if header.flags.hasPriority then header.publisherPriority else 128 }

theorem GroupFlags.blind_decode (id : ℕ) : (GroupFlags.decode id version).Blind := by
  have hbase : ∀ hasPriority base, (GroupFlags.ofBase hasPriority base).Blind := by
    intro hasPriority base
    rw [GroupFlags.ofBase]
    split_ifs <;> trivial
  rw [GroupFlags.decode]
  generalize (if version.beforeFirstObject then id else id &&& (2 ^ 64 - 1 - 0x40)) = id'
  split_ifs
  · exact hbase _ _
  · exact hbase _ _
  · trivial

theorem GroupHeader.blind_decode : (GroupHeader.decode version).Blind := by
  refine blind_u64.bind fun id => (GroupFlags.blind_decode id).bind fun flags => ?_
  refine blind_u64.bind fun trackAlias => blind_u64.bind fun groupId => ?_
  refine Parser.Blind.bind ?_ fun subGroupId => Parser.Blind.bind ?_ fun priority => ?_
  · split_ifs
    · exact blind_u64
    · trivial
  · split_ifs
    · exact fun _ => trivial
    · trivial
  · trivial

/-- A header is read back. -/
theorem GroupHeader.transfers (h : header.Fits) {id : ℕ}
    (hid : id < 2 ^ 62) (hdecode : GroupFlags.decode id version = pure header.flags) :
    Transfers (Output.seq [Encode.u64 version id, Encode.u64 version header.trackAlias,
      Encode.u64 version header.groupId,
      if header.flags.hasSubgroup then Encode.u64 version header.subGroupId else .ok [],
      if header.flags.hasPriority then Encode.u8 header.publisherPriority else .ok []])
      (GroupHeader.decode version) header.carried := by
  refine (transfers_u64 hid).cons ?_
  rw [hdecode]
  refine (transfers_u64 h.trackAlias).cons <| (transfers_u64 h.groupId).cons ?_
  have hsubgroup : Transfers
      (if header.flags.hasSubgroup then u64 version header.subGroupId else .ok [])
      (if header.flags.hasSubgroup then u64 version else pure 0) header.subGroupId := by
    rw [h.subGroupId]
    split_ifs
    · exact transfers_u64 (by decide)
    · exact .nil 0
  have hpriority : Transfers
      (if header.flags.hasPriority then u8 header.publisherPriority else .ok [])
      (if header.flags.hasPriority then u8 else pure 128)
      header.carried.publisherPriority := by
    rw [GroupHeader.carried]
    split_ifs
    · exact transfers_u8 _
    · exact .nil 128
  exact hsubgroup.cons <| hpriority.single.then_pure rfl

/-- What is written for a header is received. -/
theorem opens_header (version : Version) (h : header.Fits) :
    ∃ puts, header.encode version = .ok puts ∧
      Opens (recvGroup version) (recvObject version header.flags) header.groupId
        (Put.written puts) := by
  obtain ⟨id, hid, hdecode, hlt, hbits⟩ := GroupFlags.decode_encode version h.flags
  obtain ⟨_, hputs, hreads⟩ :=
    GroupHeader.transfers h (Nat.lt_trans hlt (by decide)) hdecode
  obtain ⟨first, others, hfirst, -, rfl⟩ := seq_cons_eq_ok.mp hputs
  have hpeek : (Decode.u64 version).Reads (Put.written first) id := by
    obtain ⟨first', hfirst', hreads'⟩ : Transfers (Encode.u64 version id) (Decode.u64 version) id :=
      transfers_u64 (Nat.lt_trans hlt (by decide))
    obtain rfl : first = first' := Except.ok.inj (hfirst.symm.trans hfirst')
    exact hreads'
  have hkind : id ≠ setupV17 ∧ id ≤ 0xff := by
    rw [setupV17]
    omega
  refine ⟨first ++ others, ?_, ?_⟩
  · have hsubgroup : ¬ (!header.flags.hasSubgroup && header.subGroupId != 0) = true := by
      rw [h.subGroupId, bne_self_eq_false, Bool.and_false]
      exact Bool.false_ne_true
    rw [← hputs, GroupHeader.encode, hid]
    exact if_neg hsubgroup
  rw [written_append] at hreads ⊢
  constructor
  · intro stream rest hr
    rw [append_assoc] at hr
    obtain ⟨r₁, hpeeked, hr₁⟩ := peekLoop_reads blind_u64 hpeek hr
    rw [← append_assoc] at hr₁
    obtain ⟨r₂, hdecoded, hr₂⟩ := decode_reads GroupHeader.blind_decode hreads hr₁
    refine ⟨r₂, hr₂, ?_⟩
    rw [recvGroup, hpeeked]
    dsimp only
    rw [if_neg hkind.1, if_pos ⟨hkind.2, hbits⟩, hdecoded]
    exact if_neg (not_not.mpr h.subGroupId)
  · intro stream part extra hr hpart hextra
    rcases part_cases hpart with ⟨_, hextra', hfirst'⟩ | ⟨_, rfl, -⟩
    · rw [recvGroup, peekLoop_part blind_u64 hpeek hr hfirst' hextra']
    · obtain ⟨_, hpeeked, hr₁⟩ := peekLoop_reads blind_u64 hpeek hr
      rw [recvGroup, hpeeked]
      dsimp only
      rw [if_neg hkind.1, if_pos ⟨hkind.2, hbits⟩,
        decode_part GroupHeader.blind_decode hreads hr₁ hpart hextra]
      cases stream.ending <;> rfl

end Ietf

/-! ### Groups -/

/-- What the receiver makes of the bytes of a group. -/
structure Transferred (bytes : List UInt8) (recv : RecvStream → Option RecvGroup) (sequence : ℕ)
    (payloads : List (List UInt8)) : Prop where
  /-- A stream that is finished gives the group in full. -/
  complete : ∀ {steps : List SendStep} {stream : RecvStream},
    ((SendStream.new bytes).run steps).Delivers stream → stream.ending = .finished →
    ∃ g, recv stream = some g ∧ g.Complete sequence payloads
  /-- A stream that is reset gives no group, or one that is aborted. -/
  aborted : ∀ {steps : List SendStep} {stream : RecvStream} {g : RecvGroup},
    ((SendStream.new bytes).run steps).Delivers stream → stream.ending = .reset →
    recv stream = some g → g.abort.isSome = true
  /-- However much has arrived, a frame that is finished is one of the group. -/
  faithful : ∀ {steps : List SendStep} {stream : RecvStream} {g : RecvGroup},
    ((SendStream.new bytes).run steps).Delivers stream → recv stream = some g →
    g.Faithful sequence payloads
  /-- Any stream of a part of the bytes that ends, whoever ended it, gives a group that is aborted
  or whose frames are the first of the group. -/
  truncated : ∀ {stream : RecvStream} {g : RecvGroup}, (∀ chunk ∈ stream.chunks, chunk ≠ []) →
    stream.chunks.flatten <+: bytes → stream.ending ≠ .waiting → recv stream = some g →
    g.Faithful sequence payloads ∧ (g.abort.isSome = true ∨
      stream.ending = .finished ∧ ∃ k, g.Complete sequence (payloads.take k))

section

variable {recv : RecvStream → Option RecvGroup} {object : Recv Bool} {sequence : ℕ}
  {header : List UInt8} {objects : List (List UInt8 × List UInt8)}

/-- A group that comes of a part of the bytes. -/
theorem Opens.received (hopens : Opens recv object sequence header) (hend : Recv.SeesEnd object)
    (hall : ∀ o ∈ objects, Recv.Transports object o.1 o.2) {stream : RecvStream} {g : RecvGroup}
    (hchunks : ∀ chunk ∈ stream.chunks, chunk ≠ [])
    (hpart : stream.chunks.flatten <+: header ++ (objects.map Prod.fst).flatten)
    (hg : recv stream = some g) :
    g.Faithful sequence (objects.map Prod.snd) ∧ (g.abort.isSome = true ∨
      stream.ending = .waiting ∨
      stream.ending = .finished ∧ ∃ k, g.Complete sequence ((objects.map Prod.snd).take k)) := by
  have hr : Reader.Ready ⟨[], stream⟩ stream.ending stream.chunks.flatten := ⟨rfl, rfl, hchunks⟩
  obtain ⟨extra, hextra⟩ := hpart
  rcases part_cases hextra with ⟨_, hextra', hheader⟩ | ⟨part, hsplit, hframes⟩
  · have hnone := hopens.part hr hheader hextra'
    rw [hg] at hnone
    cases hnone
  · rw [hsplit] at hr
    obtain ⟨_, hready, hrecv⟩ := hopens.whole hr
    obtain rfl : g = _ := Option.some.inj (hg.symm.trans hrecv)
    exact Recv.recvGroup_part hend hall sequence hready ⟨extra, hframes⟩

/-- A group that is opened and ended is transferred. -/
theorem Opens.transferred (hopens : Opens recv object sequence header)
    (hend : Recv.SeesEnd object) (hall : ∀ o ∈ objects, Recv.Transports object o.1 o.2) :
    Transferred (header ++ (objects.map Prod.fst).flatten) recv sequence
      (objects.map Prod.snd) where
  complete {steps stream} hdelivers hfinished := by
    obtain ⟨_, hready, hrecv⟩ :=
      hopens.whole ⟨hdelivers.all hfinished, rfl, hdelivers.chunks⟩
    rw [hfinished] at hready
    exact ⟨_, hrecv, Recv.recvGroup_whole hend hall sequence hready⟩
  aborted {steps stream g} hdelivers hreset hg := by
    obtain ⟨-, haborted | hwaiting | ⟨hfinished, -⟩⟩ :=
      hopens.received hend hall hdelivers.chunks hdelivers.part hg
    · exact haborted
    · exact absurd (hreset.symm.trans hwaiting) (by decide)
    · exact absurd (hreset.symm.trans hfinished) (by decide)
  faithful {steps stream g} hdelivers hg :=
    (hopens.received hend hall hdelivers.chunks hdelivers.part hg).1
  truncated {stream g} hchunks hpart hending hg := by
    obtain ⟨hfaithful, hended⟩ := hopens.received hend hall hchunks hpart hg
    exact ⟨hfaithful, hended.imp_right fun h => h.resolve_left hending⟩

/-- The frames of a group, as their bytes and payloads. -/
theorem exists_objects {encodeFrame : SentFrame → Encode} {frames : List SentFrame}
    (h : ∀ frame ∈ frames, ∃ puts, encodeFrame frame = .ok puts ∧
      Recv.Transports object (Put.written puts) frame.payload) :
    ∃ (puts : List Put) (objects : List (List UInt8 × List UInt8)),
      Output.seq (frames.map encodeFrame) = .ok puts ∧
      Put.written puts = (objects.map Prod.fst).flatten ∧
      objects.map Prod.snd = frames.map SentFrame.payload ∧
      ∀ o ∈ objects, Recv.Transports object o.1 o.2 := by
  induction frames with
  | nil => exact ⟨[], [], rfl, rfl, rfl, forall_mem_nil _⟩
  | cons frame frames ih =>
    obtain ⟨hframe, hframes⟩ := forall_mem_cons.mp h
    obtain ⟨first, hfirst, htransports⟩ := hframe
    obtain ⟨others, objects, hothers, hwritten, hpayloads, hall⟩ := ih hframes
    refine ⟨first ++ others, (written first, frame.payload) :: objects, ?_, ?_, ?_, ?_⟩
    · exact seq_cons_eq_ok.mpr ⟨first, others, hfirst, hothers, rfl⟩
    · rw [written_append, hwritten]
      rfl
    · rw [map_cons, map_cons, hpayloads]
    · exact forall_mem_cons.mpr ⟨htransports, hall⟩

end

/-- **A group is transferred, in every version.** The publisher's bytes, delivered in any chunks,
give the same group; if the stream is reset, the group is aborted, and no frame is finished that is
not one of the original. -/
theorem group_transfer :
    (∀ (version : Lite.Version) (msg : Lite.Group) (frames : List SentFrame),
      msg.subscribe < 2 ^ 62 → msg.sequence < 2 ^ 62 →
      (∀ frame ∈ frames, frame.payload.length ≤ maxFrameSize) →
      ∃ puts, Lite.serveGroup version msg frames = .ok puts ∧
        Transferred (Put.written puts) (Lite.recvGroup version) msg.sequence
          (frames.map SentFrame.payload)) ∧
    (∀ (version : Ietf.Version) (msg : Ietf.GroupHeader) (frames : List SentFrame), msg.Fits →
      (∀ frame ∈ frames, frame.payload.length ≤ maxFrameSize) →
      ∃ puts, Ietf.runGroup version msg frames = .ok puts ∧
        Transferred (Put.written puts) (Ietf.recvGroup version) msg.groupId
          (frames.map SentFrame.payload)) := by
  constructor
  · intro version msg frames hsubscribe hsequence hframes
    obtain ⟨kind, header, hkind, hheader, hopens⟩ :=
      Lite.opens_header version ⟨hsubscribe, hsequence⟩
    obtain ⟨puts, objects, hputs, hwritten, hpayloads, hall⟩ :=
      exists_objects fun frame hframe => Lite.transports_frame version (hframes frame hframe)
    refine ⟨kind ++ (header ++ puts), ?_, ?_⟩
    · exact seq_cons_eq_ok.mpr ⟨kind, _, hkind,
        seq_cons_eq_ok.mpr ⟨header, puts, hheader, hputs, rfl⟩, rfl⟩
    · rw [written_append, written_append, hwritten, ← hpayloads, ← append_assoc]
      exact hopens.transferred (Recv.seesEnd_decodeMaybe rfl) hall
  · intro version msg frames hmsg hframes
    obtain ⟨header, hheader, hopens⟩ := Ietf.opens_header version hmsg
    obtain ⟨puts, _, hputs, hwritten, hpayloads, hall⟩ :=
      exists_objects fun frame hframe =>
        Ietf.transports_frame version msg.flags (hframes frame hframe)
    refine ⟨header ++ puts, ?_, ?_⟩
    · exact seq_cons_eq_ok.mpr ⟨header, puts, hheader, hputs, rfl⟩
    · rw [written_append, hwritten, ← hpayloads]
      exact hopens.transferred (Recv.seesEnd_decodeMaybe rfl) hall

/-- A group of two frames in draft 18, the second of them empty, that arrives in three chunks. -/
theorem group_transfer_chunks :
    Ietf.GroupHeader.Fits ⟨7, 4, 0, 0, {}⟩ ∧
    ∃ puts, Ietf.runGroup .draft18 ⟨7, 4, 0, 0, {}⟩ [[[1, 2], [3]], []] = .ok puts ∧
      Put.written puts = [0x58, 7, 4, 0, 0, 3, 1, 2, 3, 0, 0, 0] ∧
      ∃ g, Ietf.recvGroup .draft18 ⟨[[0x58], [7, 4, 0, 0, 3, 1], [2, 3, 0, 0, 0]], .finished⟩ =
        some g ∧ g.Complete 4 [[1, 2, 3], []] := by
  have hfits : Ietf.GroupHeader.Fits ⟨7, 4, 0, 0, {}⟩ := ⟨by decide, by decide, rfl, rfl⟩
  refine ⟨hfits, ?_⟩
  obtain ⟨puts, hputs, htransferred⟩ :=
    group_transfer.2 .draft18 ⟨7, 4, 0, 0, {}⟩ [[[1, 2], [3]], []] hfits (by decide)
  have hwritten : written puts = [0x58, 7, 4, 0, 0, 3, 1, 2, 3, 0, 0, 0] := by
    rw [← Except.ok.inj hputs]
    decide
  refine ⟨puts, hputs, hwritten, ?_⟩
  rw [hwritten] at htransferred
  have hdelivers : (SendStream.run (.new [0x58, 7, 4, 0, 0, 3, 1, 2, 3, 0, 0, 0])
      [.write 5, .write 9, .finish]).Delivers
        ⟨[[0x58], [7, 4, 0, 0, 3, 1], [2, 3, 0, 0, 0]], .finished⟩ :=
    ⟨by decide, ⟨[], rfl⟩, fun _ => ⟨rfl, rfl⟩⟩
  exact htransferred.complete hdelivers rfl

end HermitMoq
