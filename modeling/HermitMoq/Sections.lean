import Mathlib.Data.List.Basic

/-!
# Private Sections of a Transport Stream

`SectionReassembler` of `moq-mux/src/container/ts/import.rs` and `Export::write_section` of
`moq-mux/src/container/ts/export.rs`: tables such as SCTE-35 travel in an MPEG transport stream as
sections, cut into packets of 188 bytes. The importer puts the sections together again and the
exporter cuts them.

The exporter leaves the bytes of a packet to a library, which is a parameter (`PacketWriter`): it
is assumed to fill up a packet with an adaptation field.
-/

namespace HermitMoq

/-! ### Packets -/

/-- A packet of a transport stream. -/
abbrev TsPacket := Vector UInt8 188

namespace TsPacket

/-- `transport_error_indicator`. -/
def transportError (p : TsPacket) : Bool :=
  p[1] &&& 0x80 != 0

/-- `payload_unit_start_indicator`. -/
def pusi (p : TsPacket) : Bool :=
  p[1] &&& 0x40 != 0

/-- `adaptation_field_control`. -/
def afc (p : TsPacket) : UInt8 :=
  (p[3] >>> 4) &&& 0x3

/-- `continuity_counter`. -/
def cc (p : TsPacket) : UInt8 :=
  p[3] &&& 0x0f

def hasPayload (p : TsPacket) : Bool :=
  p.afc &&& 0x1 != 0

def hasAdaptation (p : TsPacket) : Bool :=
  p.afc &&& 0x2 != 0

/-- `discontinuity_indicator` of the adaptation field, if there is one. -/
def discontinuity (p : TsPacket) : Bool :=
  p.hasAdaptation && decide (0 < p[4].toNat) && p[5] &&& 0x80 != 0

/-- Where the payload begins: after the header and the adaptation field. -/
def payloadOffset (p : TsPacket) : ℕ :=
  if p.hasAdaptation then 5 + p[4].toNat else 4

def payload (p : TsPacket) : List UInt8 :=
  p.toList.drop p.payloadOffset

end TsPacket

/-! ### The importer -/

/-- `section_length` of a section with a complete header. -/
def sectionLength (s : List UInt8) : ℕ :=
  (s.getD 1 0 &&& 0x0f).toNat <<< 8 ||| (s.getD 2 0).toNat

/-- `SectionReassembler::drain`: the complete sections at the beginning of the buffer, and what is
left. -/
def drain (acc : List UInt8) : List (List UInt8) × List UInt8 :=
  if acc = [] then ([], [])
  -- a table id of 0xff is stuffing up to the end of the packet
  else if acc.head? = some 0xff then ([], [])
  else if acc.length < 3 then ([], acc)
  else if 4093 < sectionLength acc then ([], [])
  else if acc.length < 3 + sectionLength acc then ([], acc)
  else
    let next := drain (acc.drop (3 + sectionLength acc))
    (acc.take (3 + sectionLength acc) :: next.1, next.2)
termination_by acc.length
decreasing_by
  rw [List.length_drop]
  omega

/-- `SectionReassembler`. -/
structure SectionReassembler where
  acc : List UInt8
  lastCc : Option UInt8
  lastPkt : Option TsPacket
deriving DecidableEq, Repr

namespace SectionReassembler

/-- `SectionReassembler::default`. -/
def default : SectionReassembler where
  acc := []
  lastCc := none
  lastPkt := none

/-- The end of `SectionReassembler::push`: what becomes of the bytes in progress with a payload. -/
def absorb (acc : List UInt8) (pusi : Bool) : List UInt8 → List (List UInt8) × List UInt8
  | [] => ([], acc)
  | b :: body =>
    if pusi then
      -- the first byte points to the first section that begins here
      if body.length < b.toNat then ([], [])
      else
        let tail := if acc = [] then [] else (drain (acc ++ body.take b.toNat)).1
        let next := drain (body.drop b.toNat)
        (tail ++ next.1, next.2)
    else if acc = [] then ([], [])
    else drain (acc ++ b :: body)

/-- Whether the counter of a packet does not follow the last one. -/
def ccGap (s : SectionReassembler) (p : TsPacket) : Bool :=
  match s.lastCc with
  | some last => p.cc != (last + 1) &&& 0x0f
  | none => false

/-- `SectionReassembler::push`: the sections a packet completes, and the state after it. -/
def push (s : SectionReassembler) (p : TsPacket) : List (List UInt8) × SectionReassembler :=
  if p.transportError then ([], default)
  else if p.hasPayload = false then
    if p.discontinuity then ([], default) else ([], s)
  else if s.lastPkt = some p then ([], s)
  else
    let acc := if p.discontinuity || s.ccGap p then [] else s.acc
    let absorbed := absorb acc p.pusi p.payload
    (absorbed.1, ⟨absorbed.2, some p.cc, some p⟩)

/-- All sections that packets complete, and the state after them. -/
def feed (s : SectionReassembler) : List TsPacket → List (List UInt8) × SectionReassembler
  | [] => ([], s)
  | p :: ps => ((s.push p).1 ++ (feed (s.push p).2 ps).1, (feed (s.push p).2 ps).2)

end SectionReassembler

/-! ### The exporter -/

/-- `is_complete_section`. -/
def isCompleteSection (s : List UInt8) : Bool :=
  decide (3 ≤ s.length) && decide (s.length = 3 + sectionLength s)

/-- `TsPayload`, as far as sections use it. -/
inductive TsPayload where
  | tsSection (pointerField : UInt8) (data : List UInt8)
  | raw (data : List UInt8)
deriving DecidableEq, Repr

namespace TsPayload

/-- `TsBytes::MAX_SIZE`. -/
def maxSize : ℕ := 184

def data : TsPayload → List UInt8
  | tsSection _ data => data
  | raw data => data

/-- Only a section starts a unit. -/
def starts : TsPayload → Bool
  | tsSection _ _ => true
  | raw _ => false

/-- The bytes of a payload in its packet. -/
def bytes : TsPayload → List UInt8
  | tsSection pointerField data => pointerField :: data
  | raw data => data

/-- The chunks of `Export::write_section` after the first. -/
def continuations (rest : List UInt8) : List TsPayload :=
  if rest = [] then []
  else raw (rest.take maxSize) :: continuations (rest.drop maxSize)
termination_by rest.length
decreasing_by
  rename_i h
  rw [List.length_drop]
  have := List.length_pos_iff.mpr h
  have : maxSize = 184 := rfl
  omega

/-- The chunks of `Export::write_section`; the pointer field takes one byte of the first. -/
def ofSection (s : List UInt8) : List TsPayload :=
  tsSection 0 (s.take (maxSize - 1)) :: continuations (s.drop (maxSize - 1))

end TsPayload

/-- What a packet has to be like to carry bytes under a counter: it is not marked as corrupt or as
following a discontinuity. -/
structure TsPacket.Carries (p : TsPacket) (counter : Fin 16) (starts : Bool)
    (bytes : List UInt8) : Prop where
  transportError : p.transportError = false
  hasPayload : p.hasPayload = true
  discontinuity : p.discontinuity = false
  cc : p.cc.toNat = counter.val
  pusi : p.pusi = starts
  payload : p.payload = bytes

/-- `TsPacketWriter` of the library: what fits a packet is carried by the packet it writes. -/
structure PacketWriter where
  write : Fin 8192 → Fin 16 → TsPayload → TsPacket
  carries : ∀ (pid : Fin 8192) (counter : Fin 16) (payload : TsPayload), payload.bytes ≠ [] →
    payload.bytes.length ≤ TsPayload.maxSize →
    TsPacket.Carries (write pid counter payload) counter payload.starts payload.bytes

/-- `Export`, as far as sections use it: the counter of each PID. -/
structure Export where
  counters : Fin 8192 → Fin 16

namespace Export

variable (w : PacketWriter)

/-- `Export::write_packet`, after `TsBytes::new`, which refuses what is too long. -/
def writePacket (e : Export) (pid : Fin 8192) (payload : TsPayload) :
    Option (TsPacket × Export) :=
  if payload.data.length ≤ TsPayload.maxSize then
    some (w.write pid (e.counters pid) payload,
      ⟨Function.update e.counters pid (e.counters pid + 1)⟩)
  else none

/-- The loop of `Export::write_section`. -/
def writePackets (e : Export) (pid : Fin 8192) :
    List TsPayload → Option (List TsPacket × Export)
  | [] => some ([], e)
  | payload :: payloads => do
    let (p, e) ← e.writePacket w pid payload
    let (ps, e) ← e.writePackets pid payloads
    return (p :: ps, e)

/-- `Export::write_section`; what is not a complete section is dropped. -/
def writeSection (e : Export) (pid : Fin 8192) (s : List UInt8) :
    Option (List TsPacket × Export) :=
  if isCompleteSection s then e.writePackets w pid (TsPayload.ofSection s) else some ([], e)

/-- `Export::write_section` for each section. -/
def writeSections (e : Export) (pid : Fin 8192) :
    List (List UInt8) → Option (List TsPacket × Export)
  | [] => some ([], e)
  | s :: ss => do
    let (ps, e) ← e.writeSection w pid s
    let (qs, e) ← e.writeSections pid ss
    return (ps ++ qs, e)

end Export

end HermitMoq
