import HermitMoq.SectionStream
import Mathlib.Data.List.Forall2

/-!
# Sections Cut by the Exporter

The packets of `Export::write_section` are a packetization: a section begins in a packet of its
own, fills packets of 184 bytes and ends in one without stuffing, which the library fills up with
an adaptation field. So the importer puts together what the exporter cuts.
-/

namespace HermitMoq

open List TsPayload Transfer TsPacket Option

/-! ### The units of a section -/

variable {units : List SectionUnit} {ss : List (List UInt8)} {payload : TsPayload}
  {ts : List Transfer}

namespace SectionUnit

/-- The units of the rest of a section. -/
def ofRest (rest : List UInt8) : List SectionUnit :=
  if rest.length ≤ TsPayload.maxSize then [.last rest 0]
  else .middle (rest.take TsPayload.maxSize) :: ofRest (rest.drop TsPayload.maxSize)
termination_by rest.length
decreasing_by
  rename_i h
  rw [List.length_drop]
  have : TsPayload.maxSize = 184 := rfl
  omega

/-- The units of a section. -/
def ofSection (s : List UInt8) : List SectionUnit :=
  if s.length ≤ TsPayload.maxSize - 1 then [.start [] [s] [] 0]
  else .start [] [] (s.take (TsPayload.maxSize - 1)) 0 ::
    ofRest (s.drop (TsPayload.maxSize - 1))

/-- The rest of a section is carried after its beginning. -/
theorem ofRest_spec {part rest : List UInt8} (hpart : part ≠ [])
    (hrest : rest ≠ []) (hs : IsSection (part ++ rest)) (hunits : Conformant [] units) :
    Conformant part (ofRest rest ++ units) ∧
      sections part (ofRest rest ++ units) = (part ++ rest) :: sections [] units := by
  fun_induction ofRest rest generalizing part with
  | case1 rest hle => exact ⟨⟨hpart, hrest, hs, hunits⟩, rfl⟩
  | case2 rest hle ih =>
    have htake : rest.take maxSize ≠ [] := by simp [maxSize, hrest]
    have hdrop : rest.drop maxSize ≠ [] := by simpa using hle
    have hsplit : part ++ rest.take maxSize ++ rest.drop maxSize =
        part ++ rest := by
      rw [append_assoc, take_append_drop]
    obtain ⟨hconformant, hsections⟩ := ih (append_ne_nil_of_left_ne_nil hpart _) hdrop
      (hsplit ▸ hs)
    exact ⟨⟨hpart, htake, hconformant⟩, hsplit ▸ hsections⟩

/-- The units of a section carry it. -/
theorem ofSection_spec {s : List UInt8} (hs : IsSection s) (hunits : Conformant [] units) :
    Conformant [] (ofSection s ++ units) ∧
      sections [] (ofSection s ++ units) = s :: sections [] units := by
  rw [ofSection]
  split_ifs with hle
  · refine ⟨⟨.inl ⟨rfl, rfl⟩, ?_, .inl (cons_ne_nil _ _), .inl rfl, hunits⟩, rfl⟩
    intro r hr
    rwa [mem_singleton.mp hr]
  · have htake : s.take (maxSize - 1) ≠ [] := by
      simp [maxSize, hs.ne_nil]
    have hdrop : s.drop (maxSize - 1) ≠ [] := by simpa using hle
    have hsplit := take_append_drop (maxSize - 1) s
    obtain ⟨hconformant, hsections⟩ := ofRest_spec htake hdrop (hsplit.symm ▸ hs) hunits
    refine ⟨⟨.inl ⟨rfl, rfl⟩, ?_, .inr htake, .inr rfl, hconformant⟩, ?_⟩
    · intro r hr
      exact absurd hr not_mem_nil
    · exact hsections.trans (congrArg (· :: sections [] units) hsplit)

/-- The units of a list of sections carry it. -/
theorem flatMap_ofSection_spec (hss : ∀ s ∈ ss, IsSection s) :
    Conformant [] (ss.flatMap ofSection) ∧ sections [] (ss.flatMap ofSection) = ss := by
  induction ss with
  | nil => exact ⟨rfl, rfl⟩
  | cons s ss ih =>
    obtain ⟨hconformant, hsections⟩ := ih fun r hr => hss r (mem_cons_of_mem s hr)
    obtain ⟨hconformant', hsections'⟩ := ofSection_spec (hss s mem_cons_self) hconformant
    exact ⟨hconformant', hsections'.trans (congrArg (s :: ·) hsections)⟩

end SectionUnit

/-! ### The payloads of a section -/

/-- A payload that fits a packet and carries a unit. -/
structure TsPayload.Fits (payload : TsPayload) (unit : SectionUnit) : Prop where
  starts : payload.starts = unit.starts
  bytes : payload.bytes = unit.bytes
  ne_nil : payload.bytes ≠ []
  length : payload.bytes.length ≤ TsPayload.maxSize

namespace TsPayload

/-- The continuations of a section fit their packets. -/
theorem continuations_fit {rest : List UInt8} (hrest : rest ≠ []) :
    List.Forall₂ Fits (continuations rest) (SectionUnit.ofRest rest) := by
  fun_induction SectionUnit.ofRest rest with
  | case1 rest hle =>
    have hnil : rest.drop maxSize = [] := drop_eq_nil_of_le hle
    rw [continuations, if_neg hrest, hnil, continuations, if_pos rfl, take_of_length_le hle]
    refine .cons ⟨rfl, ?_, hrest, hle⟩ .nil
    rw [SectionUnit.bytes, replicate_zero, append_nil, bytes]
  | case2 rest hle ih =>
    have hdrop : rest.drop maxSize ≠ [] := by simpa using hle
    rw [continuations, if_neg hrest]
    refine .cons ⟨rfl, rfl, ?_, ?_⟩ (ih hdrop)
    · simp [bytes, maxSize, hrest]
    · exact length_take_le _ _

/-- The chunks of a section carry its units. -/
theorem ofSection_fits (s : List UInt8) :
    List.Forall₂ Fits (ofSection s) (SectionUnit.ofSection s) := by
  have hlength : ∀ l : List UInt8, l.length ≤ maxSize - 1 → (0 :: l).length ≤ maxSize :=
    fun l hl => Nat.succ_le_of_lt (Nat.lt_of_le_of_lt hl (by decide))
  rw [ofSection, SectionUnit.ofSection]
  split_ifs with hle
  · have hnil : s.drop (maxSize - 1) = [] := drop_eq_nil_of_le hle
    rw [hnil, continuations, if_pos rfl, take_of_length_le hle]
    refine .cons ⟨rfl, ?_, cons_ne_nil _ _, hlength s hle⟩ .nil
    simp [SectionUnit.bytes, bytes]
  · have hdrop : s.drop (maxSize - 1) ≠ [] := by simpa using hle
    refine .cons ⟨rfl, ?_, cons_ne_nil _ _, hlength _ (length_take_le _ _)⟩
      (continuations_fit hdrop)
    simp [SectionUnit.bytes, bytes]

end TsPayload

/-! ### Writing -/

namespace Export

variable (w : PacketWriter) (pid : Fin 8192)

/-- Payloads are written one after the other. -/
theorem writePackets_append (e : Export) (payloads more : List TsPayload) :
    e.writePackets w pid (payloads ++ more) = (do
      let (ps, e) ← e.writePackets w pid payloads
      let (qs, e) ← e.writePackets w pid more
      return (ps ++ qs, e)) := by
  induction payloads generalizing e with
  | nil =>
    simp only [nil_append, writePackets, bind_eq_bind, bind_some]
    cases e.writePackets w pid more <;> rfl
  | cons payload payloads ih =>
    simp only [cons_append, writePackets, bind_eq_bind, bind_assoc,
      Option.pure_def, Option.bind_some, ih]

/-- Sections that are complete are written as their chunks. -/
theorem writeSections_eq (hss : ∀ s ∈ ss, IsSection s) (e : Export) :
    e.writeSections w pid ss = e.writePackets w pid (ss.flatMap TsPayload.ofSection) := by
  induction ss generalizing e with
  | nil => rfl
  | cons s ss ih =>
    have hs := hss s mem_cons_self
    have hcomplete : isCompleteSection s = true := by
      rw [isCompleteSection, decide_eq_true hs.header, decide_eq_true hs.length]
      rfl
    have hrest (e : Export) := ih (fun r hr => hss r (mem_cons_of_mem s hr)) e
    rw [flatMap_cons, writePackets_append, writeSections, writeSection, if_pos hcomplete]
    simp only [hrest]

/-- Payloads that fit are written, and sent under consecutive counters. -/
theorem writePackets_sent {payloads : List TsPayload}
    (h : List.Forall₂ TsPayload.Fits payloads units) (e : Export) :
    ∃ (ts : List Transfer) (e' : Export),
      e.writePackets w pid payloads = some (ts.map Transfer.packet, e') ∧
        ts.map Transfer.unit = units ∧ (∀ t ∈ ts, t.copies = 1) ∧
        Transfer.Sent (e.counters pid) ts := by
  induction h generalizing e with
  | nil => exact ⟨[], e, rfl, rfl, by simp, trivial⟩
  | @cons payload unit payloads units hfits _ ih =>
    obtain ⟨ts, e', hwritten, hunits, hcopies, hsent⟩ :=
      ih ⟨Function.update e.counters pid (e.counters pid + 1)⟩
    have hdata : payload.data.length ≤ maxSize := by
      refine Nat.le_trans ?_ hfits.length
      cases payload with
      | tsSection pointerField data => exact Nat.le_succ _
      | raw data => exact Nat.le_refl _
    refine ⟨⟨w.write pid (e.counters pid) payload, unit, 1⟩ :: ts, e', ?_, ?_, ?_, ?_, ?_⟩
    · rw [writePackets, writePacket, if_pos hdata]
      simp only [bind_eq_bind, bind_some, hwritten]
      rfl
    · rw [map_cons, hunits]
    · exact forall_mem_cons.mpr ⟨rfl, hcopies⟩
    · have hcarries := w.carries pid (e.counters pid) payload hfits.ne_nil hfits.length
      rwa [hfits.starts, hfits.bytes] at hcarries
    · simpa only [Function.update_self] using hsent

end Export

/-- If each packet arrives once, what arrives is what was sent. -/
theorem Transfer.arrives_once (hcopies : ∀ t ∈ ts, t.copies = 1) :
    Arrives ts (ts.map Transfer.packet) := by
  induction ts with
  | nil => exact .nil
  | cons t ts ih =>
    have harrives := Arrives.packet t (ih fun r hr => hcopies r (mem_cons_of_mem t hr))
    rwa [hcopies t mem_cons_self] at harrives

theorem Transfer.lossesNoticed_once (hcopies : ∀ t ∈ ts, t.copies = 1) :
    LossesNoticed 0 ts := by
  induction ts with
  | nil => exact .inl rfl
  | cons t ts ih =>
    have hne : t.copies ≠ 0 := hcopies t mem_cons_self ▸ Nat.one_ne_zero
    rw [LossesNoticed, if_neg hne]
    exact ⟨.inl rfl, ih fun r hr => hcopies r (mem_cons_of_mem t hr)⟩

/-- What the exporter cuts, the importer puts together. -/
theorem Export.feed_writeSections (w : PacketWriter) (e : Export) (pid : Fin 8192)
    (hss : ∀ s ∈ ss, IsSection s) :
    ∃ ps e', e.writeSections w pid ss = some (ps, e') ∧
      (SectionReassembler.default.feed ps).1 = ss := by
  have hfits : List.Forall₂ TsPayload.Fits (ss.flatMap ofSection)
      (ss.flatMap SectionUnit.ofSection) := by
    clear hss
    induction ss with
    | nil => exact .nil
    | cons s ss ih => exact rel_append (ofSection_fits s) ih
  obtain ⟨hconformant, hsections⟩ := SectionUnit.flatMap_ofSection_spec hss
  obtain ⟨ts, e', hwritten, hunits, hcopies, hsent⟩ := writePackets_sent w pid hfits e
  have hsurvive : ∀ t ∈ ts, t.copies ≠ 0 := fun t ht => hcopies t ht ▸ Nat.one_ne_zero
  refine ⟨ts.map packet, e', (writeSections_eq w pid hss e).trans hwritten, ?_⟩
  have hfeed := feed_eq (arrives_once hcopies) hsent (hunits.symm ▸ hconformant)
    (lossesNoticed_once hcopies) (synced_default (e.counters pid))
  have hintact := intact_eq_sections hsurvive
  rw [hunits, hsections] at hintact
  exact hfeed.trans hintact

/-! ### A writer -/

namespace PacketWriter

variable (pid : Fin 8192) (counter : Fin 16)

/-- An adaptation field of some length, without any flags. -/
def adaptation : ℕ → List UInt8
  | 0 => []
  | 1 => [0]
  | n + 2 => UInt8.ofNat (n + 1) :: 0 :: List.replicate n 0xff

theorem length_adaptation (n : ℕ) : (adaptation n).length = n := by
  rcases n with _ | _ | n
  · rfl
  · rfl
  · rw [adaptation, length_cons, length_cons, length_replicate]

/-- The second byte of a packet. -/
def flags (pid : Fin 8192) (starts : Bool) : UInt8 :=
  (if starts then 0x40 else 0) ||| UInt8.ofNat (pid.val / 256)

/-- The fourth byte of a packet. -/
def control (counter : Fin 16) (adapted : Bool) : UInt8 :=
  (if adapted then 0x30 else 0x10) ||| UInt8.ofNat counter.val

/-- The bytes of a packet, filled up to 188. -/
def packetBytes (pid : Fin 8192) (counter : Fin 16) (payload : TsPayload) : List UInt8 :=
  0x47 :: flags pid payload.starts :: UInt8.ofNat pid.val ::
    control counter (decide (payload.bytes.length < 184)) ::
    (adaptation (184 - payload.bytes.length) ++ payload.bytes)

theorem length_packetBytes
    (h : payload.bytes.length ≤ 184) : (packetBytes pid counter payload).length = 188 := by
  simp only [packetBytes, length_cons, length_append, length_adaptation]
  omega

/-- The flags of a packet are read back. -/
theorem flags_bits (starts : Bool) :
    (flags pid starts &&& 0x80 != 0) = false ∧ (flags pid starts &&& 0x40 != 0) = starts := by
  have hall : ∀ n < 32, ∀ starts : Bool,
      (((if starts then 0x40 else 0) ||| UInt8.ofNat n) &&& 0x80 != 0) = false ∧
        (((if starts then 0x40 else 0) ||| UInt8.ofNat n) &&& 0x40 != 0) = starts := by
    decide
  exact hall (pid.val / 256) (by omega) starts

theorem control_bits (adapted : Bool) :
    (control counter adapted &&& 0x0f).toNat = counter.val ∧
      ((control counter adapted >>> 4 &&& 0x3) &&& 0x1 != 0) = true ∧
      ((control counter adapted >>> 4 &&& 0x3) &&& 0x2 != 0) = adapted := by
  revert counter adapted
  decide

/-- What a writer writes that fills up packets with an adaptation field. -/
def pad (pid : Fin 8192) (counter : Fin 16) (payload : TsPayload) : TsPacket :=
  if h : payload.bytes.length ≤ 184 then
    ⟨(packetBytes pid counter payload).toArray, length_packetBytes pid counter h⟩
  else Vector.replicate 188 0

section

variable (hle : payload.bytes.length ≤ 184)

include hle

theorem toList_pad : (pad pid counter payload).toList = packetBytes pid counter payload := by
  rw [pad, dif_pos hle]
  rfl

theorem pad_flags : (pad pid counter payload)[1] = flags pid payload.starts := by
  simp [pad, hle, packetBytes]

theorem pad_control :
    (pad pid counter payload)[3] = control counter (decide (payload.bytes.length < 184)) := by
  simp [pad, hle, packetBytes]

theorem hasAdaptation_pad :
    (pad pid counter payload).hasAdaptation = decide (payload.bytes.length < 184) := by
  rw [hasAdaptation, afc, pad_control pid counter hle,
    (control_bits counter _).2.2]

/-- The adaptation field takes the bytes that the payload leaves. -/
theorem pad_adaptation :
    (pad pid counter payload).discontinuity = false ∧
      (pad pid counter payload).payloadOffset = 4 + (184 - payload.bytes.length) := by
  rw [discontinuity, payloadOffset, hasAdaptation_pad pid counter hle]
  -- the field is missing, has no flags, or has flags and stuffing
  rcases hfill : 184 - payload.bytes.length with _ | _ | n
  · have hfull : ¬ payload.bytes.length < 184 := by omega
    simp [hfull]
  · have hless : payload.bytes.length < 184 := by omega
    have h4 : (pad pid counter payload)[4] = 0 := by
      simp [pad, hle, packetBytes, hfill, adaptation]
    simp [hless, h4]
  · have hless : payload.bytes.length < 184 := by omega
    have h4 : (pad pid counter payload)[4] = UInt8.ofNat (n + 1) := by
      simp [pad, hle, packetBytes, hfill, adaptation]
    have h5 : (pad pid counter payload)[5] = 0 := by
      simp [pad, hle, packetBytes, hfill, adaptation]
    have hn : (UInt8.ofNat (n + 1)).toNat = n + 1 := by
      rw [UInt8.toNat_ofNat', Nat.mod_eq_of_lt (by omega)]
    refine ⟨by simp [h5], ?_⟩
    rw [decide_eq_true hless, if_pos rfl, h4, hn]
    omega

end

/-- The packets of this writer carry what they are written with. -/
theorem pad_carries (hle : payload.bytes.length ≤ 184) :
    TsPacket.Carries (pad pid counter payload) counter payload.starts payload.bytes := by
  obtain ⟨herror, hpusi⟩ := flags_bits pid payload.starts
  obtain ⟨hcc, hpayload, _⟩ := control_bits counter (decide (payload.bytes.length < 184))
  obtain ⟨hdiscontinuity, hoffset⟩ := pad_adaptation pid counter hle
  refine ⟨?_, ?_, hdiscontinuity, ?_, ?_, ?_⟩
  · rw [transportError, pad_flags pid counter hle, herror]
  · rw [hasPayload, afc, pad_control pid counter hle, hpayload]
  · rw [cc, pad_control pid counter hle, hcc]
  · rw [pusi, pad_flags pid counter hle, hpusi]
  · rw [TsPacket.payload, hoffset, toList_pad pid counter hle, Nat.add_comm]
    exact drop_left' (length_adaptation _)

/-- The writer that fills up packets with an adaptation field. -/
def padding : PacketWriter where
  write := pad
  carries pid counter _ _ hlength := pad_carries pid counter hlength

end PacketWriter

/-! ### Sections on their way -/

/-- **What the exporter cuts, the importer puts together**; and of any packetization of which
packets are repeated, or lost in runs that the counter reveals, it puts together exactly the
sections all of whose packets arrive. -/
theorem section_stream (w : PacketWriter) :
    (∀ (e : Export) (pid : Fin 8192) (ss : List (List UInt8)), (∀ s ∈ ss, IsSection s) →
      ∃ ps e', e.writeSections w pid ss = some (ps, e') ∧
        (SectionReassembler.default.feed ps).1 = ss) ∧
    ∀ (ss : List (List UInt8)) (counter : Fin 16) (ts : List Transfer) (ps : List TsPacket),
      SectionUnit.Conformant [] (ts.map Transfer.unit) →
      SectionUnit.sections [] (ts.map Transfer.unit) = ss →
      Transfer.Sent counter ts → Transfer.LossesNoticed 0 ts → Transfer.Arrives ts ps →
      (SectionReassembler.default.feed ps).1.Sublist ss ∧
        (SectionReassembler.default.feed ps).1 = Transfer.intact ts := by
  constructor
  · intro e pid ss hss
    exact e.feed_writeSections w pid hss
  · rintro ss counter ts ps hconformant rfl hsent hnoticed harrives
    have hfeed : (SectionReassembler.default.feed ps).1 = intact ts :=
      feed_eq harrives hsent hconformant hnoticed (synced_default counter)
    exact ⟨hfeed ▸ intact_sublist, hfeed⟩

/-- A section of one byte. -/
def cue (b : UInt8) : List UInt8 := [0xfc, 0, 1, b]

/-- A packet with such a section. -/
def cueTransfer (counter : Fin 16) (b : UInt8) (copies : ℕ) : Transfer where
  packet := PacketWriter.pad 500 counter (.tsSection 0 (cue b))
  unit := .start [] [cue b] [] 0
  copies := copies

theorem cueTransfer_carries (counter : Fin 16) (b : UInt8) (copies : ℕ) :
    (cueTransfer counter b copies).packet.Carries counter
      (cueTransfer counter b copies).unit.starts (cueTransfer counter b copies).unit.bytes := by
  have hle : (TsPayload.tsSection 0 (cue b)).bytes.length ≤ 184 := by simp [TsPayload.bytes, cue]
  exact PacketWriter.pad_carries 500 counter hle

/-- Of three sections the first arrives twice, the second not at all, and the third once. -/
theorem section_stream_cues :
    (∃ ps e', Export.writeSections PacketWriter.padding ⟨fun _ => 0⟩ 500 [cue 1, cue 2] =
        some (ps, e') ∧ (SectionReassembler.default.feed ps).1 = [cue 1, cue 2]) ∧
      (SectionReassembler.default.feed [(cueTransfer 0 1 2).packet, (cueTransfer 0 1 2).packet,
        (cueTransfer 2 3 1).packet]).1 = [cue 1, cue 3] := by
  obtain ⟨hexport, himport⟩ := section_stream PacketWriter.padding
  refine ⟨hexport _ _ _ (by decide), ?_⟩
  have harrives := Transfer.Arrives.nil |>.packet (cueTransfer 2 3 1) |>.packet (cueTransfer 1 2 0)
    |>.packet (cueTransfer 0 1 2)
  have hcue : ∀ s ∈ [cue 1, cue 2, cue 3], IsSection s := by decide
  have hwhole (b : UInt8) (hb : cue b ∈ [cue 1, cue 2, cue 3]) : ∀ s ∈ [cue b], IsSection s :=
    fun s hs => mem_singleton.mp hs ▸ hcue (cue b) hb
  have hne (b : UInt8) : [cue b] ≠ [] ∨ [] ≠ ([] : List UInt8) := .inl (cons_ne_nil _ _)
  refine (himport _ 0 _ _ ?_ rfl ?_ ?_ harrives).2
  · exact ⟨.inl ⟨rfl, rfl⟩, hwhole 1 (by decide), hne 1, .inl rfl,
      .inl ⟨rfl, rfl⟩, hwhole 2 (by decide), hne 2, .inl rfl,
      .inl ⟨rfl, rfl⟩, hwhole 3 (by decide), hne 3, .inl rfl, rfl⟩
  · exact ⟨cueTransfer_carries 0 1 2, cueTransfer_carries 1 2 0, cueTransfer_carries 2 3 1, trivial⟩
  · exact ⟨.inl rfl, .inr ⟨by decide, by decide⟩, .inl rfl⟩

/-- The first packet of a section completes none. -/
theorem push_of_head {p : TsPacket} {part rest : List UInt8} (counter : Fin 16)
    (hcarries : p.Carries counter true (0 :: part)) (hpart : part ≠ []) (hrest : rest ≠ [])
    (hs : IsSection (part ++ rest)) : (SectionReassembler.default.push p).1 = [] := by
  have hnew : SectionReassembler.default.lastPkt ≠ some p := (Option.some_ne_none p).symm
  rw [SectionReassembler.push, hcarries.transportError, hcarries.hasPayload, hcarries.pusi,
    hcarries.payload, if_neg Bool.false_ne_true, if_neg (by decide), if_neg hnew]
  simp only [SectionReassembler.absorb, SectionReassembler.default, if_true]
  simp [drain_part hpart hrest hs]

/-- A packet with the discontinuity indicator in which no section begins completes none. -/
theorem push_of_discontinuity {s : SectionReassembler} {p : TsPacket}
    (hdiscontinuity : p.discontinuity = true) (hpusi : p.pusi = false) : (s.push p).1 = [] := by
  rw [SectionReassembler.push, hdiscontinuity, hpusi, Bool.true_or]
  simp only [if_true]
  split_ifs
  · rfl
  · rfl
  · rfl
  · cases p.payload <;> rfl

/-- A section that does not fit into one packet. -/
def longCue : List UInt8 := 0xfc :: 0 :: 197 :: List.replicate 197 7

/-- The packet with its beginning. -/
def longCueHead (counter : Fin 16) : TsPacket :=
  PacketWriter.pad 500 counter (.tsSection 0 (longCue.take 183))

/-- The packet with its end, marked as following a discontinuity. -/
def longCueTail (counter : Fin 16) : TsPacket :=
  (PacketWriter.pad 500 counter (.raw (longCue.drop 183))).setIfInBounds 5 0x80

/-- **A discontinuity loses the section in progress.** A section of 200 bytes is cut into two
packets with consecutive counters, and both arrive, but the second has the discontinuity
indicator. -/
theorem section_lost_at_discontinuity :
    IsSection longCue ∧
      SectionUnit.Conformant []
        [.start [] [] (longCue.take 183) 0, .last (longCue.drop 183) 0] ∧
      (longCueHead 0).Carries 0 true (0 :: longCue.take 183) ∧
      ((longCueTail 1).transportError, (longCueTail 1).hasPayload, (longCueTail 1).cc,
        (longCueTail 1).pusi, (longCueTail 1).payload) =
          (false, true, 1, false, longCue.drop 183) ∧
      (longCueTail 1).discontinuity = true ∧
      (SectionReassembler.default.feed [longCueHead 0, longCueTail 1]).1 = [] := by
  have hsection : IsSection longCue := by decide +kernel
  have hhead : longCue.take 183 ≠ [] := by decide +kernel
  have htail : longCue.drop 183 ≠ [] := by decide +kernel
  have hwhole : IsSection (longCue.take 183 ++ longCue.drop 183) := by
    rw [take_append_drop]
    exact hsection
  have hcarries : (longCueHead 0).Carries 0 true (0 :: longCue.take 183) :=
    PacketWriter.pad_carries 500 0 (by decide +kernel)
  have hmarked : ((longCueTail 1).transportError, (longCueTail 1).hasPayload, (longCueTail 1).cc,
      (longCueTail 1).pusi, (longCueTail 1).payload) =
        (false, true, 1, false, longCue.drop 183) := by
    decide +kernel
  have hdiscontinuity : (longCueTail 1).discontinuity = true := by decide +kernel
  refine ⟨hsection, ?_, hcarries, hmarked, hdiscontinuity, ?_⟩
  · exact ⟨.inl ⟨rfl, rfl⟩, nofun, .inr hhead, .inr rfl, hhead, htail, hwhole, rfl⟩
  · have hpusi : (longCueTail 1).pusi = false := by decide +kernel
    rw [SectionReassembler.feed, SectionReassembler.feed, SectionReassembler.feed,
      push_of_head 0 hcarries hhead htail hwhole, push_of_discontinuity hdiscontinuity hpusi]
    rfl

end HermitMoq
