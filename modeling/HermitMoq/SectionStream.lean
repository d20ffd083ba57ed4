import HermitMoq.Sections
import Mathlib.Data.List.GetD

/-!
# Sections Put Together Again

What arrives of a list of sections after it has been cut into packets, of which some are repeated
and some are lost. A packetization is given by what each packet carries: bytes from the middle of
a section, the end of one, or the end of one, whole ones and the beginning of another. A section
is put together exactly when all packets that carry bytes of it arrive.
-/

namespace HermitMoq

open List SectionReassembler

/-! ### Sections -/

/-- A complete section: it is no stuffing, and it has the length that it declares, of at most 4093
bytes after the header. -/
structure IsSection (s : List UInt8) : Prop where
  tableId : s.head? ≠ some 0xff
  header : 3 ≤ s.length
  length : s.length = 3 + sectionLength s
  bound : sectionLength s ≤ 4093

instance (s : List UInt8) : Decidable (IsSection s) :=
  decidable_of_iff (s.head? ≠ some 0xff ∧ 3 ≤ s.length ∧ s.length = 3 + sectionLength s ∧
    sectionLength s ≤ 4093)
    ⟨fun h => ⟨h.1, h.2.1, h.2.2.1, h.2.2.2⟩,
      fun h => ⟨h.tableId, h.header, h.length, h.bound⟩⟩

section

variable {s : List UInt8}

theorem IsSection.ne_nil (hs : IsSection s) : s ≠ [] := by
  intro hnil
  have hheader := hs.header
  rw [hnil] at hheader
  exact absurd hheader (by decide)

/-- Length and table are read from the header. -/
theorem sectionLength_append (hs : 3 ≤ s.length) (t : List UInt8) :
    sectionLength (s ++ t) = sectionLength s := by
  have h1 : (s ++ t).getD 1 0 = s.getD 1 0 := getD_append s t 0 1 (by omega)
  have h2 : (s ++ t).getD 2 0 = s.getD 2 0 := getD_append s t 0 2 (by omega)
  rw [sectionLength, sectionLength, h1, h2]

/-! ### The buffer -/

theorem drain_nil : drain [] = ([], []) := by
  rw [drain, if_pos rfl]

/-- Stuffing is dropped. -/
theorem drain_stuffing (n : ℕ) : drain (List.replicate n 0xff) = ([], []) := by
  cases n with
  | zero => exact drain_nil
  | succ n => rw [drain, if_neg (by simp), if_pos (by simp [replicate_succ])]

/-- A whole section is taken from the buffer. -/
theorem drain_append (hs : IsSection s) (t : List UInt8) :
    drain (s ++ t) = (s :: (drain t).1, (drain t).2) := by
  have hlength : sectionLength (s ++ t) = sectionLength s := sectionLength_append hs.header t
  have htotal : 3 + sectionLength (s ++ t) = s.length := by rw [hlength, hs.length]
  have hle : s.length ≤ (s ++ t).length := by simp
  have htable : (s ++ t).head? ≠ some 0xff := head?_append_of_ne_nil s hs.ne_nil ▸ hs.tableId
  rw [drain, if_neg (by simp [hs.ne_nil]), if_neg htable, if_neg (by omega),
    if_neg (Nat.not_lt.mpr (hlength ▸ hs.bound)), htotal, if_neg (Nat.not_lt.mpr hle)]
  simp

end

/-- Whole sections are taken from the buffer one by one. -/
theorem drain_flatten {ss : List (List UInt8)} (hss : ∀ s ∈ ss, IsSection s) (t : List UInt8) :
    drain (ss.flatten ++ t) = (ss ++ (drain t).1, (drain t).2) := by
  induction ss with
  | nil => rfl
  | cons s ss ih =>
    rw [flatten_cons, append_assoc, drain_append (hss s mem_cons_self),
      ih fun r hr => hss r (mem_cons_of_mem s hr)]
    rfl

/-- A part of a section waits for the rest. -/
theorem drain_part {part rest : List UInt8} (hpart : part ≠ []) (hrest : rest ≠ [])
    (hs : IsSection (part ++ rest)) : drain part = ([], part) := by
  have hpos := length_pos_iff.mpr hrest
  have htable : part.head? ≠ some 0xff := head?_append_of_ne_nil part hpart ▸ hs.tableId
  rw [drain, if_neg hpart, if_neg htable]
  by_cases hheader : part.length < 3
  · rw [if_pos hheader]
  · have hlength : sectionLength (part ++ rest) = sectionLength part :=
      sectionLength_append (Nat.not_lt.mp hheader) rest
    have htotal := hs.length
    rw [hlength, length_append] at htotal
    rw [if_neg hheader, if_neg (Nat.not_lt.mpr (hlength ▸ hs.bound)), if_pos (by omega)]

theorem absorb_continue {acc payload : List UInt8} (hne : payload ≠ []) :
    SectionReassembler.absorb acc false payload =
      if acc = [] then ([], []) else drain (acc ++ payload) := by
  obtain ⟨_, _, rfl⟩ := exists_cons_of_ne_nil hne
  rfl

theorem absorb_start {acc tail body : List UInt8} (htail : tail.length < 256) :
    SectionReassembler.absorb acc true (UInt8.ofNat tail.length :: (tail ++ body)) =
      ((if acc = [] then [] else (drain (acc ++ tail)).1) ++ (drain body).1, (drain body).2) := by
  have hpointer : (UInt8.ofNat tail.length).toNat = tail.length := by
    rw [UInt8.toNat_ofNat', Nat.mod_eq_of_lt htail]
  have hle : ¬ (tail ++ body).length < tail.length := by simp
  rw [absorb, if_pos rfl, hpointer, if_neg hle, take_left, drop_left]

/-! ### Packetizations -/

/-- What a packet with payload carries. -/
inductive SectionUnit where
  /-- bytes from the middle of a section -/
  | middle (chunk : List UInt8)
  /-- the last bytes of a section, and stuffing -/
  | last (tail : List UInt8) (stuffing : ℕ)
  /-- the last bytes of the section in progress, sections that begin and end here, and the first
  bytes of another or stuffing -/
  | start (tail : List UInt8) (whole : List (List UInt8)) (head : List UInt8) (stuffing : ℕ)

namespace SectionUnit

/-- Whether a section begins in the packet. -/
def starts : SectionUnit → Bool
  | middle _ => false
  | last _ _ => false
  | start _ _ _ _ => true

/-- The payload; if a section begins in it, the first byte tells where. -/
def bytes : SectionUnit → List UInt8
  | middle chunk => chunk
  | last tail stuffing => tail ++ List.replicate stuffing 0xff
  | start tail whole head stuffing =>
    UInt8.ofNat tail.length ::
      (tail ++ (whole.flatten ++ (head ++ List.replicate stuffing 0xff)))

/-- The units of a packetization, after the beginning of a section that is still in progress.
Stuffing follows the end of a section only, up to the end of the packet. -/
def Conformant : List UInt8 → List SectionUnit → Prop
  | part, [] => part = []
  | part, middle chunk :: units =>
    part ≠ [] ∧ chunk ≠ [] ∧ Conformant (part ++ chunk) units
  | part, last tail _ :: units =>
    part ≠ [] ∧ tail ≠ [] ∧ IsSection (part ++ tail) ∧ Conformant [] units
  | part, start tail whole head stuffing :: units =>
    (part = [] ∧ tail = [] ∨ part ≠ [] ∧ tail ≠ [] ∧ IsSection (part ++ tail)) ∧
      (∀ s ∈ whole, IsSection s) ∧ (whole ≠ [] ∨ head ≠ []) ∧ (head = [] ∨ stuffing = 0) ∧
      Conformant head units

/-- The sections that end in a packet, after the beginning of one. -/
def ended (part : List UInt8) : SectionUnit → List (List UInt8)
  | middle _ => []
  | last tail _ => [part ++ tail]
  | start tail whole _ _ => (if part = [] then [] else [part ++ tail]) ++ whole

/-- The beginning of the section that is in progress after a packet. -/
def next (part : List UInt8) : SectionUnit → List UInt8
  | middle chunk => part ++ chunk
  | last _ _ => []
  | start _ _ head _ => head

/-- The sections of a packetization, after the beginning of one. -/
def sections : List UInt8 → List SectionUnit → List (List UInt8)
  | _, [] => []
  | part, unit :: units => unit.ended part ++ sections (unit.next part) units

variable {units : List SectionUnit} {part : List UInt8}

/-- The packets after the first go on with the section in progress. -/
theorem Conformant.next {unit : SectionUnit} (h : Conformant part (unit :: units)) :
    Conformant (unit.next part) units := by
  cases unit with
  | middle chunk => exact h.2.2
  | last tail stuffing => exact h.2.2.2
  | start tail whole head stuffing => exact h.2.2.2.2

/-- A section in progress is going to be completed. -/
theorem Conformant.completed (h : Conformant part units) (hpart : part ≠ []) :
    ∃ rest, rest ≠ [] ∧ IsSection (part ++ rest) := by
  induction units generalizing part with
  | nil => exact absurd h hpart
  | cons unit units ih =>
    cases unit with
    | middle chunk =>
      obtain ⟨_, hchunk, h⟩ := h
      obtain ⟨rest, _, hsection⟩ := ih h (append_ne_nil_of_left_ne_nil hpart chunk)
      exact ⟨chunk ++ rest, append_ne_nil_of_left_ne_nil hchunk rest,
        append_assoc part chunk rest ▸ hsection⟩
    | last tail stuffing =>
      obtain ⟨_, htail, hsection, _⟩ := h
      exact ⟨tail, htail, hsection⟩
    | start tail whole head stuffing =>
      obtain ⟨⟨hnil, _⟩ | ⟨_, htail, hsection⟩, _⟩ := h
      · exact absurd hnil hpart
      · exact ⟨tail, htail, hsection⟩

/-- So the buffer waits for its rest. -/
theorem Conformant.drain_eq (h : Conformant part units) : drain part = ([], part) := by
  by_cases hpart : part = []
  · rw [hpart, drain_nil]
  · obtain ⟨_, hrest, hsection⟩ := h.completed hpart
    exact drain_part hpart hrest hsection

end SectionUnit

/-- A packet on its way: what it carries, and how many copies of it arrive. -/
structure Transfer where
  packet : TsPacket
  unit : SectionUnit
  copies : ℕ

namespace Transfer

/-- The sections that end in a packet, each with the packets that carry bytes of it, after the
beginning of a section and the packets that carried that. -/
def completed (part : List UInt8) (carriers : List Transfer) (t : Transfer) :
    List (List UInt8 × List Transfer) :=
  match t.unit with
  | .middle _ => []
  | .last tail _ => [(part ++ tail, carriers ++ [t])]
  | .start tail whole _ _ =>
    (if part = [] then [] else [(part ++ tail, carriers ++ [t])]) ++ whole.map fun s => (s, [t])

/-- The packets that have carried bytes of the section in progress. -/
def nextCarriers (carriers : List Transfer) (t : Transfer) : List Transfer :=
  match t.unit with
  | .middle _ => carriers ++ [t]
  | .last _ _ => []
  | .start _ _ _ _ => [t]

/-- Each section with the packets that carry bytes of it. -/
def spans : List UInt8 → List Transfer → List Transfer → List (List UInt8 × List Transfer)
  | _, _, [] => []
  | part, carriers, t :: ts =>
    completed part carriers t ++ spans (t.unit.next part) (nextCarriers carriers t) ts

/-- Whether all packets arrive. -/
def survive (ts : List Transfer) : Bool :=
  ts.all fun t => t.copies ≠ 0

/-- The sections all of whose packets arrive. -/
def intact (ts : List Transfer) : List (List UInt8) :=
  ((spans [] [] ts).filter fun span => survive span.2).map Prod.fst

/-- The packets carry their units under consecutive counters. -/
def Sent : Fin 16 → List Transfer → Prop
  | _, [] => True
  | counter, t :: ts =>
    t.packet.Carries counter t.unit.starts t.unit.bytes ∧ Sent (counter + 1) ts

/-- A run of lost packets that neither the next counter nor the next packet can hide. -/
def Noticed (lost : ℕ) : Prop :=
  lost = 0 ∨ lost % 16 ≠ 0 ∧ lost % 16 ≠ 15

/-- Every run of lost packets is noticed, the first of them after some that are lost already. -/
def LossesNoticed : ℕ → List Transfer → Prop
  | lost, [] => Noticed lost
  | lost, t :: ts =>
    if t.copies = 0 then LossesNoticed (lost + 1) ts else Noticed lost ∧ LossesNoticed 0 ts

/-- What arrives: the copies of each packet in order, and anywhere packets without payload. -/
inductive Arrives : List Transfer → List TsPacket → Prop
  | nil : Arrives [] []
  | idle {ts : List Transfer} {ps : List TsPacket} (p : TsPacket)
      (transportError : p.transportError = false) (hasPayload : p.hasPayload = false)
      (discontinuity : p.discontinuity = false) (h : Arrives ts ps) : Arrives ts (p :: ps)
  | packet {ts : List Transfer} {ps : List TsPacket} (t : Transfer) (h : Arrives ts ps) :
      Arrives (t :: ts) (List.replicate t.copies t.packet ++ ps)

/-! ### The sections a packet completes -/

/-- A further packet has to arrive as well. -/
theorem survive_append_singleton (ts : List Transfer) (t : Transfer) :
    survive (ts ++ [t]) = (survive ts && decide (t.copies ≠ 0)) := by
  rw [survive, all_append, all_cons, all_nil, Bool.and_true]
  rfl

/-- What is left of the section in progress: nothing if one of its packets was lost. -/
def held (part : List UInt8) (carriers : List Transfer) : List UInt8 :=
  if survive carriers then part else []

/-- The sections that end in a packet and all of whose packets arrive. -/
def received (part : List UInt8) (carriers : List Transfer) (t : Transfer) : List (List UInt8) :=
  ((completed part carriers t).filter fun span => survive span.2).map Prod.fst

variable {units : List SectionUnit} {part : List UInt8} {t : Transfer} {carriers : List Transfer}
  {stuffing : ℕ} (ok : Bool)

/-- The packet in the middle of a section makes the part longer. -/
theorem absorb_middle {chunk : List UInt8}
    (h : SectionUnit.Conformant part (.middle chunk :: units)) :
    SectionReassembler.absorb (if ok then part else []) false chunk =
      ([], if ok then part ++ chunk else []) := by
  obtain ⟨hpart, hchunk, h⟩ := h
  rw [absorb_continue hchunk]
  cases ok with
  | false => rfl
  | true => exact (if_neg hpart).trans h.drain_eq

/-- The packet with the end of a section completes it. -/
theorem absorb_last {tail : List UInt8}
    (h : SectionUnit.Conformant part (.last tail stuffing :: units)) :
    SectionReassembler.absorb (if ok then part else []) false
        (tail ++ List.replicate stuffing 0xff) =
      (if ok then [part ++ tail] else [], []) := by
  obtain ⟨hpart, htail, hsection, _⟩ := h
  rw [absorb_continue (append_ne_nil_of_left_ne_nil htail _)]
  cases ok with
  | false => rfl
  | true =>
    refine (if_neg hpart).trans ?_
    rw [← append_assoc, if_pos rfl, drain_append hsection, drain_stuffing]
    rfl

/-- The packet in which sections begin completes the section in progress and those that end in
it. -/
theorem absorb_first {tail head : List UInt8} {whole : List (List UInt8)}
    (htail : tail.length < 256)
    (h : SectionUnit.Conformant part (.start tail whole head stuffing :: units)) :
    SectionReassembler.absorb (if ok then part else []) true
        (UInt8.ofNat tail.length ::
          (tail ++ (whole.flatten ++ (head ++ List.replicate stuffing 0xff)))) =
      ((if part = [] then [] else if ok then [part ++ tail] else []) ++ whole, head) := by
  obtain ⟨htail', hwhole, _, hstuffing, h⟩ := h
  have hhead : drain (head ++ replicate stuffing 0xff) = ([], head) := by
    rcases hstuffing with rfl | rfl
    · exact drain_stuffing stuffing
    · rw [replicate_zero, append_nil, h.drain_eq]
  rw [absorb_start htail, drain_flatten hwhole, hhead, append_nil]
  congr 2
  rcases htail' with ⟨rfl, rfl⟩ | ⟨hpart, _, hsection⟩
  · rw [ite_self]
    rfl
  · cases ok with
    | false => exact (if_pos rfl).trans (if_neg hpart).symm
    | true =>
      have hdrain := drain_append hsection []
      rw [append_nil, drain_nil] at hdrain
      simp only [if_true, if_neg hpart, hdrain]

/-- A packet that arrives completes the sections of which no packet was lost before. -/
theorem absorb_eq (h : SectionUnit.Conformant part (t.unit :: units)) (hcopies : t.copies ≠ 0)
    (hlength : t.unit.bytes.length ≤ 184) :
    SectionReassembler.absorb (held part carriers) t.unit.starts t.unit.bytes =
      (received part carriers t, held (t.unit.next part) (nextCarriers carriers t)) := by
  have hsurvive : survive (carriers ++ [t]) = survive carriers := by
    rw [survive_append_singleton, decide_eq_true hcopies, Bool.and_true]
  have hself : survive [t] = true := survive_append_singleton [] t ▸ decide_eq_true hcopies
  cases hunit : t.unit with
  | middle chunk =>
    rw [hunit] at h
    simp only [received, completed, SectionUnit.next, nextCarriers, hunit, held, hsurvive]
    exact absorb_middle _ h
  | last tail stuffing =>
    rw [hunit] at h
    simp only [received, completed, SectionUnit.next, nextCarriers, hunit, held, ite_self]
    refine (absorb_last _ h).trans ?_
    cases hcarriers : survive carriers with
    | false | true => simp [hsurvive, hcarriers]
  | start tail whole head stuffing =>
    rw [hunit] at h hlength
    have htail : tail.length < 256 := by
      rw [SectionUnit.bytes, length_cons, length_append] at hlength
      omega
    simp only [received, completed, SectionUnit.next, nextCarriers, hunit, held, hself, if_true]
    have hwhole : ((whole.map fun s => (s, [t])).filter fun span => survive span.2).map
        Prod.fst = whole := by
      rw [filter_eq_self.mpr (by simp [hself]), map_map]
      exact map_id whole
    refine (absorb_first _ htail h).trans ?_
    rw [filter_append, map_append, hwhole]
    by_cases hpart : part = []
    · simp [hpart]
    · cases hcarriers : survive carriers with
      | false | true => simp [hpart, hsurvive, hcarriers]

/-- A packet that is lost completes no section. -/
theorem received_of_lost (part : List UInt8) (carriers : List Transfer)
    (hcopies : t.copies = 0) : received part carriers t = [] := by
  have hsurvive (ts : List Transfer) : survive (ts ++ [t]) = false := by
    rw [survive_append_singleton, hcopies]
    exact Bool.and_false _
  have hself : survive [t] = false := hsurvive []
  have hfilter : (completed part carriers t).filter (fun span => survive span.2) = [] := by
    rw [completed]
    split
    · rfl
    · simp [hsurvive]
    · split_ifs
      · simp [hself]
      · simp [hsurvive, hself]
  rw [received, hfilter, map_nil]

/-- After a packet that is lost, no section in progress can be completed. -/
theorem lost_of_lost (part : List UInt8) (carriers : List Transfer) (hcopies : t.copies = 0) :
    t.unit.next part = [] ∨ survive (nextCarriers carriers t) = false := by
  have hsurvive (ts : List Transfer) : survive (ts ++ [t]) = false := by
    rw [survive_append_singleton, hcopies]
    exact Bool.and_false _
  rw [nextCarriers]
  cases t.unit with
  | middle chunk => exact .inr (hsurvive carriers)
  | last tail stuffing => exact .inl rfl
  | start tail whole head stuffing => exact .inr (hsurvive [])

/-! ### Following the packets -/

/-- How the reassembler stands to the packets sent so far: it has forgotten the section in progress
if it could know that a packet of it was lost, and the counter tells how many were lost since the
last packet that arrived. -/
structure Synced (part : List UInt8) (carriers : List Transfer) (lost : ℕ) (counter : Fin 16)
    (s : SectionReassembler) : Prop where
  acc : lost = 0 → s.acc = held part carriers
  gap : lost ≠ 0 → held part carriers = []
  last : (s.acc = [] ∧ s.lastPkt = none ∧ s.lastCc = none) ∨
    ∃ p : TsPacket, s.lastPkt = some p ∧ s.lastCc = some p.cc ∧
      (p.cc.toNat + 1 + lost) % 16 = counter.val

/-- The counter that follows another one. -/
theorem toNat_next (b : UInt8) : ((b + 1) &&& 0x0f).toNat = (b.toNat + 1) % 16 := by
  rw [UInt8.toNat_and, UInt8.toNat_add]
  have hmask : (0x0f : UInt8).toNat = 2 ^ 4 - 1 := rfl
  have hone : (1 : UInt8).toNat = 1 := rfl
  rw [hmask, hone, Nat.and_two_pow_sub_one_eq_mod]
  omega

theorem synced_default (counter : Fin 16) : Synced [] [] 0 counter .default where
  acc _ := rfl
  gap h := absurd rfl h
  last := .inl ⟨rfl, rfl, rfl⟩

variable {lost : ℕ} {counter : Fin 16} {s : SectionReassembler} {p : TsPacket}

section

variable (h : Synced part carriers lost counter s)

include h

/-- A packet that is lost changes nothing yet. -/
theorem Synced.skip (hcopies : t.copies = 0) :
    Synced (t.unit.next part) (nextCarriers carriers t) (lost + 1) (counter + 1) s where
  acc h := absurd h (Nat.succ_ne_zero lost)
  gap _ := by
    rw [held]
    rcases lost_of_lost part carriers hcopies with hpart | hcarriers
    · rw [hpart, ite_self]
    · rw [hcarriers]
      rfl
  last := by
    rcases h.last with hfresh | ⟨p, hpkt, hcc, _⟩
    · exact .inl hfresh
    · refine .inr ⟨p, hpkt, hcc, ?_⟩
      omega

/-- The next packet that arrives is no repetition, and it finds what is left of the section in
progress. -/
theorem Synced.resume (hnoticed : Noticed lost)
    (hcc : p.cc.toNat = counter.val) (hdiscontinuity : p.discontinuity = false) :
    s.lastPkt ≠ some p ∧
      (if p.discontinuity || s.ccGap p then [] else s.acc) = held part carriers := by
  rw [hdiscontinuity, Bool.false_or, SectionReassembler.ccGap]
  rcases h.last with ⟨hacc, hpkt, hlast⟩ | ⟨q, hpkt, hlast, hcounter⟩
  · refine ⟨by simp [hpkt], ?_⟩
    rw [hlast, if_neg Bool.false_ne_true]
    by_cases hlost : lost = 0
    · exact h.acc hlost
    · rw [hacc, h.gap hlost]
  · have hgap : (p.cc != (q.cc + 1) &&& 0x0f) = decide (lost % 16 ≠ 0) := by
      rw [bne, Bool.eq_iff_iff, Bool.not_eq_true', decide_eq_true_iff, beq_eq_false_iff_ne, Ne,
        ← UInt8.toNat_inj, toNat_next, hcc, ← hcounter]
      omega
    refine ⟨?_, ?_⟩
    · rw [hpkt]
      rintro hrepeated
      obtain rfl := Option.some.inj hrepeated
      rcases hnoticed with rfl | ⟨_, _⟩
      · omega
      · omega
    · rw [hlast]
      simp only [hgap]
      rcases hnoticed with rfl | ⟨h0, _⟩
      · exact (if_neg (by decide)).trans (h.acc rfl)
      · have hlost : lost ≠ 0 := by
          rintro rfl
          exact h0 rfl
        rw [if_pos (decide_eq_true h0), h.gap hlost]

/-- A packet that arrives gives the sections it completes. -/
theorem Synced.push (hnoticed : Noticed lost)
    (hconformant : SectionUnit.Conformant part (t.unit :: units))
    (hcarries : t.packet.Carries counter t.unit.starts t.unit.bytes) (hcopies : t.copies ≠ 0) :
    ∃ s', s.push t.packet = (received part carriers t, s') ∧ s'.lastPkt = some t.packet ∧
      Synced (t.unit.next part) (nextCarriers carriers t) 0 (counter + 1) s' := by
  obtain ⟨hnew, hacc⟩ := h.resume hnoticed hcarries.cc hcarries.discontinuity
  have hlength : t.unit.bytes.length ≤ 184 := by
    rw [← hcarries.payload, TsPacket.payload, length_drop, Vector.length_toList,
      TsPacket.payloadOffset]
    split_ifs <;> omega
  refine ⟨⟨held (t.unit.next part) (nextCarriers carriers t), some t.packet.cc, some t.packet⟩,
    ?_, rfl, ?_⟩
  · rw [SectionReassembler.push, hcarries.transportError, if_neg Bool.false_ne_true,
      hcarries.hasPayload, if_neg (by decide), if_neg hnew, hacc, hcarries.pusi, hcarries.payload]
    simp only [absorb_eq hconformant hcopies hlength]
  · refine ⟨fun _ => rfl, fun h => absurd rfl h, .inr ⟨t.packet, rfl, rfl, ?_⟩⟩
    rw [hcarries.cc, Fin.val_add]
    rfl

end

/-- More copies of the last packet change nothing. -/
theorem feed_replicate (htransport : p.transportError = false)
    (hpayload : p.hasPayload = true) (hlast : s.lastPkt = some p) (n : ℕ) (ps : List TsPacket) :
    (s.feed (List.replicate n p ++ ps)).1 = (s.feed ps).1 := by
  have hpush : s.push p = ([], s) := by
    rw [SectionReassembler.push, htransport, if_neg Bool.false_ne_true, hpayload,
      if_neg (by decide), if_pos hlast]
  induction n with
  | zero => rfl
  | succ n ih => rw [replicate_succ, cons_append, feed, hpush, ih]; rfl

variable {ts : List Transfer}

/-- The reassembler gives exactly the sections all of whose packets arrive. -/
theorem feed_eq {ps : List TsPacket} (harrives : Arrives ts ps) (hsent : Sent counter ts)
    (hconformant : SectionUnit.Conformant part (ts.map Transfer.unit))
    (hnoticed : LossesNoticed lost ts) (h : Synced part carriers lost counter s) :
    (s.feed ps).1 = ((spans part carriers ts).filter fun span => survive span.2).map Prod.fst := by
  induction harrives generalizing part carriers lost counter s with
  | nil => rfl
  | idle p htransport hpayload hdiscontinuity _ ih =>
    have hpush : s.push p = ([], s) := by
      rw [SectionReassembler.push, htransport, if_neg Bool.false_ne_true, hpayload, if_pos rfl,
        hdiscontinuity, if_neg Bool.false_ne_true]
    rw [feed, hpush, nil_append]
    exact ih hsent hconformant hnoticed h
  | @packet ts ps t _ ih =>
    obtain ⟨hcarries, hsent⟩ := hsent
    have hnext := SectionUnit.Conformant.next hconformant
    rw [spans, filter_append, map_append]
    by_cases hcopies : t.copies = 0
    · have hreceived := received_of_lost part carriers hcopies
      rw [received] at hreceived
      rw [LossesNoticed, if_pos hcopies] at hnoticed
      rw [hreceived, hcopies, replicate_zero, nil_append, nil_append]
      exact ih hsent hnext hnoticed (h.skip hcopies)
    · rw [LossesNoticed, if_neg hcopies] at hnoticed
      obtain ⟨_, hpush, hlast, hsynced⟩ := h.push hnoticed.1 hconformant hcarries hcopies
      obtain ⟨_, hn⟩ := Nat.exists_eq_succ_of_ne_zero hcopies
      rw [hn, replicate_succ, cons_append, feed, hpush,
        feed_replicate hcarries.transportError hcarries.hasPayload hlast]
      exact congrArg (received part carriers t ++ ·) (ih hsent hnext hnoticed.2 hsynced)

/-! ### All sections -/

/-- The sections completed by a packet are those that end in it. -/
theorem map_fst_completed (part : List UInt8) (carriers : List Transfer) (t : Transfer) :
    (completed part carriers t).map Prod.fst = t.unit.ended part := by
  rw [completed]
  cases t.unit with
  | middle chunk => rfl
  | last tail stuffing => rfl
  | start tail whole head stuffing =>
    have hwhole : (whole.map fun s => (s, [t])).map Prod.fst = whole := by
      rw [map_map]
      exact map_id whole
    simp only [SectionUnit.ended, map_append, hwhole]
    split_ifs <;> rfl

/-- The sections with their packets are those of the packetization. -/
theorem map_fst_spans (part : List UInt8) (carriers ts : List Transfer) :
    (spans part carriers ts).map Prod.fst = SectionUnit.sections part (ts.map Transfer.unit) := by
  induction ts generalizing part carriers with
  | nil => rfl
  | cons t ts ih =>
    rw [spans, map_append, map_fst_completed, ih, map_cons, SectionUnit.sections]

/-- The sections all of whose packets arrive are sections of the packetization, in order. -/
theorem intact_sublist :
    (intact ts).Sublist (SectionUnit.sections [] (ts.map Transfer.unit)) := by
  rw [intact, ← map_fst_spans [] []]
  exact filter_sublist.map Prod.fst

/-- If every packet arrives, so does every section. -/
theorem filter_spans (part : List UInt8)
    (hcarriers : survive carriers = true) (hts : ∀ t ∈ ts, t.copies ≠ 0) :
    (spans part carriers ts).filter (fun span => survive span.2) = spans part carriers ts := by
  induction ts generalizing part carriers with
  | nil => rfl
  | cons t ts ih =>
    have hcopies : t.copies ≠ 0 := hts t mem_cons_self
    have hsurvive : survive (carriers ++ [t]) = true := by
      rw [survive_append_singleton, hcarriers, decide_eq_true hcopies]
      rfl
    have hself : survive [t] = true := survive_append_singleton [] t ▸ decide_eq_true hcopies
    have hnext : survive (nextCarriers carriers t) = true := by
      rw [nextCarriers]
      cases t.unit with
      | middle chunk => exact hsurvive
      | last tail stuffing => rfl
      | start tail whole head stuffing => exact hself
    have hcompleted : (completed part carriers t).filter (fun span => survive span.2) =
        completed part carriers t := by
      rw [filter_eq_self, completed]
      cases t.unit with
      | middle chunk => simp
      | last tail stuffing => simpa using hsurvive
      | start tail whole head stuffing =>
        by_cases hpart : part = []
        · simp [hpart, hself]
        · simp [hpart, hself, hsurvive]
    rw [spans, filter_append, hcompleted,
      ih _ hnext fun r hr => hts r (mem_cons_of_mem t hr)]

theorem intact_eq_sections (hts : ∀ t ∈ ts, t.copies ≠ 0) :
    intact ts = SectionUnit.sections [] (ts.map Transfer.unit) := by
  rw [intact, filter_spans [] rfl hts, map_fst_spans]

end Transfer

end HermitMoq
