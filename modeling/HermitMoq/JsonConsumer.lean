import HermitMoq.JsonProducer

/-!
# Consuming JSON Values

The consumer of `moq-json` (`lib.rs`): it jumps to the newest group, reads the frames that are
there and yields the value they amount to. The first frame of a group is a snapshot, the
others are merge patches. A clone has no decoder of its own; it makes one from the slices that
were read so far. Values are read as `serde_json::Value`.
-/

namespace HermitMoq

open List GroupState

/-- `GroupConsumer`: the handle of a group and the number of frames read. -/
structure GroupConsumer where
  sequence : ℕ
  index : ℕ := 0
  deriving DecidableEq, Repr

variable {β : Type} (C : JsonCodec β)

/-- `Consumer`. -/
structure JsonConsumer where
  track : TrackConsumer := {}
  group : Option GroupConsumer := none
  compressed : Bool
  decoder : Option C.flate.Decoder := none
  groupSlices : List β := []
  current : Option Json := none
  framesRead : ℕ := 0

namespace JsonConsumer

variable {C} (c : JsonConsumer C)

/-- `clone`: all but the decoder. -/
def clone (c : JsonConsumer C) : JsonConsumer C := { c with decoder := none }

/-- The decoder of the group, made from the slices read so far if there is none. -/
def getDecoder (c : JsonConsumer C) : Except FlateError C.flate.Decoder :=
  match c.decoder with
  | some d => .ok d
  | none =>
    match C.flate.decodeAll C.flate.newDecoder c.groupSlices with
    | (.ok _, d) => .ok d
    | (.error e, _) => .error e

/-- `decode`. -/
def decode (c : JsonConsumer C) (slice : β) : JsonConsumer C × Except JsonError β :=
  if c.compressed then
    match c.getDecoder with
    | .error e => (c, .error (.flate e))
    | .ok d =>
      match C.flate.decode d slice with
      | (.error e, d) => ({ c with decoder := some d }, .error (.flate e))
      | (.ok plain, d) =>
        ({ c with decoder := some d, groupSlices := c.groupSlices ++ [slice] }, .ok plain)
  else (c, .ok slice)

/-- `apply`: the first frame of a group is a snapshot, the others are merge patches. -/
def apply (c : JsonConsumer C) (frame : β) : JsonConsumer C × Except JsonError Unit :=
  match c.decode frame with
  | (c, .error e) => (c, .error e)
  | (c, .ok plain) =>
    match C.fromSlice plain with
    | none => (c, .error .json)
    | some value =>
      if c.framesRead = 0 then
        ({ c with current := some value, framesRead := c.framesRead + 1 }, .ok ())
      else match c.current with
        | none => (c, .error .panic)
        | some current =>
          ({ c with
            current := some (current.mergePatch value)
            framesRead := c.framesRead + 1 }, .ok ())

/-- Decoding stays in the group. -/
theorem decode_group (slice : β) :
    (c.decode slice).1.group = c.group ∧ (c.decode slice).1.track = c.track := by
  rw [decode]
  split_ifs
  · split
    · exact ⟨rfl, rfl⟩
    · split <;> exact ⟨rfl, rfl⟩
  · exact ⟨rfl, rfl⟩

/-- Only what is reconstructed changes. -/
theorem apply_group (frame : β) :
    (c.apply frame).1.group = c.group ∧ (c.apply frame).1.track = c.track := by
  have h := c.decode_group frame
  rw [apply]
  split <;> rename_i heq <;> rw [heq] at h
  · exact h
  · split
    · exact h
    · split_ifs
      · exact h
      · split <;> exact h

/-- The first loop of `poll_next`: drain to the newest group, and tell whether the track is
finished. -/
def drain (t : TrackCache β) (c : JsonConsumer C) : JsonConsumer C × Bool :=
  match _h : c.track.pollNextGroup t with
  | (.ready (some q), track) =>
    drain t { c with
      track
      group := some { sequence := q }
      current := none
      framesRead := 0
      decoder := none
      groupSlices := [] }
  | (.ready none, track) => ({ c with track }, true)
  | (.pending, track) => ({ c with track }, false)
  termination_by t.offset + t.groups.length - c.track.index
  decreasing_by
    have := TrackConsumer.pollNextGroup_bounds ‹_›
    omega

/-- The number of frames of the group that are still to be read. -/
def unread (t : TrackCache β) (c : JsonConsumer C) : ℕ :=
  match c.group with
  | none => 0
  | some g => (t.state g.sequence).written.length - g.index

/-- A frame that is applied is read. -/
theorem unread_lt {t : TrackCache β} {c c' : JsonConsumer C} {g : GroupConsumer} {frame : β}
    {r : Except JsonError Unit} (hgroup : c.group = some g)
    (hpoll : (t.state g.sequence).pollReadFrame g.index = .ready (.ok (some frame)))
    (happly : apply { c with group := some { g with index := g.index + 1 } } frame = (c', r)) :
    c'.unread t < c.unread t := by
  have hlt := (List.getElem?_eq_some_iff.mp (getElem?_of_pollReadFrame hpoll)).1
  have hgroup' : c'.group = some { g with index := g.index + 1 } := by
    have := (apply_group { c with group := some { g with index := g.index + 1 } } frame).1
    rwa [happly] at this
  simp only [unread, hgroup, hgroup']
  omega

/-- The second loop of `poll_next`: apply the frames that are there, and tell whether there were
any and whether the group is still open. -/
def read (t : TrackCache β) (c : JsonConsumer C) (advanced : Bool) :
    JsonConsumer C × Except JsonError (Bool × Bool) :=
  match _hgroup : c.group with
  | none => (c, .ok (advanced, false))
  | some g =>
    match _hpoll : (t.state g.sequence).pollReadFrame g.index with
    | .ready (.error e) => (c, .error (.net e))
    | .ready (.ok none) => ({ c with group := none }, .ok (advanced, false))
    | .pending => (c, .ok (advanced, true))
    | .ready (.ok (some frame)) =>
      match _happly : apply { c with group := some { g with index := g.index + 1 } } frame with
      | (c', .error e) => (c', .error e)
      | (c', .ok ()) => read t c' true
  termination_by c.unread t
  decreasing_by exact unread_lt _hgroup _hpoll _happly

/-- What `poll_next` does after the first loop. -/
def deliver (t : TrackCache β) (c : JsonConsumer C) (trackFinished : Bool) :
    JsonConsumer C × Poll (Except JsonError (Option Json)) :=
  match c.read t false with
  | (c, .error e) => (c, .ready (.error e))
  | (c, .ok (true, _)) =>
    match c.current with
    | none => (c, .ready (.error .panic))
    | some value => (c, .ready (.ok (some value)))
  | (c, .ok (false, groupPending)) =>
    if groupPending then (c, .pending)
    else if trackFinished then (c, .ready (.ok none))
    else (c, .pending)

/-- `poll_next`. -/
def pollNext (t : TrackCache β) (c : JsonConsumer C) :
    JsonConsumer C × Poll (Except JsonError (Option Json)) :=
  let (c, trackFinished) := c.drain t
  c.deliver t trackFinished

/-! ### Reading a group -/

/-- What is reconstructed from the first `i` frames of a group that carries the values. -/
structure Reads (c : JsonConsumer C) (values : List Json) (i : ℕ) : Prop where
  framesRead : c.framesRead = i
  current : c.current = Json.replay (values.take i)
  slices : c.compressed = true → c.groupSlices = (C.frames true values).take i
  decoder : ∀ d ∈ c.decoder, d = (C.flate.decodeAll C.flate.newDecoder c.groupSlices).2

variable {c} {values : List Json} {value : Json} {frame : β} {i : ℕ}

section

variable (h : c.Reads values i)

include h

/-- Frames that are written later make no difference. -/
theorem Reads.concat (hle : i ≤ values.length) (value : Json) :
    c.Reads (values ++ [value]) i := by
  refine ⟨h.framesRead, ?_, fun hcompressed => ?_, h.decoder⟩
  · rw [h.current, take_append_of_le_length hle]
  · rw [h.slices hcompressed, (C.frames_concat true values value).1,
      take_append_of_le_length (by simpa using hle)]

variable (hreadable : ∀ v ∈ values.take i, C.Readable c.compressed v)

include hreadable

/-- The decoder has followed the frames that were read. -/
theorem Reads.getDecoder (hcompressed : c.compressed = true) :
    c.getDecoder = .ok (C.flate.decodeAll C.flate.newDecoder c.groupSlices).2 := by
  rw [JsonConsumer.getDecoder]
  cases hdecoder : c.decoder with
  | some d => rw [h.decoder d hdecoder]
  | none =>
    have hok := C.inOrder ((values.take i).map C.toVec)
      (forall_mem_map.mpr fun v hv => (hreadable v hv).inflates hcompressed)
    rw [map_take, ← StreamCodec.take_slices] at hok
    have hslices := h.slices hcompressed
    rw [JsonCodec.frames, if_pos rfl] at hslices
    rw [← hslices] at hok
    cases hall : C.flate.decodeAll C.flate.newDecoder c.groupSlices with
    | mk r d =>
      rw [hall] at hok
      cases hok
      rfl

variable (hvalue : values[i]? = some value)
  (hframe : (C.frames c.compressed values)[i]? = some frame)

include hvalue hframe

/-- The next frame is decoded to its payload. -/
theorem Reads.decode
    (hinflates : c.compressed = true → WithinLimit C.limit (C.len (C.toVec value))) :
    ∃ c', c.decode frame = (c', .ok (C.toVec value)) ∧ c'.framesRead = i ∧
      c'.current = c.current ∧ c'.compressed = c.compressed ∧
      (c'.compressed = true → c'.groupSlices = (C.frames true values).take (i + 1)) ∧
      ∀ d ∈ c'.decoder, d = (C.flate.decodeAll C.flate.newDecoder c'.groupSlices).2 := by
  rw [JsonConsumer.decode]
  by_cases hcompressed : c.compressed = true
  · rw [if_pos hcompressed, h.getDecoder hreadable hcompressed]
    have hslices := h.slices hcompressed
    have hpayload : (values.map C.toVec)[i]? = some (C.toVec value) := by
      rw [getElem?_map, hvalue, Option.map_some]
    rw [hcompressed] at hframe
    have hnext : c.groupSlices ++ [frame] = (C.frames true values).take (i + 1) := by
      rw [take_add_one, hframe, hslices, Option.toList_some]
    have hwithin : ∀ b ∈ (values.map C.toVec).take (i + 1), WithinLimit C.limit (C.len b) := by
      rw [← map_take, forall_mem_map, take_add_one, hvalue, Option.toList_some]
      refine forall_mem_append.mpr ⟨fun v hv => (hreadable v hv).inflates hcompressed, ?_⟩
      exact forall_mem_singleton.mpr (hinflates hcompressed)
    have hdecode := C.inOrder.decode_next hwithin hpayload hframe
    rw [← JsonCodec.frames_true, ← hslices, ← hnext] at hdecode
    simp only [hdecode]
    refine ⟨_, rfl, h.framesRead, rfl, rfl, fun _ => hnext, fun d hd => ?_⟩
    exact (Option.some.inj hd).symm
  · rw [if_neg hcompressed]
    rw [Bool.not_eq_true] at hcompressed
    rw [hcompressed, JsonCodec.frames, if_neg Bool.false_ne_true, getElem?_map,
      hvalue] at hframe
    cases hframe
    refine ⟨c, rfl, h.framesRead, rfl, rfl, fun htrue => ?_, h.decoder⟩
    rw [hcompressed] at htrue
    cases htrue

/-- The next frame is applied. -/
theorem Reads.apply (hnext : C.Readable c.compressed value) :
    ∃ c', c.apply frame = (c', .ok ()) ∧ c'.Reads values (i + 1) ∧
      c'.compressed = c.compressed := by
  obtain ⟨c', hdecode, hread, hcurrent, hcompressed, hslices, hdecoder⟩ :=
    h.decode hreadable hvalue hframe hnext.inflates
  have htext : C.fromSlice (C.toVec value) = some value := by
    rw [C.fromSlice_toVec value hnext.valid, if_pos hnext.parses]
  rw [JsonConsumer.apply, hdecode]
  simp only [htext]
  have htake : values.take (i + 1) = values.take i ++ [value] := by
    rw [take_add_one, hvalue, Option.toList_some]
  by_cases hzero : c'.framesRead = 0
  · rw [if_pos hzero]
    obtain rfl : i = 0 := hread.symm.trans hzero
    refine ⟨_, rfl, ⟨by dsimp only; omega, ?_, hslices, hdecoder⟩, hcompressed⟩
    rw [htake]
    rfl
  · rw [if_neg hzero, hcurrent, h.current]
    cases hreplay : Json.replay (values.take i) with
    | none =>
      cases htaken : values.take i with
      | nil =>
        have := congrArg length htaken
        have := (List.getElem?_eq_some_iff.mp hvalue).1
        rw [length_take, length_nil] at *
        omega
      | cons x xs =>
        rw [htaken] at hreplay
        cases hreplay
    | some current =>
      refine ⟨_, rfl, ⟨by dsimp only; omega, ?_, hslices, hdecoder⟩, hcompressed⟩
      rw [htake, Json.replay_concat hreplay]

/-- The next frame cannot be read. -/
theorem Reads.apply_fails (hvalid : value.Valid) (hnext : ¬ C.Readable c.compressed value) :
    ∃ c' e, c.apply frame = (c', .error e) := by
  rw [JsonConsumer.apply]
  by_cases hinflates : c.compressed = true → WithinLimit C.limit (C.len (C.toVec value))
  · -- the text is inflated, but not parsed
    obtain ⟨c', hdecode, -⟩ := h.decode hreadable hvalue hframe hinflates
    have htext : C.fromSlice (C.toVec value) = none := by
      rw [C.fromSlice_toVec value hvalid, if_neg fun hparses => hnext ⟨hvalid, hparses, hinflates⟩]
    rw [hdecode]
    simp only [htext]
    exact ⟨_, _, rfl⟩
  · obtain ⟨hcompressed, hlarge⟩ := Classical.not_imp.mp hinflates
    have hpayload : (values.map C.toVec)[i]? = some (C.toVec value) := by
      rw [getElem?_map, hvalue, Option.map_some]
    rw [hcompressed] at hframe
    have hwithin : ∀ b ∈ (values.map C.toVec).take i, WithinLimit C.limit (C.len b) := by
      rw [← map_take, forall_mem_map]
      exact fun v hv => (hreadable v hv).inflates hcompressed
    obtain ⟨e, d, hdecode⟩ := C.refuses.decode_next C.inOrder hwithin hlarge hpayload hframe
    rw [← JsonCodec.frames_true, ← h.slices hcompressed] at hdecode
    rw [JsonConsumer.decode, if_pos hcompressed, h.getDecoder hreadable hcompressed]
    simp only [hdecode]
    exact ⟨_, _, rfl⟩

end

variable {t : TrackCache β} {g : GroupConsumer}

/-- The position in the track is no part of what is reconstructed. -/
theorem Reads.setGroup (h : c.Reads values i) (group : Option GroupConsumer) :
    Reads { c with group } values i :=
  ⟨h.framesRead, h.current, h.slices, h.decoder⟩

/-- What the second loop does in a group of which the next frame is evicted. -/
theorem read_evicted (hgroup : c.group = some g)
    (hoffset : g.index < (t.state g.sequence).offset) (advanced : Bool) :
    c.read t advanced = (c, .error (.net .cacheFull)) := by
  have hpoll := pollReadFrame_eq (t.state g.sequence) g.index
  rw [read]
  split
  · simp_all
  · rename_i g' hgroup'
    split <;> simp_all

/-- What the second loop does at the end of a group. -/
theorem read_end (hgroup : c.group = some g)
    (hlength : (t.state g.sequence).written.length = g.index) (advanced : Bool) :
    c.read t advanced =
      if (t.state g.sequence).fin then ({ c with group := none }, .ok (advanced, false))
      else (c, .ok (advanced, true)) := by
  have hpoll := pollReadFrame_eq (t.state g.sequence) g.index
  have hle : (t.state g.sequence).offset ≤ g.index := by
    rw [← hlength, written, length_append, offset]
    omega
  rw [if_neg (Nat.not_lt.mpr hle), getElem?_eq_none (Nat.le_of_eq hlength)] at hpoll
  rw [read]
  split
  · simp_all
  · rename_i g' hgroup'
    cases hfin : (t.state g.sequence).fin <;> rw [hfin] at hpoll <;> split <;> simp_all

/-- What the second loop does when there is a frame. -/
theorem read_frame {c' : JsonConsumer C} (hgroup : c.group = some g)
    (hoffset : (t.state g.sequence).offset ≤ g.index)
    (hframe : (t.state g.sequence).written[g.index]? = some frame)
    (happly : apply { c with group := some { g with index := g.index + 1 } } frame = (c', .ok ()))
    (advanced : Bool) : c.read t advanced = c'.read t true := by
  have hpoll := pollReadFrame_eq (t.state g.sequence) g.index
  rw [if_neg (Nat.not_lt.mpr hoffset), hframe] at hpoll
  rw [read]
  split
  · simp_all
  · rename_i g' hgroup'
    split <;> try simp_all
    split <;> simp_all

/-- What the second loop does when there is a frame that cannot be read. -/
theorem read_frame_error {c' : JsonConsumer C} {e : JsonError} (hgroup : c.group = some g)
    (hoffset : (t.state g.sequence).offset ≤ g.index)
    (hframe : (t.state g.sequence).written[g.index]? = some frame)
    (happly : apply { c with group := some { g with index := g.index + 1 } } frame =
      (c', .error e)) (advanced : Bool) : c.read t advanced = (c', .error e) := by
  have hpoll := pollReadFrame_eq (t.state g.sequence) g.index
  rw [if_neg (Nat.not_lt.mpr hoffset), hframe] at hpoll
  rw [read]
  split
  · simp_all
  · rename_i g' hgroup'
    split <;> try simp_all
    split <;> simp_all

/-- All frames are read. -/
theorem Reads.read (h : c.Reads values g.index) (hgroup : c.group = some g)
    (hreadable : ∀ v ∈ values, C.Readable c.compressed v)
    (hwritten : (t.state g.sequence).written = C.frames c.compressed values)
    (hle : g.index ≤ values.length) (hoffset : (t.state g.sequence).offset ≤ g.index)
    (advanced : Bool) :
    ∃ c', c.read t advanced = (c', .ok (advanced || decide (g.index < values.length),
        !(t.state g.sequence).fin)) ∧
      c'.Reads values values.length ∧ c'.compressed = c.compressed ∧ c'.track = c.track ∧
      c'.group = if (t.state g.sequence).fin then none
        else some { g with index := values.length } := by
  have hlen : (t.state g.sequence).written.length = values.length := by
    rw [hwritten, JsonCodec.length_frames]
  -- by induction on the number of frames that are left
  generalize hleft : values.length - g.index = left
  induction left generalizing c g advanced with
  | zero =>
    have hend : g.index = values.length := by omega
    rw [read_end hgroup (hlen.trans hend.symm), hend, decide_eq_false (Nat.lt_irrefl _),
      Bool.or_false]
    rw [hend] at h
    split_ifs with hfin
    · exact ⟨_, by rw [hfin]; rfl, h.setGroup none, rfl, rfl, rfl⟩
    · refine ⟨c, by rw [Bool.eq_false_iff.mpr hfin]; rfl, h, rfl, rfl, ?_⟩
      rw [hgroup, ← hend]
  | succ left ih =>
    have hlt : g.index < values.length := by omega
    have hvalue := getElem?_eq_getElem hlt
    obtain ⟨frame, hframe⟩ : ∃ frame, (t.state g.sequence).written[g.index]? = some frame :=
      ⟨_, getElem?_eq_getElem (hlen ▸ hlt)⟩
    obtain ⟨_, happly, hreads, hcompressed⟩ :=
      (h.setGroup (some { g with index := g.index + 1 })).apply
        (fun v hv => hreadable v (mem_of_mem_take hv)) hvalue (hwritten ▸ hframe)
        (hreadable _ (getElem_mem hlt))
    have hkeep := apply_group { c with group := some { g with index := g.index + 1 } } frame
    rw [happly] at hkeep
    rw [read_frame hgroup hoffset hframe happly]
    obtain ⟨c'', hread, hreads', hcompressed', htrack, hgroup'⟩ := ih hreads hkeep.1
      (by rwa [hcompressed]) (hwritten.trans (by rw [hcompressed])) hlt
      (Nat.le_succ_of_le hoffset) true hlen
      (by dsimp only; omega)
    refine ⟨c'', ?_, hreads', hcompressed'.trans hcompressed, htrack.trans hkeep.2, hgroup'⟩
    rw [hread, decide_eq_true hlt, Bool.true_or, Bool.or_true]

/-- A group with a value that cannot be read is not read to its end. -/
theorem Reads.read_fails (h : c.Reads values g.index) (hgroup : c.group = some g)
    (hvalid : ∀ v ∈ values, v.Valid)
    (hreadable : ∀ v ∈ values.take g.index, C.Readable c.compressed v)
    (hnot : ¬ ∀ v ∈ values, C.Readable c.compressed v)
    (hwritten : (t.state g.sequence).written = C.frames c.compressed values)
    (hle : g.index ≤ values.length) (hoffset : (t.state g.sequence).offset ≤ g.index)
    (advanced : Bool) : ∃ c' e, c.read t advanced = (c', .error e) := by
  have hlen : (t.state g.sequence).written.length = values.length := by
    rw [hwritten, JsonCodec.length_frames]
  -- by induction on the number of frames that are left
  generalize hleft : values.length - g.index = left
  induction left generalizing c g advanced with
  | zero =>
    rw [take_of_length_le (by omega)] at hreadable
    exact absurd hreadable hnot
  | succ left ih =>
    have hlt : g.index < values.length := by omega
    have hvalue := getElem?_eq_getElem hlt
    obtain ⟨frame, hframe⟩ : ∃ frame, (t.state g.sequence).written[g.index]? = some frame :=
      ⟨_, getElem?_eq_getElem (hlen ▸ hlt)⟩
    have hreads := h.setGroup (some { g with index := g.index + 1 })
    have hkeep := apply_group { c with group := some { g with index := g.index + 1 } } frame
    by_cases hnext : C.Readable c.compressed values[g.index]
    · obtain ⟨c', happly, hreads', hcompressed⟩ :=
        hreads.apply hreadable hvalue (hwritten ▸ hframe) hnext
      rw [happly] at hkeep
      rw [read_frame hgroup hoffset hframe happly]
      refine ih hreads' hkeep.1 ?_ (by rwa [hcompressed]) (hwritten.trans (by rw [hcompressed]))
        hlt (Nat.le_succ_of_le hoffset) true hlen (by dsimp only; omega)
      rw [hcompressed, take_add_one, hvalue, Option.toList_some]
      exact forall_mem_append.mpr ⟨hreadable, forall_mem_singleton.mpr hnext⟩
    · obtain ⟨c', e, happly⟩ := hreads.apply_fails hreadable hvalue (hwritten ▸ hframe)
        (hvalid _ (getElem_mem hlt)) hnext
      exact ⟨c', e, read_frame_error hgroup hoffset hframe happly advanced⟩

/-! ### Changing groups -/

/-- What the first loop does at the end of the track. -/
theorem drain_end (hc : c.track.InOrder) (ht : t.Arranged)
    (hindex : t.states.length ≤ c.track.index) : c.drain t = (c, t.finalSequence.isSome) := by
  have hpoll := hc.pollNextGroup_end ht hindex
  rw [drain]
  cases hfinal : t.finalSequence.isSome <;> rw [hfinal] at hpoll <;> split <;> simp_all

/-- What the first loop does when there is a group. -/
theorem drain_group {q : ℕ} {track : TrackConsumer}
    (hpoll : c.track.pollNextGroup t = (.ready (some q), track)) :
    c.drain t = drain t { c with
      track
      group := some { sequence := q }
      current := none
      framesRead := 0
      decoder := none
      groupSlices := [] } := by
  rw [drain]
  split <;> simp_all

/-- While there are newer groups, the consumer goes to the newest and starts afresh. -/
theorem drain_newer (hc : c.track.InOrder) (ht : t.Arranged)
    (hindex : c.track.index < t.states.length) :
    ∃ track : TrackConsumer, track.InOrder ∧ track.index = t.states.length ∧
      c.drain t = ({ c with
        track
        group := some { sequence := t.states.length - 1 }
        current := none
        framesRead := 0
        decoder := none
        groupSlices := [] }, t.finalSequence.isSome) := by
  generalize hleft : t.states.length - c.track.index = left
  induction left using Nat.strong_induction_on generalizing c with
  | _ left ih =>
    obtain ⟨q, track, hpoll, htrack, hq, _⟩ := hc.pollNextGroup ht hindex
    have hbounds := TrackConsumer.pollNextGroup_bounds hpoll
    rw [drain_group hpoll]
    by_cases hlast : q + 1 = t.states.length
    · refine ⟨track, htrack, hq.trans hlast, ?_⟩
      rw [drain_end htrack ht (by dsimp only; omega), ← hlast, Nat.add_sub_cancel]
    · exact ih (t.states.length - track.index) (by omega) htrack (by dsimp only; omega) rfl

end JsonConsumer

end HermitMoq
