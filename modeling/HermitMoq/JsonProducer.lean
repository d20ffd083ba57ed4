import HermitMoq.MergeLaw
import HermitMoq.StreamCodec
import HermitMoq.TrackCache

/-!
# Publishing JSON Values

The producer of `moq-json` (`lib.rs`): a value is published as a snapshot, the first frame of a
new group, or as a merge patch, a further frame of the open group. Deltas are allowed while
they are few and small compared with the snapshot. With compression the frames of a group are
one stream. Values are JSON values, `serde_json::Value`; frames are taken as opaque, with a length.
Text is assumed to be read back as it was written unless it is nested too deeply for the parser, and
DEFLATE unless the text is too large for the decoder of `moq_flate`.
-/

namespace HermitMoq

/-- `moq_flate::Error`. -/
inductive FlateError
  | decompress
  | tooLarge (limit : ℕ)
  deriving DecidableEq, Repr

/-- `moq_json::Error`, and a panic: `expect` of what is not there. -/
inductive JsonError
  | net (e : NetError)
  | json
  | flate (e : FlateError)
  | panic
  deriving DecidableEq, Repr

/-- A number is within a limit, if there is one. -/
def WithinLimit (limit : Option ℕ) (n : ℕ) : Prop :=
  ∀ m ∈ limit, n ≤ m

/-- JSON text and `moq_flate`. -/
structure JsonCodec (β : Type) where
  /-- `Bytes::len`. -/
  len : β → ℕ
  /-- `serde_json::to_vec`. -/
  toVec : Json → β
  /-- `serde_json::from_slice`. -/
  fromSlice : β → Option Json
  flate : StreamCodec β β FlateError
  /-- Whether the text of a value is accepted: it must not be nested too deeply. -/
  parses : Json → Bool
  /-- The largest payload that a `moq_flate::Decoder` inflates. -/
  limit : Option ℕ
  fromSlice_toVec : ∀ value, value.Valid →
    fromSlice (toVec value) = if parses value then some value else none
  inOrder : flate.InOrder fun bytes => WithinLimit limit (len bytes)
  refuses : flate.Refuses fun bytes => WithinLimit limit (len bytes)

/-- `MAX_DELTA_FRAMES`. -/
def maxDeltaFrames : ℕ := 256

/-- `ProducerConfig`. -/
structure ProducerConfig where
  deltaRatio : ℕ := 8
  compression : Bool := false
  deriving DecidableEq, Repr

variable {β : Type} (C : JsonCodec β) (compression : Bool) (values : List Json)

/-- What a group amounts to: a snapshot and merge patches. -/
def Json.replay : List Json → Option Json
  | [] => none
  | snapshot :: patches => some (patches.foldl Json.mergePatch snapshot)

/-- One more patch. -/
theorem Json.replay_concat {values : List Json} {value : Json}
    (h : Json.replay values = some value) (patch : Json) :
    Json.replay (values ++ [patch]) = some (value.mergePatch patch) := by
  cases values with
  | nil => cases h
  | cons snapshot patches =>
    cases h
    simp [Json.replay]

namespace JsonCodec

/-- A value that a consumer gets from its text. -/
structure Readable (value : Json) : Prop where
  valid : value.Valid
  parses : C.parses value = true
  inflates : compression = true → WithinLimit C.limit (C.len (C.toVec value))

/-- A codec that reads all that was written. -/
structure Faithful : Prop where
  parses : ∀ value, C.parses value = true
  limit : C.limit = none

variable {C} in
theorem Faithful.readable (h : C.Faithful) {value : Json} (hvalid : value.Valid) :
    C.Readable compression value where
  valid := hvalid
  parses := h.parses value
  inflates _ n hn := by
    rw [h.limit] at hn
    cases hn

/-- The encoder of a new group. -/
def newEncoder (compression : Bool) : Option C.flate.Encoder :=
  if compression then some C.flate.newEncoder else none

/-- A payload as it is written to a frame: compressed if there is an encoder. -/
def slice (encoder : Option C.flate.Encoder) (bytes : β) : β × Option C.flate.Encoder :=
  match encoder with
  | some e => ((C.flate.encode e bytes).1, some (C.flate.encode e bytes).2)
  | none => (bytes, none)

/-- The frames of a group that carries the values. -/
def frames (compression : Bool) (values : List Json) : List β :=
  if compression then C.flate.slices (values.map C.toVec) else values.map C.toVec

/-- The encoder of a group that carries the values. -/
def encoder (compression : Bool) (values : List Json) : Option C.flate.Encoder :=
  if compression then some (C.flate.encodeAll C.flate.newEncoder (values.map C.toVec)).2 else none

/-- A group without values has no frames. -/
theorem frames_nil : C.frames compression [] = [] := by
  cases compression <;> rfl

/-- With compression the frames are the slices of a stream. -/
theorem frames_true :
    C.frames true values = C.flate.slices (values.map C.toVec) := rfl

/-- There is a frame for each value. -/
@[simp]
theorem length_frames :
    (C.frames compression values).length = values.length := by
  rw [frames]
  split_ifs <;> simp

/-- A value is written after others. -/
theorem frames_concat (value : Json) :
    C.frames compression (values ++ [value]) =
        C.frames compression values ++
          [(C.slice (C.encoder compression values) (C.toVec value)).1] ∧
      (C.slice (C.encoder compression values) (C.toVec value)).2 =
        C.encoder compression (values ++ [value]) := by
  cases compression
  · simp [frames, encoder, slice]
  · simp [frames, encoder, slice, StreamCodec.slices, StreamCodec.encodeAll_concat]

end JsonCodec

/-- `Inner`: the state behind a producer. -/
structure JsonInner where
  track : TrackCache β := {}
  group : Option ℕ := none
  encoder : Option C.flate.Encoder := none
  last : Option Json := none
  deltaBytes : ℕ := 0
  snapshotLen : ℕ := 0
  groupFrames : ℕ := 0
  config : ProducerConfig

namespace JsonInner

variable {C}

/-- `delta_allowed`. -/
def deltaAllowed (p : JsonInner C) : Bool :=
  p.config.deltaRatio != 0 && p.group.isSome && decide (p.groupFrames < maxDeltaFrames) &&
    decide (p.deltaBytes ≤ p.config.deltaRatio * p.snapshotLen)

/-- Finish the open group, if there is one. -/
def finishGroup (p : JsonInner C) : TrackCache β :=
  match p.group with
  | some q => p.track.finishGroup q
  | none => p.track

/-- `snapshot`, at the time `now`. -/
def snapshot (p : JsonInner C) (now : ℕ) (value : Json) : Except JsonError (JsonInner C) := do
  let (q, track) ← (p.finishGroup.appendGroup now).mapError .net
  let (slice, encoder) := C.slice (C.newEncoder p.config.compression) (C.toVec value)
  let track ← (track.writeFrame C.len q slice).mapError .net
  let p := { p with
    last := some value
    deltaBytes := 0
    snapshotLen := C.len slice
    groupFrames := 1 }
  if p.config.deltaRatio ≠ 0 then
    .ok { p with track, group := some q, encoder }
  else
    .ok { p with track := track.finishGroup q, group := none, encoder := none }

/-- `update`, at the time `now`. -/
def update (p : JsonInner C) (now : ℕ) (value : Json) : Except JsonError (JsonInner C) :=
  match p.last with
  | none => p.snapshot now value
  | some last =>
    let d := diff last value
    if d.forcedSnapshot = false ∧ d.patch = .object [] then
      .ok p
    else if d.forcedSnapshot ∨ p.deltaAllowed = false then
      p.snapshot now value
    else match p.group with
      | none => .error .panic
      | some q => do
        let (slice, encoder) := C.slice p.encoder (C.toVec d.patch)
        let track ← (p.track.writeFrame C.len q slice).mapError .net
        .ok { p with
          track
          encoder
          last := some (last.mergePatch d.patch)
          deltaBytes := p.deltaBytes + C.len slice
          groupFrames := p.groupFrames + 1 }

/-- `finish`. -/
def finish (p : JsonInner C) : Except JsonError (JsonInner C) := do
  let track ← p.finishGroup.finish.mapError .net
  .ok { p with track, group := none }

/-! ### What a successful call does -/

variable {value : Json} {now : ℕ} {p p' : JsonInner C}

/-- A snapshot appends a group, writes the value to it, and finishes it if there are no deltas. -/
theorem snapshot_ok (h : p.snapshot now value = .ok p') :
    ∃ q t t', p.finishGroup.appendGroup now = .ok (q, t) ∧
      t.writeFrame C.len q (C.slice (C.newEncoder p.config.compression) (C.toVec value)).1 =
        .ok t' ∧
      p'.last = some value ∧ p'.config = p.config ∧
      if p.config.deltaRatio ≠ 0 then
        p'.track = t' ∧ p'.group = some q ∧
          p'.encoder = (C.slice (C.newEncoder p.config.compression) (C.toVec value)).2
      else p'.track = t'.finishGroup q ∧ p'.group = none := by
  obtain ⟨⟨q, t⟩, hgroup, h⟩ := bind_eq_ok.mp h
  dsimp only at h
  obtain ⟨t', hwrite, h⟩ := bind_eq_ok.mp h
  refine ⟨q, t, t', mapError_eq_ok.mp hgroup, mapError_eq_ok.mp hwrite, ?_⟩
  split_ifs at h ⊢ <;> cases h <;> simp

/-- An update does nothing, publishes a snapshot or publishes a delta. -/
theorem update_ok (h : p.update now value = .ok p') :
    (∃ last, p.last = some last ∧ (diff last value).forcedSnapshot = false ∧
      (diff last value).patch = .object [] ∧ p' = p) ∨
    p.snapshot now value = .ok p' ∨
    ∃ last q t, p.last = some last ∧ p.group = some q ∧
      (diff last value).forcedSnapshot = false ∧
      p.track.writeFrame C.len q (C.slice p.encoder (C.toVec (diff last value).patch)).1 = .ok t ∧
      p' = { p with
        track := t
        encoder := (C.slice p.encoder (C.toVec (diff last value).patch)).2
        last := some (last.mergePatch (diff last value).patch)
        deltaBytes := p.deltaBytes +
          C.len (C.slice p.encoder (C.toVec (diff last value).patch)).1
        groupFrames := p.groupFrames + 1 } := by
  rw [update] at h
  cases hlast : p.last with
  | none =>
    rw [hlast] at h
    exact .inr (.inl h)
  | some last =>
    rw [hlast] at h
    simp only at h
    split_ifs at h with hsame hsnapshot
    · cases h
      exact .inl ⟨last, rfl, hsame.1, hsame.2, rfl⟩
    · exact .inr (.inl h)
    · rw [not_or, Bool.not_eq_true] at hsnapshot
      cases hgroup : p.group with
      | none =>
        rw [hgroup] at h
        cases h
      | some q =>
        rw [hgroup] at h
        obtain ⟨t, hwrite, h⟩ := bind_eq_ok.mp h
        cases h
        exact .inr (.inr ⟨last, q, t, rfl, rfl, hsnapshot.1, mapError_eq_ok.mp hwrite, rfl⟩)

/-! ### The baseline -/

/-- After an update there is a baseline. -/
theorem isSome_last_update (h : p.update now value = .ok p') :
    p'.last.isSome := by
  rcases update_ok h with ⟨_, hold, -, -, rfl⟩ | hsnapshot | ⟨_, _, _, -, -, -, -, rfl⟩
  · rw [hold, Option.isSome_some]
  · obtain ⟨-, -, -, -, -, hvalue, -⟩ := snapshot_ok hsnapshot
    rw [hvalue, Option.isSome_some]
  · rfl

/-- The first value becomes the baseline. -/
theorem last_update_first (hlast : p.last = none)
    (h : p.update now value = .ok p') : p'.last = some value := by
  rw [update, hlast] at h
  obtain ⟨-, -, -, -, -, hvalue, -⟩ := snapshot_ok h
  exact hvalue

/-- A value that the patch law covers becomes the baseline. -/
theorem last_update {old : Json} (hlaw : (diff old value).Lawful old value)
    (hlast : p.last = some old) (h : p.update now value = .ok p') : p'.last = some value := by
  rcases update_ok h with ⟨last, hold, hforced, hempty, rfl⟩ | hsnapshot |
    ⟨last, q, t, hold, -, hforced, -, rfl⟩
  · rw [hlast] at hold
    cases hold
    rw [hlast, (hlaw hforced).2.mp hempty]
  · obtain ⟨-, -, -, -, -, hvalue, -⟩ := snapshot_ok hsnapshot
    exact hvalue
  · rw [hlast] at hold
    cases hold
    exact congrArg some (hlaw hforced).1

/-- **The law of merge patches.** A patch that does not force a snapshot is faithful, and is empty
only without a change, and every update makes the value the baseline, exactly for the values that
`faithful` describes. The first value always becomes the baseline. -/
theorem merge_patch_law {old value : Json} (hold : old.Valid) (hvalue : value.Valid) :
    (((diff old value).Lawful old value ∧
        ∀ {β : Type} (C : JsonCodec β) (p p' : JsonInner C) (now : ℕ), p.last = some old →
          p.update now value = .ok p' → p'.last = some value) ↔ faithful old value = true) ∧
      ∀ {β : Type} (C : JsonCodec β) (p p' : JsonInner C) (now : ℕ), p.last = none →
        p.update now value = .ok p' → p'.last = some value := by
  rw [← diff_lawful_iff hold hvalue]
  exact ⟨⟨fun h => h.1, fun hlaw => ⟨hlaw, fun C p p' now => last_update hlaw⟩⟩,
    fun C p p' now => last_update_first⟩

/-- A counter that is changed. -/
theorem merge_patch_law_counter :
    (diff (.object [(['n'], .number (.posInt 1))]) (.object [(['n'], .number (.posInt 2))])).Lawful
      (.object [(['n'], .number (.posInt 1))]) (.object [(['n'], .number (.posInt 2))]) :=
  have hvalid : ∀ n, (Json.object [(['n'], .number (.posInt n))]).Valid := fun n =>
    .object (List.pairwise_singleton _ _) (by simp [Json.Valid.number])
  ((merge_patch_law (hvalid 1) (hvalid 2)).1.mpr (by decide)).1

/-- An added null is no change to the diff, and the baseline stays as it was. -/
theorem added_null_is_dropped :
    (diff (.object []) (.object [(['a'], .null)])).forcedSnapshot = false ∧
      Json.mergePatch (.object []) (diff (.object []) (.object [(['a'], .null)])).patch ≠
        .object [(['a'], .null)] ∧
      ∀ {β : Type} (C : JsonCodec β) (p : JsonInner C) (now : ℕ), p.last = some (.object []) →
        p.update now (.object [(['a'], .null)]) = .ok p := by
  refine ⟨by decide, by decide, fun C p now hlast => ?_⟩
  have hforced : (diff (.object []) (.object [(['a'], .null)])).forcedSnapshot = false := by
    decide
  have hpatch : (diff (.object []) (.object [(['a'], .null)])).patch = .object [] := by decide
  rw [update, hlast]
  simp only
  rw [if_pos ⟨hforced, hpatch⟩]

end JsonInner

end HermitMoq
