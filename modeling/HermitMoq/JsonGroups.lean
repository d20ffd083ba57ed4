import HermitMoq.JsonConsumer

/-!
# Groups of JSON Values

How the newest group of a producer of `moq-json` and the consumers of its track relate. The group
carries a snapshot and merge patches, which amount to the baseline of the producer; a consumer is
behind the group, or has read some of its frames.
-/

namespace HermitMoq

open List TrackCache

variable {β : Type} {C : JsonCodec β}

/-! ### Replaying -/

namespace JsonCodec

variable (C)

/-- Replay the frames of a group: the first is a snapshot, the others are merge patches. -/
def replay (compression : Bool) (frames : List β) : Option Json := do
  let payloads ←
    if compression then (C.flate.decodeAll C.flate.newDecoder frames).1.toOption else some frames
  let values ← payloads.mapM C.fromSlice
  Json.replay values

variable {compression : Bool} {values : List Json}

/-- Texts that can be read are read. -/
theorem mapM_fromSlice (h : ∀ v ∈ values, C.Readable compression v) :
    values.mapM (C.fromSlice ∘ C.toVec) = some values := by
  induction values with
  | nil => rfl
  | cons value values ih =>
    obtain ⟨⟨hvalid, hparses, -⟩, h⟩ := forall_mem_cons.mp h
    rw [mapM_cons, Function.comp_apply, C.fromSlice_toVec value hvalid, if_pos hparses, ih h]
    rfl

/-- The frames of values that can be read are replayed to what the values amount to. -/
theorem replay_frames (h : ∀ v ∈ values, C.Readable compression v) :
    C.replay compression (C.frames compression values) = Json.replay values := by
  have htexts := C.mapM_fromSlice h
  rw [replay]
  cases compression with
  | false => simp [frames, htexts]
  | true =>
    have hdecode := C.inOrder (values.map C.toVec)
      (forall_mem_map.mpr fun v hv => (h v hv).inflates rfl)
    simp [frames, hdecode, Except.toOption, htexts]

end JsonCodec

/-! ### Reading -/

/-- The newest group of the producer carries the values. -/
structure JsonInner.Carries (p : JsonInner C) (values : List Json) : Prop where
  valid : ∀ v ∈ values, v.Valid
  arranged : p.track.Arranged
  newest : p.track.newest.written = C.frames p.config.compression values
  empty : values = [] ↔ p.track.states = []
  last : p.last = Json.replay values
  group : ∀ {q}, p.group = some q →
    q + 1 = p.track.states.length ∧ p.encoder = C.encoder p.config.compression values
  finished : p.group = none → p.track.states ≠ [] → p.track.newest.fin = true
  superseded : ∀ {q}, q + 1 < p.track.states.length → (p.track.state q).fin = true

/-- Where a consumer is with respect to the newest group, which carries the values. -/
structure JsonConsumer.Follows (t : TrackCache β) (values : List Json) (c : JsonConsumer C) :
    Prop where
  inOrder : c.track.InOrder
  index_le : c.track.index ≤ t.states.length
  ended : c.track.index = t.states.length → c.group = none → t.states ≠ [] →
    t.newest.fin = true
  reading : c.track.index = t.states.length → ∀ {g}, c.group = some g →
    g.sequence + 1 = t.states.length ∧ g.index ≤ values.length ∧ c.Reads values g.index

/-- A consumer that has read all there is. -/
def JsonConsumer.CaughtUp (t : TrackCache β) (values : List Json) (c : JsonConsumer C) : Prop :=
  c.track.index = t.states.length ∧ ∀ g ∈ c.group, g.index = values.length

/-- A frame that the consumer has still to read is evicted. -/
def JsonConsumer.Starved (t : TrackCache β) (c : JsonConsumer C) : Prop :=
  ∃ i < t.newest.offset,
    c.track.index < t.states.length ∨ ∃ g ∈ c.group, g.index ≤ i

namespace JsonConsumer

variable {t : TrackCache β} {values : List Json} {c : JsonConsumer C}

/-- Reading the newest group. -/
theorem Follows.read (h : Follows t values c)
    (hreadable : ∀ v ∈ values, C.Readable c.compressed v) (hindex : c.track.index = t.states.length)
    (hnewest : t.newest.written = C.frames c.compressed values) {g : GroupConsumer}
    (hgroup : c.group = some g) :
    (g.index < t.newest.offset ∧
      c.read t false = (c, .error (.net .cacheFull))) ∨
    ∃ c', c.read t false = (c', .ok (decide (g.index < values.length),
        !t.newest.fin)) ∧
      Follows t values c' ∧ CaughtUp t values c' ∧ c'.current = Json.replay values ∧
      c'.compressed = c.compressed := by
  obtain ⟨hseq, hle, hreads⟩ := h.reading hindex hgroup
  have hnew : t.state g.sequence = t.newest := by
    rw [newest, ← hseq, Nat.add_sub_cancel]
  by_cases hoffset : g.index < t.newest.offset
  · exact .inl ⟨hoffset, read_evicted hgroup (hnew ▸ hoffset) false⟩
  · obtain ⟨c', hread, hreads', hcompressed, htrack, hgroup'⟩ := hreads.read hgroup
      hreadable (hnew ▸ hnewest) hle (hnew ▸ Nat.le_of_not_lt hoffset) false
    rw [hnew] at hread hgroup'
    have hindex' : c'.track.index = t.states.length := htrack ▸ hindex
    refine .inr ⟨c', hread, ⟨htrack ▸ h.inOrder, hindex'.le, ?_, ?_⟩, ⟨hindex', ?_⟩, ?_,
      hcompressed⟩
    · intro _ hnone _
      rw [hnone] at hgroup'
      by_contra hfin
      rw [if_neg hfin] at hgroup'
      cases hgroup'
    · intro _ g' hg'
      rw [hg'] at hgroup'
      split_ifs at hgroup'
      cases hgroup'
      exact ⟨hseq, le_rfl, hreads'⟩
    · intro g' hg'
      rw [hg'] at hgroup'
      split_ifs at hgroup'
      cases hgroup'
      rfl
    · rw [hreads'.current, take_length]

/-- What a poll yields: nothing to a consumer that has caught up, the value of the newest group
to any other, unless a frame is evicted. -/
inductive Yields (t : TrackCache β) (values : List Json) (c c' : JsonConsumer C) :
    Poll (Except JsonError (Option Json)) → Prop
  | pending (h : CaughtUp t values c) (h' : CaughtUp t values c') : Yields t values c c' .pending
  | ended (h : CaughtUp t values c) (h' : CaughtUp t values c') :
      Yields t values c c' (.ready (.ok none))
  | value (h : ¬ CaughtUp t values c) (h' : CaughtUp t values c') {value : Json}
      (hvalue : Json.replay values = some value) : Yields t values c c' (.ready (.ok (some value)))
  | starved (h : ¬ CaughtUp t values c) (h' : ¬ CaughtUp t values c') (hstarved : c.Starved t) :
      Yields t values c c' (.ready (.error (.net .cacheFull)))

/-- Once the consumer is at the newest group. -/
theorem Follows.deliver (h : Follows t values c)
    (hreadable : ∀ v ∈ values, C.Readable c.compressed v) (hindex : c.track.index = t.states.length)
    (hnewest : t.newest.written = C.frames c.compressed values) (finished : Bool) :
    Follows t values (c.deliver t finished).1 ∧
      (c.deliver t finished).1.compressed = c.compressed ∧
      Yields t values c (c.deliver t finished).1 (c.deliver t finished).2 := by
  rw [JsonConsumer.deliver]
  cases hgroup : c.group with
  | none =>
    have hcaught : CaughtUp t values c := ⟨hindex, by simp [hgroup]⟩
    have hread : c.read t false = (c, .ok (false, false)) := by
      rw [JsonConsumer.read]
      split <;> simp_all
    rw [hread]
    split_ifs
    · exact ⟨h, rfl, .ended hcaught hcaught⟩
    · exact ⟨h, rfl, .pending hcaught hcaught⟩
  | some g =>
    have hcaught : CaughtUp t values c ↔ ¬ g.index < values.length := by
      obtain ⟨-, _, -⟩ := h.reading hindex hgroup
      simp only [CaughtUp, hindex, hgroup, true_and, Option.mem_def, Option.some.injEq,
        forall_eq']
      omega
    rcases h.read hreadable hindex hnewest hgroup with ⟨hoffset, hread⟩ |
      ⟨c', hread, hfollows, hcaught', hcurrent, hcompressed⟩
    · have hlt : g.index < values.length := by
        have hlen := congrArg length hnewest
        rw [JsonCodec.length_frames, GroupState.written, length_append] at hlen
        rw [GroupState.offset] at hoffset
        omega
      have hbehind : ¬ CaughtUp t values c := fun hc => hcaught.mp hc hlt
      rw [hread]
      exact ⟨h, rfl, .starved hbehind hbehind ⟨g.index, hoffset, .inr ⟨g, hgroup, le_rfl⟩⟩⟩
    · by_cases hlt : g.index < values.length
      · rw [decide_eq_true hlt] at hread
        rw [hread]
        have hbehind : ¬ CaughtUp t values c := fun hc => hcaught.mp hc hlt
        cases hreplay : Json.replay values with
        | none =>
          cases values with
          | nil => exact absurd hlt (Nat.not_lt_zero _)
          | cons x xs => cases hreplay
        | some value =>
          rw [hreplay] at hcurrent
          simp only [hcurrent]
          exact ⟨hfollows, hcompressed, .value hbehind hcaught' hreplay⟩
      · rw [decide_eq_false hlt] at hread
        rw [hread]
        have hc := hcaught.mpr hlt
        simp only
        split_ifs
        · exact ⟨hfollows, hcompressed, .pending hc hcaught'⟩
        · exact ⟨hfollows, hcompressed, .ended hc hcaught'⟩
        · exact ⟨hfollows, hcompressed, .pending hc hcaught'⟩

/-- What a poll does. -/
theorem Follows.pollNext (h : Follows t values c)
    (hreadable : ∀ v ∈ values, C.Readable c.compressed v) (ht : t.Arranged)
    (hnewest : t.newest.written = C.frames c.compressed values)
    (hempty : values = [] ↔ t.states = []) :
    Follows t values (c.pollNext t).1 ∧ (c.pollNext t).1.compressed = c.compressed ∧
      Yields t values c (c.pollNext t).1 (c.pollNext t).2 := by
  rw [JsonConsumer.pollNext]
  rcases h.index_le.eq_or_lt with hindex | hindex
  · rw [drain_end h.inOrder ht hindex.ge]
    exact h.deliver hreadable hindex hnewest _
  · obtain ⟨track, horder, hindex', hdrain⟩ := drain_newer h.inOrder ht hindex
    rw [hdrain]
    -- the consumer at the newest group, of which it has read nothing
    generalize hd : ({ c with
      track
      group := some { sequence := t.states.length - 1 }
      current := none
      framesRead := 0
      decoder := none
      groupSlices := [] } : JsonConsumer C) = d
    have hpos : 0 < values.length := by
      rw [length_pos_iff, ne_eq, hempty, ← length_eq_zero_iff]
      omega
    have hfollows : Follows t values d := by
      subst hd
      refine ⟨horder, hindex'.le, nofun, fun _ g hg => ?_⟩
      cases hg
      exact ⟨by dsimp only; omega, Nat.zero_le _, ⟨rfl, rfl, fun _ => rfl, nofun⟩⟩
    have hbehind : ¬ CaughtUp t values d := by
      subst hd
      exact fun hc => hpos.ne (hc.2 _ rfl)
    have hbehind' : ¬ CaughtUp t values c := fun hc => hindex.ne hc.1
    have hcompressed : d.compressed = c.compressed := by rw [← hd]
    obtain ⟨hf, hcomp, hyields⟩ := hfollows.deliver (hcompressed.symm ▸ hreadable)
      (by rw [← hd]; exact hindex') (hcompressed ▸ hnewest) t.finalSequence.isSome
    refine ⟨hf, hcomp.trans hcompressed, ?_⟩
    simp only
    generalize d.deliver t t.finalSequence.isSome = r at hyields ⊢
    obtain ⟨_, _⟩ := r
    cases hyields with
    | pending hc => exact absurd hc hbehind
    | ended hc => exact absurd hc hbehind
    | value _ hc' hvalue => exact .value hbehind' hc' hvalue
    | starved _ hc' hstarved =>
      obtain ⟨i, hi, -⟩ := hstarved
      exact .starved hbehind' hc' ⟨i, hi, .inl hindex⟩

/-- A consumer that is behind fails at a value of the newest group that it cannot read. -/
theorem pollNext_fails (hc : c.track.InOrder) (ht : t.Arranged)
    (hindex : c.track.index < t.states.length)
    (hnewest : t.newest.written = C.frames c.compressed values) (hoffset : t.newest.offset = 0)
    (hvalid : ∀ v ∈ values, v.Valid) (hnot : ¬ ∀ v ∈ values, C.Readable c.compressed v) :
    ∃ e, (c.pollNext t).2 = .ready (.error e) := by
  obtain ⟨track, -, -, hdrain⟩ := drain_newer hc ht hindex
  rw [JsonConsumer.pollNext, hdrain]
  have hreads : JsonConsumer.Reads (C := C)
      { track, group := some { sequence := t.states.length - 1 }, compressed := c.compressed }
      values 0 := ⟨rfl, rfl, fun _ => rfl, nofun⟩
  obtain ⟨_, e, hread⟩ := hreads.read_fails (g := { sequence := t.states.length - 1 }) rfl hvalid
    nofun hnot hnewest (Nat.zero_le _) (Nat.le_of_eq hoffset) false
  simp only [JsonConsumer.deliver]
  rw [hread]
  exact ⟨e, rfl⟩

end JsonConsumer

/-! ### Publishing -/

namespace JsonInner

open JsonConsumer

variable {p p' : JsonInner C} {values : List Json} {now : ℕ} {value : Json}

section

variable (h : p.Carries values)

include h

/-- Once the open group is finished, all groups are. -/
theorem Carries.finishGroup :
    p.finishGroup.Arranged ∧ p.finishGroup.states.length = p.track.states.length ∧
      (∀ q < p.track.states.length, (p.finishGroup.state q).fin = true) ∧
      p.finishGroup.newest.written = p.track.newest.written := by
  rw [JsonInner.finishGroup]
  cases hgroup : p.group with
  | none =>
    refine ⟨h.arranged, rfl, fun q hq => ?_, rfl⟩
    rcases (Nat.succ_le_of_lt hq).eq_or_lt with heq | hlt
    · have hnewest := h.finished hgroup fun hnil => by simp [hnil] at hq
      rwa [TrackCache.newest, ← heq, Nat.succ_sub_one] at hnewest
    · exact h.superseded hlt
  | some r =>
    have hr := (h.group hgroup).1
    obtain ⟨harr, hlen, hfin, hwritten, hothers⟩ := newest_finishGroup h.arranged hr
    refine ⟨harr, hlen, fun q hq => ?_, hwritten⟩
    by_cases heq : q = r
    · rw [TrackCache.newest, hlen, ← hr, Nat.add_sub_cancel] at hfin
      rw [heq]
      exact hfin
    · rw [hothers q heq]
      exact h.superseded (by omega)

/-- A new group with one frame. -/
theorem Carries.newGroup {q : ℕ} {t t' : TrackCache β} {frame : β}
    (happend : p.finishGroup.appendGroup now = .ok (q, t))
    (hwrite : t.writeFrame C.len q frame = .ok t') :
    t'.Arranged ∧ q + 1 = t'.states.length ∧
      t'.states.length = p.track.states.length + 1 ∧ t'.newest.written = [frame] ∧
      ∀ {r}, r + 1 < t'.states.length → (t'.state r).fin = true := by
  obtain ⟨harr, _, hfinished, -⟩ := h.finishGroup
  obtain ⟨harr₁, _, hstates⟩ := harr.appendGroup happend
  obtain ⟨hq₁, hempty⟩ := harr.newest_appendGroup happend
  obtain ⟨harr₂, hlen₂, -, hwritten, hothers⟩ := newest_writeFrame harr₁ hq₁ hwrite
  rw [hempty] at hwritten
  refine ⟨harr₂, hq₁.trans hlen₂.symm, by omega, hwritten, fun {r} hr => ?_⟩
  rw [hothers r (by omega), state, hstates, getD_append _ _ _ _ (by omega)]
  exact hfinished r (by omega)

/-- A snapshot starts a group that carries the value alone. -/
theorem Carries.snapshot (hvalue : value.Valid) (hok : p.snapshot now value = .ok p') :
    p'.Carries [value] ∧ p'.track.states.length = p.track.states.length + 1 ∧
      p'.config = p.config := by
  obtain ⟨q, _, t', happend, hwrite, hlast, hconfig, hrest⟩ := snapshot_ok hok
  obtain ⟨harr, hq, hlen, hwritten, hsuperseded⟩ := h.newGroup happend hwrite
  obtain ⟨hframes, hencoder⟩ := C.frames_concat p.config.compression [] value
  rw [JsonCodec.frames_nil] at hframes
  have hnewest : t'.newest.written = C.frames p.config.compression [value] :=
    hwritten.trans hframes.symm
  have hnonempty : t'.states ≠ [] := fun hnil => by simp [hnil] at hlen
  by_cases hratio : p.config.deltaRatio ≠ 0
  · rw [if_pos hratio] at hrest
    obtain ⟨htrack, hgroup, hencoder'⟩ := hrest
    refine ⟨⟨by simpa using hvalue, htrack ▸ harr, ?_, ?_, hlast, fun {r} hr => ?_, fun hnone => ?_,
      htrack ▸ hsuperseded⟩, ?_, hconfig⟩
    · rw [htrack, hconfig, hnewest]
    · simp [htrack, hnonempty]
    · obtain rfl : q = r := Option.some.inj (hgroup.symm.trans hr)
      rw [htrack, hconfig]
      exact ⟨hq, hencoder'.trans hencoder⟩
    · rw [hgroup] at hnone
      cases hnone
    · rw [htrack, hlen]
  · rw [if_neg hratio] at hrest
    obtain ⟨htrack, hgroup⟩ := hrest
    obtain ⟨harr', hlen', hfin, hwritten', hothers⟩ := newest_finishGroup harr hq
    have hnonempty' : (t'.finishGroup q).states ≠ [] := fun hnil => by
      rw [hnil, length_nil] at hlen'
      omega
    refine ⟨⟨by simpa using hvalue, htrack ▸ harr', ?_, ?_, hlast, fun {r} hr => ?_,
      fun _ _ => ?_, fun {r} hr => ?_⟩, ?_, hconfig⟩
    · rw [htrack, hconfig, hwritten', hnewest]
    · simp [htrack, hnonempty']
    · rw [hgroup] at hr
      cases hr
    · rw [htrack, hfin]
    · rw [htrack, hlen'] at hr
      rw [htrack, hothers r (by omega)]
      exact hsuperseded hr
    · rw [htrack, hlen', hlen]

/-- A delta is added to the values that the open group carries. -/
theorem Carries.delta {last patch : Json} {q : ℕ} {t : TrackCache β} (hpatch : patch.Valid)
    (hlast : p.last = some last) (hgroup : p.group = some q)
    (hwrite : p.track.writeFrame C.len q (C.slice p.encoder (C.toVec patch)).1 = .ok t)
    {deltaBytes groupFrames : ℕ} :
    JsonInner.Carries { p with
      track := t
      encoder := (C.slice p.encoder (C.toVec patch)).2
      last := some (last.mergePatch patch)
      deltaBytes
      groupFrames } (values ++ [patch]) := by
  obtain ⟨hq, hencoder⟩ := h.group hgroup
  obtain ⟨harr, hlen, _, hwritten, hothers⟩ := newest_writeFrame h.arranged hq hwrite
  obtain ⟨hframes, hencoder'⟩ := C.frames_concat p.config.compression values patch
  rw [← hencoder] at hframes hencoder'
  have hnonempty : t.states ≠ [] := fun hnil => by
    rw [hnil, length_nil] at hlen
    omega
  refine ⟨forall_mem_append.mpr ⟨h.valid, forall_mem_singleton.mpr hpatch⟩, harr, ?_,
    by simp [hnonempty], ?_, fun {r} hr => ?_, fun hnone => ?_, fun {r} hr => ?_⟩
  · rw [hwritten, h.newest, hframes]
  · have hreplay := h.last
    rw [hlast] at hreplay
    exact (Json.replay_concat hreplay.symm patch).symm
  · obtain rfl : q = r := Option.some.inj (hgroup.symm.trans hr)
    exact ⟨hq.trans hlen.symm, hencoder'⟩
  · rw [hgroup] at hnone
    cases hnone
  · rw [hlen] at hr
    rw [hothers r (by omega)]
    exact h.superseded hr

/-- An update changes nothing, or leaves every consumer with something to read. -/
theorem Carries.update (hvalue : value.Valid) (hok : p.update now value = .ok p') :
    p' = p ∨ ∃ values', p'.Carries values' ∧ p'.config = p.config ∧
      ∀ {c : JsonConsumer C}, Follows p.track values c →
        Follows p'.track values' c ∧ ¬ CaughtUp p'.track values' c := by
  rcases update_ok hok with ⟨-, -, -, -, rfl⟩ | hsnapshot |
    ⟨last, q, t, hlast, hgroup, -, hwrite, rfl⟩
  · exact .inl rfl
  · obtain ⟨hcarries, _, hconfig⟩ := h.snapshot hvalue hsnapshot
    refine .inr ⟨[value], hcarries, hconfig, fun {c} hc => ?_⟩
    have hlt : c.track.index < p'.track.states.length := by
      have := hc.index_le
      omega
    exact ⟨⟨hc.inOrder, hlt.le, fun heq => absurd heq hlt.ne, fun heq => absurd heq hlt.ne⟩,
      fun hcaught => hlt.ne hcaught.1⟩
  · refine .inr ⟨_, h.delta (Differ.valid_diff last hvalue) hlast hgroup hwrite, rfl,
      fun {c} hc => ?_⟩
    obtain ⟨-, hlen, hfin, -⟩ := newest_writeFrame h.arranged (h.group hgroup).1 hwrite
    have hnonempty : p.track.states ≠ [] := fun hnil => by
      have := (h.group hgroup).1
      rw [hnil] at this
      cases this
    -- the group is open, so a consumer at the newest group has not left it
    have hopen : c.track.index = p.track.states.length → c.group ≠ none := fun heq hnone => by
      rw [hc.ended heq hnone hnonempty] at hfin
      cases hfin
    refine ⟨⟨hc.inOrder, hlen ▸ hc.index_le, fun heq hnone _ => ?_, fun heq g hg => ?_⟩,
      fun hcaught => ?_⟩
    · exact absurd hnone (hopen (heq.trans hlen))
    · obtain ⟨hseq, hle, hreads⟩ := hc.reading (heq.trans hlen) hg
      exact ⟨hseq.trans hlen.symm, by rw [length_append]; omega, hreads.concat hle _⟩
    · have heq := hcaught.1.trans hlen
      obtain ⟨g, hg⟩ := Option.ne_none_iff_exists'.mp (hopen heq)
      obtain ⟨-, _, -⟩ := hc.reading heq hg
      have := hcaught.2 g hg
      rw [length_append, length_singleton] at this
      omega

/-- Finishing changes nothing for the consumers. -/
theorem Carries.finish (hok : p.finish = .ok p') :
    p'.Carries values ∧ p'.config = p.config ∧ p'.last = p.last ∧
      ∀ {c : JsonConsumer C}, (Follows p.track values c → Follows p'.track values c) ∧
        (CaughtUp p'.track values c ↔ CaughtUp p.track values c) := by
  obtain ⟨t, hfinish, hok⟩ := bind_eq_ok.mp hok
  cases hok
  obtain ⟨hstates, hkeep⟩ := finish_ok (mapError_eq_ok.mp hfinish)
  obtain ⟨harr, hlen, hfin, hwritten⟩ := h.finishGroup
  have hnewest : t.newest = p.finishGroup.newest := by
    rw [TrackCache.newest, TrackCache.newest, TrackCache.state, TrackCache.state, hstates]
  rw [← hstates] at hlen
  have hnil : t.states = [] ↔ p.track.states = [] := by
    rw [← length_eq_zero_iff, hlen, length_eq_zero_iff]
  have hall : ∀ q < p.track.states.length, (t.state q).fin = true := fun q hq => by
    rw [state, hstates]
    exact hfin q hq
  have hended : t.states ≠ [] → t.newest.fin = true := fun hne => by
    have := length_pos_iff.mpr hne
    exact hall _ (by omega)
  refine ⟨⟨h.valid, hkeep harr, ?_, h.empty.trans hnil.symm, h.last, (fun hq => by cases hq),
    fun _ => hended, fun hq => hall _ (by dsimp only at hq; omega)⟩, rfl, rfl,
    fun {c} => ⟨fun hc => ?_, ?_⟩⟩
  · rw [hnewest, hwritten, h.newest]
  · refine ⟨hc.inOrder, hlen ▸ hc.index_le, fun _ _ => hended, fun heq g hg => ?_⟩
    obtain ⟨hseq, hle, hreads⟩ := hc.reading (heq.trans hlen) hg
    exact ⟨hseq.trans hlen.symm, hle, hreads⟩
  · rw [CaughtUp, CaughtUp, hlen]

end

end JsonInner

end HermitMoq
