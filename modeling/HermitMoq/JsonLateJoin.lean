import HermitMoq.JsonStream

/-!
# Late Joiners of a JSON Track

A consumer that joins a track of `moq-json` late needs the snapshot of the newest group. The
producer starts a new group after a number of frames or of bytes, but the cache of the group has
limits of its own, and drops the oldest frames. The snapshot is still there exactly as long as no
delta takes the group past the limit of the cache. The parser and the decoder have limits as well,
which the producer does not know of.
-/

namespace HermitMoq

open TrackCache GroupState Nat List

/-! ### The cache of a group -/

namespace GroupState

variable {β : Type} {len : β → ℕ}

variable (len) in
/-- Eviction only goes on. -/
theorem length_le_evictLoop (fin : Bool) (evicted frames : List β) (cache : ℕ) :
    evicted.length ≤ (evictLoop len fin evicted frames cache).offset := by
  induction frames generalizing evicted cache with
  | nil => exact le_refl _
  | cons frame frames ih =>
    rw [evictLoop]
    split_ifs with hfull
    · refine le_trans ?_ (ih (evicted ++ [frame]) (cache - len frame))
      rw [length_append]
      exact le_add_right _ _
    · exact le_refl _

variable {g g' : GroupState β} {frame : β}

/-- A frame that is written is small enough. -/
theorem len_le_of_writeFrame (h : g.writeFrame len frame = .ok g') : len frame ≤ maxFrameSize := by
  rw [writeFrame] at h
  split_ifs at h with hlen
  exact Nat.le_of_not_lt hlen

/-- What is evicted stays evicted. -/
theorem offset_le_writeFrame (h : g.writeFrame len frame = .ok g') : g.offset ≤ g'.offset := by
  rw [writeFrame] at h
  split_ifs at h
  cases h
  exact length_le_evictLoop _ _ _ _ _

/-- A frame is written to a group that has evicted nothing. -/
theorem writeFrame_of_offset (hoffset : g.offset = 0)
    (hframes : g.frames.length < maxGroupFrames) (h : g.writeFrame len frame = .ok g') :
    (g'.offset = 0 ↔ g.cache + len frame ≤ maxGroupCache) ∧
      (g'.offset = 0 →
        g'.cache = g.cache + len frame ∧ g'.frames = g.frames ++ [frame]) := by
  rw [writeFrame] at h
  split_ifs at h
  cases h
  obtain ⟨first, rest, hcons⟩ := exists_cons_of_ne_nil (concat_ne_nil frame g.frames)
  have hlength : (first :: rest).length ≤ maxGroupFrames := by
    rw [← hcons, length_append]
    exact hframes
  rw [evict]
  dsimp only
  rw [hcons, evictLoop]
  split_ifs with hfull
  · -- the first frame is dropped
    have hle := length_le_evictLoop len g.fin (g.evicted ++ [first]) rest
      (g.cache + len frame - len first)
    rw [length_append, length_singleton] at hle
    refine ⟨iff_of_false (by omega) (by omega), fun hzero => ?_⟩
    omega
  · refine ⟨iff_of_true hoffset (by omega), fun _ => ⟨rfl, rfl⟩⟩

end GroupState

/-! ### Serving a late joiner -/

namespace JsonInner

variable {β : Type} {C : JsonCodec β} {p p' : JsonInner C} {last value : Json} {now : ℕ}

/-- The snapshot of the newest group is cached, and a consumer that is created now gets the
baseline from its first poll. -/
def Served (p : JsonInner C) : Prop :=
  ∀ value ∈ p.last, p.track.newest.offset = 0 ∧
    (JsonConsumer.pollNext p.track { compressed := p.config.compression : JsonConsumer C }).2 =
      .ready (.ok (some value))

/-- A snapshot that is cached and values that are readable serve the baseline. -/
theorem served_of_readable {values : List Json} (h : p.Carries values)
    (hoffset : p.track.newest.offset = 0)
    (hreadable : ∀ v ∈ values, C.Readable p.config.compression v) : p.Served := by
  intro value hvalue
  refine ⟨hoffset, ?_⟩
  have hreplay : Json.replay values = some value := h.last.symm.trans hvalue
  have hlength : p.track.states.length ≠ 0 := fun hzero => by
    rw [h.empty.mpr (length_eq_zero_iff.mp hzero)] at hreplay
    cases hreplay
  have hfollows : JsonConsumer.Follows p.track values
      ({ compressed := p.config.compression } : JsonConsumer C) :=
    ⟨⟨rfl, le_rfl⟩, zero_le _, fun heq => absurd heq.symm hlength,
      fun heq => absurd heq.symm hlength⟩
  obtain ⟨-, -, hyields⟩ := hfollows.pollNext hreadable h.arranged h.newest h.empty
  generalize JsonConsumer.pollNext p.track _ = polled at hyields ⊢
  obtain ⟨_, _⟩ := polled
  cases hyields with
  | pending hcaught | ended hcaught => exact absurd hcaught.1.symm hlength
  | value _ _ heq =>
    rw [hreplay] at heq
    rw [Option.some.inj heq]
  | starved _ _ hstarved =>
    obtain ⟨_, _, -⟩ := hstarved
    omega

/-- The snapshot has to be cached, and all values of the group have to be readable. -/
theorem served_iff {values : List Json} (h : p.Carries values) :
    p.Served ↔ p.track.newest.offset = 0 ∧ ∀ v ∈ values, C.Readable p.config.compression v := by
  refine ⟨fun hserved => ?_, fun hand => served_of_readable h hand.1 hand.2⟩
  cases values with
  | nil =>
    refine ⟨?_, fun _ hmem => absurd hmem not_mem_nil⟩
    rw [newest, state, h.empty.mp rfl]
    rfl
  | cons snapshot patches =>
    have hlength : p.track.states.length ≠ 0 := fun hzero =>
      cons_ne_nil _ _ (h.empty.mpr (length_eq_zero_iff.mp hzero))
    obtain ⟨hoffset, hpoll⟩ := hserved _ h.last
    refine ⟨hoffset, by_contra fun hnot => ?_⟩
    obtain ⟨e, hfail⟩ := JsonConsumer.pollNext_fails
      (c := ({ compressed := p.config.compression } : JsonConsumer C)) ⟨rfl, le_rfl⟩ h.arranged
      (Nat.pos_of_ne_zero hlength) h.newest hoffset h.valid hnot
    cases hpoll.symm.trans hfail

/-! ### The snapshot in the cache -/

/-- The value is published as a delta to the baseline. -/
def RidesOn (p : JsonInner C) (last value : Json) : Prop :=
  (diff last value).forcedSnapshot = false ∧ (diff last value).patch ≠ .object [] ∧
    p.deltaAllowed = true

/-- The length of the delta between the baseline and the value. -/
def deltaLen (p : JsonInner C) (last value : Json) : ℕ :=
  C.len (C.slice p.encoder (C.toVec (diff last value).patch)).1

/-- The length of the value as a snapshot. -/
def wholeLen (p : JsonInner C) (value : Json) : ℕ :=
  C.len (C.slice (C.newEncoder p.config.compression) (C.toVec value)).1

/-- The track takes another group. -/
def Appends (p : JsonInner C) : Prop :=
  ∃ q, p.track.pastMax = .ok q ∧ p.track.finalSequence.any (· ≤ q) = false

/-- The value is published as a snapshot. -/
def Renews (p : JsonInner C) (value : Json) : Prop :=
  ∀ last ∈ p.last, ¬ p.RidesOn last value ∧
    ¬ ((diff last value).forcedSnapshot = false ∧ (diff last value).patch = .object [])

/-- A delta that is small enough for a frame leaves the group within the limit of the cache and can
be read, and so can a snapshot that is small enough for a frame. -/
structure Fits (p : JsonInner C) (value : Json) : Prop where
  delta : ∀ last ∈ p.last, p.RidesOn last value → p.deltaLen last value ≤ maxFrameSize →
    p.snapshotLen + p.deltaBytes + p.deltaLen last value ≤ maxGroupCache ∧
      C.Readable p.config.compression (diff last value).patch
  snapshot : p.Renews value → p.Appends → p.wholeLen value ≤ maxFrameSize →
    C.Readable p.config.compression value

/-- The counters of the producer are about its open group. -/
structure Counted (p : JsonInner C) : Prop where
  carries : ∃ values, p.Carries values
  isOpen : ∀ {q}, p.group = some q → p.track.newest.fin = false
  counts : ∀ {q}, p.group = some q → p.track.newest.offset = 0 →
    p.track.newest.cache = p.snapshotLen + p.deltaBytes ∧
      p.track.newest.frames.length = p.groupFrames

/-- How a delta is published. -/
theorem update_of_ridesOn (hlast : p.last = some last)
    (h : p.RidesOn last value) {q : ℕ} (hgroup : p.group = some q) (now : ℕ) :
    p.update now value = (do
      let track ← (p.track.writeFrame C.len q
        (C.slice p.encoder (C.toVec (diff last value).patch)).1).mapError .net
      .ok { p with
        track
        encoder := (C.slice p.encoder (C.toVec (diff last value).patch)).2
        last := some (last.mergePatch (diff last value).patch)
        deltaBytes := p.deltaBytes + p.deltaLen last value
        groupFrames := p.groupFrames + 1 }) := by
  obtain ⟨hforced, hpatch, hallowed⟩ := h
  rw [update, hlast]
  dsimp only
  rw [if_neg fun hsame => hpatch hsame.2, if_neg (by simp [hforced, hallowed]), hgroup]
  rfl

/-- Without a delta, an update changes nothing or publishes a snapshot. -/
theorem update_of_not_ridesOn (h : ∀ last ∈ p.last, ¬ p.RidesOn last value) (now : ℕ) :
    ¬ p.Renews value ∧ p.update now value = .ok p ∨
      p.Renews value ∧ p.update now value = p.snapshot now value := by
  rw [update]
  cases hlast : p.last with
  | none =>
    refine .inr ⟨fun last hmem => ?_, rfl⟩
    rw [hlast] at hmem
    cases hmem
  | some last =>
    have hrides := h last hlast
    dsimp only
    split_ifs with hsame hsnapshot
    · exact .inl ⟨fun hrenews => (hrenews last hlast).2 hsame, rfl⟩
    · refine .inr ⟨fun last' hmem => ?_, rfl⟩
      obtain rfl : last = last' := Option.some.inj (hlast.symm.trans hmem)
      exact ⟨hrides, hsame⟩
    · rw [not_or, Bool.not_eq_true, Bool.not_eq_false] at hsnapshot
      exact absurd ⟨hsnapshot.1, fun hpatch => hsame ⟨hsnapshot.1, hpatch⟩, hsnapshot.2⟩ hrides

/-- Deltas are for an open group with few frames. -/
theorem RidesOn.group (h : p.RidesOn last value) :
    (∃ q, p.group = some q) ∧ p.groupFrames < maxDeltaFrames := by
  have hallowed := h.2.2
  simp only [deltaAllowed, Bool.and_eq_true, decide_eq_true_eq] at hallowed
  exact ⟨Option.isSome_iff_exists.mp hallowed.1.1.2, hallowed.1.2⟩

/-- When a group can be appended. -/
theorem appends_iff (p : JsonInner C) (now : ℕ) :
    p.Appends ↔ ∃ q t, p.finishGroup.appendGroup now = .ok (q, t) := by
  have hsame : p.finishGroup.pastMax = p.track.pastMax ∧
      p.finishGroup.finalSequence = p.track.finalSequence := by
    rw [finishGroup]
    cases p.group <;> exact ⟨rfl, rfl⟩
  rw [Appends, TrackCache.appendGroup, hsame.1, hsame.2]
  cases p.track.pastMax with
  | error e => simp [bind, Except.bind]
  | ok q =>
    simp only [bind, Except.bind, Except.ok.injEq, exists_eq_left']
    split_ifs with hfinal
    · simp [hfinal]
    · exact iff_of_true (Bool.eq_false_of_not_eq_true hfinal) ⟨_, _, rfl⟩

/-- The counters after a snapshot. -/
theorem counters_snapshot (h : p.snapshot now value = .ok p') :
    p'.deltaBytes = 0 ∧ p'.groupFrames = 1 ∧ p'.snapshotLen = p.wholeLen value := by
  obtain ⟨⟨_, _⟩, -, h⟩ := bind_eq_ok.mp h
  dsimp only at h
  obtain ⟨_, -, h⟩ := bind_eq_ok.mp h
  split_ifs at h <;> cases h <;> exact ⟨rfl, rfl, rfl⟩

/-- When a snapshot is accepted. -/
theorem Counted.snapshot_ok_iff (h : p.Counted) :
    (∃ p', p.snapshot now value = .ok p') ↔ p.Appends ∧ p.wholeLen value ≤ maxFrameSize := by
  obtain ⟨_, hcarries⟩ := h.carries
  rw [appends_iff p now]
  constructor
  · rintro ⟨p', hok⟩
    obtain ⟨q, t, _, happend, hwrite, -⟩ := snapshot_ok hok
    obtain ⟨_, hwrite, -⟩ := writeFrame_ok hwrite
    rw [wholeLen]
    exact ⟨⟨q, t, happend⟩, len_le_of_writeFrame hwrite⟩
  · rintro ⟨⟨q, t, happend⟩, hlen⟩
    obtain ⟨hq, hempty⟩ := hcarries.finishGroup.1.newest_appendGroup happend
    have hstate : t.state q = .empty := by
      rw [← hempty, TrackCache.newest, ← hq, Nat.add_sub_cancel]
    rw [wholeLen] at hlen
    obtain ⟨_, hwrite⟩ : ∃ t', t.writeFrame C.len q
        (C.slice (C.newEncoder p.config.compression) (C.toVec value)).1 = .ok t' := by
      rw [TrackCache.writeFrame, hstate, GroupState.writeFrame, if_neg (not_lt.mpr hlen)]
      exact ⟨_, rfl⟩
    rw [JsonInner.snapshot, happend]
    simp only [bind, Except.bind, Except.mapError, hwrite]
    split_ifs <;> exact ⟨_, rfl⟩

/-- A snapshot fits into the cache. -/
theorem Counted.snapshot (h : p.Counted) (hvalue : value.Valid)
    (hok : p.snapshot now value = .ok p') :
    p'.Counted ∧ (p'.Served ↔ C.Readable p.config.compression value) := by
  obtain ⟨values, hcarries⟩ := h.carries
  obtain ⟨hdelta, hframes, hlen⟩ := counters_snapshot hok
  obtain ⟨q, _, t', happend, hwrite, -, -, hrest⟩ := snapshot_ok hok
  obtain ⟨hq, hempty⟩ := hcarries.finishGroup.1.newest_appendGroup happend
  have hnewest := writeFrame_newest hq hwrite
  have hopen := (written_writeFrame hnewest).2.2
  rw [hempty] at hnewest
  have hsize := len_le_of_writeFrame hnewest
  obtain ⟨hoffset, hcache⟩ := writeFrame_of_offset rfl
    (by simp [empty, maxGroupFrames]) hnewest
  replace hoffset := hoffset.mpr (by rw [empty, zero_add]; exact hsize)
  obtain ⟨hcache, hcached⟩ := hcache hoffset
  obtain ⟨hcarries', -, hconfig⟩ := hcarries.snapshot hvalue hok
  suffices hcounted : p'.Counted ∧ p'.track.newest.offset = 0 by
    refine ⟨hcounted.1, ?_⟩
    rw [served_iff hcarries', hconfig, forall_mem_singleton, and_iff_right hcounted.2]
  replace hcarries' : ∃ values, p'.Carries values := ⟨_, hcarries'⟩
  split_ifs at hrest with hratio
  · obtain ⟨rfl, -, -⟩ := hrest
    refine ⟨⟨hcarries', fun _ => hopen, fun _ _ => ⟨?_, ?_⟩⟩, hoffset⟩
    · rw [hcache, hdelta, hlen]
      exact zero_add _
    · rw [hcached, hframes]
      rfl
  · obtain ⟨htrack, hgroup⟩ := hrest
    have hclosed : ∀ {q'}, p'.group ≠ some q' := fun hsome => by
      rw [hgroup] at hsome
      cases hsome
    refine ⟨⟨hcarries', fun hsome => absurd hsome hclosed, fun hsome => absurd hsome hclosed⟩, ?_⟩
    have hlength : q + 1 = t'.states.length := by
      obtain ⟨_, -, rfl⟩ := writeFrame_ok hwrite
      rw [length_setState, hq]
    rw [htrack, TrackCache.finishGroup, TrackCache.newest_setState hlength]
    rw [TrackCache.newest, ← hlength, Nat.add_sub_cancel] at hoffset
    exact hoffset

/-- A delta pushes the snapshot out of the cache exactly if the group gets too large. -/
theorem Counted.delta (h : p.Counted) (hvalue : value.Valid) (hlast : p.last = some last)
    (hrides : p.RidesOn last value) (hok : p.update now value = .ok p') :
    p'.Counted ∧ (p.Served → (p'.Served ↔
      p.snapshotLen + p.deltaBytes + p.deltaLen last value ≤ maxGroupCache ∧
        C.Readable p.config.compression (diff last value).patch)) := by
  obtain ⟨values, hcarries⟩ := h.carries
  obtain ⟨⟨_, hgroup⟩, hframes⟩ := hrides.group
  rw [update_of_ridesOn hlast hrides hgroup] at hok
  obtain ⟨_, hwrite, hok⟩ := bind_eq_ok.mp hok
  cases hok
  replace hwrite := mapError_eq_ok.mp hwrite
  have hnewest := writeFrame_newest (hcarries.group hgroup).1 hwrite
  have hpatch := Differ.valid_diff last hvalue
  have hroom : p.groupFrames < maxGroupFrames := hframes.trans (by decide)
  refine ⟨⟨⟨_, hcarries.delta hpatch hlast hgroup hwrite⟩,
    fun _ => (written_writeFrame hnewest).2.2, fun _ hoffset => ?_⟩, fun hserved => ?_⟩
  · have hzero : p.track.newest.offset = 0 :=
      eq_zero_of_le_zero (hoffset ▸ offset_le_writeFrame hnewest)
    obtain ⟨hcache, hcount⟩ := h.counts hgroup hzero
    obtain ⟨hcache', hframes'⟩ := (writeFrame_of_offset hzero (hcount ▸ hroom) hnewest).2 hoffset
    rw [hcache', hframes', length_append, hcache, hcount]
    exact ⟨add_assoc _ _ _, rfl⟩
  · obtain ⟨hoffset, hreadable⟩ := (served_iff hcarries).mp hserved
    obtain ⟨hcache, hcount⟩ := h.counts hgroup hoffset
    rw [served_iff (hcarries.delta hpatch hlast hgroup hwrite), forall_mem_append,
      forall_mem_singleton, and_iff_right hreadable,
      (writeFrame_of_offset hoffset (hcount ▸ hroom) hnewest).1, hcache]
    rfl

/-- Whether late joiners are served after an update. -/
theorem Counted.update (h : p.Counted) (hvalue : value.Valid)
    (hok : p.update now value = .ok p') :
    p'.Counted ∧ (p.Served → (p'.Served ↔ p.Fits value)) := by
  by_cases hrides : ∃ last ∈ p.last, p.RidesOn last value
  · obtain ⟨last, hlast, hrides⟩ := hrides
    obtain ⟨hcounted, hiff⟩ := h.delta hvalue hlast hrides hok
    refine ⟨hcounted, fun hserved => (hiff hserved).trans ⟨fun hfits => ⟨?_, ?_⟩, fun hfits => ?_⟩⟩
    · intro last' hlast' _ _
      obtain rfl : last = last' := Option.some.inj (hlast.symm.trans hlast')
      exact hfits
    · exact fun hrenews => absurd hrides (hrenews last hlast).1
    · refine hfits.delta last hlast hrides ?_
      obtain ⟨⟨_, hgroup⟩, -⟩ := hrides.group
      rw [update_of_ridesOn hlast hrides hgroup] at hok
      obtain ⟨_, hwrite, -⟩ := bind_eq_ok.mp hok
      obtain ⟨_, hwrite, -⟩ := writeFrame_ok (mapError_eq_ok.mp hwrite)
      rw [deltaLen]
      exact len_le_of_writeFrame hwrite
  · have hnot : ∀ last ∈ p.last, ¬ p.RidesOn last value := fun last hlast h =>
      hrides ⟨last, hlast, h⟩
    have hdelta {last : Json} {P : Prop} (hlast : last ∈ p.last) (h : p.RidesOn last value) : P :=
      absurd h (hnot last hlast)
    rcases update_of_not_ridesOn hnot now with ⟨hrenews, heq⟩ | ⟨hrenews, heq⟩
    · rw [heq] at hok
      cases hok
      refine ⟨h, fun hserved => iff_of_true hserved ⟨fun _ hlast h => hdelta hlast h, ?_⟩⟩
      exact fun h => absurd h hrenews
    · rw [heq] at hok
      obtain ⟨hcounted, hiff⟩ := h.snapshot hvalue hok
      obtain ⟨happends, hlen⟩ := h.snapshot_ok_iff.mp ⟨p', hok⟩
      refine ⟨hcounted, fun _ => hiff.trans ⟨fun hreadable => ⟨?_, fun _ _ _ => hreadable⟩,
        fun hfits => hfits.snapshot hrenews happends hlen⟩⟩
      exact fun _ hlast h => hdelta hlast h

/-- A producer of a new track. -/
theorem counted_new (config : ProducerConfig) : ({ config } : JsonInner C).Counted where
  carries := ⟨[], nofun, ⟨⟨rfl, by simp, by simp⟩, rfl⟩, by
    rw [JsonCodec.frames_nil]
    rfl, by simp, rfl, by simp, by simp, by simp⟩
  isOpen := by simp
  counts := by simp

end JsonInner

end HermitMoq
