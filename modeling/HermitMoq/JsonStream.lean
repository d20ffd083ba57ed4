import HermitMoq.JsonGroups

/-!
# Streams of JSON Values

A producer of `moq-json` and its consumers, with any interleaving of updates and polls. The
producer publishes values; consumers are created and cloned at any time, and polled. The frames
of the newest group amount to the baseline of the producer, and what a consumer yields are
baselines, in order.
-/

namespace HermitMoq

open List

variable {β : Type} {C : JsonCodec β}

/-! ### The system -/

/-- A consumer, and the values yielded by it or, before it was cloned, by those it comes from. -/
structure JsonReader (C : JsonCodec β) where
  consumer : JsonConsumer C
  yielded : List Json := []

/-- A reader after a poll. -/
def JsonReader.poll (t : TrackCache β) (r : JsonReader C) : JsonReader C :=
  match r.consumer.pollNext t with
  | (consumer, .ready (.ok (some value))) => { consumer, yielded := r.yielded ++ [value] }
  | (consumer, _) => { r with consumer }

/-- A producer, its baselines after each update, and the consumers of its track. -/
structure JsonStream (C : JsonCodec β) where
  producer : JsonInner C
  baselines : List Json := []
  readers : List (JsonReader C) := []

namespace JsonStream

/-- What can happen: updates and polls in any order. -/
inductive Action
  | update (now : ℕ) (value : Json) (valid : value.Valid)
  | finish
  | consume
  | clone (i : ℕ)
  | poll (i : ℕ)

/-- `Producer::new` on a new track. -/
def new (C : JsonCodec β) (config : ProducerConfig) : JsonStream C := { producer := { config } }

/-- An action; updates and `finish` are taken to succeed. -/
def step (s : JsonStream C) : Action → Except JsonError (JsonStream C)
  | .update now value _ => do
    let producer ← s.producer.update now value
    .ok { s with producer, baselines := s.baselines ++ producer.last.toList }
  | .finish => do
    let producer ← s.producer.finish
    .ok { s with producer }
  | .consume =>
    let consumer : JsonConsumer C := { compressed := s.producer.config.compression }
    .ok { s with readers := s.readers ++ [{ consumer }] }
  | .clone i =>
    match s.readers[i]? with
    | some r => .ok { s with readers := s.readers ++ [{ r with consumer := r.consumer.clone }] }
    | none => .ok s
  | .poll i => .ok { s with readers := s.readers.modify i (JsonReader.poll s.producer.track) }

end JsonStream

/-! ### The invariant -/

/-- What a reader has yielded are baselines in order: up to the latest if it has caught up, and
before the latest otherwise. -/
structure JsonReader.Keeps (p : JsonInner C) (values baselines : List Json) (r : JsonReader C) :
    Prop where
  follows : r.consumer.Follows p.track values
  compressed : r.consumer.compressed = p.config.compression
  caughtUp : r.consumer.CaughtUp p.track values →
    r.yielded.Sublist baselines ∧ r.yielded.getLast? = p.last
  behind : ¬ r.consumer.CaughtUp p.track values → r.yielded.Sublist baselines.dropLast

/-- The invariant of a stream whose newest group carries the values. -/
structure JsonStream.Holds (s : JsonStream C) (values : List Json) : Prop where
  carries : s.producer.Carries values
  baselines : s.baselines.getLast? = s.producer.last
  readers : ∀ r ∈ s.readers, r.Keeps s.producer values s.baselines

namespace JsonReader

variable {p p' : JsonInner C} {values values' baselines : List Json} {r : JsonReader C}

section

variable (h : r.Keeps p values baselines)

include h

/-- What a reader has yielded are baselines, in order. -/
theorem Keeps.sublist : r.yielded.Sublist baselines := by
  by_cases hcaught : r.consumer.CaughtUp p.track values
  · exact (h.caughtUp hcaught).1
  · exact (h.behind hcaught).trans (dropLast_sublist baselines)

/-- An update that changes nothing. -/
theorem Keeps.unchanged (value : Json) :
    r.Keeps p values (baselines ++ [value]) := by
  refine ⟨h.follows, h.compressed, fun hcaught => ?_, fun _ => ?_⟩
  · obtain ⟨hsub, hlast⟩ := h.caughtUp hcaught
    exact ⟨hsub.trans (sublist_append_left _ _), hlast⟩
  · rw [dropLast_concat]
    exact h.sublist

/-- An update that leaves the reader with something to read. -/
theorem Keeps.published (hconfig : p'.config = p.config)
    (hfollows : r.consumer.Follows p'.track values')
    (hbehind : ¬ r.consumer.CaughtUp p'.track values') (value : Json) :
    r.Keeps p' values' (baselines ++ [value]) := by
  refine ⟨hfollows, h.compressed.trans (by rw [hconfig]), fun hc => absurd hc hbehind, fun _ => ?_⟩
  rw [dropLast_concat]
  exact h.sublist

/-- A clone has yielded what the reader has. -/
theorem Keeps.clone :
    Keeps p values baselines { r with consumer := r.consumer.clone } := by
  refine ⟨⟨h.follows.inOrder, h.follows.index_le, h.follows.ended, fun heq g hg => ?_⟩,
    h.compressed, h.caughtUp, h.behind⟩
  obtain ⟨hseq, hle, hreads⟩ := h.follows.reading heq hg
  exact ⟨hseq, hle, ⟨hreads.framesRead, hreads.current, hreads.slices, nofun⟩⟩

/-- What a poll does, if all that was written can be read. -/
theorem Keeps.pollNext (hC : C.Faithful) (hp : p.Carries values) :
    (r.consumer.pollNext p.track).1.Follows p.track values ∧
      (r.consumer.pollNext p.track).1.compressed = r.consumer.compressed ∧
      JsonConsumer.Yields p.track values r.consumer (r.consumer.pollNext p.track).1
        (r.consumer.pollNext p.track).2 :=
  h.follows.pollNext (fun v hv => hC.readable _ (hp.valid v hv)) hp.arranged
    (by rw [h.compressed, hp.newest]) hp.empty

/-- A poll yields the baseline to a reader that is behind. -/
theorem Keeps.poll (hC : C.Faithful) (hp : p.Carries values)
    (hlast : baselines.getLast? = p.last) : (r.poll p.track).Keeps p values baselines := by
  obtain ⟨hfollows, hcompressed, hyields⟩ := h.pollNext hC hp
  rw [JsonReader.poll]
  generalize r.consumer.pollNext p.track = polled at *
  obtain ⟨_, _⟩ := polled
  rw [h.compressed] at hcompressed
  cases hyields with
  | pending hcaught hcaught' | ended hcaught hcaught' =>
    exact ⟨hfollows, hcompressed, fun _ => h.caughtUp hcaught, fun hc => absurd hcaught' hc⟩
  | value hbehind hcaught' hvalue =>
    rw [hp.last, hvalue] at hlast
    refine ⟨hfollows, hcompressed, fun _ => ⟨?_, ?_⟩, fun hc => absurd hcaught' hc⟩
    · rw [← dropLast_append_getLast? _ hlast]
      exact (h.behind hbehind).append (List.Sublist.refl _)
    · rw [getLast?_concat, hp.last, hvalue]
  | starved hbehind hbehind' =>
    exact ⟨hfollows, hcompressed, fun hc => absurd hc hbehind', fun _ => h.behind hbehind⟩

/-- A reader to which a poll gives nothing has yielded the baseline. -/
theorem Keeps.getLast_yielded (hC : C.Faithful) (hp : p.Carries values)
    (hnothing : (r.consumer.pollNext p.track).2 = .pending ∨
      (r.consumer.pollNext p.track).2 = .ready (.ok none)) : r.yielded.getLast? = p.last := by
  obtain ⟨-, -, hyields⟩ := h.pollNext hC hp
  generalize (r.consumer.pollNext p.track).2 = outcome at *
  rcases hnothing with rfl | rfl <;> cases hyields with
  | _ hcaught => exact (h.caughtUp hcaught).2

/-- A poll fails only if a frame is evicted that the reader has still to read. -/
theorem Keeps.starved (hC : C.Faithful) (hp : p.Carries values) {e : JsonError}
    (herror : (r.consumer.pollNext p.track).2 = .ready (.error e)) :
    r.consumer.Starved p.track := by
  obtain ⟨-, -, hyields⟩ := h.pollNext hC hp
  rw [herror] at hyields
  cases hyields with
  | starved _ _ hstarved => exact hstarved

end

end JsonReader

namespace JsonStream

variable {s s' : JsonStream C} {values : List Json}

/-- A new stream. -/
theorem holds_new (C : JsonCodec β) (config : ProducerConfig) : (new C config).Holds [] where
  carries :=
    { valid := nofun
      arranged := ⟨⟨rfl, nofun, fun h => absurd rfl h⟩, rfl⟩
      newest := (C.frames_nil config.compression).symm
      empty := iff_of_true rfl rfl
      last := rfl
      group := nofun
      finished := fun _ h => absurd rfl h
      superseded := nofun }
  baselines := rfl
  readers := nofun

section

variable (h : s.Holds values)

include h

/-- An update leaves the readers behind, or changes nothing. -/
theorem Holds.update {now : ℕ} {value : Json} (valid : value.Valid)
    (hok : s.step (.update now value valid) = .ok s') :
    ∃ values', s'.Holds values' ∧ s'.producer.config = s.producer.config := by
  obtain ⟨_, hupdate, hok⟩ := bind_eq_ok.mp hok
  cases hok
  obtain ⟨last, hlast⟩ := Option.isSome_iff_exists.mp (JsonInner.isSome_last_update hupdate)
  rcases h.carries.update valid hupdate with rfl | ⟨values', hcarries, hconfig, hconsumers⟩
  · refine ⟨values, ⟨h.carries, ?_, fun r hr => ?_⟩, rfl⟩
    · simp [hlast]
    · rw [hlast]
      exact (h.readers r hr).unchanged last
  · refine ⟨values', ⟨hcarries, ?_, fun r hr => ?_⟩, hconfig⟩
    · simp [hlast]
    · obtain ⟨hfollows, hbehind⟩ := hconsumers (h.readers r hr).follows
      rw [hlast]
      exact (h.readers r hr).published hconfig hfollows hbehind last

/-- Finishing changes nothing for the readers. -/
theorem Holds.finish (hok : s.step .finish = .ok s') :
    s'.Holds values ∧ s'.producer.config = s.producer.config := by
  obtain ⟨_, hfinish, hok⟩ := bind_eq_ok.mp hok
  cases hok
  obtain ⟨hcarries, hconfig, hlast, hconsumers⟩ := h.carries.finish hfinish
  refine ⟨⟨hcarries, h.baselines.trans hlast.symm, fun r hr => ?_⟩, hconfig⟩
  have hkeeps := h.readers r hr
  refine ⟨hconsumers.1 hkeeps.follows, hkeeps.compressed.trans (by rw [hconfig]),
    fun hc => ?_, fun hc => ?_⟩
  · rw [hlast]
    exact hkeeps.caughtUp (hconsumers.2.mp hc)
  · exact hkeeps.behind fun hc' => hc (hconsumers.2.mpr hc')

/-- A consumer that is created starts at the beginning. -/
theorem Holds.consume :
    JsonReader.Keeps s.producer values s.baselines
      { consumer := { compressed := s.producer.config.compression } } := by
  refine ⟨⟨⟨rfl, le_rfl⟩, Nat.zero_le _, fun heq _ hne => ?_, nofun⟩, rfl, fun hcaught => ?_,
    fun _ => nil_sublist _⟩
  · exact absurd (length_eq_zero_iff.mp heq.symm) hne
  · refine ⟨nil_sublist _, ?_⟩
    rw [h.carries.last, h.carries.empty.mpr (length_eq_zero_iff.mp hcaught.1.symm)]
    rfl

/-- The invariant is kept by every step. -/
theorem Holds.step (hC : C.Faithful) {a : Action} (hok : s.step a = .ok s') :
    ∃ values', s'.Holds values' ∧ s'.producer.config = s.producer.config := by
  cases a with
  | update now value valid => exact h.update valid hok
  | finish => exact ⟨values, h.finish hok⟩
  | consume =>
    cases hok
    refine ⟨values, ⟨h.carries, h.baselines, fun r hr => ?_⟩, rfl⟩
    rcases mem_append.mp hr with hr | hr
    · exact h.readers r hr
    · rw [mem_singleton.mp hr]
      exact h.consume
  | clone i =>
    rw [JsonStream.step] at hok
    split at hok <;> rename_i hreader <;> cases hok
    · refine ⟨values, ⟨h.carries, h.baselines, fun r hr => ?_⟩, rfl⟩
      rcases mem_append.mp hr with hr | hr
      · exact h.readers r hr
      · rw [mem_singleton.mp hr]
        exact (h.readers _ (mem_of_getElem? hreader)).clone
    · exact ⟨values, h, rfl⟩
  | poll i =>
    cases hok
    refine ⟨values, ⟨h.carries, h.baselines, fun r hr => ?_⟩, rfl⟩
    obtain ⟨_, hj⟩ := mem_iff_getElem?.mp hr
    rw [getElem?_modify, Option.map_eq_map, Option.map_eq_some_iff] at hj
    obtain ⟨r₀, hr₀, rfl⟩ := hj
    have hkeeps := h.readers r₀ (mem_of_getElem? hr₀)
    split_ifs
    · exact hkeeps.poll hC h.carries h.baselines
    · exact hkeeps

end

/-- The invariant is kept by every run. -/
theorem holds_run (hC : C.Faithful) {config : ProducerConfig} {actions : List Action}
    (hrun : run step (new C config) actions = .ok s) :
    ∃ values, s.Holds values ∧ s.producer.config = config := by
  refine run_preserves
    (I := fun s : JsonStream C => ∃ values, s.Holds values ∧ s.producer.config = config)
    (fun {s a s'} hs hok => ?_) ⟨[], holds_new C config, rfl⟩ hrun
  obtain ⟨_, hs, hconfig⟩ := hs
  obtain ⟨values', hs', hconfig'⟩ := hs.step hC hok
  exact ⟨values', hs', hconfig'.trans hconfig⟩

/-- **A stream refines its baselines.** Let text and compression be read back as they were written.
After any run of updates that succeed and polls: the frames of the newest group replay to the
baseline; every reader has yielded baselines in the order they were produced; a reader to which a
poll gives nothing more has yielded the baseline; and a poll fails only if a frame that the
reader has still to read is evicted. -/
theorem stream_refines (C : JsonCodec β) (hC : C.Faithful) (config : ProducerConfig)
    (actions : List Action)
    {s : JsonStream C} (hrun : run step (new C config) actions = .ok s) :
    C.replay config.compression s.producer.track.newest.written = s.producer.last ∧
      s.baselines.getLast? = s.producer.last ∧
      ∀ r ∈ s.readers, r.yielded.Sublist s.baselines ∧
        ((r.consumer.pollNext s.producer.track).2 = .pending ∨
            (r.consumer.pollNext s.producer.track).2 = .ready (.ok none) →
          r.yielded.getLast? = s.producer.last) ∧
        ∀ e, (r.consumer.pollNext s.producer.track).2 = .ready (.error e) →
          r.consumer.Starved s.producer.track := by
  obtain ⟨values, h, hconfig⟩ := holds_run hC hrun
  have hreadable : ∀ v ∈ values, C.Readable config.compression v :=
    fun v hv => hC.readable _ (h.carries.valid v hv)
  refine ⟨?_, h.baselines, fun r hr => ?_⟩
  · rw [h.carries.newest, hconfig, JsonCodec.replay_frames _ hreadable, h.carries.last]
  · have hkeeps := h.readers r hr
    exact ⟨hkeeps.sublist, hkeeps.getLast_yielded hC h.carries,
      fun _ => hkeeps.starved hC h.carries⟩

/-- Frames that hold the values themselves, of any lengths. -/
def plainOf (len : Json → ℕ) : JsonCodec Json where
  len := len
  toVec value := value
  fromSlice value := some value
  flate := .plain Json FlateError
  parses _ := true
  limit := none
  fromSlice_toVec _ _ := rfl
  inOrder := StreamCodec.inOrder_plain _
  refuses _ _ _ hlarge := absurd nofun hlarge

/-- Frames that have the lengths of the texts. -/
def plainCodec : JsonCodec Json := plainOf Json.textLength

theorem faithful_plainCodec : plainCodec.Faithful := ⟨fun _ => rfl, rfl⟩

/-- An object with a number. -/
def counter (n : ℕ) : Json := .object [(['n'], .number (.posInt n))]

theorem valid_counter (n : ℕ) : (counter n).Valid :=
  .object (pairwise_singleton _ _) (forall_mem_singleton.mpr (.number _))

/-- A counter is published and changed while it is read, and its reader is cloned. -/
def counting : List Action :=
  [.update 0 (counter 1) (valid_counter 1), .consume, .poll 0,
    .update 1 (counter 2) (valid_counter 2), .clone 0, .poll 1, .finish]

/-- The reader has yielded the first value, and its clone the second one as well. -/
theorem stream_refines_counter :
    ∃ s : JsonStream plainCodec,
      run step (new plainCodec {}) counting = .ok s ∧
      plainCodec.replay false s.producer.track.newest.written = s.producer.last ∧
      s.readers.map JsonReader.yielded =
        [[counter 1], [counter 1, counter 2]] := by
  have hok : ∃ s : JsonStream plainCodec,
      run step (new plainCodec {}) counting = .ok s ∧
      s.readers.map JsonReader.yielded =
        [[counter 1], [counter 1, counter 2]] :=
    ⟨_, rfl, by decide +kernel⟩
  obtain ⟨s, hrun, hyielded⟩ := hok
  exact ⟨s, hrun, (stream_refines plainCodec faithful_plainCodec {} _ hrun).1, hyielded⟩

end JsonStream

end HermitMoq
