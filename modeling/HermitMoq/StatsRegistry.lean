import HermitMoq.Path
import HermitMoq.Runs
import HermitMoq.Table

/-!
# The Registries of Stats

The aggregator of `moq-net` (`stats.rs`) keeps counters behind shared pointers: those of a
broadcast by its path, those of the sessions by their root. Guards hold the counters and bump
them. A task takes a snapshot of every slot at each tick, hands it on if the slot is live or has
changed, and then removes the counters that only the map refers to. The source has this loop twice;
here a `Gauge` says what is counted.
-/

namespace HermitMoq

open Option

/-- `Tier`. -/
inductive Tier
  | external
  | internal
  deriving DecidableEq, Repr

/-- `Side`. -/
inductive Side
  | publisher
  | subscriber
  deriving DecidableEq, Repr

/-- `Counters`, and the `Snapshot` of them. -/
structure Counters where
  announced : ℕ := 0
  announcedClosed : ℕ := 0
  broadcasts : ℕ := 0
  broadcastsClosed : ℕ := 0
  subscriptions : ℕ := 0
  subscriptionsClosed : ℕ := 0
  bytes : ℕ := 0
  frames : ℕ := 0
  groups : ℕ := 0
  deriving DecidableEq, Repr

/-- What the guards of a broadcast bump. -/
inductive Bump
  | announced
  | announcedClosed
  | broadcasts
  | broadcastsClosed
  | subscriptions
  | subscriptionsClosed
  | bytes (n : ℕ)
  | frames
  | groups
  deriving DecidableEq, Repr

/-- `AtomicU64::fetch_add`. -/
def fetchAdd (n k : ℕ) : ℕ := (n + k) % 2 ^ 64

/-- A bump of one counter. -/
def Counters.bump (c : Counters) : Bump → Counters
  | .announced => { c with announced := fetchAdd c.announced 1 }
  | .announcedClosed => { c with announcedClosed := fetchAdd c.announcedClosed 1 }
  | .broadcasts => { c with broadcasts := fetchAdd c.broadcasts 1 }
  | .broadcastsClosed => { c with broadcastsClosed := fetchAdd c.broadcastsClosed 1 }
  | .subscriptions => { c with subscriptions := fetchAdd c.subscriptions 1 }
  | .subscriptionsClosed => { c with subscriptionsClosed := fetchAdd c.subscriptionsClosed 1 }
  | .bytes n => { c with bytes := fetchAdd c.bytes n }
  | .frames => { c with frames := fetchAdd c.frames 1 }
  | .groups => { c with groups := fetchAdd c.groups 1 }

/-- `SessionCounters`, and the `SessionSnapshot` of them. -/
structure SessionCounters where
  sessions : ℕ := 0
  sessionsClosed : ℕ := 0
  deriving DecidableEq, Repr

/-- A bump by `SessionStats`: at its end, or at its beginning. -/
def SessionCounters.bump (c : SessionCounters) (closed : Bool) : SessionCounters :=
  if closed then { c with sessionsClosed := fetchAdd c.sessionsClosed 1 }
  else { c with sessions := fetchAdd c.sessions 1 }

/-- What a registry counts, in slots: the counters, their bumps, and when a slot is live. -/
structure Gauge (ι V B : Type) where
  slots : List ι
  zero : V
  bump : V → B → V
  live : V → Bool

/-- The counters of a broadcast, one slot for each side and tier, as in `zip_slots`. -/
def broadcastGauge : Gauge (Side × Tier) Counters Bump where
  slots := [(.publisher, .external), (.subscriber, .external), (.publisher, .internal),
    (.subscriber, .internal)]
  zero := {}
  bump := Counters.bump
  live c := c.announced != c.announcedClosed || c.subscriptions != c.subscriptionsClosed ||
    c.broadcasts != c.broadcastsClosed

/-- The sessions of a root, on one tier. -/
def sessionGauge : Gauge Unit SessionCounters Bool where
  slots := [()]
  zero := {}
  bump := SessionCounters.bump
  live c := c.sessions != c.sessionsClosed

/-- Where `run_publisher` is in a tick: before it, at the slots of the entries it has cloned, or
before the entries are collected. -/
inductive Tick (κ ι : Type)
  | idle
  | snapping (todo : List (κ × ℕ × ι))
  | collecting
  deriving DecidableEq, Repr

/-- A map of shared counters, which are numbered, with those who hold them. -/
structure Registry (κ ι V : Type) where
  map : Table κ ℕ := ∅
  created : ℕ := 0
  values : ℕ → ι → V
  /-- The pointers to counters outside of the map, apart from those cloned in a tick. -/
  held : List ℕ := []
  tick : Tick κ ι := .idle
  /-- `local`: the last snapshots emitted. -/
  prevEmitted : κ → ι → Option V := fun _ _ => none
  /-- What was handed to `emit`. No step reads it. -/
  emitted : List (ℕ × ι × V) := []
  /-- The counters that were removed, with their values then. No step reads it. -/
  removed : List (ℕ × (ι → V)) := []
  /-- Whether a slot was bumped since its last snapshot. No step reads it. -/
  bumped : ℕ → ι → Bool := fun _ _ => false

namespace Registry

variable {κ ι V B : Type} [DecidableEq κ] (G : Gauge ι V B) (s : Registry κ ι V)

/-- Change a value in one slot. -/
def setSlot {α β : Type} [DecidableEq α] [DecidableEq ι] (f : α → ι → β) (a : α) (slot : ι)
    (v : β) : α → ι → β :=
  fun a' slot' => if a' = a ∧ slot' = slot then v else f a' slot'

/-- A step: of those who hold counters, or of `run_publisher`. -/
inductive Action (κ ι B : Type)
  | acquire (key : κ)
  | clone (id : ℕ)
  | bump (id : ℕ) (slot : ι) (b : B)
  | release (id : ℕ)
  | cloneEntries
  | snapshot (i : ℕ)
  | dropClones
  | retain
  deriving DecidableEq, Repr

/-- No counters. -/
def init : Registry κ ι V := { values := fun _ _ => G.zero }

/-- `Stats::entry` and `Stats::session_counters`: get or create. -/
def acquire (s : Registry κ ι V) (key : κ) : Registry κ ι V :=
  match s.map.lookup key with
  | some id => { s with held := id :: s.held }
  | none =>
    { s with
      map := s.map.insert key s.created
      created := s.created + 1
      held := s.created :: s.held }

/-- A bump of one counter. -/
def bump [DecidableEq ι] (s : Registry κ ι V) (id : ℕ) (slot : ι) (b : B) : Registry κ ι V :=
  { s with
    values := setSlot s.values id slot (G.bump (s.values id slot) b)
    bumped := setSlot s.bumped id slot true }

/-- `process_slot` and `process_session_slot`. -/
def processSlot [DecidableEq ι] [DecidableEq V] (s : Registry κ ι V) (key : κ) (id : ℕ)
    (slot : ι) : Registry κ ι V :=
  let snap := s.values id slot
  let changed := snap ≠ (s.prevEmitted key slot).getD G.zero
  { s with
    prevEmitted := if changed then setSlot s.prevEmitted key slot (some snap) else s.prevEmitted
    emitted := if G.live snap || changed then (id, slot, snap) :: s.emitted else s.emitted
    bumped := setSlot s.bumped id slot false }

/-- Keep the counters that are held, and forget what was emitted for the others. -/
def collect (s : Registry κ ι V) : Registry κ ι V :=
  let keep : κ → ℕ → Option ℕ := fun _ id => if id ∈ s.held then some id else none
  let map := s.map.retain keep
  { s with
    map
    tick := .idle
    prevEmitted := fun key => if (map.lookup key).isSome then s.prevEmitted key else fun _ => none
    removed := (s.map.dropped keep).map (fun id => (id, s.values id)) ++ s.removed }

/-- A step; it fails if nobody is there to take it. -/
def step [DecidableEq ι] [DecidableEq V] (s : Registry κ ι V) :
    Action κ ι B → Except Unit (Registry κ ι V)
  | .acquire key => .ok (s.acquire key)
  | .clone id => if id ∈ s.held then .ok { s with held := id :: s.held } else .error ()
  | .bump id slot b => if id ∈ s.held then .ok (s.bump G id slot b) else .error ()
  | .release id => if id ∈ s.held then .ok { s with held := s.held.erase id } else .error ()
  | .cloneEntries =>
    match s.tick with
    | .idle =>
      let todo := s.map.entries.flatMap fun e => G.slots.map fun slot => (e.1, e.2, slot)
      .ok { s with tick := .snapping todo }
    | _ => .error ()
  | .snapshot i =>
    match s.tick with
    | .snapping todo =>
      match todo[i]? with
      | some (key, id, slot) =>
        .ok { s.processSlot G key id slot with tick := .snapping (todo.eraseIdx i) }
      | none => .error ()
    | _ => .error ()
  | .dropClones =>
    match s.tick with
    | .snapping [] => .ok { s with tick := .collecting }
    | _ => .error ()
  | .retain =>
    match s.tick with
    | .collecting => .ok s.collect
    | _ => .error ()

/-! ### The keys of the counters -/

/-- The actions of `run_publisher`. -/
def Action.isTask : Action κ ι B → Bool
  | .cloneEntries | .snapshot _ | .dropClones | .retain => true
  | _ => false

/-- Counters are looked up, or added to the map. -/
structure Acquired (s s' : Registry κ ι V) (key : κ) (id : ℕ) : Prop where
  values : s'.values = s.values
  held : s'.held = id :: s.held
  lookup : s'.map.lookup key = some id
  other : ∀ key', key' ≠ key → s'.map.lookup key' = s.map.lookup key'
  known : s.map.lookup key = some id ∧ s'.created = s.created ∨
    s.map.lookup key = none ∧ id = s.created ∧ s'.created = s.created + 1

theorem exists_acquired (key : κ) :
    ∃ id, s.Acquired (s.acquire key) key id := by
  rw [acquire]
  split
  next id hid => exact ⟨id, rfl, rfl, hid, fun _ _ => rfl, .inl ⟨hid, rfl⟩⟩
  next hnone =>
    exact ⟨s.created, rfl, rfl, AList.lookup_insert _, fun _ hne => AList.lookup_insert_ne hne,
      .inr ⟨hnone, rfl, rfl⟩⟩

/-- The task keeps the counters that are held, and no counters change by it. -/
structure Collects (s s' : Registry κ ι V) : Prop where
  values : s'.values = s.values
  created : s'.created = s.created
  held : s'.held = s.held
  old : ∀ {key id}, s'.map.lookup key = some id → s.map.lookup key = some id
  kept : ∀ {key id}, s.map.lookup key = some id → id ∈ s.held → s'.map.lookup key = some id

theorem collects_collect : s.Collects s.collect := by
  refine ⟨rfl, rfl, rfl, fun {key id} hid => ?_, fun {key id} hid hheld => ?_⟩
  · rw [collect, Table.lookup_retain, bind_eq_some_iff] at hid
    obtain ⟨_, hid', hkeep⟩ := hid
    split_ifs at hkeep
    exact some.inj hkeep ▸ hid'
  · rw [collect, Table.lookup_retain, hid, bind_some, if_pos hheld]

variable {a : Action κ ι B}

/-- A step of the task. -/
theorem collects_step [DecidableEq ι] [DecidableEq V] {s s' : Registry κ ι V}
    (ha : a.isTask = true) (h : step G s a = .ok s') : s.Collects s' := by
  have hsame {t : Registry κ ι V} (hvalues : t.values = s.values) (hcreated : t.created = s.created)
      (hheld : t.held = s.held) (hmap : t.map = s.map) : s.Collects t :=
    ⟨hvalues, hcreated, hheld, fun h => hmap ▸ h, fun h _ => hmap ▸ h⟩
  cases a with
  | acquire | clone | bump | release => cases ha
  | cloneEntries | dropClones =>
    rw [step] at h
    split at h
    · cases h
      exact hsame rfl rfl rfl rfl
    · cases h
  | snapshot i =>
    rw [step] at h
    split at h
    · split at h
      · cases h
        exact hsame rfl rfl rfl rfl
      · cases h
    · cases h
  | retain =>
    rw [step] at h
    split at h
    · cases h
      exact s.collects_collect
    · cases h

/-- Every key has counters of its own, and those that are not created yet are zero. -/
structure Numbered (s : Registry κ ι V) : Prop where
  lt : ∀ {key id}, s.map.lookup key = some id → id < s.created
  injective : ∀ {key key' id}, s.map.lookup key = some id → s.map.lookup key' = some id → key = key'
  fresh : ∀ id, s.created ≤ id → ∀ slot, s.values id slot = G.zero

variable {G} {s' : Registry κ ι V} {s}

theorem numbered_init : (init G : Registry κ ι V).Numbered G where
  lt h := nomatch h
  injective h := nomatch h
  fresh _ _ _ := rfl

variable {key : κ} {id : ℕ}

/-- Counters that are acquired keep the numbering. -/
theorem Numbered.acquire (h : s.Numbered G) (hacq : s.Acquired s' key id) : s'.Numbered G := by
  have hlt : id < s'.created ∧ s.created ≤ s'.created := by
    rcases hacq.known with ⟨hid, hcreated⟩ | ⟨-, rfl, hcreated⟩
    · exact ⟨hcreated ▸ h.lt hid, hcreated.ge⟩
    · omega
  have hkey {key'} (hid : s'.map.lookup key' = some id) : key' = key := by
    by_contra hne
    rw [hacq.other key' hne] at hid
    rcases hacq.known with ⟨hold, -⟩ | ⟨-, rfl, -⟩
    · exact hne (h.injective hid hold)
    · exact absurd (h.lt hid) (lt_irrefl _)
  refine ⟨fun {key' id'} hid => ?_, fun {key₁ key₂ id'} hid₁ hid₂ => ?_, fun id' hid slot => ?_⟩
  · by_cases hkey' : key' = key
    · rw [hkey', hacq.lookup] at hid
      exact some.inj hid ▸ hlt.1
    · exact (h.lt (hacq.other _ hkey' ▸ hid)).trans_le hlt.2
  · by_cases hid : id' = id
    · rw [hid] at hid₁ hid₂
      rw [hkey hid₁, hkey hid₂]
    · have hold {key'} (hid' : s'.map.lookup key' = some id') : s.map.lookup key' = some id' := by
        rwa [hacq.other] at hid'
        rintro rfl
        exact hid (some.inj (hid' ▸ hacq.lookup))
      exact h.injective (hold hid₁) (hold hid₂)
  · rw [hacq.values]
    exact h.fresh id' (hlt.2.trans hid) slot

theorem Numbered.bump [DecidableEq ι] (h : s.Numbered G) (hid : s.map.lookup key = some id)
    (slot : ι) (b : B) : (s.bump G id slot b).Numbered G := by
  refine ⟨h.lt, h.injective, fun id' hid' slot' => ?_⟩
  have hne : id' ≠ id := ((h.lt hid).trans_le hid').ne'
  simp only [Registry.bump, setSlot, hne, false_and, if_false]
  exact h.fresh id' hid' slot'

theorem Numbered.collects (h : s.Numbered G) (hc : s.Collects s') : s'.Numbered G where
  lt hid := hc.created ▸ h.lt (hc.old hid)
  injective hid hid' := h.injective (hc.old hid) (hc.old hid')
  fresh id hid slot := by
    rw [hc.values]
    exact h.fresh id (hc.created ▸ hid) slot

variable (G)

/-! ### What is emitted -/

/-- Nothing was counted in the slot, or its value was handed to `emit`. -/
def Told (s : Registry κ ι V) (id : ℕ) (slot : ι) (v : V) : Prop :=
  v = G.zero ∨ (id, slot, v) ∈ s.emitted

/-- The values of all counters that were removed were handed to `emit`. -/
def Covered (s : Registry κ ι V) : Prop :=
  ∀ r ∈ s.removed, ∀ slot ∈ G.slots, s.Told G r.1 slot (r.2 slot)

instance [DecidableEq ι] [DecidableEq V] (s : Registry κ ι V) : Decidable (s.Covered G) := by
  unfold Covered Told
  infer_instance

/-- The counters that are going to be removed were not bumped since their last snapshot. -/
def Settled (s : Registry κ ι V) : Action κ ι B → Prop
  | .retain => ∀ e ∈ s.map.entries, e.2 ∉ s.held → ∀ slot ∈ G.slots, s.bumped e.2 slot = false
  | _ => True

instance (s : Registry κ ι V) (a : Action κ ι B) : Decidable (s.Settled G a) := by
  cases a <;> unfold Settled <;> infer_instance

/-- What is known of the snapshots. -/
structure Sound (s : Registry κ ι V) : Prop where
  told : ∀ id slot, s.bumped id slot = false → s.Told G id slot (s.values id slot)
  prev : ∀ key slot v, s.prevEmitted key slot = some v →
    ∃ id, s.map.lookup key = some id ∧ (id, slot, v) ∈ s.emitted
  todo : ∀ l, s.tick = .snapping l → ∀ e ∈ l, s.map.lookup e.1 = some e.2.1
  covered : s.Covered G

theorem sound_init : (init G : Registry κ ι V).Sound G where
  told _ _ _ := .inl rfl
  prev _ _ _ h := nomatch h
  todo _ h := nomatch h
  covered _ h := nomatch h

variable {G}

/-- Acquiring counters changes no snapshot. -/
theorem Sound.acquire (h : s.Sound G) (key : κ) : (s.acquire key).Sound G := by
  rw [Registry.acquire]
  split
  next id hid => exact ⟨h.told, h.prev, h.todo, h.covered⟩
  next hnone =>
    have hkey : ∀ key' id, s.map.lookup key' = some id →
        (s.map.insert key s.created).lookup key' = some id := by
      intro key' id hid
      rwa [AList.lookup_insert_ne]
      rintro rfl
      rw [hnone] at hid
      cases hid
    refine ⟨h.told, fun key' slot v hv => ?_, fun l hl e he => hkey _ _ (h.todo l hl e he),
      h.covered⟩
    obtain ⟨id, hid, hmem⟩ := h.prev key' slot v hv
    exact ⟨id, hkey key' id hid, hmem⟩

/-- The counters that are removed were told in full. -/
theorem Sound.collect (h : s.Sound G) (hsettled : s.Settled G .retain) : s.collect.Sound G := by
  refine ⟨h.told, fun key slot v hv => ?_, nofun, fun r hr slot hslot => ?_⟩
  · simp only [Registry.collect] at hv ⊢
    split_ifs at hv with hsome
    obtain ⟨id, hid, hmem⟩ := h.prev key slot v hv
    refine ⟨id, ?_, hmem⟩
    rw [Table.lookup_retain, hid, bind_some] at hsome ⊢
    split_ifs at hsome ⊢ with hheld
    · rfl
    · cases hsome
  · rcases List.mem_append.mp hr with hr | hr
    · obtain ⟨id, hid, rfl⟩ := List.mem_map.mp hr
      obtain ⟨_, hmem, hkeep⟩ := Table.mem_droppedEntries hid
      have hheld : id ∉ s.held := by
        intro hheld
        rw [if_pos hheld] at hkeep
        cases hkeep
      exact h.told id slot (hsettled _ hmem hheld slot hslot)
    · exact h.covered r hr slot hslot

theorem Sound.bump [DecidableEq ι] (h : s.Sound G) (id : ℕ) (slot : ι) (b : B) :
    (s.bump G id slot b).Sound G := by
  refine ⟨fun id' slot' hb => ?_, h.prev, h.todo, h.covered⟩
  simp only [Registry.bump, setSlot] at hb ⊢
  split_ifs at hb ⊢
  exact h.told id' slot' hb

variable [DecidableEq ι] [DecidableEq V]

theorem mem_emitted_processSlot {e : ℕ × ι × V} (h : e ∈ s.emitted) (key : κ) (id : ℕ) (slot : ι) :
    e ∈ (s.processSlot G key id slot).emitted := by
  rw [processSlot]
  dsimp only
  split_ifs
  · exact List.mem_cons_of_mem _ h
  · exact h

theorem mem_emitted_of_changed {slot : ι}
    (h : s.values id slot ≠ (s.prevEmitted key slot).getD G.zero) :
    (id, slot, s.values id slot) ∈ (s.processSlot G key id slot).emitted := by
  simp [processSlot, h]

/-- The snapshot that is taken is zero, was the last to be emitted, or is emitted now. -/
theorem Sound.told_processSlot (h : s.Sound G) (hid : s.map.lookup key = some id) (slot : ι) :
    (s.processSlot G key id slot).Told G id slot (s.values id slot) := by
  by_cases hchanged : s.values id slot = (s.prevEmitted key slot).getD G.zero
  · rw [hchanged]
    cases hprev : s.prevEmitted key slot with
    | none => exact .inl rfl
    | some v =>
      obtain ⟨id', hid', hmem⟩ := h.prev key slot v hprev
      obtain rfl : id = id' := some.inj (hid ▸ hid')
      exact .inr (mem_emitted_processSlot hmem key id slot)
  · exact .inr (mem_emitted_of_changed hchanged)

/-- A snapshot that has changed is told. -/
theorem Sound.processSlot (h : s.Sound G) (hid : s.map.lookup key = some id) (slot : ι) :
    (s.processSlot G key id slot).Sound G := by
  have htold {id' slot' v} (h : s.Told G id' slot' v) :
      (s.processSlot G key id slot).Told G id' slot' v :=
    h.imp_right fun hmem => mem_emitted_processSlot hmem key id slot
  refine ⟨fun id' slot' hb => ?_, fun key' slot' v hv => ?_, h.todo,
    fun r hr slot' hslot => htold (h.covered r hr slot' hslot)⟩
  · simp only [Registry.processSlot, setSlot] at hb
    split_ifs at hb with hat
    · obtain ⟨rfl, rfl⟩ := hat
      exact h.told_processSlot hid slot'
    · exact htold (h.told id' slot' hb)
  · have hold (hv : s.prevEmitted key' slot' = some v) :
        ∃ id', s.map.lookup key' = some id' ∧
          (id', slot', v) ∈ (s.processSlot G key id slot).emitted := by
      obtain ⟨id', hid', hmem⟩ := h.prev key' slot' v hv
      exact ⟨id', hid', mem_emitted_processSlot hmem key id slot⟩
    by_cases hchanged : s.values id slot = (s.prevEmitted key slot).getD G.zero
    · refine hold ?_
      simpa [Registry.processSlot, hchanged] using hv
    · simp only [Registry.processSlot, hchanged, ne_eq, not_false_eq_true, if_true, setSlot] at hv
      split_ifs at hv with hat
      · obtain ⟨rfl, rfl⟩ := hat
        obtain rfl := some.inj hv
        exact ⟨id, hid, mem_emitted_of_changed hchanged⟩
      · exact hold hv

/-- Every settled step keeps what is known of the snapshots. -/
theorem Sound.step (h : s.Sound G) (hsettled : s.Settled G a)
    (hstep : step G s a = .ok s') : s'.Sound G := by
  cases a with
  | acquire key =>
    cases hstep
    exact h.acquire key
  | clone id | release id =>
    rw [Registry.step] at hstep
    split_ifs at hstep
    cases hstep
    exact ⟨h.told, h.prev, h.todo, h.covered⟩
  | bump id slot b =>
    rw [Registry.step] at hstep
    split_ifs at hstep
    cases hstep
    exact h.bump id slot b
  | cloneEntries =>
    rw [Registry.step] at hstep
    split at hstep
    · cases hstep
      refine ⟨h.told, h.prev, fun l hl e he => ?_, h.covered⟩
      cases hl
      simp only [List.mem_flatMap, List.mem_map] at he
      obtain ⟨e, he, slot, -, rfl⟩ := he
      exact AList.mem_lookup_iff.mpr he
    · cases hstep
  | snapshot i =>
    rw [Registry.step] at hstep
    split at hstep
    next l hl =>
      split at hstep
      next key id slot hi =>
        cases hstep
        have hsnap := h.processSlot (h.todo l hl _ (List.mem_of_getElem? hi)) slot
        refine ⟨hsnap.told, hsnap.prev, fun l' hl' e he => ?_, hsnap.covered⟩
        cases hl'
        exact h.todo l hl e (List.mem_of_mem_eraseIdx he)
      next => cases hstep
    next => cases hstep
  | dropClones =>
    rw [Registry.step] at hstep
    split at hstep
    · cases hstep
      exact ⟨h.told, h.prev, nofun, h.covered⟩
    · cases hstep
  | retain =>
    rw [Registry.step] at hstep
    split at hstep
    · cases hstep
      exact h.collect hsettled
    · cases hstep

/-- What is removed was emitted, as long as it was not bumped since its last snapshot. -/
theorem covered_of_settled {as : List (Action κ ι B)}
    (hsettled : Meets (step G) (Settled G) (init G : Registry κ ι V) as)
    (hrun : run (step G) (init G) as = .ok s) : s.Covered G :=
  (hsettled.preserves (fun h hp hstep => h.step hp hstep) (sound_init G) hrun).covered

/-! ### The two registries -/

/-- **No counts are lost when counters are removed**, neither of a broadcast nor of sessions, as
long as what is removed was not bumped since its last snapshot. -/
theorem nothing_lost_at_collection {entries : Registry Path (Side × Tier) Counters}
    {sessions : Registry Path Unit SessionCounters} (as : List (Action Path (Side × Tier) Bump))
    (bs : List (Action Path Unit Bool))
    (has : Meets (step broadcastGauge) (Settled broadcastGauge) (init broadcastGauge) as)
    (hbs : Meets (step sessionGauge) (Settled sessionGauge) (init sessionGauge) bs)
    (hentries : run (step broadcastGauge) (init broadcastGauge) as = .ok entries)
    (hsessions : run (step sessionGauge) (init sessionGauge) bs = .ok sessions) :
    entries.Covered broadcastGauge ∧ sessions.Covered sessionGauge :=
  ⟨covered_of_settled has hentries, covered_of_settled hbs hsessions⟩

/-- A tick in which the task sees the counters of one path, up to the removal. -/
def oneTick (slots : ℕ) : List (Action Path ι B) :=
  [.cloneEntries] ++ List.replicate slots (.snapshot 0) ++ [.dropClones]

/-- A frame is sent, and a session comes and goes, before a tick. -/
theorem nothing_lost_at_collection_idle :
    (∃ entries : Registry Path (Side × Tier) Counters, entries.removed.length = 1 ∧
      entries.Covered broadcastGauge) ∧
    ∃ sessions : Registry Path Unit SessionCounters, sessions.removed.length = 1 ∧
      sessions.Covered sessionGauge := by
  have h := nothing_lost_at_collection
    ([.acquire .empty, .bump 0 (.publisher, .external) .frames, .release 0] ++ oneTick 4 ++
      [.retain])
    ([.acquire .empty, .bump 0 () false, .bump 0 () true, .release 0] ++ oneTick 1 ++ [.retain])
    (by decide +kernel) (by decide +kernel) rfl rfl
  exact ⟨⟨_, rfl, h.1⟩, _, rfl, h.2⟩

/-- The last frame of a track is sent, and the track is dropped, between the snapshot and the
removal. -/
theorem last_frame_not_emitted :
    ∃ entries : Registry Path (Side × Tier) Counters,
      run (step broadcastGauge) (init broadcastGauge)
        ([.acquire .empty, .bump 0 (.publisher, .external) .subscriptions] ++ oneTick 4 ++
          [.bump 0 (.publisher, .external) .frames,
            .bump 0 (.publisher, .external) .subscriptionsClosed, .release 0, .retain]) =
        .ok entries ∧ ¬entries.Covered broadcastGauge :=
  ⟨_, rfl, by decide +kernel⟩

end Registry

end HermitMoq
