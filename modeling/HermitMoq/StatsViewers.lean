import HermitMoq.StatsRegistry
import Mathlib.Data.Finset.Card

/-!
# Viewers of a Broadcast

A session counts its subscriptions to each broadcast, and the first and the last of them bump the
counters of the broadcast (`SessionBroadcasts` in `stats.rs` of `moq-net`). Looking up the
counters, counting the subscription and bumping the counters are separate steps, which interleave
with those of other sessions and with the removal of unused counters.

The counters wrap at `2 ^ 64` and the counts of the sessions at `2 ^ 32`, so that what they tell is
right in a run of fewer steps than the former, with fewer guards at a time than the latter.
-/

namespace HermitMoq

open List

/-- What `Counters` has of the sessions that watch a broadcast. -/
structure ViewerCount where
  broadcasts : ℕ := 0
  broadcastsClosed : ℕ := 0
  deriving DecidableEq, Repr

/-- A bump at the last subscription of a session, or at its first. -/
def ViewerCount.bump (c : ViewerCount) (closed : Bool) : ViewerCount :=
  if closed then { c with broadcastsClosed := fetchAdd c.broadcastsClosed 1 }
  else { c with broadcasts := fetchAdd c.broadcasts 1 }

/-- A bump that does not wrap. -/
theorem ViewerCount.bump_of_lt {c : ViewerCount} (hle : c.broadcastsClosed ≤ c.broadcasts)
    (hroom : c.broadcasts + 1 < 2 ^ 64) (closed : Bool) : c.bump closed =
      if closed then { c with broadcastsClosed := c.broadcastsClosed + 1 }
      else { c with broadcasts := c.broadcasts + 1 } := by
  rw [bump, fetchAdd, fetchAdd, Nat.mod_eq_of_lt hroom,
    Nat.mod_eq_of_lt ((Nat.succ_le_succ hle).trans_lt hroom)]

/-- The viewers of a broadcast, by side and tier. -/
def viewerGauge : Gauge (Side × Tier) ViewerCount Bool where
  slots := broadcastGauge.slots
  zero := {}
  bump := ViewerCount.bump
  live c := c.broadcasts != c.broadcastsClosed

/-- `Stats`: its prefix, and whether it has an origin. -/
structure StatsScope where
  prefixPath : Path
  enabled : Bool

/-- `Stats::entry` gives counters to the path. -/
def StatsScope.admits (stats : StatsScope) (path : Path) : Bool :=
  stats.enabled && !path.hasPrefix stats.prefixPath

/-- Where `subscribe` is, or `drop` of the guard that it has returned: after the lookup, before the
first bump, in between, before the last bump, and before the counters are released. -/
inductive GuardStage
  | entered
  | opening
  | live
  | closing
  | dropping
  deriving DecidableEq, Repr

/-- `BroadcastSubscription`. -/
structure ViewerGuard where
  session : ℕ
  path : Path
  entry : Option ℕ
  stage : GuardStage := .entered
  deriving DecidableEq

/-- The bump of a guard, if it has counters. -/
def ViewerGuard.bump (slots : ℕ → Side × Tier) (g : ViewerGuard)
    (r : Registry Path (Side × Tier) ViewerCount) (closed : Bool) :
    Registry Path (Side × Tier) ViewerCount :=
  match g.entry with
  | some id => r.bump viewerGauge id (slots g.session) closed
  | none => r

/-- The release of the counters of a guard, if it has some. -/
def ViewerGuard.release (g : ViewerGuard) (r : Registry Path (Side × Tier) ViewerCount) :
    Registry Path (Side × Tier) ViewerCount :=
  match g.entry with
  | some id => { r with held := r.held.erase id }
  | none => r

/-- The counters, and the sessions with their guards. -/
structure Viewers where
  registry : Registry Path (Side × Tier) ViewerCount := .init viewerGauge
  /-- `counts` of each session; no entry is zero. -/
  counts : ℕ → Path → ℕ := fun _ _ => 0
  guards : List ViewerGuard := []

namespace Viewers

/-- A step: a session calls `subscribe`, a guard goes on, or the task does. A guard that is `live`
goes on when it is dropped. -/
inductive Action
  | subscribe (session : ℕ) (path : Path)
  | advance (i : ℕ)
  | task (a : Registry.Action Path (Side × Tier) Bool)

variable (stats : StatsScope) (slots : ℕ → Side × Tier)

/-- The lookup of the counters in `subscribe`. -/
def subscribe (s : Viewers) (session : ℕ) (path : Path) : Viewers :=
  if stats.admits path then
    let registry := s.registry.acquire path
    let entry := registry.map.lookup path
    { s with registry, guards := { session, path, entry } :: s.guards }
  else { s with guards := { session, path, entry := none } :: s.guards }

/-- The next step of a guard, next to all others. -/
def advance (s : Viewers) (g : ViewerGuard) (others : List ViewerGuard) : Viewers :=
  let n := s.counts g.session g.path
  match g.stage with
  | .entered =>
    { s with
      counts := Registry.setSlot s.counts g.session g.path ((n + 1) % 2 ^ 32)
      guards := { g with stage := if n = 0 then .opening else .live } :: others }
  | .opening =>
    { s with
      registry := g.bump slots s.registry false
      guards := { g with stage := .live } :: others }
  | .live =>
    { s with
      counts := Registry.setSlot s.counts g.session g.path (n - 1)
      guards := { g with stage := if n = 1 then .closing else .dropping } :: others }
  | .closing =>
    { s with
      registry := g.bump slots s.registry true
      guards := { g with stage := .dropping } :: others }
  | .dropping => { s with registry := g.release s.registry, guards := others }

/-- A step; it fails if there is no such guard, or the task is elsewhere. -/
def step (s : Viewers) : Action → Except Unit Viewers
  | .subscribe session path => .ok (s.subscribe stats session path)
  | .advance i =>
    match s.guards[i]? with
    | some g => .ok (s.advance slots g (s.guards.eraseIdx i))
    | none => .error ()
  | .task a => do
    if a.isTask then .ok { s with registry := ← s.registry.step viewerGauge a } else .error ()

end Viewers

variable {path : Path}

namespace Viewers

variable {stats : StatsScope} {slots : ℕ → Side × Tier} {s s' : Viewers}

/-! ### The counters of the guards -/

variable (stats) in
/-- Every guard holds the counters that the map has for its path. -/
structure Tracked (r : Registry Path (Side × Tier) ViewerCount) (l : List ViewerGuard) : Prop where
  numbered : r.Numbered viewerGauge
  held : r.held.Perm (l.filterMap ViewerGuard.entry)
  admitted : ∀ {path id}, r.map.lookup path = some id → stats.admits path = true
  entry : ∀ g ∈ l, g.entry = r.map.lookup g.path
  none : ∀ g ∈ l, g.entry = none → stats.admits g.path = false

variable {r : Registry Path (Side × Tier) ViewerCount} {g : ViewerGuard} {l : List ViewerGuard}

theorem tracked_init : Tracked stats (.init viewerGauge) [] where
  numbered := Registry.numbered_init
  held := .refl _
  admitted h := nomatch h
  entry _ h := nomatch h
  none _ h := nomatch h

section

variable (h : Tracked stats r l)

include h

theorem Tracked.perm {l' : List ViewerGuard} (hl : l.Perm l') :
    Tracked stats r l' :=
  { h with
    held := h.held.trans (hl.filterMap _)
    entry := fun g hg => h.entry g (hl.mem_iff.mpr hg)
    none := fun g hg => h.none g (hl.mem_iff.mpr hg) }

theorem Tracked.path_ne
    (hnone : r.map.lookup path = Option.none) (hadmits : stats.admits path = true) :
    ∀ g ∈ l, g.path ≠ path := by
  rintro g hg rfl
  have hnot := h.none g hg ((h.entry g hg).trans hnone)
  rw [hadmits] at hnot
  cases hnot

/-- A new guard holds the counters of its path. -/
theorem Tracked.acquire (hadmits : stats.admits path = true)
    (session : ℕ) : Tracked stats (r.acquire path)
      ({ session, path, entry := (r.acquire path).map.lookup path } :: l) := by
  obtain ⟨id, hacq⟩ := r.exists_acquired path
  refine ⟨h.numbered.acquire hacq, ?_, fun {path' id'} hid => ?_, ?_, ?_⟩
  · simp only [hacq.held, hacq.lookup, filterMap_cons]
    exact h.held.cons id
  · by_cases hpath : path' = path
    · rwa [hpath]
    · exact h.admitted (hacq.other _ hpath ▸ hid)
  · rintro g (_ | ⟨_, hg⟩)
    · rfl
    · by_cases hpath : g.path = path
      · rcases hacq.known with ⟨hid, -⟩ | ⟨hnone, -⟩
        · rw [h.entry g hg, hpath, hid, hacq.lookup]
        · exact absurd hpath (h.path_ne hnone hadmits g hg)
      · exact (h.entry g hg).trans (hacq.other _ hpath).symm
  · rintro g (_ | ⟨_, hg⟩) hnone
    · exact nomatch hacq.lookup.symm.trans hnone
    · exact h.none g hg hnone

theorem Tracked.ignore (hadmits : ¬stats.admits path = true)
    (session : ℕ) : Tracked stats r ({ session, path, entry := Option.none } :: l) := by
  refine { h with held := h.held, entry := ?_, none := ?_ }
  · rintro g (_ | ⟨_, hg⟩)
    · cases hid : r.map.lookup path with
      | none => rfl
      | some id => exact absurd (h.admitted hid) hadmits
    · exact h.entry g hg
  · rintro g (_ | ⟨_, hg⟩) hnone
    · exact Bool.eq_false_iff.mpr hadmits
    · exact h.none g hg hnone

end

/-- A change of the stage of a guard. -/
theorem Tracked.stage (h : Tracked stats r (g :: l)) (stage : GuardStage) :
    Tracked stats r ({ g with stage } :: l) where
  numbered := h.numbered
  held := h.held
  admitted := h.admitted
  entry := by
    rintro g' (_ | ⟨_, hg⟩)
    · exact h.entry g mem_cons_self
    · exact h.entry g' (mem_cons_of_mem _ hg)
  none := by
    rintro g' (_ | ⟨_, hg⟩)
    · exact h.none g mem_cons_self
    · exact h.none g' (mem_cons_of_mem _ hg)

theorem Tracked.bump (h : Tracked stats r l) (hg : g ∈ l) (closed : Bool) :
    Tracked stats (g.bump slots r closed) l := by
  rw [ViewerGuard.bump]
  cases hid : g.entry with
  | none => exact h
  | some id =>
    exact { h with numbered := h.numbered.bump ((h.entry g hg).symm.trans hid) _ closed }

/-- A guard that is released holds nothing. -/
theorem Tracked.release (h : Tracked stats r (g :: l)) : Tracked stats (g.release r) l := by
  have hheld := h.held
  have hentry : ∀ g' ∈ l, g'.entry = r.map.lookup g'.path :=
    fun g' hg => h.entry g' (mem_cons_of_mem g hg)
  have hnone : ∀ g' ∈ l, g'.entry = Option.none → stats.admits g'.path = false :=
    fun g' hg => h.none g' (mem_cons_of_mem g hg)
  rw [ViewerGuard.release]
  cases hid : g.entry with
  | none =>
    rw [filterMap_cons_none hid] at hheld
    exact ⟨h.numbered, hheld, h.admitted, hentry, hnone⟩
  | some id =>
    rw [filterMap_cons_some hid] at hheld
    have herase := hheld.erase id
    rw [erase_cons_head] at herase
    exact ⟨⟨h.numbered.lt, h.numbered.injective, h.numbered.fresh⟩, herase, h.admitted, hentry,
      hnone⟩

/-- The task leaves the guards their counters. -/
theorem Tracked.collects (h : Tracked stats r l) {r' : Registry Path (Side × Tier) ViewerCount}
    (hr : r.Collects r') : Tracked stats r' l where
  numbered := h.numbered.collects hr
  held := hr.held ▸ h.held
  admitted hid := h.admitted (hr.old hid)
  entry g hg := by
    have hentry := h.entry g hg
    cases hid : g.entry with
    | none =>
      cases hnew : r'.map.lookup g.path with
      | none => rfl
      | some id => rw [← hentry.trans (hr.old hnew), hid]
    | some id =>
      have hheld : id ∈ r.held := h.held.mem_iff.mpr (mem_filterMap.mpr ⟨g, hg, hid⟩)
      exact (hr.kept (hentry.symm.trans hid) hheld).symm
  none := h.none

/-! ### The numbers of the guards -/

end Viewers

namespace ViewerGuard

/-- The subscription is counted by its session. -/
def isCounted (g : ViewerGuard) : Bool := g.stage = .opening || g.stage = .live

variable (slots : ℕ → Side × Tier)

/-- The guard is one of the viewers of a path on one side and tier. -/
def At (path : Path) (slot : Side × Tier) (g : ViewerGuard) : Prop :=
  g.path = path ∧ slots g.session = slot

instance (path : Path) (slot : Side × Tier) (g : ViewerGuard) :
    Decidable (g.At slots path slot) := inferInstanceAs (Decidable (_ ∧ _))

/-- The subscriptions of a session to a path. -/
def counted (l : List ViewerGuard) (session : ℕ) (path : Path) : ℕ :=
  l.countP fun g => g.isCounted ∧ g.session = session ∧ g.path = path

/-- The viewers that are at a stage. -/
def pending (stage : GuardStage) (path : Path) (slot : Side × Tier) (l : List ViewerGuard) : ℕ :=
  l.countP fun g => g.stage = stage ∧ g.At slots path slot

/-- The sessions that view a path. -/
def viewing (path : Path) (slot : Side × Tier) (l : List ViewerGuard) : Finset ℕ :=
  ((l.filter fun g => g.isCounted ∧ g.At slots path slot).map session).toFinset

/-- The number of sessions that view a path. -/
def viewers (path : Path) (slot : Side × Tier) (l : List ViewerGuard) : ℕ :=
  (viewing slots path slot l).card

variable {slots} {slot : Side × Tier} {l : List ViewerGuard} {g : ViewerGuard}

@[simp] theorem at_stage {stage : GuardStage} :
    ({ g with stage } : ViewerGuard).At slots path slot ↔ g.At slots path slot := Iff.rfl

theorem counted_cons (g : ViewerGuard) (session : ℕ) : counted (g :: l) session path =
    counted l session path +
      if g.isCounted ∧ g.session = session ∧ g.path = path then 1 else 0 := by
  simp [counted, countP_cons]

theorem pending_cons (stage : GuardStage) (g : ViewerGuard) :
    pending slots stage path slot (g :: l) = pending slots stage path slot l +
      if g.stage = stage ∧ g.At slots path slot then 1 else 0 := by
  simp [pending, countP_cons]

theorem mem_viewing {session : ℕ} : session ∈ viewing slots path slot l ↔
    slots session = slot ∧ 0 < counted l session path := by
  simp only [viewing, counted, countP_pos_iff, mem_toFinset, mem_map,
    mem_filter, decide_eq_true_eq]
  constructor
  · rintro ⟨g, ⟨hg, hholds, hpath, hslot⟩, rfl⟩
    exact ⟨hslot, g, hg, hholds, rfl, hpath⟩
  · rintro ⟨hslot, g, hg, hholds, rfl, hpath⟩
    exact ⟨g, ⟨hg, hholds, hpath, hslot⟩, rfl⟩

/-- No guards, no viewers. -/
theorem viewers_eq_zero (h : ∀ g ∈ l, g.path ≠ path) (slots : ℕ → Side × Tier)
    (slot : Side × Tier) :
    viewers slots path slot l = 0 ∧ ∀ stage, pending slots stage path slot l = 0 := by
  have hcounted (session : ℕ) : counted l session path = 0 :=
    countP_eq_zero.mpr fun g hg hat => h g hg (of_decide_eq_true hat).2.2
  refine ⟨Finset.card_eq_zero.mpr (Finset.eq_empty_of_forall_notMem fun session hmem => ?_),
    fun stage => countP_eq_zero.mpr fun g hg hat => h g hg (of_decide_eq_true hat).2.1⟩
  exact (mem_viewing.mp hmem).2.ne' (hcounted session)

/-- A guard adds a viewer if it is the only one of its session. -/
theorem viewers_cons (g : ViewerGuard) : viewers slots path slot (g :: l) =
    viewers slots path slot l +
      if g.isCounted ∧ g.At slots path slot ∧ counted l g.session g.path = 0 then 1 else 0 := by
  by_cases hg : g.isCounted ∧ g.At slots path slot
  · have hcons : viewing slots path slot (g :: l) =
        insert g.session (viewing slots path slot l) := by
      simp [viewing, hg]
    obtain ⟨hholds, rfl, rfl⟩ := hg
    rw [viewers, hcons]
    by_cases hcounted : counted l g.session g.path = 0
    · rw [if_pos ⟨hholds, ⟨rfl, rfl⟩, hcounted⟩, Finset.card_insert_of_notMem]
      · rfl
      · rw [mem_viewing, hcounted]
        exact fun hmem => absurd hmem.2 (lt_irrefl 0)
    · rw [if_neg fun hif => hcounted hif.2.2, Finset.insert_eq_of_mem]
      · rfl
      · exact mem_viewing.mpr ⟨rfl, Nat.pos_of_ne_zero hcounted⟩
  · rw [if_neg fun hif => hg ⟨hif.1, hif.2.1⟩, viewers, viewing, filter_cons_of_neg]
    · rfl
    · simpa using hg

/-- At most one guard of a session is about to open the path. -/
def OneOpening (path : Path) (l : List ViewerGuard) : Prop :=
  ((l.filter fun g => g.stage = .opening ∧ g.path = path).map session).Nodup

theorem OneOpening.of_cons (h : OneOpening path (g :: l)) : OneOpening path l :=
  h.sublist (((sublist_cons_self g l).filter _).map _)

theorem OneOpening.cons (h : OneOpening path l)
    (hg : g.stage = .opening → counted l g.session g.path = 0) : OneOpening path (g :: l) := by
  rw [OneOpening, filter_cons]
  split_ifs with hopening
  · obtain ⟨hstage, rfl⟩ := of_decide_eq_true hopening
    refine nodup_cons.mpr ⟨fun hmem => ?_, h⟩
    simp only [mem_map, mem_filter, decide_eq_true_eq] at hmem
    obtain ⟨g', ⟨hg', hstage', hpath⟩, hsession⟩ := hmem
    have hnone := countP_eq_zero.mp (hg hstage) g' hg'
    simp [isCounted, hstage', hpath, hsession] at hnone
  · exact h

/-- A session that is about to open the path views it. -/
theorem OneOpening.pending_le (h : OneOpening path l) (slots : ℕ → Side × Tier)
    (slot : Side × Tier) :
    pending slots .opening path slot l ≤ viewers slots path slot l := by
  have hsub := monotone_filter_right l
    (p := fun g => decide (g.stage = .opening ∧ g.At slots path slot))
    (q := fun g => decide (g.stage = .opening ∧ g.path = path)) fun g hg => by
      simp only [decide_eq_true_eq] at hg ⊢
      exact ⟨hg.1, hg.2.1⟩
  have hnodup := h.sublist (hsub.map session)
  rw [pending, countP_eq_length_filter, ← length_map session,
    ← toFinset_card_of_nodup hnodup]
  refine Finset.card_le_card fun session hmem => ?_
  simp only [viewing, mem_toFinset, mem_map, mem_filter, decide_eq_true_eq]
    at hmem ⊢
  obtain ⟨g, ⟨hg, hstage, hat⟩, rfl⟩ := hmem
  exact ⟨g, ⟨hg, by simp [isCounted, hstage], hat⟩, rfl⟩

end ViewerGuard

namespace Viewers

variable {stats : StatsScope} {slots : ℕ → Side × Tier} {s s' : Viewers}
  {r : Registry Path (Side × Tier) ViewerCount} {g : ViewerGuard} {l : List ViewerGuard}

/-- The counters tell the number of viewers, up to the bumps that are on their way. -/
def Balanced (slots : ℕ → Side × Tier) (l : List ViewerGuard) (path : Path) (slot : Side × Tier)
    (c : ViewerCount) : Prop :=
  c.broadcasts + ViewerGuard.pending slots .opening path slot l =
    c.broadcastsClosed + ViewerGuard.viewers slots path slot l +
      ViewerGuard.pending slots .closing path slot l

/-- What the sessions count, and what the counters tell of it. -/
structure Counted (slots : ℕ → Side × Tier) (s : Viewers) : Prop where
  counts : ∀ session path, s.counts session path = ViewerGuard.counted s.guards session path
  opening : ∀ path, ViewerGuard.OneOpening path s.guards
  exact : ∀ {path id}, s.registry.map.lookup path = some id → ∀ slot,
    Balanced slots s.guards path slot (s.registry.values id slot)
  bounded : ∀ id slot,
    (s.registry.values id slot).broadcastsClosed ≤ (s.registry.values id slot).broadcasts

open ViewerGuard

theorem counted_init : Counted slots {} where
  counts _ _ := rfl
  opening _ := nodup_nil
  exact h := nomatch h
  bounded _ _ := le_rfl

theorem Counted.perm (h : s.Counted slots) (hl : s.guards.Perm l) :
    Counted slots { s with guards := l } where
  counts session path := (h.counts session path).trans (hl.countP_eq _)
  opening path := ((hl.filter _).map _).nodup_iff.mp (h.opening path)
  exact {path id} hid slot := by
    have hviewing : viewing slots path slot s.guards = viewing slots path slot l :=
      toFinset_eq_of_perm _ _ ((hl.filter _).map _)
    have hexact := h.exact hid slot
    rwa [Balanced, pending, pending, hl.countP_eq, hl.countP_eq, viewers, hviewing] at hexact
  bounded := h.bounded

/-- The session counts a subscription. -/
theorem Counted.enter (h : Counted slots { s with guards := g :: l })
    (hfew : (g :: l).length < 2 ^ 32) (hstage : g.stage = .entered) :
    (s.advance slots g l).Counted slots := by
  have hcounts : ∀ session path, s.counts session path = counted l session path := by
    intro session path
    simpa [counted_cons, isCounted, hstage] using h.counts session path
  have hwrap : (counted l g.session g.path + 1) % 2 ^ 32 = counted l g.session g.path + 1 :=
    Nat.mod_eq_of_lt ((Nat.succ_le_succ countP_le_length).trans_lt hfew)
  simp only [advance, hstage, hcounts, hwrap]
  refine ⟨fun session path => ?_, fun path => ?_, fun {path id} hid slot => ?_, h.bounded⟩
  · have hholds : isCounted { g with
        stage := if counted l g.session g.path = 0 then .opening else .live } = true := by
      split_ifs <;> rfl
    simp only [counted_cons, Registry.setSlot, hholds, hcounts, true_and, @eq_comm _ session,
      @eq_comm _ path]
    split_ifs with hat
    · rw [hat.1, hat.2]
    · rfl
  · refine (h.opening path).of_cons.cons fun hopening => ?_
    by_contra hn
    simp [hn] at hopening
  · have hexact := h.exact hid slot
    simp only [Balanced, pending_cons, viewers_cons, isCounted, hstage] at hexact ⊢
    by_cases hn : counted l g.session g.path = 0
    · simp [hn] at hexact ⊢
      split_ifs at hexact ⊢ <;> omega
    · simp [hn] at hexact ⊢
      omega

/-- The session counts a subscription less. -/
theorem Counted.drop (h : Counted slots { s with guards := g :: l }) (hstage : g.stage = .live) :
    (s.advance slots g l).Counted slots := by
  have hcounts : ∀ session path, s.counts session path = counted l session path +
      if g.session = session ∧ g.path = path then 1 else 0 := by
    intro session path
    simpa [counted_cons, isCounted, hstage] using h.counts session path
  have hn : s.counts g.session g.path = counted l g.session g.path + 1 := by
    simp [hcounts]
  simp only [advance, hstage, hn, Nat.add_eq_right, Nat.add_sub_cancel]
  refine ⟨fun session path => ?_, fun path => ?_, fun {path id} hid slot => ?_, h.bounded⟩
  · have hholds : isCounted { g with
        stage := if counted l g.session g.path = 0 then .closing else .dropping } = false := by
      split_ifs <;> rfl
    simp only [counted_cons, Registry.setSlot, hholds, hcounts, @eq_comm _ session,
      @eq_comm _ path, Bool.false_eq_true, false_and, if_false]
    split_ifs with hat
    · rw [hat.1, hat.2, Nat.add_zero]
    · rfl
  · refine (h.opening path).of_cons.cons fun hopening => ?_
    split_ifs at hopening
  · have hexact := h.exact hid slot
    simp only [Balanced, pending_cons, viewers_cons, isCounted, hstage] at hexact ⊢
    by_cases hn : counted l g.session g.path = 0
    · simp [hn] at hexact ⊢
      split_ifs at hexact ⊢ <;> omega
    · simp [hn] at hexact ⊢
      omega

theorem map_bump (closed : Bool) :
    (g.bump slots r closed).map = r.map := by
  rw [ViewerGuard.bump]
  cases g.entry <;> rfl

variable (slots) in
/-- A guard bumps the counters of its path. -/
theorem Tracked.values_bump (h : Tracked stats r l) (hg : g ∈ l) {id : ℕ}
    (hid : r.map.lookup path = some id) (slot : Side × Tier) (closed : Bool) :
    (g.bump slots r closed).values id slot = if g.At slots path slot then
      (r.values id slot).bump closed else r.values id slot := by
  have hentry := h.entry g hg
  rw [ViewerGuard.bump]
  cases hid' : g.entry with
  | none =>
    rw [if_neg]
    rintro ⟨rfl, -⟩
    rw [hid, hid'] at hentry
    cases hentry
  | some id' =>
    rw [hid'] at hentry
    have hiff : id = id' ∧ slot = slots g.session ↔ g.At slots path slot := by
      constructor
      · rintro ⟨rfl, rfl⟩
        exact ⟨h.numbered.injective hentry.symm hid, rfl⟩
      · rintro ⟨rfl, rfl⟩
        exact ⟨Option.some.inj (hid.symm.trans hentry.symm), rfl⟩
    simp only [Registry.bump, Registry.setSlot, hiff]
    split_ifs with hat
    · obtain ⟨rfl, rfl⟩ := hiff.mpr hat
      rfl
    · rfl

/-- The first subscription of a session, or its last, bumps the counters. -/
theorem Counted.bump (h : Counted slots { s with guards := g :: l })
    (ht : Tracked stats s.registry (g :: l))
    (hroom : ∀ id slot, (s.registry.values id slot).broadcasts + 1 < 2 ^ 64) (closed : Bool)
    (hstage : g.stage = if closed then .closing else .opening) :
    Counted slots { s with
      registry := g.bump slots s.registry closed
      guards := { g with stage := if closed then .dropping else .live } :: l } := by
  have hbump (id : ℕ) (slot : Side × Tier) :=
    ViewerCount.bump_of_lt (h.bounded id slot) (hroom id slot) closed
  refine ⟨fun session path => ?_, fun path => ?_, fun {path id} hid slot => ?_, fun id slot => ?_⟩
  · rw [h.counts session path, counted_cons, counted_cons]
    cases closed <;> simp [isCounted, hstage]
  · refine (h.opening path).of_cons.cons fun hopening => ?_
    cases closed <;> cases hopening
  · rw [map_bump] at hid
    have hexact := h.exact hid slot
    have hvalues := ht.values_bump slots mem_cons_self hid slot closed
    simp only [Balanced, pending_cons, viewers_cons, isCounted, hstage] at hexact ⊢
    rw [hvalues]
    by_cases hat : g.At slots path slot
    · rw [if_pos hat, hbump]
      cases closed <;> simp [hat] at hexact ⊢ <;> omega
    · cases closed <;> simp [hat] at hexact ⊢ <;> omega
  · have hbounded := h.bounded id slot
    rw [ViewerGuard.bump]
    cases hid : g.entry with
    | none => exact hbounded
    | some id' =>
      simp only [Registry.bump, Registry.setSlot]
      split_ifs with hat
      · obtain ⟨rfl, rfl⟩ := hat
        rw [show viewerGauge.bump = ViewerCount.bump from rfl, hbump]
        cases closed with
        | false => exact Nat.le_succ_of_le hbounded
        | true =>
          have hexact := h.exact ((ht.entry g mem_cons_self).symm.trans hid)
            (slots g.session)
          have hle := (h.opening g.path).pending_le slots (slots g.session)
          have hpos : 0 < pending slots .closing g.path (slots g.session) (g :: l) := by
            rw [pending_cons, if_pos ⟨hstage, rfl, rfl⟩]
            exact Nat.succ_pos _
          simp only [Balanced, if_true] at hexact hle ⊢
          omega
      · exact hbounded

/-- A release changes neither the map nor the counters. -/
theorem same_release : (g.release r).map = r.map ∧ (g.release r).values = r.values := by
  rw [ViewerGuard.release]
  cases g.entry <;> exact ⟨rfl, rfl⟩

/-- A guard that is released counts for nothing. -/
theorem Counted.release (h : Counted slots { s with guards := g :: l })
    (hstage : g.stage = .dropping) :
    Counted slots { s with registry := g.release s.registry, guards := l } := by
  have hsame := same_release (g := g) (r := s.registry)
  refine ⟨fun session path => ?_, fun path => (h.opening path).of_cons,
    fun {path id} hid slot => ?_, fun id slot => ?_⟩
  · rw [h.counts session path, counted_cons]
    simp [isCounted, hstage]
  · have hexact := h.exact (hsame.1 ▸ hid) slot
    simp only [Balanced, pending_cons, viewers_cons, isCounted, hstage] at hexact
    simpa [hsame.2, Balanced] using hexact
  · rw [hsame.2]
    exact h.bounded id slot

theorem Counted.collects (h : s.Counted slots)
    (hr : s.registry.Collects r) : Counted slots { s with registry := r } where
  counts := h.counts
  opening := h.opening
  exact hid slot := by
    rw [hr.values]
    exact h.exact (hr.old hid) slot
  bounded := by
    rw [hr.values]
    exact h.bounded

/-- A new guard counts for nothing yet, and nor do counters that are new. -/
theorem Counted.subscribe (h : s.Counted slots) (ht : Tracked stats s.registry s.guards)
    (session : ℕ) (path : Path) : (s.subscribe stats session path).Counted slots := by
  have hsame {r : Registry Path (Side × Tier) ViewerCount} {entry : Option ℕ}
      (hvalues : r.values = s.registry.values)
      (hexact : ∀ {path' id}, r.map.lookup path' = some id → ∀ slot,
        Balanced slots s.guards path' slot (s.registry.values id slot)) :
      Counted slots { s with registry := r, guards := { session, path, entry } :: s.guards } := by
    refine ⟨fun session' path' => ?_, fun path' => (h.opening path').cons nofun,
      fun {path' id} hid slot => ?_, fun id slot => hvalues ▸ h.bounded id slot⟩
    · rw [counted_cons, h.counts session' path']
      simp [isCounted]
    · rw [Balanced, pending_cons, pending_cons, viewers_cons, hvalues]
      simpa [isCounted, Balanced] using hexact hid slot
  rw [Viewers.subscribe]
  split_ifs with hadmits
  · obtain ⟨id, hacq⟩ := s.registry.exists_acquired path
    refine hsame hacq.values fun {path' id'} hid slot => ?_
    by_cases hpath : path' = path
    · subst hpath
      obtain rfl : id = id' := Option.some.inj (hacq.lookup.symm.trans hid)
      rcases hacq.known with ⟨hold, -⟩ | ⟨hnone, rfl, -⟩
      · exact h.exact hold slot
      · obtain ⟨hviewers, hpending⟩ := viewers_eq_zero (ht.path_ne hnone hadmits) slots slot
        rw [Balanced, ht.numbered.fresh _ le_rfl, hviewers, hpending, hpending]
        rfl
    · exact h.exact (hacq.other _ hpath ▸ hid) slot
  · exact hsame rfl h.exact

/-! ### Runs -/

/-- What a step can be. -/
theorem step_cases {a : Action} (h : Viewers.step stats slots s a = .ok s') :
    (∃ session path, s' = s.subscribe stats session path) ∨
      (∃ g l, s.guards.Perm (g :: l) ∧ s' = s.advance slots g l) ∨
      ∃ r, s.registry.Collects r ∧ s' = { s with registry := r } := by
  cases a with
  | subscribe session path => exact .inl ⟨session, path, (Except.ok.inj h).symm⟩
  | advance i =>
    rw [Viewers.step] at h
    split at h
    next g hg => exact .inr (.inl ⟨g, _, perm_cons_eraseIdx hg, (Except.ok.inj h).symm⟩)
    next => cases h
  | task a =>
    rw [Viewers.step] at h
    split_ifs at h with ha
    obtain ⟨r, hr, heq⟩ := bind_eq_ok.mp h
    exact .inr (.inr ⟨r, Registry.collects_step viewerGauge ha hr, (Except.ok.inj heq).symm⟩)

theorem Tracked.advance (h : Tracked stats s.registry (g :: l)) :
    Tracked stats (s.advance slots g l).registry (s.advance slots g l).guards := by
  rw [Viewers.advance]
  cases hstage : g.stage with
  | entered | live => exact h.stage _
  | opening => exact (h.bump mem_cons_self false).stage .live
  | closing => exact (h.bump mem_cons_self true).stage .dropping
  | dropping => exact h.release

/-- Every step leaves the guards their counters. -/
theorem Tracked.step (h : Tracked stats s.registry s.guards) {a : Action}
    (hstep : Viewers.step stats slots s a = .ok s') : Tracked stats s'.registry s'.guards := by
  obtain ⟨session, path, rfl⟩ | ⟨g, l, hperm, rfl⟩ | ⟨r, hr, rfl⟩ := step_cases hstep
  · rw [Viewers.subscribe]
    split_ifs with hadmits
    · exact h.acquire hadmits session
    · exact h.ignore hadmits session
  · exact Tracked.advance (h.perm hperm)
  · exact h.collects hr

/-- A guard that goes on is counted as its stage says. -/
theorem Counted.advance (h : Counted slots { s with guards := g :: l })
    (ht : Tracked stats s.registry (g :: l)) (hfew : (g :: l).length < 2 ^ 32)
    (hroom : ∀ id slot, (s.registry.values id slot).broadcasts + 1 < 2 ^ 64) :
    (s.advance slots g l).Counted slots := by
  cases hstage : g.stage with
  | entered => exact h.enter hfew hstage
  | opening =>
    rw [Viewers.advance, hstage]
    exact h.bump ht hroom false hstage
  | live => exact h.drop hstage
  | closing =>
    rw [Viewers.advance, hstage]
    exact h.bump ht hroom true hstage
  | dropping =>
    rw [Viewers.advance, hstage]
    exact h.release hstage

/-- A step that wraps no number keeps the counts right. -/
theorem Counted.step (h : s.Counted slots) (ht : Tracked stats s.registry s.guards)
    (hfew : s.guards.length < 2 ^ 32)
    (hroom : ∀ id slot, (s.registry.values id slot).broadcasts + 1 < 2 ^ 64) {a : Action}
    (hstep : Viewers.step stats slots s a = .ok s') : s'.Counted slots := by
  obtain ⟨session, path, rfl⟩ | ⟨g, l, hperm, rfl⟩ | ⟨r, hr, rfl⟩ := step_cases hstep
  · exact h.subscribe ht session path
  · exact (h.perm hperm).advance (ht.perm hperm) (hperm.length_eq ▸ hfew) hroom
  · exact h.collects hr

/-- At most so many viewers have ever come to a broadcast. -/
def Opened (n : ℕ) (r : Registry Path (Side × Tier) ViewerCount) : Prop :=
  ∀ id slot, (r.values id slot).broadcasts ≤ n

variable {n : ℕ}

/-- Where no counter changes, no viewer comes. -/
theorem Opened.succ (h : Opened n r) {r' : Registry Path (Side × Tier) ViewerCount}
    (hr : r'.values = r.values) : Opened (n + 1) r' :=
  fun id slot => hr ▸ Nat.le_succ_of_le (h id slot)

/-- A bump counts one viewer at most. -/
theorem Opened.bump (h : Opened n r) (closed : Bool) :
    Opened (n + 1) (g.bump slots r closed) := by
  rw [ViewerGuard.bump]
  cases g.entry with
  | none => exact h.succ rfl
  | some id =>
    intro id' slot
    simp only [Registry.bump, Registry.setSlot]
    split_ifs with hat
    · have hle := h id (slots g.session)
      cases closed with
      | false => exact (Nat.mod_le _ _).trans (Nat.succ_le_succ hle)
      | true => exact Nat.le_succ_of_le hle
    · exact Nat.le_succ_of_le (h id' slot)

/-- In a step at most one viewer comes. -/
theorem Opened.step (h : Opened n s.registry) {a : Action}
    (hstep : Viewers.step stats slots s a = .ok s') : Opened (n + 1) s'.registry := by
  obtain ⟨session, path, rfl⟩ | ⟨g, l, -, rfl⟩ | ⟨r, hr, rfl⟩ := step_cases hstep
  · rw [Viewers.subscribe]
    split_ifs with hadmits
    · obtain ⟨_, hacq⟩ := s.registry.exists_acquired path
      exact h.succ hacq.values
    · exact h.succ rfl
  · rw [Viewers.advance]
    cases hstage : g.stage with
    | entered | live => exact h.succ rfl
    | opening | closing => exact h.bump _
    | dropping => exact h.succ same_release.2
  · exact h.succ hr.values

/-- No run with fewer than `2 ^ 64` steps and never `2 ^ 32` guards wraps a number. -/
theorem counted_of_run {as : List Action} (hlen : as.length < 2 ^ 64)
    (hfew : Meets (Viewers.step stats slots) (fun s _ => s.guards.length < 2 ^ 32) {} as)
    (hrun : run (Viewers.step stats slots) {} as = .ok s) : s.Counted slots := by
  have hsound : Tracked stats s.registry s.guards ∧ Opened (0 + as.length) s.registry ∧
      (0 + as.length < 2 ^ 64 → s.Counted slots) := by
    refine Meets.preserves_length (I := fun n s => Tracked stats s.registry s.guards ∧
      Opened n s.registry ∧ (n < 2 ^ 64 → s.Counted slots))
      (fun ⟨ht, hopened, hcounted⟩ hfew hstep => ⟨ht.step hstep, hopened.step hstep, fun hn => ?_⟩)
      ⟨tracked_init, fun _ _ => le_rfl, fun _ => counted_init⟩ hfew hrun
    exact (hcounted (Nat.lt_of_succ_lt hn)).step ht hfew
      (fun id slot => (Nat.succ_le_succ (hopened id slot)).trans_lt hn) hstep
  exact hsound.2.2 ((Nat.zero_add _).trans_lt hlen)

/-- The viewers that the counters of a path tell of, `broadcasts - broadcasts_closed`. -/
def shown (s : Viewers) (path : Path) (slot : Side × Tier) : ℕ :=
  match s.registry.map.lookup path with
  | some id => (s.registry.values id slot).broadcasts - (s.registry.values id slot).broadcastsClosed
  | none => 0

/-- **The counters tell the number of viewers.** In every run, the counters that a guard refers to
stay in the map. If no number wraps, no more viewers have left than have come, and when no call is
in progress, the difference is the number of sessions with a guard for the path. -/
theorem viewers_exact (stats : StatsScope) (slots : ℕ → Side × Tier) (as : List Action)
    (hrun : run (Viewers.step stats slots) {} as = .ok s) :
    (∀ g ∈ s.guards, ∀ id, g.entry = some id → s.registry.map.lookup g.path = some id) ∧
    (as.length < 2 ^ 64 →
      Meets (Viewers.step stats slots) (fun s _ => s.guards.length < 2 ^ 32) {} as →
      (∀ id slot,
        (s.registry.values id slot).broadcastsClosed ≤ (s.registry.values id slot).broadcasts) ∧
      ((∀ g ∈ s.guards, g.stage = .live) → ∀ path, stats.admits path = true → ∀ slot,
        s.shown path slot = viewers slots path slot s.guards)) := by
  have ht : Tracked stats s.registry s.guards :=
    run_preserves (I := fun s => Tracked stats s.registry s.guards)
      (fun h hstep => h.step hstep) tracked_init hrun
  refine ⟨fun g hg id hid => (ht.entry g hg).symm.trans hid, fun hlen hfew => ?_⟩
  have hc := counted_of_run hlen hfew hrun
  refine ⟨hc.bounded, fun hlive path hadmits slot => ?_⟩
  rw [shown]
  cases hid : s.registry.map.lookup path with
  | none => exact (viewers_eq_zero (ht.path_ne hid hadmits) slots slot).1.symm
  | some id =>
    have hpending (stage : GuardStage) (hne : .live ≠ stage) :
        pending slots stage path slot s.guards = 0 :=
      countP_eq_zero.mpr fun g hg hat =>
        hne ((hlive g hg).symm.trans (of_decide_eq_true hat).1)
    have hexact := hc.exact hid slot
    rw [Balanced, hpending .opening nofun, hpending .closing nofun] at hexact
    exact Nat.sub_eq_of_eq_add' hexact

/-- Two sessions subscribe, one of them twice, and the task collects after one guard is dropped. -/
def twoViewers : List Action :=
  [.subscribe 0 .empty, .advance 0, .subscribe 1 .empty, .advance 1, .advance 1, .advance 0,
    .task .cloneEntries, .subscribe 0 .empty, .advance 0, .advance 2, .advance 0,
    .task (.snapshot 0), .task (.snapshot 0), .task (.snapshot 0), .task (.snapshot 0),
    .task .dropClones, .task .retain]

/-- The counters outlive the collection and tell of the two sessions. -/
theorem viewers_exact_two :
    ∃ s : Viewers, run (step ⟨⟨['s'], by decide⟩, true⟩ fun _ => (.publisher, .external)) {}
        twoViewers = .ok s ∧
      s.shown .empty (.publisher, .external) =
        viewers (fun _ => (.publisher, .external)) .empty (.publisher, .external) s.guards ∧
      viewers (fun _ => (.publisher, .external)) .empty (.publisher, .external) s.guards = 2 := by
  have h := viewers_exact ⟨⟨['s'], by decide⟩, true⟩ (fun _ => (.publisher, .external))
    twoViewers rfl
  exact ⟨_, rfl,
    (h.2 (by decide) (by decide)).2 (by decide) .empty (by decide) (.publisher, .external), rfl⟩

end Viewers

end HermitMoq
