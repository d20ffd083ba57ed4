import HermitMoq.TrackCache
import Mathlib.Data.Finset.Erase
import Mathlib.Data.Finset.Insert

/-!
# The Cache of a Track

The state behind a track (`moq-net/src/model/track.rs`), for groups that arrive in any order of
their sequence numbers. A group that is too old is replaced by a tombstone when another group
arrives, unless its sequence number is the largest; tombstones at the front are dropped, and the
offset tells how many were. A history keeps beside the track the time and every group that was
ever created, so that an index means the same group for good.

`HermitMoq.TrackCache` is this cache for a producer that only appends.
-/

namespace HermitMoq

open List Nat

namespace Track

/-- The errors of a track. -/
inductive Error
  | closed
  | duplicate
  | boundsExceeded
  | dropped
  | app (code : ℕ)
  deriving DecidableEq, Repr

/-- `State`, and whether its channel is closed. -/
structure State where
  /-- Groups in arrival order; `none` for an evicted one. -/
  groups : List (Option Slot) := []
  duplicates : Finset ℕ := ∅
  /-- The number of slots dropped from the front. -/
  offset : ℕ := 0
  maxSequence : Option ℕ := none
  finalSequence : Option ℕ := none
  abort : Option Error := none
  closed : Bool := false
  deriving DecidableEq

/-- The loop of `evict_expired`: it stops at the first group that is young and not the newest. -/
def evictLoop (max : Option ℕ) (now : ℕ) :
    List (Option Slot) → Finset ℕ → List (Option Slot) × Finset ℕ
  | [], duplicates => ([], duplicates)
  | none :: groups, duplicates =>
    let rest := evictLoop max now groups duplicates
    (none :: rest.1, rest.2)
  | some slot :: groups, duplicates =>
    if some slot.sequence = max then
      let rest := evictLoop max now groups duplicates
      (some slot :: rest.1, rest.2)
    else if now - slot.createdAt ≤ maxGroupAge then
      (some slot :: groups, duplicates)
    else
      let rest := evictLoop max now groups (duplicates.erase slot.sequence)
      (none :: rest.1, rest.2)

/-- The second loop of `evict_expired`: drop the tombstones at the front. -/
def trim : List (Option Slot) → ℕ → List (Option Slot) × ℕ
  | none :: groups, offset => trim groups (offset + 1)
  | groups, offset => (groups, offset)

namespace State

/-- `evict_expired`. -/
def evictExpired (s : State) (now : ℕ) : State :=
  let kept := evictLoop s.maxSequence now s.groups s.duplicates
  let trimmed := trim kept.1 s.offset
  { s with groups := trimmed.1, duplicates := kept.2, offset := trimmed.2 }

/-- `modify`: the state, unless the channel is closed. -/
def modify (s : State) : Except Error State :=
  if s.closed then .error (s.abort.getD .dropped) else .ok s

/-- `TrackProducer::create_group` at the time `now`. -/
def createGroup (s : State) (sequence now : ℕ) : Except Error State := do
  let s ← s.modify
  if s.finalSequence.any (· ≤ sequence) then
    .error .closed
  else if sequence ∈ s.duplicates then
    .error .duplicate
  else
    .ok (evictExpired { s with
      duplicates := insert sequence s.duplicates
      maxSequence := some (max (s.maxSequence.getD 0) sequence)
      groups := s.groups ++ [some { sequence, createdAt := now }] } now)

/-- One past the largest sequence number. -/
def pastMax (s : State) : Except Error ℕ :=
  match s.maxSequence with
  | some max => if max + 1 < 2 ^ 64 then .ok (max + 1) else .error .boundsExceeded
  | none => .ok 0

/-- `TrackProducer::append_group` at the time `now`. -/
def appendGroup (s : State) (now : ℕ) : Except Error (ℕ × State) := do
  let s ← s.modify
  let sequence ← s.pastMax
  if s.finalSequence.any (· ≤ sequence) then
    .error .closed
  else
    .ok (sequence, evictExpired { s with
      duplicates := insert sequence s.duplicates
      maxSequence := some sequence
      groups := s.groups ++ [some { sequence, createdAt := now }] } now)

/-- `TrackProducer::finish`. -/
def finish (s : State) : Except Error State := do
  let s ← s.modify
  if s.finalSequence.isSome then
    .error .closed
  else
    let final ← s.pastMax
    .ok { s with finalSequence := some final }

/-- `TrackProducer::finish_at`. -/
def finishAt (s : State) (sequence : ℕ) : Except Error State := do
  let s ← s.modify
  match s.maxSequence with
  | none => .error .closed
  | some max =>
    if s.finalSequence.isSome ∨ sequence ≠ max then
      .error .closed
    else
      let final ← s.pastMax
      .ok { s with finalSequence := some final }

/-- `TrackProducer::abort`. -/
def abortWith (s : State) (e : Error) : Except Error State := do
  let s ← s.modify
  .ok { s with abort := some e, groups := [], duplicates := ∅, closed := true }

/-- The last `TrackProducer` is dropped: an unfinished track loses its cache, and the channel
closes. -/
def drop (s : State) : State :=
  if s.closed = false ∧ s.finalSequence = none then
    { s with groups := [], duplicates := ∅, closed := true }
  else { s with closed := true }

/-- The group that arrived at an index, if it is still in the cache. -/
def slotAt (s : State) (j : ℕ) : Option Slot :=
  if j < s.offset then none else (s.groups[j - s.offset]?).join

end State

/-! ### Eviction -/

/-- A group that eviction at the time `now` leaves alone. -/
def Kept (max : Option ℕ) (now : ℕ) (slot : Slot) : Prop :=
  some slot.sequence = max ∨ now - slot.createdAt ≤ maxGroupAge

instance (max : Option ℕ) (now : ℕ) (slot : Slot) : Decidable (Kept max now slot) :=
  inferInstanceAs (Decidable (_ ∨ _))

/-- The groups are in the order of their creation. -/
def Ordered (groups : List (Option Slot)) : Prop :=
  groups.Pairwise fun x y => ∀ a ∈ x, ∀ b ∈ y, a.createdAt ≤ b.createdAt

variable {groups : List (Option Slot)} {slot : Slot} {now : ℕ} {j : ℕ}

/-- If a group is young, so are those behind it. -/
theorem Ordered.kept {max : Option ℕ} {slot slot' : Slot}
    (h : Ordered (some slot :: groups)) (hyoung : now - slot.createdAt ≤ maxGroupAge)
    (hmem : some slot' ∈ some slot :: groups) : Kept max now slot' := by
  rcases mem_cons.mp hmem with heq | hmem
  · cases heq
    exact .inr hyoung
  · have := (pairwise_cons.mp h).1 _ hmem slot rfl slot' rfl
    exact .inr (by omega)

/-- The loop leaves a group exactly if it is the newest or young, and never brings one back. -/
theorem getElem?_evictLoop {max : Option ℕ} (hordered : Ordered groups)
    (duplicates : Finset ℕ) (i : ℕ) (slot : Slot) :
    (evictLoop max now groups duplicates).1[i]? = some (some slot) ↔
      groups[i]? = some (some slot) ∧ Kept max now slot := by
  fun_induction evictLoop max now groups duplicates generalizing i with
  | case1 duplicates => simp
  | case2 groups duplicates rest ih =>
    cases i with
    | zero => simp
    | succ i => simpa using ih (pairwise_cons.mp hordered).2 i
  | case3 slot' groups duplicates hmax rest ih =>
    cases i with
    | zero =>
      simp only [getElem?_cons_zero, Option.some.injEq]
      exact ⟨fun h => ⟨h, h ▸ .inl hmax⟩, And.left⟩
    | succ i => simpa using ih (pairwise_cons.mp hordered).2 i
  | case4 slot' groups duplicates hmax hyoung =>
    exact ⟨fun h => ⟨h, hordered.kept hyoung (mem_of_getElem? h)⟩, And.left⟩
  | case5 slot' groups duplicates hmax hold rest ih =>
    cases i with
    | zero =>
      simp only [getElem?_cons_zero, Option.some.injEq, reduceCtorEq, false_iff]
      rintro ⟨rfl, hkept⟩
      exact hkept.elim hmax hold
    | succ i => simpa using ih (pairwise_cons.mp hordered).2 i

/-- The loop frees the sequence numbers of the groups it evicts. -/
theorem mem_evictLoop {max : Option ℕ} (hordered : Ordered groups) (duplicates : Finset ℕ) (x : ℕ) :
    x ∈ (evictLoop max now groups duplicates).2 ↔
      x ∈ duplicates ∧ ∀ slot, some slot ∈ groups → slot.sequence = x → Kept max now slot := by
  fun_induction evictLoop max now groups duplicates with
  | case1 duplicates => simp
  | case2 groups duplicates rest ih =>
    simpa using ih (pairwise_cons.mp hordered).2
  | case3 slot' groups duplicates hmax rest ih =>
    rw [ih (pairwise_cons.mp hordered).2]
    refine and_congr_right fun _ => forall_congr' fun slot => ?_
    simp only [mem_cons, Option.some.injEq]
    refine ⟨fun h hmem hx => ?_, fun h hmem => h (.inr hmem)⟩
    rcases hmem with rfl | hmem
    · exact .inl hmax
    · exact h hmem hx
  | case4 slot' groups duplicates hmax hyoung =>
    exact ⟨fun h => ⟨h, fun slot hmem _ => hordered.kept hyoung hmem⟩, And.left⟩
  | case5 slot' groups duplicates hmax hold rest ih =>
    rw [ih (pairwise_cons.mp hordered).2, Finset.mem_erase, and_comm (a := x ≠ _), and_assoc]
    refine and_congr_right fun _ => ?_
    simp only [mem_cons, Option.some.injEq]
    constructor
    · rintro ⟨hne, h⟩ slot (rfl | hmem) hx
      · exact absurd hx.symm hne
      · exact h slot hmem hx
    · intro h
      refine ⟨?_, fun slot hmem => h slot (.inr hmem)⟩
      rintro rfl
      exact (h slot' (.inl rfl) rfl).elim hmax hold

theorem length_evictLoop (max : Option ℕ) (now : ℕ) (groups : List (Option Slot))
    (duplicates : Finset ℕ) : (evictLoop max now groups duplicates).1.length = groups.length := by
  fun_induction evictLoop max now groups duplicates with
  | case1 duplicates => rfl
  | case2 groups duplicates rest ih => exact congrArg succ ih
  | case3 slot groups duplicates hmax rest ih => exact congrArg succ ih
  | case4 slot groups duplicates hmax hyoung => rfl
  | case5 slot groups duplicates hmax hold rest ih => exact congrArg succ ih

variable (groups) (offset : ℕ)

theorem length_trim :
    (trim groups offset).2 + (trim groups offset).1.length = offset + groups.length := by
  fun_induction trim groups offset with
  | case1 groups offset ih =>
    rw [ih, length_cons]
    omega
  | case2 groups offset => rfl

/-- After trimming there is no tombstone at the front. -/
theorem head?_trim :
    (trim groups offset).1.head? ≠ some none := by
  fun_induction trim groups offset with
  | case1 groups offset ih => exact ih
  | case2 groups offset hfront =>
    cases groups with
    | nil => simp
    | cons x groups =>
      rintro ⟨⟩
      exact hfront groups rfl

/-- Trimming leaves every group at its index. -/
theorem slotAt_trim (s : State) (groups : List (Option Slot)) (offset j : ℕ) :
    State.slotAt { s with groups := (trim groups offset).1, offset := (trim groups offset).2 } j =
      State.slotAt { s with groups, offset } j := by
  fun_induction trim groups offset with
  | case1 groups offset ih =>
    rw [ih, State.slotAt, State.slotAt]
    rcases lt_trichotomy j offset with hlt | rfl | hgt
    · rw [if_pos (by dsimp only; omega), if_pos (by dsimp only; omega)]
    · simp
    · rw [if_neg (by dsimp only; omega), if_neg (by dsimp only; omega)]
      rw [show j - offset = j - (offset + 1) + 1 by omega, getElem?_cons_succ]
  | case2 groups offset => rfl

namespace State

variable {s : State} {s' : State}

theorem slotAt_eq_some :
    s.slotAt j = some slot ↔ s.offset ≤ j ∧ s.groups[j - s.offset]? = some (some slot) := by
  rw [slotAt]
  split_ifs with hlt
  · simp [not_le.mpr hlt]
  · rw [Option.join_eq_some_iff, and_iff_right (Nat.le_of_not_lt hlt)]

/-- Eviction keeps, at their index, the groups that are young or have the largest sequence
number. -/
theorem slotAt_evictExpired (hordered : Ordered s.groups) (now j : ℕ) (slot : Slot) :
    (s.evictExpired now).slotAt j = some slot ↔
      s.slotAt j = some slot ∧ Kept s.maxSequence now slot := by
  have htrim := slotAt_trim { s with duplicates := (s.evictExpired now).duplicates }
    (evictLoop s.maxSequence now s.groups s.duplicates).1 s.offset j
  rw [show (s.evictExpired now).slotAt j = _ from htrim, slotAt_eq_some, slotAt_eq_some]
  rw [getElem?_evictLoop hordered, and_assoc]

/-- An expired sequence is a duplicate no more. -/
theorem mem_duplicates_evictExpired (hordered : Ordered s.groups) (now x : ℕ) :
    x ∈ (s.evictExpired now).duplicates ↔
      x ∈ s.duplicates ∧
        ∀ j slot, s.slotAt j = some slot → slot.sequence = x → Kept s.maxSequence now slot := by
  refine (mem_evictLoop hordered s.duplicates x).trans (and_congr_right fun _ => ?_)
  constructor
  · intro h j slot hslot
    exact h slot (mem_of_getElem? (slotAt_eq_some.mp hslot).2)
  · intro h slot hmem
    obtain ⟨i, _⟩ := getElem?_of_mem hmem
    refine h (s.offset + i) slot (slotAt_eq_some.mpr ⟨le_add_right _ _, ?_⟩)
    rwa [Nat.add_sub_cancel_left]

theorem length_evictExpired (s : State) (now : ℕ) :
    (s.evictExpired now).offset + (s.evictExpired now).groups.length =
      s.offset + s.groups.length := by
  refine (length_trim _ _).trans ?_
  rw [length_evictLoop]

/-- A new group is behind all others. -/
theorem slotAt_concat (s : State) (j : ℕ) (slot new : Slot) :
    State.slotAt { s with groups := s.groups ++ [some new] } j = some slot ↔
      s.slotAt j = some slot ∨ j = s.offset + s.groups.length ∧ slot = new := by
  rw [slotAt_eq_some, slotAt_eq_some]
  dsimp only
  rw [getElem?_append]
  split_ifs with hlt
  · refine (or_iff_left ?_).symm
    rintro ⟨rfl, -⟩
    omega
  · have hnone : s.groups[j - s.offset]? = none := getElem?_eq_none (by omega)
    rw [hnone, getElem?_singleton]
    split_ifs with hzero
    · simp only [Option.some.injEq, and_false, false_or, eq_comm (a := new)]
      refine and_congr_left fun _ => ?_
      omega
    · simp only [and_false, false_or, false_iff, not_and]
      omega

/-- What `create_group` and `append_group` do to the state when they succeed. -/
def push (s : State) (sequence now : ℕ) : State :=
  evictExpired { s with
    duplicates := insert sequence s.duplicates
    maxSequence := some (max (s.maxSequence.getD 0) sequence)
    groups := s.groups ++ [some { sequence, createdAt := now }] } now

theorem modify_ok (h : s.modify = .ok s') : s.closed = false ∧ s' = s := by
  rw [modify] at h
  split_ifs at h with hclosed
  cases h
  exact ⟨by simpa using hclosed, rfl⟩

variable {sequence : ℕ}

theorem pastMax_ok (h : s.pastMax = .ok sequence) :
    sequence < 2 ^ 64 ∧ sequence = s.maxSequence.elim 0 (· + 1) := by
  rw [pastMax] at h
  split at h <;> rename_i hmax
  · split_ifs at h with hlt
    cases h
    exact ⟨hlt, by rw [hmax]; rfl⟩
  · cases h
    exact ⟨by decide, by rw [hmax]; rfl⟩

theorem any_le_eq_false {final : Option ℕ} {n : ℕ} (h : ¬ final.any (· ≤ n) = true) :
    ∀ f ∈ final, n < f := by
  rintro f rfl
  simpa using h

theorem createGroup_ok (hok : s.createGroup sequence now = .ok s') :
    s.closed = false ∧ (∀ f ∈ s.finalSequence, sequence < f) ∧ sequence ∉ s.duplicates ∧
      s' = s.push sequence now := by
  obtain ⟨_, hmodify, h⟩ := bind_eq_ok.mp hok
  obtain ⟨hclosed, heq⟩ := modify_ok hmodify
  rw [heq] at h
  split_ifs at h with hfinal hdup
  cases h
  exact ⟨hclosed, any_le_eq_false hfinal, hdup, rfl⟩

/-- An appended group follows the newest one. -/
theorem appendGroup_ok (hok : s.appendGroup now = .ok (sequence, s')) :
    s.closed = false ∧ (∀ f ∈ s.finalSequence, sequence < f) ∧ sequence < 2 ^ 64 ∧
      sequence = s.maxSequence.elim 0 (· + 1) ∧ s' = s.push sequence now := by
  obtain ⟨_, hmodify, h⟩ := bind_eq_ok.mp hok
  obtain ⟨hclosed, heq⟩ := modify_ok hmodify
  rw [heq] at h
  obtain ⟨_, hpast, h⟩ := bind_eq_ok.mp h
  obtain ⟨hlt, hq⟩ := pastMax_ok hpast
  split_ifs at h with hfinal
  cases h
  refine ⟨hclosed, any_le_eq_false hfinal, hlt, hq, ?_⟩
  have hmax : max (s.maxSequence.getD 0) sequence = sequence := by
    rw [hq]
    cases s.maxSequence <;> simp
  rw [push, hmax]

end State

/-! ### Histories -/

/-- What a producer does, and the time that passes. -/
inductive Action
  | createGroup (sequence : UInt64)
  | appendGroup
  | finish
  | finishAt (sequence : UInt64)
  | abort (e : Error)
  | drop
  | wait (nanos : ℕ)
  deriving DecidableEq

/-- A track, the time, and every group that was created on the track in order of arrival. -/
structure History where
  track : State := {}
  clock : ℕ := 0
  arrivals : List Slot := []
  deriving DecidableEq

namespace History

/-- When the last group was created. -/
def lastCreated (h : History) : ℕ := (h.arrivals.getLast?.map Slot.createdAt).getD 0

/-- A group was created. -/
def arrive (h : History) (track : State) (sequence : ℕ) : History :=
  { h with track, arrivals := h.arrivals ++ [{ sequence, createdAt := h.clock }] }

/-- The effect of a call; one that fails leaves everything as it is. -/
def step (h : History) : Action → History
  | .createGroup sequence =>
    match h.track.createGroup sequence.toNat h.clock with
    | .ok track => h.arrive track sequence.toNat
    | .error _ => h
  | .appendGroup =>
    match h.track.appendGroup h.clock with
    | .ok (sequence, track) => h.arrive track sequence
    | .error _ => h
  | .finish =>
    match h.track.finish with
    | .ok track => { h with track }
    | .error _ => h
  | .finishAt sequence =>
    match h.track.finishAt sequence.toNat with
    | .ok track => { h with track }
    | .error _ => h
  | .abort e =>
    match h.track.abortWith e with
    | .ok track => { h with track }
    | .error _ => h
  | .drop => { h with track := h.track.drop }
  | .wait nanos => { h with clock := h.clock + nanos }

/-- The history of a new track after a sequence of calls. -/
def run (actions : List Action) : History := actions.foldl step {}

end History

/-! ### The invariant -/

/-- What the cache of an open track holds, told by the groups that arrived. -/
structure Complete (h : History) : Prop where
  length : h.track.offset + h.track.groups.length = h.arrivals.length
  distinct : ∀ {i j a b}, h.track.slotAt i = some a → h.track.slotAt j = some b →
    a.sequence = b.sequence → i = j
  duplicates : ∀ x, x ∈ h.track.duplicates ↔
    ∃ j slot, h.track.slotAt j = some slot ∧ slot.sequence = x
  le_max : ∀ {slot}, slot ∈ h.arrivals → ∃ m ∈ h.track.maxSequence, slot.sequence ≤ m
  max_cached : ∀ {m}, m ∈ h.track.maxSequence →
    ∃ j slot, h.track.slotAt j = some slot ∧ slot.sequence = m
  kept : ∀ {j slot}, h.track.slotAt j = some slot →
    Kept h.track.maxSequence h.lastCreated slot
  young : ∀ {j slot}, h.arrivals[j]? = some slot →
    h.lastCreated - slot.createdAt ≤ maxGroupAge → h.track.slotAt j = some slot
  front : h.track.groups.head? ≠ some none
  final : ∀ {f}, f ∈ h.track.finalSequence → ∀ slot ∈ h.arrivals, slot.sequence < f

/-- Groups arrive in the order of time, and the cache holds none but them. -/
structure Cached (h : History) : Prop where
  ordered : h.arrivals.Pairwise fun a b => a.createdAt ≤ b.createdAt
  past : ∀ {slot}, slot ∈ h.arrivals → slot.createdAt ≤ h.clock
  bounded : ∀ {slot}, slot ∈ h.arrivals → slot.sequence < 2 ^ 64
  found : ∀ {j slot}, h.track.slotAt j = some slot → h.arrivals[j]? = some slot
  complete : h.track.closed = false → Complete h

variable {h : History} {sequence : ℕ} {s s' : State}

theorem lastCreated_arrive (h : History) (track : State) (sequence : ℕ) :
    (h.arrive track sequence).lastCreated = h.clock := by
  simp [History.lastCreated, History.arrive]

theorem Cached.lastCreated_le (hc : Cached h) : h.lastCreated ≤ h.clock := by
  rw [History.lastCreated]
  cases hlast : h.arrivals.getLast? with
  | none => exact zero_le _
  | some slot => exact hc.past (mem_of_getLast? hlast)

theorem Cached.mem_arrivals (hc : Cached h)
    (hslot : h.track.slotAt j = some slot) : slot ∈ h.arrivals :=
  mem_of_getElem? (hc.found hslot)

/-- The groups in the cache are in the order of time. -/
theorem Cached.ordered_groups (hc : Cached h) : Ordered h.track.groups := by
  refine pairwise_iff_getElem.mpr fun i j hi hj hij a ha b hb => ?_
  have hat : ∀ (k) (hk : k < h.track.groups.length) (slot : Slot), slot ∈ h.track.groups[k] →
      h.arrivals[h.track.offset + k]? = some slot := by
    intro k hk slot hslot
    refine hc.found (State.slotAt_eq_some.mpr ⟨le_add_right _ _, ?_⟩)
    rw [Nat.add_sub_cancel_left, getElem?_eq_getElem hk, hslot]
  obtain ⟨hia, rfl⟩ := List.getElem?_eq_some_iff.mp (hat i hi a ha)
  obtain ⟨hjb, rfl⟩ := List.getElem?_eq_some_iff.mp (hat j hj b hb)
  exact pairwise_iff_getElem.mp hc.ordered _ _ hia hjb (by omega)

/-- A sequence number that is not taken is that of no group in the cache. -/
theorem Complete.ne_of_notMem (hcomplete : Complete h) (hnew : sequence ∉ h.track.duplicates)
    (hslot : h.track.slotAt j = some slot) : slot.sequence ≠ sequence := fun heq =>
  hnew ((hcomplete.duplicates sequence).mpr ⟨j, slot, hslot, heq⟩)

/-- A group that arrives now is behind those in the cache. -/
theorem Cached.ordered_concat (hc : Cached h) (sequence : ℕ) :
    Ordered (h.track.groups ++ [some ⟨sequence, h.clock⟩]) := by
  refine pairwise_append.mpr ⟨hc.ordered_groups, pairwise_singleton _ _, ?_⟩
  intro x hx y hy a ha b hb
  obtain rfl := mem_singleton.mp hy
  obtain rfl : ⟨_, h.clock⟩ = b := Option.some.inj hb
  obtain rfl : x = some a := ha
  obtain ⟨i, _⟩ := getElem?_of_mem hx
  refine hc.past (hc.mem_arrivals (j := h.track.offset + i) ?_)
  exact State.slotAt_eq_some.mpr ⟨Nat.le_add_right _ _, by rwa [Nat.add_sub_cancel_left]⟩

section Arrival

/-- A group in the cache or the one that arrives. -/
def Candidate (h : History) (sequence j : ℕ) (slot : Slot) : Prop :=
  h.track.slotAt j = some slot ∨ j = h.arrivals.length ∧ slot = ⟨sequence, h.clock⟩

/-- The groups in the cache after a group has arrived. -/
theorem Cached.slotAt_push (hc : Cached h) (hopen : h.track.closed = false) (j : ℕ) (slot : Slot) :
    (h.track.push sequence h.clock).slotAt j = some slot ↔
      Candidate h sequence j slot ∧
        Kept (some (max (h.track.maxSequence.getD 0) sequence)) h.clock slot := by
  rw [State.push, State.slotAt_evictExpired (hc.ordered_concat sequence), Candidate,
    ← (hc.complete hopen).length]
  exact and_congr_left' (State.slotAt_concat h.track j slot _)

theorem Candidate.getElem? (hc : Cached h) (hslot : Candidate h sequence j slot) :
    (h.arrivals ++ [⟨sequence, h.clock⟩])[j]? = some slot := by
  rcases hslot with hslot | ⟨rfl, rfl⟩
  · have hat := hc.found hslot
    rwa [List.getElem?_append_left (List.getElem?_eq_some_iff.mp hat).1]
  · rw [getElem?_concat_length]

theorem Candidate.distinct (hcomplete : Complete h) (hnew : sequence ∉ h.track.duplicates)
    {i j : ℕ} {a b : Slot} (ha : Candidate h sequence i a) (hb : Candidate h sequence j b)
    (hseq : a.sequence = b.sequence) : i = j := by
  rcases ha with ha | ⟨rfl, rfl⟩ <;> rcases hb with hb | ⟨rfl, rfl⟩
  · exact hcomplete.distinct ha hb hseq
  · exact absurd hseq (hcomplete.ne_of_notMem hnew ha)
  · exact absurd hseq.symm (hcomplete.ne_of_notMem hnew hb)
  · rfl

theorem Candidate.newest (h : History) (sequence : ℕ) :
    Candidate h sequence h.arrivals.length ⟨sequence, h.clock⟩ := .inr ⟨rfl, rfl⟩

section

variable (hc : Cached h)

include hc

/-- The sequence numbers that are taken are those of the groups in the cache. -/
theorem Cached.mem_duplicates_push (hopen : h.track.closed = false)
    (hnew : sequence ∉ h.track.duplicates) (x : ℕ) :
    x ∈ (h.track.push sequence h.clock).duplicates ↔
      ∃ j slot, (h.track.push sequence h.clock).slotAt j = some slot ∧ slot.sequence = x := by
  have hcomplete := hc.complete hopen
  have hcandidate : ∀ j slot, State.slotAt { h.track with
      groups := h.track.groups ++ [some ⟨sequence, h.clock⟩] } j = some slot ↔
      Candidate h sequence j slot := by
    intro j slot
    rw [Candidate, ← hcomplete.length]
    exact State.slotAt_concat h.track j slot _
  rw [State.push, State.mem_duplicates_evictExpired (hc.ordered_concat sequence),
    Finset.mem_insert]
  constructor
  · rintro ⟨hx, hkept⟩
    obtain ⟨j, slot, hj, rfl⟩ : ∃ j slot, Candidate h sequence j slot ∧ slot.sequence = x := by
      rcases hx with rfl | hx
      · exact ⟨_, _, Candidate.newest h x, rfl⟩
      · obtain ⟨j, slot, hj, rfl⟩ := (hcomplete.duplicates x).mp hx
        exact ⟨j, slot, .inl hj, rfl⟩
    exact ⟨j, slot, (hc.slotAt_push hopen j slot).mpr
      ⟨hj, hkept j slot ((hcandidate j slot).mpr hj) rfl⟩, rfl⟩
  · rintro ⟨j, slot, hj, rfl⟩
    obtain ⟨hj, hkept⟩ := (hc.slotAt_push hopen j slot).mp hj
    constructor
    · rcases hj with hj | ⟨-, rfl⟩
      · exact .inr ((hcomplete.duplicates _).mpr ⟨j, slot, hj, rfl⟩)
      · exact .inl rfl
    · intro j' slot' hj' hseq
      have hj' := (hcandidate j' slot').mp hj'
      obtain rfl := Candidate.distinct hcomplete hnew hj' hj hseq
      exact Option.some.inj ((hj'.getElem? hc).symm.trans (hj.getElem? hc)) ▸ hkept

/-- The group with the largest sequence number stays in the cache. -/
theorem Cached.max_cached_push (hopen : h.track.closed = false) :
    ∃ j slot, (h.track.push sequence h.clock).slotAt j = some slot ∧
      slot.sequence = max (h.track.maxSequence.getD 0) sequence := by
  have hkept : ∀ {j slot}, Candidate h sequence j slot →
      slot.sequence = max (h.track.maxSequence.getD 0) sequence →
      ∃ j slot, (h.track.push sequence h.clock).slotAt j = some slot ∧
        slot.sequence = max (h.track.maxSequence.getD 0) sequence := fun {j slot} hj hseq =>
    ⟨j, slot, (hc.slotAt_push hopen j slot).mpr ⟨hj, .inl (congrArg some hseq)⟩, hseq⟩
  rcases lt_or_ge sequence (h.track.maxSequence.getD 0) with hlt | hge
  · cases hmax : h.track.maxSequence with
    | none => simp [hmax] at hlt
    | some m =>
      obtain ⟨_, _, hj, hseq⟩ := (hc.complete hopen).max_cached hmax
      rw [hmax] at hkept hlt
      exact hkept (.inl hj) (by rw [hseq, max_eq_left hlt.le, Option.getD_some])
  · exact hkept (Candidate.newest h sequence) (max_eq_right hge).symm

/-- A young group is in the cache. -/
theorem Cached.young_push (hopen : h.track.closed = false)
    (hj : (h.arrivals ++ [⟨sequence, h.clock⟩])[j]? = some slot)
    (hyoung : h.clock - slot.createdAt ≤ maxGroupAge) :
    (h.track.push sequence h.clock).slotAt j = some slot := by
  refine (hc.slotAt_push hopen j slot).mpr ⟨?_, .inr hyoung⟩
  rcases lt_trichotomy j h.arrivals.length with hlt | rfl | hgt
  · rw [getElem?_append_left hlt] at hj
    have := hc.lastCreated_le
    exact .inl ((hc.complete hopen).young hj (by omega))
  · rw [getElem?_concat_length] at hj
    exact .inr ⟨rfl, (Option.some.inj hj).symm⟩
  · rw [getElem?_eq_none (by simp; omega)] at hj
    cases hj

/-- A group that is pushed keeps the cache complete. -/
theorem Cached.complete_push (hopen : h.track.closed = false)
    (hnew : sequence ∉ h.track.duplicates) (hfinal : ∀ f ∈ h.track.finalSequence, sequence < f) :
    Complete (h.arrive (h.track.push sequence h.clock) sequence) where
  length := by
    refine (State.length_evictExpired _ _).trans ?_
    simp [History.arrive, ← (hc.complete hopen).length, add_assoc]
  distinct := fun {i j a b} ha hb =>
    Candidate.distinct (hc.complete hopen) hnew ((hc.slotAt_push hopen i a).mp ha).1
      ((hc.slotAt_push hopen j b).mp hb).1
  duplicates := hc.mem_duplicates_push hopen hnew
  le_max := fun {slot} hmem => by
    refine ⟨_, rfl, ?_⟩
    rcases mem_append.mp hmem with hmem | hmem
    · obtain ⟨m, hm, hle⟩ := (hc.complete hopen).le_max hmem
      rw [Option.mem_def.mp hm]
      exact le_max_of_le_left hle
    · obtain rfl := mem_singleton.mp hmem
      exact le_max_right _ _
  max_cached := fun {m} hm => Option.some.inj hm ▸ hc.max_cached_push hopen
  kept := fun {j slot} hj => by
    rw [lastCreated_arrive]
    exact ((hc.slotAt_push hopen j slot).mp hj).2
  young := fun hj hyoung => by
    rw [lastCreated_arrive] at hyoung
    exact hc.young_push hopen hj hyoung
  front := head?_trim _ _
  final := fun hf slot hmem => by
    rcases mem_append.mp hmem with hmem | hmem
    · exact (hc.complete hopen).final hf slot hmem
    · obtain rfl := mem_singleton.mp hmem
      exact hfinal _ hf

/-- A group arrives under a sequence number that is not taken. -/
theorem Cached.arrive (hopen : h.track.closed = false)
    (hbound : sequence < 2 ^ 64) (hnew : sequence ∉ h.track.duplicates)
    (hfinal : ∀ f ∈ h.track.finalSequence, sequence < f) :
    Cached (h.arrive (h.track.push sequence h.clock) sequence) where
  ordered := by
    refine pairwise_append.mpr ⟨hc.ordered, pairwise_singleton _ _, ?_⟩
    intro a ha b hb
    rw [mem_singleton.mp hb]
    exact hc.past ha
  past := fun hmem => by
    rcases mem_append.mp hmem with hmem | hmem
    · exact hc.past hmem
    · rw [mem_singleton.mp hmem]
      exact le_refl _
  bounded := fun hmem => by
    rcases mem_append.mp hmem with hmem | hmem
    · exact hc.bounded hmem
    · rw [mem_singleton.mp hmem]
      exact hbound
  found := fun hslot => Candidate.getElem? hc ((hc.slotAt_push hopen _ _).mp hslot).1
  complete := fun _ => hc.complete_push hopen hnew hfinal

end

end Arrival

/-- A sequence number past the largest is not taken. -/
theorem Complete.pastMax_notMem (hcomplete : Complete h) (hc : Cached h) :
    h.track.maxSequence.elim 0 (· + 1) ∉ h.track.duplicates := fun hmem => by
  obtain ⟨_, _, hslot, hseq⟩ := (hcomplete.duplicates _).mp hmem
  obtain ⟨_, hm, _⟩ := hcomplete.le_max (hc.mem_arrivals hslot)
  rw [Option.mem_def.mp hm, Option.elim_some] at hseq
  omega

/-- The track is finished past its largest sequence number. -/
theorem Cached.finish (hc : Cached h) :
    Cached { h with track := { h.track with
      finalSequence := some (h.track.maxSequence.elim 0 (· + 1)) } } where
  ordered := hc.ordered
  past := hc.past
  bounded := hc.bounded
  found := hc.found
  complete := fun hopen =>
    { hc.complete hopen with
      final := fun {f} hf slot hmem => by
        obtain ⟨_, hm, _⟩ := (hc.complete hopen).le_max hmem
        obtain rfl : _ = f := Option.some.inj hf
        rw [Option.mem_def.mp hm, Option.elim_some]
        omega }

/-- The channel closes, and what is left in the cache was there before. -/
theorem Cached.close (hc : Cached h) {track : State} (hclosed : track.closed = true)
    (hslot : ∀ {j slot}, track.slotAt j = some slot → h.track.slotAt j = some slot) :
    Cached { h with track } where
  ordered := hc.ordered
  past := hc.past
  bounded := hc.bounded
  found := fun hj => hc.found (hslot hj)
  complete := fun hopen => absurd (hclosed.symm.trans hopen) Bool.noConfusion

theorem State.slotAt_nil {s : State} (hnil : s.groups = []) (j : ℕ) : s.slotAt j = none := by
  rw [State.slotAt, hnil]
  split_ifs <;> rfl

theorem State.finish_ok (hok : s.finish = .ok s') :
    s' = { s with finalSequence := some (s.maxSequence.elim 0 (· + 1)) } := by
  obtain ⟨_, hmodify, h⟩ := bind_eq_ok.mp hok
  rw [(modify_ok hmodify).2] at h
  split_ifs at h
  obtain ⟨_, hpast, h⟩ := bind_eq_ok.mp h
  cases h
  rw [(pastMax_ok hpast).2]

theorem State.finishAt_ok (hok : s.finishAt sequence = .ok s') :
    s' = { s with finalSequence := some (s.maxSequence.elim 0 (· + 1)) } := by
  obtain ⟨_, hmodify, h⟩ := bind_eq_ok.mp hok
  rw [(modify_ok hmodify).2] at h
  split at h
  · cases h
  · split_ifs at h
    obtain ⟨_, hpast, h⟩ := bind_eq_ok.mp h
    cases h
    rw [(pastMax_ok hpast).2]

/-- Every action keeps what is known of the cache. -/
theorem Cached.step (hc : Cached h) (action : Action) : Cached (h.step action) := by
  cases action with
  | createGroup sequence =>
    rw [History.step]
    split
    · rename_i track hok
      obtain ⟨hopen, hfinal, hnew, rfl⟩ := State.createGroup_ok hok
      exact hc.arrive hopen sequence.toNat_lt hnew hfinal
    · exact hc
  | appendGroup =>
    rw [History.step]
    split
    · rename_i sequence track hok
      obtain ⟨hopen, hfinal, hlt, hseq, rfl⟩ := State.appendGroup_ok hok
      exact hc.arrive hopen hlt (hseq ▸ (hc.complete hopen).pastMax_notMem hc) hfinal
    · exact hc
  | finish =>
    rw [History.step]
    split
    · rename_i track hok
      exact State.finish_ok hok ▸ hc.finish
    · exact hc
  | finishAt sequence =>
    rw [History.step]
    split
    · rename_i track hok
      exact State.finishAt_ok hok ▸ hc.finish
    · exact hc
  | abort e =>
    rw [History.step]
    split
    · rename_i track hok
      obtain ⟨_, -, h⟩ := bind_eq_ok.mp hok
      cases h
      exact hc.close rfl fun hslot => by simp [State.slotAt_nil] at hslot
    · exact hc
  | drop =>
    rw [History.step, State.drop]
    split_ifs
    · exact hc.close rfl fun hslot => by simp [State.slotAt_nil] at hslot
    · exact hc.close rfl fun hslot => hslot
  | wait nanos =>
    exact { hc with
      past := fun hmem => le_add_right_of_le (hc.past hmem)
      complete := fun hopen => { hc.complete hopen with } }

/-- A new track has cached nothing. -/
theorem cached_new : Cached {} where
  ordered := .nil
  past := nofun
  bounded := nofun
  found := fun hslot => by simp [State.slotAt_nil] at hslot
  complete := fun _ =>
    { length := rfl
      distinct := fun hslot => by simp [State.slotAt_nil] at hslot
      duplicates := fun x => by simp [State.slotAt_nil]
      le_max := nofun
      max_cached := nofun
      kept := fun hslot => by simp [State.slotAt_nil] at hslot
      young := fun hj => by simp at hj
      front := by simp
      final := nofun }

theorem cached_foldl (hc : Cached h) (actions : List Action) :
    Cached (actions.foldl History.step h) := by
  induction actions generalizing h with
  | nil => exact hc
  | cons action actions ih => exact ih (hc.step action)

/-- The calls that fail because the sequence number is taken. -/
theorem Complete.createGroup_eq_duplicate (hcomplete : Complete h) (hc : Cached h)
    (hopen : h.track.closed = false) (sequence now : ℕ) :
    h.track.createGroup sequence now = .error .duplicate ↔
      ∃ j slot, h.track.slotAt j = some slot ∧ slot.sequence = sequence := by
  rw [← hcomplete.duplicates, State.createGroup, State.modify, if_neg (by simp [hopen])]
  dsimp only [bind, Except.bind]
  constructor
  · intro herr
    split_ifs at herr with hfinal hdup
    · cases herr
    · exact hdup
  · intro hdup
    obtain ⟨_, slot, hslot, rfl⟩ := (hcomplete.duplicates _).mp hdup
    have hfinal : ¬ h.track.finalSequence.any (· ≤ slot.sequence) = true := by
      rw [Option.any_eq_true]
      rintro ⟨_, hf, hle⟩
      have := hcomplete.final hf slot (hc.mem_arrivals hslot)
      simp only [decide_eq_true_eq] at hle
      omega
    rw [if_neg hfinal, if_pos hdup]

/-- **What the cache holds.** Whatever groups were created on an open track, in any order: the
groups in the cache have distinct sequence numbers, which are the ones that are taken; they are the
young groups and the one with the largest sequence number; and the first slot is not a tombstone. -/
theorem cached_run (actions : List Action) (hopen : (History.run actions).track.closed = false) :
    let h := History.run actions
    let t := h.track
    (∀ i j a b, t.slotAt i = some a → t.slotAt j = some b → a.sequence = b.sequence → i = j) ∧
      (∀ x, x ∈ t.duplicates ↔ ∃ j slot, t.slotAt j = some slot ∧ slot.sequence = x) ∧
      (h.arrivals ≠ [] → ∃ m j slot, t.maxSequence = some m ∧ t.slotAt j = some slot ∧
        slot.sequence = m ∧ ∀ other ∈ h.arrivals, other.sequence ≤ m) ∧
      (∀ j slot, t.slotAt j = some slot → h.arrivals[j]? = some slot ∧
        (some slot.sequence ≠ t.maxSequence → h.lastCreated - slot.createdAt ≤ maxGroupAge)) ∧
      (∀ j slot, h.arrivals[j]? = some slot → h.lastCreated - slot.createdAt ≤ maxGroupAge →
        t.slotAt j = some slot) ∧
      t.groups.head? ≠ some none ∧
      ∀ sequence now, t.createGroup sequence now = .error .duplicate ↔
        ∃ j slot, t.slotAt j = some slot ∧ slot.sequence = sequence := by
  intro h t
  have hc : Cached h := cached_foldl cached_new actions
  have hcomplete := hc.complete hopen
  refine ⟨fun i j a b => hcomplete.distinct, hcomplete.duplicates, fun hne => ?_,
    fun j slot hslot => ⟨hc.found hslot, fun hmax => (hcomplete.kept hslot).resolve_left hmax⟩,
    fun j slot => hcomplete.young, hcomplete.front,
    hcomplete.createGroup_eq_duplicate hc hopen⟩
  obtain ⟨_, hmem⟩ := exists_mem_of_ne_nil _ hne
  obtain ⟨m, hm, -⟩ := hcomplete.le_max hmem
  obtain ⟨j, newest, hnewest, hseq⟩ := hcomplete.max_cached hm
  refine ⟨m, j, newest, hm, hnewest, hseq, fun other hother => ?_⟩
  obtain ⟨_, hm', hle⟩ := hcomplete.le_max hother
  exact Option.mem_unique hm' hm ▸ hle

/-- Groups 7, 3 and 8 are created, six seconds pass, and group 3 is created again. -/
def reordered : List Action :=
  [.createGroup 7, .createGroup 3, .appendGroup, .wait 6000000000, .createGroup 3]

/-- The track stays open, and exactly the cached groups are duplicates. -/
theorem cached_run_reordered :
    (History.run reordered).track.closed = false ∧
      ∀ sequence now,
        (History.run reordered).track.createGroup sequence now = .error .duplicate ↔
        ∃ j slot, (History.run reordered).track.slotAt j = some slot ∧
          slot.sequence = sequence :=
  ⟨rfl, (cached_run reordered rfl).2.2.2.2.2.2⟩

end Track

end HermitMoq
