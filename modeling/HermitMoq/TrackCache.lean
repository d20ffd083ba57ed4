import HermitMoq.Runs
import Mathlib.Algebra.Group.Nat.Defs
import Mathlib.Data.List.GetD
import Mathlib.Data.List.TakeWhile

/-!
# The Cache of a Track

The part of `moq-net` that a stream of JSON values is written to and read from: groups of frames
(`group.rs`) and tracks of groups (`track.rs`). A group drops its oldest frames once it holds
too many bytes or frames, a track drops groups that are too old, but never the newest. Group
handles are shared; a handle is the sequence number of the group, and the track keeps what is
behind every handle. Sequence numbers are appended one after another, tracks and groups are
never aborted, and frames are written in one piece.
-/

namespace HermitMoq

open List Nat

/-- `std::task::Poll`. -/
inductive Poll (α : Type)
  | ready (a : α)
  | pending
  deriving DecidableEq, Repr

/-- The errors of `moq_net` that occur here. -/
inductive NetError
  | closed
  | cacheFull
  | frameTooLarge
  | boundsExceeded
  deriving DecidableEq, Repr

/-- `MAX_FRAME_SIZE`. -/
def maxFrameSize : ℕ := 32 * 1024 * 1024

/-- `MAX_GROUP_CACHE`. -/
def maxGroupCache : ℕ := 32 * 1024 * 1024

/-- `MAX_GROUP_FRAMES`. -/
def maxGroupFrames : ℕ := 1024

/-- `MAX_GROUP_AGE`, in nanoseconds. -/
def maxGroupAge : ℕ := 5 * 1000000000

/-- `u64::checked_add(1)`. -/
def checkedSucc (n : ℕ) : Except NetError ℕ :=
  if n + 1 < 2 ^ 64 then .ok (n + 1) else .error .boundsExceeded

/-! ### Groups -/

/-- `GroupState`. The source only counts the frames it evicts, in `offset`. -/
structure GroupState (β : Type) where
  evicted : List β := []
  frames : List β := []
  cache : ℕ := 0
  fin : Bool := false
  deriving DecidableEq, Repr

variable {index : ℕ}

namespace GroupState

variable {β : Type} (len : β → ℕ)

/-- A new group. -/
def empty : GroupState β := {}

/-- The number of evicted frames. -/
def offset (g : GroupState β) : ℕ := g.evicted.length

/-- All frames that were written to the group. -/
def written (g : GroupState β) : List β := g.evicted ++ g.frames

/-- The loop of `evict`. -/
def evictLoop (fin : Bool) : List β → List β → ℕ → GroupState β
  | evicted, [], cache => { evicted, cache, fin }
  | evicted, frame :: frames, cache =>
    if cache > maxGroupCache ∨ (frame :: frames).length > maxGroupFrames then
      evictLoop fin (evicted ++ [frame]) frames (cache - len frame)
    else { evicted, frames := frame :: frames, cache, fin }

/-- `evict`: drop frames from the front until the group is within both limits. -/
def evict (g : GroupState β) : GroupState β :=
  evictLoop len g.fin g.evicted g.frames g.cache

/-- `write_frame`, by way of `create_frame` and `append_frame`. -/
def writeFrame (g : GroupState β) (frame : β) : Except NetError (GroupState β) :=
  if len frame > maxFrameSize then .error .frameTooLarge
  else if g.fin then .error .closed
  else .ok (evict len { g with cache := g.cache + len frame, frames := g.frames ++ [frame] })

/-- `finish`. -/
def finish (g : GroupState β) : GroupState β := { g with fin := true }

/-- `GroupConsumer::poll_read_frame` at an index. -/
def pollReadFrame (g : GroupState β) (index : ℕ) : Poll (Except NetError (Option β)) :=
  if index < g.offset then .ready (.error .cacheFull)
  else match g.frames[index - g.offset]? with
    | some frame => .ready (.ok (some frame))
    | none => if g.fin then .ready (.ok none) else .pending

variable {len}

variable (len) in
/-- Evicted frames stay among those written. -/
theorem evictLoop_spec (fin : Bool) (evicted frames : List β) (cache : ℕ) :
    (evictLoop len fin evicted frames cache).written = evicted ++ frames ∧
      (evictLoop len fin evicted frames cache).fin = fin := by
  induction frames generalizing evicted cache with
  | nil => exact ⟨rfl, rfl⟩
  | cons frame frames ih =>
    rw [evictLoop]
    split_ifs with hfull
    · simpa using ih (evicted ++ [frame]) (cache - len frame)
    · exact ⟨rfl, rfl⟩

/-- A frame is written to a group that is not finished. -/
theorem written_writeFrame {g g' : GroupState β} {frame : β}
    (h : g.writeFrame len frame = .ok g') :
    g.fin = false ∧ g'.written = g.written ++ [frame] ∧ g'.fin = false := by
  rw [writeFrame] at h
  split_ifs at h with hlen hfin
  cases h
  rw [Bool.not_eq_true] at hfin
  obtain ⟨hwritten, hfin'⟩ :=
    evictLoop_spec len g.fin g.evicted (g.frames ++ [frame]) (g.cache + len frame)
  exact ⟨hfin, hwritten.trans (append_assoc _ _ _).symm, hfin'.trans hfin⟩

/-- What a poll finds: a frame that was written, unless it is evicted. -/
theorem pollReadFrame_eq (g : GroupState β) (index : ℕ) :
    g.pollReadFrame index =
      if index < g.offset then .ready (.error .cacheFull)
      else match g.written[index]? with
        | some frame => .ready (.ok (some frame))
        | none => if g.fin then .ready (.ok none) else .pending := by
  rw [pollReadFrame]
  by_cases hoffset : index < g.offset
  · rw [if_pos hoffset, if_pos hoffset]
  · rw [if_neg hoffset, if_neg hoffset, written,
      getElem?_append_right (Nat.le_of_not_lt hoffset), offset]

/-- A frame that is read was written at its index. -/
theorem getElem?_of_pollReadFrame {g : GroupState β} {frame : β}
    (h : g.pollReadFrame index = .ready (.ok (some frame))) : g.written[index]? = some frame := by
  rw [pollReadFrame_eq] at h
  by_cases hoffset : index < g.offset
  · rw [if_pos hoffset] at h
    cases h
  · rw [if_neg hoffset] at h
    cases hframe : g.written[index]? with
    | none =>
      rw [hframe] at h
      split_ifs at h
      cases h
    | some x =>
      rw [hframe] at h
      cases h
      rfl

end GroupState

/-! ### Tracks -/

/-- A group in the cache of a track and when it arrived. -/
structure Slot where
  sequence : ℕ
  createdAt : ℕ
  deriving DecidableEq, Repr

/-- `State` of a track. -/
structure TrackCache (β : Type) where
  /-- Groups in arrival order; `none` for an evicted one. -/
  groups : List (Option Slot) := []
  /-- The number of slots dropped from the front. -/
  offset : ℕ := 0
  maxSequence : Option ℕ := none
  finalSequence : Option ℕ := none
  /-- What is behind the group handles, by sequence number. -/
  states : List (GroupState β) := []
  deriving DecidableEq, Repr

namespace TrackCache

variable {β : Type} (len : β → ℕ)

/-- What is behind a group handle. -/
def state (t : TrackCache β) (sequence : ℕ) : GroupState β := t.states.getD sequence .empty

/-- Change what is behind a group handle. -/
def setState (t : TrackCache β) (sequence : ℕ) (g : GroupState β) : TrackCache β :=
  { t with states := t.states.set sequence g }

/-- The newest group. -/
def newest (t : TrackCache β) : GroupState β := t.state (t.states.length - 1)

/-- The loop of `evict_expired`: it stops at the first group that is neither the newest nor
expired. -/
def tombstone (max : Option ℕ) (now : ℕ) : List (Option Slot) → List (Option Slot)
  | [] => []
  | none :: groups => none :: tombstone max now groups
  | some slot :: groups =>
    if some slot.sequence = max then some slot :: tombstone max now groups
    else if now - slot.createdAt ≤ maxGroupAge then some slot :: groups
    else none :: tombstone max now groups

/-- `evict_expired`. -/
def evictExpired (t : TrackCache β) (now : ℕ) : TrackCache β :=
  let groups := tombstone t.maxSequence now t.groups
  { t with
    groups := groups.dropWhile Option.isNone
    offset := t.offset + (groups.takeWhile Option.isNone).length }

/-- One past the largest sequence number. -/
def pastMax (t : TrackCache β) : Except NetError ℕ :=
  match t.maxSequence with
  | some max => checkedSucc max
  | none => .ok 0

/-- `TrackProducer::append_group` at the time `now`. -/
def appendGroup (t : TrackCache β) (now : ℕ) : Except NetError (ℕ × TrackCache β) := do
  let sequence ← t.pastMax
  if t.finalSequence.any (· ≤ sequence) then
    .error .closed
  else
    .ok (sequence, evictExpired { t with
      maxSequence := some sequence
      groups := t.groups ++ [some { sequence, createdAt := now }]
      states := t.states ++ [.empty] } now)

/-- `GroupProducer::write_frame`. -/
def writeFrame (t : TrackCache β) (sequence : ℕ) (frame : β) :
    Except NetError (TrackCache β) := do
  let g ← (t.state sequence).writeFrame len frame
  .ok (t.setState sequence g)

/-- `GroupProducer::finish`. -/
def finishGroup (t : TrackCache β) (sequence : ℕ) : TrackCache β :=
  t.setState sequence (t.state sequence).finish

/-- `TrackProducer::finish`. -/
def finish (t : TrackCache β) : Except NetError (TrackCache β) := do
  if t.finalSequence.isSome then
    .error .closed
  else
    let final ← t.pastMax
    .ok { t with finalSequence := some final }

/-- The first group with a large enough sequence number, and its slot. -/
def findGroup (minSequence : ℕ) : List (Option Slot) → ℕ → Option (ℕ × ℕ)
  | [], _ => none
  | none :: groups, i => findGroup minSequence groups (i + 1)
  | some slot :: groups, i =>
    if minSequence ≤ slot.sequence then some (slot.sequence, i)
    else findGroup minSequence groups (i + 1)

/-- `State::poll_recv_group`: the next group and its absolute index. -/
def pollRecvGroup (t : TrackCache β) (index minSequence : ℕ) : Poll (Option (ℕ × ℕ)) :=
  let start := index - t.offset
  match findGroup minSequence (t.groups.drop start) (t.offset + start) with
  | some found => .ready (some found)
  | none => if t.finalSequence.isSome then .ready none else .pending

variable {groups : List (Option Slot)} {sequence : ℕ}

/-- A group that is found is in its slot. -/
theorem findGroup_bounds {minSequence found : ℕ} {i : ℕ}
    (h : findGroup minSequence groups i = some (sequence, found)) :
    i ≤ found ∧ ∃ slot, groups[found - i]? = some (some slot) ∧ slot.sequence = sequence := by
  induction groups generalizing i with
  | nil => cases h
  | cons slot groups ih =>
    have hnext : findGroup minSequence groups (i + 1) = some (sequence, found) →
        i ≤ found ∧ ∃ x, (slot :: groups)[found - i]? = some (some x) ∧
          x.sequence = sequence := fun h => by
      obtain ⟨_, hslot⟩ := ih h
      rw [show found - i = found - (i + 1) + 1 by omega, getElem?_cons_succ]
      exact ⟨by omega, hslot⟩
    cases slot with
    | none => exact hnext h
    | some slot =>
      rw [findGroup] at h
      split_ifs at h with hmin
      · cases h
        exact ⟨le_refl _, slot, by simp, rfl⟩
      · exact hnext h

variable {t : TrackCache β}

/-- A group that is received is in the cache. -/
theorem pollRecvGroup_bounds {index minSequence found : ℕ}
    (h : t.pollRecvGroup index minSequence = .ready (some (sequence, found))) :
    index ≤ found ∧ found < t.offset + t.groups.length := by
  rw [pollRecvGroup] at h
  split at h
  · rename_i hfind
    cases h
    obtain ⟨_, _, hslot, -⟩ := findGroup_bounds hfind
    have hlt := (List.getElem?_eq_some_iff.mp hslot).1
    rw [length_drop] at hlt
    omega
  · split_ifs at h
    cases h

/-! ### The arrangement of the cache -/

/-- The slots of `n` groups, the first of them dropped: groups are under their sequence number,
and the newest is in the cache. -/
structure Placed (offset : ℕ) (groups : List (Option Slot)) (n : ℕ) : Prop where
  length : offset + groups.length = n
  sequence : ∀ {i slot}, groups[i]? = some (some slot) → slot.sequence = offset + i
  newest : n ≠ 0 → ∃ slot, groups.getLast? = some (some slot)

/-- The cache holds the groups of the track in order. -/
structure Arranged (t : TrackCache β) : Prop where
  placed : Placed t.offset t.groups t.states.length
  max : t.maxSequence.elim 0 (· + 1) = t.states.length

theorem length_tombstone (max : Option ℕ) (now : ℕ) (groups : List (Option Slot)) :
    (tombstone max now groups).length = groups.length := by
  fun_induction tombstone max now groups <;> simp_all

variable {now : ℕ} {slot : Slot}

/-- Nothing is added to the cache. -/
theorem getElem?_tombstone {max : Option ℕ} {i : ℕ}
    (h : (tombstone max now groups)[i]? = some (some slot)) : groups[i]? = some (some slot) := by
  fun_induction tombstone max now groups generalizing i with
  | case1 => exact h
  | case4 => exact h
  | case2 groups ih | case5 slot' groups hmax hage ih =>
    cases i with
    | zero => simp at h
    | succ i => simpa using ih h
  | case3 groups slot' hmax ih =>
    cases i with
    | zero => simpa using h
    | succ i => simpa using ih h

/-- The newest group is never expired. -/
theorem getLast?_tombstone (h : groups.getLast? = some (some slot)) :
    (tombstone (some slot.sequence) now groups).getLast? = some (some slot) := by
  obtain ⟨front, rfl⟩ := getLast?_eq_some_iff.mp h
  have happ : ∃ front', tombstone (some slot.sequence) now (front ++ [some slot]) =
      front' ++ [some slot] := by
    clear h
    induction front with
    | nil => exact ⟨[], by simp [tombstone]⟩
    | cons x front ih =>
      obtain ⟨front', heq⟩ := ih
      cases x with
      | none => exact ⟨none :: front', by rw [cons_append, tombstone, heq]; rfl⟩
      | some x =>
        rw [cons_append, tombstone, heq]
        split_ifs
        · exact ⟨some x :: front', rfl⟩
        · exact ⟨some x :: front, rfl⟩
        · exact ⟨none :: front', rfl⟩
  obtain ⟨_, heq⟩ := happ
  rw [heq, getLast?_concat]

variable {offset n : ℕ} {front back : List (Option Slot)} {max : Option ℕ}

theorem Placed.getLast_sequence (h : Placed offset groups n)
    (hlast : groups.getLast? = some (some slot)) : slot.sequence + 1 = n := by
  have hne : groups ≠ [] := fun hnil => by simp [hnil] at hlast
  have hpos := length_pos_iff.mpr hne
  have hlen := h.length
  rw [getLast?_eq_getElem?] at hlast
  have := h.sequence hlast
  omega

/-- Tombstones keep the slots in place. -/
theorem Placed.tombstone (h : Placed offset groups n) (hmax : max.elim 0 (· + 1) = n) :
    Placed offset (tombstone max now groups) n where
  length := by rw [length_tombstone, h.length]
  sequence := fun hi => h.sequence (getElem?_tombstone hi)
  newest := fun hn => by
    obtain ⟨slot, hslot⟩ := h.newest hn
    have hseq := h.getLast_sequence hslot
    refine ⟨slot, ?_⟩
    cases max with
    | none => exact absurd hmax.symm hn
    | some m =>
      have heq : m = slot.sequence := by
        simp only [Option.elim_some] at hmax
        omega
      rw [heq]
      exact getLast?_tombstone hslot

/-- Slots without a group are dropped from the front. -/
theorem Placed.drop_front (h : Placed offset (front ++ back) n) (hfront : ∀ x ∈ front, x = none) :
    Placed (offset + front.length) back n where
  length := by rw [← h.length, length_append, add_assoc]
  sequence := fun {i slot} hi => by
    rw [h.sequence (i := front.length + i), add_assoc]
    rw [getElem?_append_right (Nat.le_add_right _ _), Nat.add_sub_cancel_left, hi]
  newest := fun hn => by
    obtain ⟨slot, hslot⟩ := h.newest hn
    rcases eq_nil_or_concat' back with rfl | ⟨_, _, rfl⟩
    · rw [append_nil] at hslot
      exact absurd (hfront _ (mem_of_getLast? hslot)) nofun
    · rw [← append_assoc, getLast?_concat] at hslot
      exact ⟨slot, by rw [getLast?_concat, hslot]⟩

/-- A new group takes the next slot. -/
theorem Placed.concat (h : Placed offset groups n) (now : ℕ) :
    Placed offset (groups ++ [some ⟨n, now⟩]) (n + 1) where
  length := by rw [← h.length, length_append, length_singleton, add_assoc]
  sequence := fun {i slot} hi => by
    rcases lt_trichotomy i groups.length with hlt | rfl | hgt
    · rw [getElem?_append_left hlt] at hi
      exact h.sequence hi
    · rw [getElem?_concat_length] at hi
      cases hi
      exact h.length.symm
    · rw [getElem?_eq_none (by simp; omega)] at hi
      cases hi
  newest := fun _ => ⟨⟨n, now⟩, getLast?_concat⟩

/-- Evictions keep the groups in place. -/
theorem Arranged.evictExpired (h : t.Arranged) (now : ℕ) : (t.evictExpired now).Arranged := by
  have hsplit := takeWhile_append_dropWhile (p := Option.isNone)
    (l := TrackCache.tombstone t.maxSequence now t.groups)
  have hplaced : Placed t.offset (TrackCache.tombstone t.maxSequence now t.groups) _ :=
    h.placed.tombstone h.max
  rw [← hsplit] at hplaced
  refine ⟨hplaced.drop_front fun x hx => ?_, h.max⟩
  exact Option.isNone_iff_eq_none.mp (mem_takeWhile_imp hx)

theorem pastMax_ok (hok : t.pastMax = .ok sequence) : sequence = t.maxSequence.elim 0 (· + 1) := by
  rw [pastMax] at hok
  split at hok <;> rename_i hmax
  · rw [checkedSucc] at hok
    split_ifs at hok
    cases hok
    rw [hmax, Option.elim_some]
  · cases hok
    rw [hmax, Option.elim_none]

variable {t' : TrackCache β}

theorem appendGroup_ok (hok : t.appendGroup now = .ok (sequence, t')) :
    sequence = t.maxSequence.elim 0 (· + 1) ∧ t' = TrackCache.evictExpired { t with
      maxSequence := some sequence
      groups := t.groups ++ [some { sequence, createdAt := now }]
      states := t.states ++ [.empty] } now := by
  obtain ⟨_, hpast, hok⟩ := bind_eq_ok.mp hok
  split_ifs at hok
  cases hok
  exact ⟨pastMax_ok hpast, rfl⟩

/-- A group is appended under the next sequence number. -/
theorem Arranged.appendGroup (h : t.Arranged) (hok : t.appendGroup now = .ok (sequence, t')) :
    t'.Arranged ∧ sequence = t.states.length ∧ t'.states = t.states ++ [.empty] := by
  obtain ⟨hseq, rfl⟩ := appendGroup_ok hok
  rw [h.max] at hseq
  refine ⟨Arranged.evictExpired ⟨?_, ?_⟩ now, hseq, rfl⟩
  · simpa [hseq] using h.placed.concat now
  · simp [hseq]

theorem Arranged.setState (h : t.Arranged) (sequence : ℕ) (g : GroupState β) :
    (t.setState sequence g).Arranged := by
  refine ⟨?_, ?_⟩
  · simpa [TrackCache.setState] using h.placed
  · simpa [TrackCache.setState] using h.max

theorem finish_ok (hok : t.finish = .ok t') :
    t'.states = t.states ∧ (t.Arranged → t'.Arranged) := by
  rw [TrackCache.finish] at hok
  split_ifs at hok
  obtain ⟨_, -, hok⟩ := bind_eq_ok.mp hok
  cases hok
  exact ⟨rfl, fun h => ⟨h.placed, h.max⟩⟩

theorem findGroup_isSome (h : some slot ∈ groups) (i : ℕ) : (findGroup 0 groups i).isSome := by
  induction groups generalizing i with
  | nil => cases h
  | cons x groups ih =>
    cases x with
    | none => exact ih (by simpa using h) (i + 1)
    | some x => simp [findGroup]

/-- While there are newer groups, one of them is found. -/
theorem Arranged.pollRecvGroup (h : t.Arranged) (hindex : index < t.states.length) :
    ∃ q, t.pollRecvGroup index 0 = .ready (some (q, q)) ∧ index ≤ q ∧ q < t.states.length := by
  obtain ⟨slot, hslot⟩ := h.placed.newest (Nat.ne_zero_of_lt hindex)
  have hlen := h.placed.length
  have hne : t.groups ≠ [] := fun hnil => by simp [hnil] at hslot
  have hpos := length_pos_iff.mpr hne
  have hmem : some slot ∈ t.groups.drop (index - t.offset) := by
    apply mem_of_getLast?
    rw [getLast?_drop, if_neg (by omega), hslot]
  obtain ⟨⟨q, found⟩, hfind⟩ := Option.isSome_iff_exists.mp
    (findGroup_isSome hmem (t.offset + (index - t.offset)))
  obtain ⟨_, _, hat, _⟩ := findGroup_bounds hfind
  rw [getElem?_drop] at hat
  have hlt := (List.getElem?_eq_some_iff.mp hat).1
  have hq := h.placed.sequence hat
  obtain rfl : q = found := by omega
  refine ⟨q, ?_, by omega, by omega⟩
  rw [TrackCache.pollRecvGroup]
  simp only [hfind]

/-- After the newest group there is none. -/
theorem Arranged.pollRecvGroup_end (h : t.Arranged) (hindex : t.states.length ≤ index) :
    t.pollRecvGroup index 0 = if t.finalSequence.isSome then .ready none else .pending := by
  have hdrop : t.groups.drop (index - t.offset) = [] := by
    have := h.placed.length
    exact drop_eq_nil_of_le (by omega)
  rw [TrackCache.pollRecvGroup]
  simp only [hdrop, findGroup]

/-! ### The newest group -/

variable {q : ℕ}

theorem state_setState (hq : q < t.states.length) (g : GroupState β) :
    (t.setState q g).state q = g := by
  rw [state, setState, getD_eq_getElem _ _ (by simpa using hq), getElem_set_self]

theorem state_setState_ne {q' : ℕ} (hne : q' ≠ q) (g : GroupState β) :
    (t.setState q g).state q' = t.state q' := by
  rw [state, state, setState, getD_eq_getElem?_getD, getD_eq_getElem?_getD,
    getElem?_set_ne hne.symm]

theorem length_setState (t : TrackCache β) (q : ℕ) (g : GroupState β) :
    (t.setState q g).states.length = t.states.length := length_set

variable {len}

theorem writeFrame_ok {frame : β} (h : t.writeFrame len q frame = .ok t') :
    ∃ g, (t.state q).writeFrame len frame = .ok g ∧ t' = t.setState q g := by
  obtain ⟨g, hwrite, h⟩ := bind_eq_ok.mp h
  cases h
  exact ⟨g, hwrite, rfl⟩

theorem newest_setState (hq : q + 1 = t.states.length) (g : GroupState β) :
    (t.setState q g).newest = g := by
  rw [newest, length_setState, ← hq, Nat.add_sub_cancel,
    state_setState (by omega)]

theorem Arranged.newest_appendGroup (h : t.Arranged) (hok : t.appendGroup now = .ok (q, t')) :
    q + 1 = t'.states.length ∧ t'.newest = .empty := by
  obtain ⟨-, hq, hstates⟩ := h.appendGroup hok
  have hlen : t'.states.length = q + 1 := by rw [hstates, length_append, hq]; rfl
  refine ⟨hlen.symm, ?_⟩
  rw [newest, hlen, Nat.add_sub_cancel, state, hstates, hq,
    getD_append_right _ _ _ _ (Nat.le_refl _), Nat.sub_self]
  rfl

theorem writeFrame_newest {frame : β} (hq : q + 1 = t.states.length)
    (h : t.writeFrame len q frame = .ok t') : t.newest.writeFrame len frame = .ok t'.newest := by
  obtain ⟨_, hwrite, rfl⟩ := writeFrame_ok h
  rw [newest_setState hq, newest, ← hq, Nat.add_sub_cancel, hwrite]

/-- A frame is written to the newest group. -/
theorem newest_writeFrame {frame : β} (ht : t.Arranged) (hq : q + 1 = t.states.length)
    (h : t.writeFrame len q frame = .ok t') :
    t'.Arranged ∧ t'.states.length = t.states.length ∧ t.newest.fin = false ∧
      t'.newest.written = t.newest.written ++ [frame] ∧ ∀ q' ≠ q, t'.state q' = t.state q' := by
  obtain ⟨hfin, hwritten, -⟩ := GroupState.written_writeFrame (writeFrame_newest hq h)
  obtain ⟨g, -, rfl⟩ := writeFrame_ok h
  exact ⟨ht.setState q g, length_setState t q g, hfin, hwritten,
    fun q' hne => state_setState_ne hne g⟩

/-- The newest group is finished. -/
theorem newest_finishGroup (ht : t.Arranged) (hq : q + 1 = t.states.length) :
    (t.finishGroup q).Arranged ∧ (t.finishGroup q).states.length = t.states.length ∧
      (t.finishGroup q).newest.fin = true ∧
      (t.finishGroup q).newest.written = t.newest.written ∧
      ∀ q' ≠ q, (t.finishGroup q).state q' = t.state q' := by
  have hnew : t.state q = t.newest := by
    rw [newest, ← hq, Nat.add_sub_cancel]
  refine ⟨ht.setState q _, length_setState t q _, ?_, ?_,
    fun q' hne => state_setState_ne hne _⟩
  · rw [finishGroup, newest_setState hq]
    rfl
  · rw [finishGroup, newest_setState hq, hnew]
    rfl

end TrackCache

/-- `TrackConsumer`: its cursor and the bounds on sequence numbers. -/
structure TrackConsumer where
  index : ℕ := 0
  minSequence : ℕ := 0
  nextSequence : ℕ := 0
  deriving DecidableEq, Repr

namespace TrackConsumer

variable {β : Type}

/-- `poll_next_group`: late arrivals are skipped. -/
def pollNextGroup (t : TrackCache β) (c : TrackConsumer) : Poll (Option ℕ) × TrackConsumer :=
  match _h : t.pollRecvGroup c.index c.minSequence with
  | .pending => (.pending, c)
  | .ready none => (.ready none, c)
  | .ready (some (sequence, found)) =>
    if sequence < c.nextSequence then
      pollNextGroup t { c with index := found + 1 }
    else
      (.ready (some sequence),
        { c with index := found + 1, nextSequence := min (sequence + 1) (2 ^ 64 - 1) })
  termination_by t.offset + t.groups.length - c.index
  decreasing_by
    have := TrackCache.pollRecvGroup_bounds ‹_›
    omega

/-- A group that is found lies behind the cursor. -/
theorem pollNextGroup_bounds {t : TrackCache β} {c c' : TrackConsumer} {sequence : ℕ}
    (h : c.pollNextGroup t = (.ready (some sequence), c')) :
    c.index < c'.index ∧ c'.index ≤ t.offset + t.groups.length := by
  fun_induction pollNextGroup t c with
  | case1 c hpoll => cases h
  | case2 c hpoll => cases h
  | case3 c q found hpoll hlate ih =>
    have := TrackCache.pollRecvGroup_bounds hpoll
    have := ih h
    dsimp only at this
    omega
  | case4 c q found hpoll hlate =>
    have := TrackCache.pollRecvGroup_bounds hpoll
    cases h
    dsimp only
    omega

/-- A consumer that has seen groups in order, all before its cursor. -/
structure InOrder (c : TrackConsumer) : Prop where
  min : c.minSequence = 0
  next : c.nextSequence ≤ c.index

variable {t : TrackCache β} {c : TrackConsumer}

/-- While there are newer groups, one of them is next. -/
theorem InOrder.pollNextGroup (hc : c.InOrder) (h : t.Arranged)
    (hindex : c.index < t.states.length) :
    ∃ q c', c.pollNextGroup t = (.ready (some q), c') ∧ c'.InOrder ∧ c'.index = q + 1 ∧
      q < t.states.length := by
  obtain ⟨q, hpoll, _, hlt⟩ := h.pollRecvGroup hindex
  have hnext := hc.next
  refine ⟨q, { c with index := q + 1, nextSequence := Nat.min (q + 1) (2 ^ 64 - 1) }, ?_,
    ⟨hc.min, min_le_left _ _⟩, rfl, hlt⟩
  rw [← hc.min] at hpoll
  rw [TrackConsumer.pollNextGroup]
  split
  · simp_all
  · simp_all
  · rename_i q' found hpoll'
    rw [hpoll] at hpoll'
    cases hpoll'
    rw [if_neg (by omega)]

/-- After the newest group there is none. -/
theorem InOrder.pollNextGroup_end (hc : c.InOrder) (h : t.Arranged)
    (hindex : t.states.length ≤ c.index) :
    c.pollNextGroup t = (if t.finalSequence.isSome then .ready none else .pending, c) := by
  have hpoll := h.pollRecvGroup_end hindex
  rw [← hc.min] at hpoll
  rw [TrackConsumer.pollNextGroup]
  cases hfinal : t.finalSequence.isSome <;> rw [hfinal] at hpoll <;> split <;> simp_all

end TrackConsumer

end HermitMoq
