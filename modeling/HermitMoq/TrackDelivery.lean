import HermitMoq.Track

/-!
# The Delivery of Groups

The consumers of a track (`moq-net/src/model/track.rs`). A consumer keeps an index into the order
of arrival, while the cache it reads from forgets old groups and drops its front. A receiver is a
consumer together with what it has received; a system is the history of a track and all
receivers, some of them clones of others.
-/

namespace HermitMoq

open List Nat TrackCache

namespace Track

/-! ### Polls -/

namespace State

/-- `State::poll_recv_group`, by way of `TrackConsumer::poll`: the sequence number of the next
group and its index. -/
def pollRecvGroup (s : State) (index minSequence : ℕ) : Poll (Except Error (Option (ℕ × ℕ))) :=
  let start := index - s.offset
  match TrackCache.findGroup minSequence (s.groups.drop start) (s.offset + start) with
  | some found => .ready (.ok (some found))
  | none =>
    if s.finalSequence.isSome then .ready (.ok none)
    else match s.abort with
      | some e => .ready (.error e)
      | none => if s.closed then .ready (.error .dropped) else .pending

/-- The group at `j` is the first at or after an index that is not below the bound. -/
structure IsNext (s : State) (index minSequence j : ℕ) (slot : Slot) : Prop where
  le : index ≤ j
  cached : s.slotAt j = some slot
  min_le : minSequence ≤ slot.sequence
  first : ∀ {i other}, index ≤ i → i < j → s.slotAt i = some other → other.sequence < minSequence

end State

variable {groups : List (Option Slot)} {minSequence : ℕ}

/-- The groups before the one found are too old. -/
theorem findGroup_eq_some {i sequence found : ℕ}
    (h : TrackCache.findGroup minSequence groups i = some (sequence, found)) :
    minSequence ≤ sequence ∧ ∀ k slot, i ≤ k → k < found → groups[k - i]? = some (some slot) →
      slot.sequence < minSequence := by
  induction groups generalizing i with
  | nil => cases h
  | cons x groups ih =>
    have hnext : findGroup minSequence groups (i + 1) = some (sequence, found) →
        (∀ slot, x = some slot → slot.sequence < minSequence) →
        minSequence ≤ sequence ∧ ∀ k slot, i ≤ k → k < found →
          (x :: groups)[k - i]? = some (some slot) → slot.sequence < minSequence := by
      intro h hx
      obtain ⟨hmin, hfirst⟩ := ih h
      refine ⟨hmin, fun k slot hle hlt hk => ?_⟩
      rcases eq_or_lt_of_le hle with rfl | hle
      · rw [Nat.sub_self, getElem?_cons_zero] at hk
        exact hx slot (Option.some.inj hk)
      · rw [show k - i = k - (i + 1) + 1 by omega, getElem?_cons_succ] at hk
        exact hfirst k slot hle hlt hk
    cases x with
    | none => exact hnext h nofun
    | some x =>
      rw [findGroup] at h
      split_ifs at h with hmin
      · cases h
        exact ⟨hmin, fun k slot hle hlt => absurd hlt (not_lt.mpr hle)⟩
      · refine hnext h fun slot hslot => ?_
        cases hslot
        exact Nat.lt_of_not_le hmin

variable {slot : Slot} {j : ℕ} {h : History} {r r' : Receiver} {found : ℕ} (calls : List Call)
  (call : Call)

/-- If none is found, all are too old. -/
theorem findGroup_eq_none {i : ℕ}
    (h : TrackCache.findGroup minSequence groups i = none) (hmem : some slot ∈ groups) :
    slot.sequence < minSequence := by
  induction groups generalizing i with
  | nil => cases hmem
  | cons x groups ih =>
    cases x with
    | none => exact ih h (by simpa using hmem)
    | some x =>
      rw [findGroup] at h
      split_ifs at h with hmin
      rcases mem_cons.mp hmem with heq | hmem
      · cases heq
        exact Nat.lt_of_not_le hmin
      · exact ih h hmem

namespace State

variable {s : State} {index : ℕ}

/-- The groups behind an index, as the loop sees them. -/
theorem getElem?_drop_iff :
    s.offset + (index - s.offset) ≤ j ∧
        (s.groups.drop (index - s.offset))[j - (s.offset + (index - s.offset))]? =
          some (some slot) ↔
      index ≤ j ∧ s.slotAt j = some slot := by
  rw [slotAt_eq_some, getElem?_drop]
  constructor
  · rintro ⟨hle, hat⟩
    have hindex : index - s.offset + (j - (s.offset + (index - s.offset))) = j - s.offset := by
      omega
    rw [hindex] at hat
    exact ⟨by omega, by omega, hat⟩
  · rintro ⟨_, _, _⟩
    refine ⟨by omega, ?_⟩
    rwa [show index - s.offset + (j - (s.offset + (index - s.offset))) = j - s.offset by omega]

/-- A poll that finds a group finds the next one. -/
theorem pollRecvGroup_eq_ready {sequence found : ℕ}
    (h : s.pollRecvGroup index minSequence = .ready (.ok (some (sequence, found)))) :
    ∃ slot, s.IsNext index minSequence found slot ∧ slot.sequence = sequence := by
  rw [pollRecvGroup] at h
  split at h
  · rename_i hfind
    cases h
    obtain ⟨hle, slot, hat, hseq⟩ := findGroup_bounds hfind
    obtain ⟨hmin, hfirst⟩ := findGroup_eq_some hfind
    obtain ⟨hle, hslot⟩ := getElem?_drop_iff.mp ⟨hle, hat⟩
    refine ⟨slot, ⟨hle, hslot, hseq ▸ hmin, fun {i other} hi hlt hother => ?_⟩, hseq⟩
    obtain ⟨hi, hother⟩ := getElem?_drop_iff.mpr ⟨hi, hother⟩
    exact hfirst i other hi hlt hother
  · split at h
    · cases h
    · split at h
      · cases h
      · split at h <;> cases h

/-- A poll that finds none: all groups behind the index are below the bound. -/
theorem pollRecvGroup_not_ready
    (h : ∀ found, s.pollRecvGroup index minSequence ≠ .ready (.ok (some found)))
    (hj : index ≤ j) (hslot : s.slotAt j = some slot) :
    slot.sequence < minSequence := by
  obtain ⟨hj, hat⟩ := getElem?_drop_iff.mpr ⟨hj, hslot⟩
  cases hfind : findGroup minSequence (s.groups.drop (index - s.offset))
      (s.offset + (index - s.offset)) with
  | none => exact findGroup_eq_none hfind (mem_of_getElem? hat)
  | some found =>
    refine absurd ?_ (h found)
    rw [pollRecvGroup, hfind]

theorem slotAt_lt (h : s.slotAt j = some slot) :
    j < s.offset + s.groups.length := by
  obtain ⟨_, hat⟩ := slotAt_eq_some.mp h
  have := (List.getElem?_eq_some_iff.mp hat).1
  omega

end State

/-! ### Receivers -/

/-- A consumer, and what it has received: the groups that `poll_recv_group` returned, by their
index in the order of arrival and their sequence number, and the sequence numbers that
`poll_next_group` returned. -/
structure Receiver extends TrackConsumer where
  received : List (ℕ × ℕ) := []
  next : List ℕ := []
  deriving DecidableEq

namespace Receiver

/-- `TrackConsumer::poll_recv_group`. -/
def pollRecvGroup (s : State) (r : Receiver) : Poll (Except Error (Option ℕ)) × Receiver :=
  match s.pollRecvGroup r.index r.minSequence with
  | .ready (.ok (some (sequence, found))) =>
    (.ready (.ok (some sequence)),
      { r with index := found + 1, received := r.received ++ [(found, sequence)] })
  | .ready (.ok none) => (.ready (.ok none), r)
  | .ready (.error e) => (.ready (.error e), r)
  | .pending => (.pending, r)

/-- A poll that returns a group returns the next one. -/
theorem pollRecvGroup_eq_some {s : State} {sequence : ℕ}
    (h : r.pollRecvGroup s = (.ready (.ok (some sequence)), r')) :
    ∃ found slot, s.IsNext r.index r.minSequence found slot ∧ slot.sequence = sequence ∧
      r' = { r with index := found + 1, received := r.received ++ [(found, sequence)] } := by
  rw [pollRecvGroup] at h
  split at h
  · rename_i q found hpoll
    cases h
    obtain ⟨slot, hnext, hseq⟩ := State.pollRecvGroup_eq_ready hpoll
    exact ⟨found, slot, hnext, hseq, rfl⟩
  all_goals cases h

/-- A poll that returns no group leaves the receiver as it is, and there is none to return. -/
theorem pollRecvGroup_eq_other {s : State} {p : Poll (Except Error (Option ℕ))}
    (h : r.pollRecvGroup s = (p, r')) (hp : ∀ sequence, p ≠ .ready (.ok (some sequence))) :
    r' = r ∧ ∀ {j slot}, r.index ≤ j → s.slotAt j = some slot →
      slot.sequence < r.minSequence := by
  rw [pollRecvGroup] at h
  split at h
  · cases h
    exact absurd rfl (hp _)
  all_goals
    rename_i hpoll
    cases h
    exact ⟨rfl, State.pollRecvGroup_not_ready (by rw [hpoll]; rintro _ ⟨⟩)⟩

/-- `TrackConsumer::poll_next_group`: late arrivals are skipped. -/
def pollNextGroup (s : State) (r : Receiver) : Poll (Except Error (Option ℕ)) × Receiver :=
  match _h : r.pollRecvGroup s with
  | (.ready (.ok (some sequence)), r') =>
    if sequence < r'.nextSequence then
      pollNextGroup s r'
    else
      (.ready (.ok (some sequence)),
        { r' with
          nextSequence := min (sequence + 1) (2 ^ 64 - 1)
          next := r'.next ++ [sequence] })
  | (p, r') => (p, r')
  termination_by s.offset + s.groups.length - r.index
  decreasing_by
    obtain ⟨found, slot, hnext, -, rfl⟩ := pollRecvGroup_eq_some ‹_›
    have := State.slotAt_lt hnext.cached
    have := hnext.le
    dsimp only
    omega

/-- What a receiver does between two states, reading from the cache `s`: it moves on, and
receives exactly the groups in between that are in the cache and not below its bound. -/
structure Advances (s : State) (r r' : Receiver) : Prop where
  index_le : r.index ≤ r'.index
  received : ∃ new, r'.received = r.received ++ new ∧ new.Pairwise (·.1 < ·.1) ∧
    ∀ j q, (j, q) ∈ new ↔ r.index ≤ j ∧ j < r'.index ∧
      ∃ slot, s.slotAt j = some slot ∧ r.minSequence ≤ slot.sequence ∧ slot.sequence = q

variable {s : State} {r'' : Receiver}

/-- A receiver that does not move receives nothing. -/
theorem Advances.of_eq (hindex : r'.index = r.index) (hreceived : r'.received = r.received) :
    Advances s r r' where
  index_le := hindex.ge
  received := by
    refine ⟨[], by simpa using hreceived, .nil, fun j q => ?_⟩
    simp only [not_mem_nil, false_iff, not_and]
    omega

/-- Two advances in a row are one. -/
theorem Advances.trans (h : Advances s r r') (hmin : r'.minSequence = r.minSequence)
    (h' : Advances s r' r'') : Advances s r r'' where
  index_le := h.index_le.trans h'.index_le
  received := by
    obtain ⟨new, heq, hpairwise, hmem⟩ := h.received
    obtain ⟨new', heq', hpairwise', hmem'⟩ := h'.received
    have hle := h.index_le
    have hle' := h'.index_le
    rw [hmin] at hmem'
    refine ⟨new ++ new', by rw [heq', heq, append_assoc],
      pairwise_append.mpr ⟨hpairwise, hpairwise', ?_⟩, fun j q => ?_⟩
    · rintro ⟨i, p⟩ hi ⟨j, q⟩ hj
      have := ((hmem i p).mp hi).2.1
      have := ((hmem' j q).mp hj).1
      omega
    · rw [mem_append, hmem, hmem']
      constructor
      · rintro (⟨hj, hlt, hslot⟩ | ⟨hj, hlt, hslot⟩)
        · exact ⟨hj, by omega, hslot⟩
        · exact ⟨by omega, hlt, hslot⟩
      · rintro ⟨hj, hlt, hslot⟩
        rcases lt_or_ge j r'.index with hbefore | hafter
        · exact .inl ⟨hj, hbefore, hslot⟩
        · exact .inr ⟨hafter, hlt, hslot⟩

/-- The receipt of the next group. -/
theorem advances_of_isNext (h : s.IsNext r.index r.minSequence found slot) :
    Advances s r
      { r with index := found + 1, received := r.received ++ [(found, slot.sequence)] } where
  index_le := le_succ_of_le h.le
  received := by
    refine ⟨_, rfl, pairwise_singleton _ _, fun j q => ?_⟩
    rw [mem_singleton, Prod.mk.injEq]
    constructor
    · rintro ⟨rfl, rfl⟩
      exact ⟨h.le, lt_succ_self j, slot, h.cached, h.min_le, rfl⟩
    · rintro ⟨hj, hlt, _, hother, hmin, rfl⟩
      -- the groups before the next one are below the bound
      have hge : found ≤ j := Nat.le_of_not_lt fun hbefore =>
        not_lt.mpr hmin (h.first hj hbefore hother)
      obtain rfl : j = found := le_antisymm (le_of_lt_succ hlt) hge
      exact ⟨rfl, congrArg Slot.sequence (Option.some.inj (hother.symm.trans h.cached))⟩

variable (s) (r)

theorem advances_pollRecvGroup :
    Advances s r (r.pollRecvGroup s).2 := by
  rw [pollRecvGroup]
  split
  · rename_i q found hpoll
    obtain ⟨_, hnext, rfl⟩ := State.pollRecvGroup_eq_ready hpoll
    exact advances_of_isNext hnext
  all_goals exact .of_eq rfl rfl

theorem minSequence_pollRecvGroup :
    (r.pollRecvGroup s).2.minSequence = r.minSequence := by
  rw [pollRecvGroup]
  split <;> rfl

/-- A poll for the next group advances the receiver. -/
theorem advances_pollNextGroup :
    Advances s r (r.pollNextGroup s).2 := by
  have hrecv : ∀ {r r' p}, r.pollRecvGroup s = (p, r') →
      Advances s r r' ∧ r'.minSequence = r.minSequence := by
    intro r r' p hpoll
    have hadv := advances_pollRecvGroup r s
    have hmin := minSequence_pollRecvGroup r s
    rw [hpoll] at hadv hmin
    exact ⟨hadv, hmin⟩
  fun_induction pollNextGroup s r with
  | case1 r q r' hpoll hlate ih => exact (hrecv hpoll).1.trans (hrecv hpoll).2 ih
  | case2 r q r' hpoll hlate =>
    exact (hrecv hpoll).1.trans (hrecv hpoll).2 (.of_eq rfl rfl)
  | case3 r p r' hp hpoll => exact (hrecv hpoll).1

end Receiver

/-! ### Systems -/

/-- The calls of producers and consumers; a consumer is given by its number. -/
inductive Call
  | produce (action : Action)
  | consume
  | clone (k : ℕ)
  | startAt (k : ℕ) (sequence : UInt64)
  | recvGroup (k : ℕ)
  | nextGroup (k : ℕ)
  deriving DecidableEq

/-- A track and its receivers. -/
structure System where
  history : History := {}
  receivers : List Receiver := []
  deriving DecidableEq

namespace System

/-- Change a receiver. -/
def update (y : System) (k : ℕ) (f : Receiver → Receiver) : System :=
  { y with receivers := y.receivers.modify k f }

/-- The effect of a call. A clone has the cursor and the bounds of the original, and has not
received anything itself. -/
def step (y : System) : Call → System
  | .produce action => { y with history := y.history.step action }
  | .consume => { y with receivers := y.receivers ++ [{}] }
  | .clone k =>
    match y.receivers[k]? with
    | some r => { y with receivers := y.receivers ++ [{ r with received := [], next := [] }] }
    | none => y
  | .startAt k sequence => y.update k fun r => { r with minSequence := sequence.toNat }
  | .recvGroup k => y.update k fun r => (r.pollRecvGroup y.history.track).2
  | .nextGroup k => y.update k fun r => (r.pollNextGroup y.history.track).2

/-- The system after a sequence of calls on a new track. -/
def run (calls : List Call) : System := calls.foldl step {}

theorem run_concat :
    run (calls ++ [call]) = (run calls).step call := by
  rw [run, foldl_append]
  rfl

end System

/-! ### The largest sequence number there is -/

/-- What a call does to the groups that arrived: nothing, or one more under a sequence number
that is not taken. -/
theorem arrivals_step (hc : Cached h) (action : Action) :
    (h.step action).arrivals = h.arrivals ∨
      ∃ sequence, (h.step action).arrivals = h.arrivals ++ [⟨sequence, h.clock⟩] ∧
        h.track.closed = false ∧ sequence ∉ h.track.duplicates := by
  cases action with
  | createGroup sequence =>
    rw [History.step]
    split
    · rename_i track hok
      obtain ⟨hopen, -, hnew, -⟩ := State.createGroup_ok hok
      exact .inr ⟨_, rfl, hopen, hnew⟩
    · exact .inl rfl
  | appendGroup =>
    rw [History.step]
    split
    · rename_i sequence track hok
      obtain ⟨hopen, -, -, hseq, -⟩ := State.appendGroup_ok hok
      exact .inr ⟨_, rfl, hopen, hseq ▸ (hc.complete hopen).pastMax_notMem hc⟩
    · exact .inl rfl
  | finish | finishAt _ | abort _ =>
    rw [History.step]
    split <;> exact .inl rfl
  | drop | wait _ => exact .inl rfl

/-- Where `next_sequence` saturates. -/
def topSequence : ℕ := 2 ^ 64 - 1

/-- At most one group has the largest sequence number there is: it stays in the cache. -/
def TopOnce (arrivals : List Slot) : Prop :=
  ∀ {i j : ℕ} {a b : Slot}, arrivals[i]? = some a → arrivals[j]? = some b →
    a.sequence = topSequence → b.sequence = topSequence → i = j

theorem Cached.top_mem_duplicates (hc : Cached h) (hopen : h.track.closed = false)
    (hmem : slot ∈ h.arrivals) (htop : slot.sequence = topSequence) :
    topSequence ∈ h.track.duplicates := by
  obtain ⟨_, hm, _⟩ := (hc.complete hopen).le_max hmem
  obtain ⟨j, newest, hnewest, _⟩ := (hc.complete hopen).max_cached hm
  have hlt := hc.bounded (hc.mem_arrivals hnewest)
  refine ((hc.complete hopen).duplicates _).mpr ⟨j, newest, hnewest, ?_⟩
  rw [topSequence] at htop ⊢
  omega

/-- The newest sequence arrives once. -/
theorem topOnce_step (hc : Cached h) (htop : TopOnce h.arrivals)
    (action : Action) : TopOnce (h.step action).arrivals := by
  rcases arrivals_step hc action with heq | ⟨sequence, heq, hopen, hnew⟩
  · rw [heq]
    exact htop
  · rw [heq]
    have hold : ∀ {i a}, (h.arrivals ++ [⟨sequence, h.clock⟩])[i]? = some a →
        a.sequence = topSequence →
        h.arrivals[i]? = some a ∨ i = h.arrivals.length ∧ sequence = topSequence := by
      intro i a hi ha
      rcases lt_trichotomy i h.arrivals.length with hlt | rfl | hgt
      · rw [getElem?_append_left hlt] at hi
        exact .inl hi
      · rw [getElem?_concat_length] at hi
        cases hi
        exact .inr ⟨rfl, ha⟩
      · rw [getElem?_eq_none (by simp; omega)] at hi
        cases hi
    intro i j a b hi hj ha hb
    rcases hold hi ha with hi | ⟨rfl, hseq⟩ <;> rcases hold hj hb with hj | ⟨rfl, hseq'⟩
    · exact htop hi hj ha hb
    · exact absurd (hseq' ▸ hc.top_mem_duplicates hopen (mem_of_getElem? hi) ha) hnew
    · exact absurd (hseq ▸ hc.top_mem_duplicates hopen (mem_of_getElem? hj) hb) hnew
    · rfl

/-! ### What a receiver has received -/

/-- A receiver has received groups before its index, in order, and the sequence numbers that
`poll_next_group` returned are below the bound, up to its saturation. -/
structure Sorted (arrivals : List Slot) (r : Receiver) : Prop where
  before : ∀ p ∈ r.received, p.1 < r.index
  received : r.received.Pairwise (·.1 < ·.1)
  next : r.next.Pairwise (· < ·)
  below : ∀ q ∈ r.next, q < r.nextSequence ∨
    r.nextSequence = topSequence ∧ q = topSequence ∧
      ∃ j slot, j < r.index ∧ arrivals[j]? = some slot ∧ slot.sequence = topSequence

variable {s : State} {arrivals : List Slot}

theorem Sorted.append (hr : Sorted arrivals r) (new : List Slot) : Sorted (arrivals ++ new) r where
  before := hr.before
  received := hr.received
  next := hr.next
  below := fun q hq => (hr.below q hq).imp_right fun ⟨hnext, htop, j, slot, hj, hslot, hseq⟩ =>
    ⟨hnext, htop, j, slot, hj, by
      rwa [List.getElem?_append_left (List.getElem?_eq_some_iff.mp hslot).1], hseq⟩

/-- Receipts keep the order. -/
theorem Sorted.advance (hr : Sorted arrivals r) (hadv : r.Advances s r')
    (hnext : r'.next = r.next) (hseq : r'.nextSequence = r.nextSequence) : Sorted arrivals r' := by
  obtain ⟨_, heq, hpairwise, hmem⟩ := hadv.received
  have hle := hadv.index_le
  refine ⟨?_, ?_, hnext ▸ hr.next, ?_⟩
  · rintro ⟨j, q⟩ hp
    rcases mem_append.mp (heq ▸ hp) with hp | hp
    · exact lt_of_lt_of_le (hr.before _ hp) hle
    · exact ((hmem j q).mp hp).2.1
  · rw [heq]
    refine pairwise_append.mpr ⟨hr.received, hpairwise, ?_⟩
    rintro p hp ⟨j, q⟩ hq
    exact lt_of_lt_of_le (hr.before _ hp) ((hmem j q).mp hq).1
  · rw [hnext, hseq]
    intro q hq
    refine (hr.below q hq).imp_right fun ⟨hn, htop, j, slot, hj, hslot⟩ => ?_
    exact ⟨hn, htop, j, slot, lt_of_lt_of_le hj hle, hslot⟩

theorem Sorted.pollRecvGroup (hr : Sorted arrivals r) (s : State) :
    Sorted arrivals (r.pollRecvGroup s).2 := by
  refine hr.advance (r.advances_pollRecvGroup s) ?_ ?_ <;>
  · rw [Receiver.pollRecvGroup]
    split <;> rfl

/-- The sequence number of a group that is not late is above those returned before. -/
theorem Sorted.lt_of_isNext (hr : Sorted h.arrivals r) (hc : Cached h) (htop : TopOnce h.arrivals)
    (hnext : h.track.IsNext r.index r.minSequence found slot)
    (hlate : ¬ slot.sequence < r.nextSequence) : ∀ q ∈ r.next, q < slot.sequence := by
  intro q hq
  have hbound := hc.bounded (hc.mem_arrivals hnext.cached)
  rcases hr.below q hq with hlt | ⟨hsat, _, _, _, _, hfirst, hseq⟩
  · omega
  · -- the bound is saturated, and the group it comes from is before the index
    have heq : slot.sequence = topSequence := by
      rw [hsat, topSequence] at hlate
      rw [topSequence]
      omega
    have := htop hfirst (hc.found hnext.cached) hseq heq
    have := hnext.le
    omega

/-- What `next_group` returns is in order. -/
theorem Sorted.pollNextGroup (hr : Sorted h.arrivals r) (hc : Cached h)
    (htop : TopOnce h.arrivals) : Sorted h.arrivals (r.pollNextGroup h.track).2 := by
  have hrecv : ∀ {r r' p}, Sorted h.arrivals r → r.pollRecvGroup h.track = (p, r') →
      Sorted h.arrivals r' := by
    intro r r' p hr hpoll
    have := hr.pollRecvGroup h.track
    rwa [hpoll] at this
  fun_induction Receiver.pollNextGroup h.track r with
  | case1 r q r' hpoll hlate ih => exact ih (hrecv hr hpoll)
  | case2 r q r' hpoll hlate =>
    have hr' := hrecv hr hpoll
    obtain ⟨found, slot, hnext, rfl, rfl⟩ := Receiver.pollRecvGroup_eq_some hpoll
    have hlt := hr.lt_of_isNext hc htop hnext hlate
    have hbound := hc.bounded (hc.mem_arrivals hnext.cached)
    refine ⟨hr'.before, hr'.received, ?_, ?_⟩
    · refine pairwise_append.mpr ⟨hr.next, pairwise_singleton _ _, ?_⟩
      intro q hq q' hq'
      exact mem_singleton.mp hq' ▸ hlt q hq
    · intro q hq
      dsimp only at hq ⊢
      rcases mem_append.mp hq with hq | hq
      · have := hlt q hq
        left
        omega
      · obtain rfl := mem_singleton.mp hq
        by_cases heq : slot.sequence = topSequence
        · refine .inr ⟨?_, heq, found, slot, lt_succ_self _, hc.found hnext.cached, heq⟩
          rw [heq]
          decide
        · rw [topSequence] at heq
          left
          omega
  | case3 r p r' hp hpoll => exact hrecv hr hpoll

/-! ### Runs -/

/-- The track is cached as it should be, and every receiver has received in order. -/
structure InOrder (y : System) : Prop where
  cached : Cached y.history
  top : TopOnce y.history.arrivals
  sorted : ∀ r ∈ y.receivers, Sorted y.history.arrivals r

variable {y : System}

/-- What keeps one receiver in order keeps them all. -/
theorem InOrder.update (hy : InOrder y) (k : ℕ) {f : Receiver → Receiver}
    (hf : ∀ {r}, Sorted y.history.arrivals r → Sorted y.history.arrivals (f r)) :
    InOrder (y.update k f) where
  cached := hy.cached
  top := hy.top
  sorted := fun r hr => by
    obtain ⟨_, hi⟩ := getElem?_of_mem hr
    rw [System.update, getElem?_modify] at hi
    obtain ⟨r₀, hr₀, rfl⟩ := Option.map_eq_some_iff.mp hi
    have hsorted := hy.sorted r₀ (mem_of_getElem? hr₀)
    split_ifs
    · exact hf hsorted
    · exact hsorted

/-- A new receiver has received nothing. -/
theorem InOrder.concat (hy : InOrder y) (hreceived : r.received = [])
    (hnext : r.next = []) : InOrder { y with receivers := y.receivers ++ [r] } where
  cached := hy.cached
  top := hy.top
  sorted := fun r' hr' => by
    rcases mem_append.mp hr' with hr' | hr'
    · exact hy.sorted r' hr'
    · obtain rfl := mem_singleton.mp hr'
      exact ⟨by simp [hreceived], by simp [hreceived], by simp [hnext], by simp [hnext]⟩

/-- Every call keeps the receivers in order. -/
theorem InOrder.step (hy : InOrder y) (call : Call) : InOrder (y.step call) := by
  cases call with
  | produce action =>
    refine ⟨hy.cached.step action, topOnce_step hy.cached hy.top action, fun r hr => ?_⟩
    have hsorted := hy.sorted r hr
    rcases arrivals_step hy.cached action with heq | ⟨sequence, heq, -⟩ <;>
      rw [System.step, heq]
    · exact hsorted
    · exact hsorted.append _
  | consume => exact hy.concat rfl rfl
  | clone k =>
    rw [System.step]
    split
    · exact hy.concat rfl rfl
    · exact hy
  | startAt k sequence => exact hy.update k fun hr => hr.advance (s := {}) (.of_eq rfl rfl) rfl rfl
  | recvGroup k => exact hy.update k fun hr => hr.pollRecvGroup _
  | nextGroup k => exact hy.update k fun hr => hr.pollNextGroup hy.cached hy.top

theorem inOrder_run : InOrder (System.run calls) := by
  induction calls using reverseRecOn with
  | nil =>
    refine ⟨cached_new, ?_, nofun⟩
    intro i j a b hi
    simp [System.run] at hi
  | append_singleton calls call ih =>
    rw [System.run_concat]
    exact ih.step call

/-- What a call does to one receiver. -/
theorem advances_step {call : Call} {k : ℕ} (hr' : (y.step call).receivers[k]? = some r') :
    (∃ r, y.receivers[k]? = some r ∧ Receiver.Advances y.history.track r r') ∨
      y.receivers[k]? = none ∧ r'.received = [] := by
  have hupdate : ∀ {i : ℕ} {f : Receiver → Receiver},
      (∀ r, Receiver.Advances y.history.track r (f r)) → (y.update i f).receivers[k]? = some r' →
      ∃ r, y.receivers[k]? = some r ∧ Receiver.Advances y.history.track r r' := by
    intro i f hf hr'
    rw [System.update, getElem?_modify] at hr'
    obtain ⟨r, hr, rfl⟩ := Option.map_eq_some_iff.mp hr'
    refine ⟨r, hr, ?_⟩
    split_ifs
    · exact hf r
    · exact .of_eq rfl rfl
  have hconcat : ∀ {r : Receiver}, r.received = [] → (y.receivers ++ [r])[k]? = some r' →
      (∃ r, y.receivers[k]? = some r ∧ Receiver.Advances y.history.track r r') ∨
        y.receivers[k]? = none ∧ r'.received = [] := by
    intro r hempty hr'
    rcases lt_or_ge k y.receivers.length with hlt | hge
    · rw [getElem?_append_left hlt] at hr'
      exact .inl ⟨r', hr', .of_eq rfl rfl⟩
    · rw [getElem?_append_right hge] at hr'
      obtain rfl := mem_singleton.mp (mem_of_getElem? hr')
      exact .inr ⟨getElem?_eq_none hge, hempty⟩
  cases call with
  | produce action => exact .inl ⟨r', hr', .of_eq rfl rfl⟩
  | consume => exact hconcat rfl hr'
  | clone i =>
    rw [System.step] at hr'
    split at hr'
    · exact hconcat rfl hr'
    · exact .inl ⟨r', hr', .of_eq rfl rfl⟩
  | startAt i sequence =>
    refine .inl (hupdate (f := fun r => { r with minSequence := sequence.toNat }) ?_ hr')
    exact fun r => .of_eq rfl rfl
  | recvGroup i => exact .inl (hupdate (fun r => r.advances_pollRecvGroup _) hr')
  | nextGroup i => exact .inl (hupdate (fun r => r.advances_pollNextGroup _) hr')

/-- In one call, the cursor of a receiver comes past the index `j`, where the cache holds a group
with the sequence number `q` that is not below the bound of the receiver. -/
def Passes (y y' : System) (k j q : ℕ) : Prop :=
  ∃ r r' slot, y.receivers[k]? = some r ∧ y'.receivers[k]? = some r' ∧ r.index ≤ j ∧
    j < r'.index ∧ y.history.track.slotAt j = some slot ∧ r.minSequence ≤ slot.sequence ∧
    slot.sequence = q

/-- The receiver came past such a group in some call of a run. -/
def Passed (calls : List Call) (k j q : ℕ) : Prop :=
  ∃ t < calls.length,
    Passes (System.run (calls.take t)) (System.run (calls.take (t + 1))) k j q

/-- A group is passed by the last call, or was before. -/
theorem passed_concat (k j q : ℕ) :
    Passed (calls ++ [call]) k j q ↔
      Passed calls k j q ∨ Passes (System.run calls) ((System.run calls).step call) k j q := by
  have hlast : (calls ++ [call]).take (calls.length + 1) = calls ++ [call] :=
    take_of_length_le (by simp)
  constructor
  · rintro ⟨t, ht, hpass⟩
    rcases lt_or_ge t calls.length with hlt | hge
    · rw [take_append_of_le_length hlt.le, take_append_of_le_length hlt] at hpass
      exact .inl ⟨t, hlt, hpass⟩
    · obtain rfl : t = calls.length := by simp at ht; omega
      rw [hlast, take_left', System.run_concat] at hpass
      · exact .inr hpass
      · rfl
  · rintro (⟨t, hlt, hpass⟩ | hpass)
    · refine ⟨t, by simp; omega, ?_⟩
      rwa [take_append_of_le_length hlt.le, take_append_of_le_length hlt]
    · refine ⟨calls.length, by simp, ?_⟩
      rw [hlast, take_left' rfl, System.run_concat]
      exact hpass

theorem length_le_step (y : System) (call : Call) :
    y.receivers.length ≤ (y.step call).receivers.length := by
  cases call with
  | produce action => exact le_refl _
  | consume => simp [System.step]
  | clone k =>
    rw [System.step]
    split <;> simp
  | startAt k _ | recvGroup k | nextGroup k => simp [System.step, System.update]

/-- A receiver that came past a group is there for good. -/
theorem receivers_ne_none_of_passed {calls : List Call} {k j q : ℕ}
    (hpass : Passed calls k j q) : (System.run calls).receivers[k]? ≠ none := by
  induction calls using reverseRecOn with
  | nil =>
    obtain ⟨t, ht, -⟩ := hpass
    exact absurd ht (not_lt_zero t)
  | append_singleton calls call ih =>
    rw [System.run_concat, Ne, getElem?_eq_none_iff, Nat.not_le]
    rcases (passed_concat calls call k j q).mp hpass with hpass | ⟨_, -, -, hr, -⟩
    · have hlt := Nat.lt_of_not_le (mt getElem?_eq_none (ih hpass))
      exact lt_of_lt_of_le hlt (length_le_step _ call)
    · have hlt := (List.getElem?_eq_some_iff.mp hr).1
      exact lt_of_lt_of_le hlt (length_le_step _ call)

/-- A receiver has received exactly the groups that it came past while they were in the
cache. -/
theorem mem_received_iff {k : ℕ} (hr : (System.run calls).receivers[k]? = some r) (j q : ℕ) :
    (j, q) ∈ r.received ↔ Passed calls k j q := by
  induction calls using reverseRecOn generalizing r with
  | nil => simp [System.run] at hr
  | append_singleton calls call ih =>
    rw [passed_concat]
    rw [System.run_concat] at hr
    rcases advances_step hr with ⟨r₀, hr₀, hadv⟩ | ⟨hnone, hempty⟩
    · obtain ⟨new, heq, -, hmem⟩ := hadv.received
      rw [heq, mem_append, ih hr₀, hmem]
      refine or_congr_right ⟨fun ⟨hle, hlt, slot, hslot⟩ => ?_, ?_⟩
      · exact ⟨r₀, r, slot, hr₀, hr, hle, hlt, hslot⟩
      · rintro ⟨_, _, slot, hr₁, hr₂, hle, hlt, hslot⟩
        obtain rfl := Option.some.inj (hr₀.symm.trans hr₁)
        obtain rfl := Option.some.inj (hr.symm.trans hr₂)
        exact ⟨hle, hlt, slot, hslot⟩
    · -- the receiver is new, and came past nothing
      rw [hempty]
      refine iff_of_false not_mem_nil ?_
      rintro (hpass | ⟨r₀, -, -, hr₀, -⟩)
      · exact receivers_ne_none_of_passed hpass hnone
      · exact Option.some_ne_none r₀ (hr₀.symm.trans hnone)

/-- A poll returns the first group that is there to be returned. -/
theorem Receiver.exists_pollRecvGroup (hj : r.index ≤ j)
    (hslot : s.slotAt j = some slot) (hmin : r.minSequence ≤ slot.sequence) :
    ∃ found next, found ≤ j ∧ s.slotAt found = some next ∧
      r.pollRecvGroup s = (.ready (.ok (some next.sequence)),
        { r with index := found + 1, received := r.received ++ [(found, next.sequence)] }) := by
  rcases hpoll : r.pollRecvGroup s with ⟨p, _⟩
  by_cases hp : ∃ q, p = .ready (.ok (some q))
  · obtain ⟨q, rfl⟩ := hp
    obtain ⟨found, next, hnext, rfl, rfl⟩ := pollRecvGroup_eq_some hpoll
    refine ⟨found, next, Nat.le_of_not_lt fun hlt => ?_, hnext.cached, rfl⟩
    exact Nat.not_lt.mpr hmin (hnext.first hj hlt hslot)
  · obtain ⟨-, hnone⟩ := pollRecvGroup_eq_other hpoll fun q hq => hp ⟨q, hq⟩
    exact absurd (hnone hj hslot) (not_lt.mpr hmin)

/-- **Delivery of groups.** Whatever is done with a track and its consumers: a consumer receives in
order of arrival, each once, exactly the groups that it comes past while they are in the cache and
not below its bound; a poll returns the first of those there are; and the sequence numbers that
`poll_next_group` returns increase. -/
theorem delivery (calls : List Call) (k : ℕ) (r : Receiver)
    (hr : (System.run calls).receivers[k]? = some r) :
    let h := (System.run calls).history
    r.received.Pairwise (·.1 < ·.1) ∧
      (∀ j q, (j, q) ∈ r.received ↔ Passed calls k j q) ∧
      (∀ j slot, h.track.slotAt j = some slot → h.arrivals[j]? = some slot) ∧
      (∀ j slot, r.index ≤ j → h.track.slotAt j = some slot → r.minSequence ≤ slot.sequence →
        ∃ found next, found ≤ j ∧ h.track.slotAt found = some next ∧
          r.pollRecvGroup h.track = (.ready (.ok (some next.sequence)),
            { r with index := found + 1, received := r.received ++ [(found, next.sequence)] })) ∧
      r.next.Pairwise (· < ·) := by
  intro h
  have hy := inOrder_run calls
  have hsorted := hy.sorted r (mem_of_getElem? hr)
  exact ⟨hsorted.received, mem_received_iff calls hr, fun _ _ => hy.cached.found,
    fun _ _ => Receiver.exists_pollRecvGroup, hsorted.next⟩

/-- Groups 7 and 3 are received; the clone of the receiver goes on where it was made. -/
theorem delivery_clone :
    ∃ r, (System.run [.consume, .produce (.createGroup 7), .recvGroup 0, .clone 0,
        .produce (.createGroup 3), .recvGroup 1]).receivers[1]? = some r ∧
      r.received = [(1, 3)] ∧ r.received.Pairwise (·.1 < ·.1) :=
  ⟨_, rfl, rfl, (delivery [.consume, .produce (.createGroup 7), .recvGroup 0, .clone 0,
    .produce (.createGroup 3), .recvGroup 1] 1 _ rfl).1⟩

end Track

end HermitMoq
