import HermitMoq.GroupCache
import HermitMoq.TrackDelivery

/-!
# Reading First Frames

`TrackConsumer::poll_read_frame` of `moq-net/src/model/track.rs` returns the first frame of a
group: it looks at the groups in the order of arrival, from the index of the consumer on and not
below its sequence numbers, and returns the first frame that is complete. Then it goes on behind
that group. A group that still waits for its first frame is passed over, and if it has a larger
sequence number than the group that is returned, it is lost.

A system is a track, what a new consumer finds as the first frame of each group, and one consumer.
-/

namespace HermitMoq

open List Nat

namespace Track

/-- What a new consumer of a group finds as its first frame, by `GroupConsumer::poll_read_frame`:
the frame is not complete, its payload, the group is finished without frames, or an error (the
group is aborted, or the frame was evicted). -/
inductive FirstFrame (β : Type)
  | pending
  | complete (payload : β)
  | ended
  | failed (e : GroupError)
  deriving DecidableEq, Repr

/-- The errors of `poll_read_frame`. -/
inductive ReadFrameError
  | group (e : GroupError)
  | track (e : Error)
  deriving DecidableEq, Repr

variable {slot : Slot} {j : ℕ}

section Poll

variable {β : Type} (first : ℕ → FirstFrame β)

/-- The loop of `State::poll_read_frame`: the frame with the index and the sequence number of its
group, or an error; otherwise whether a group waits for its first frame. -/
def readLoop (nextSequence : ℕ) :
    List (Option Slot) → ℕ → Bool → Bool × Option (Except GroupError (β × ℕ × ℕ))
  | [], _, pendingSeen => (pendingSeen, none)
  | none :: groups, i, pendingSeen => readLoop nextSequence groups (i + 1) pendingSeen
  | some slot :: groups, i, pendingSeen =>
    if slot.sequence < nextSequence then readLoop nextSequence groups (i + 1) pendingSeen
    else
      match first i with
      | .complete payload => (pendingSeen, some (.ok (payload, i, slot.sequence)))
      | .ended => readLoop nextSequence groups (i + 1) pendingSeen
      | .failed e => (pendingSeen, some (.error e))
      | .pending => readLoop nextSequence groups (i + 1) true

/-- `State::poll_read_frame`, by way of `TrackConsumer::poll`. -/
def State.pollReadFrame (s : State) (index nextSequence : ℕ) :
    Poll (Except ReadFrameError (Option (β × ℕ × ℕ))) :=
  let start := index - s.offset
  match readLoop first nextSequence (s.groups.drop start) (s.offset + start) false with
  | (_, some (.ok found)) => .ready (.ok (some found))
  | (_, some (.error e)) => .ready (.error (.group e))
  | (pendingSeen, none) =>
    if pendingSeen = false ∧ s.finalSequence.isSome then .ready (.ok none)
    else
      match pendingSeen, s.abort with
      | false, some e => .ready (.error (.track e))
      | _, _ =>
        if s.closed then .ready (.error (.track (s.abort.getD .dropped))) else .pending

/-- A consumer, and the groups it has read, by their index and sequence number. -/
structure FrameReader extends TrackConsumer where
  returned : List (ℕ × ℕ) := []
  deriving DecidableEq

/-- `TrackConsumer::poll_read_frame`. -/
def FrameReader.pollReadFrame (s : State) (r : FrameReader) :
    Poll (Except ReadFrameError (Option β)) × FrameReader :=
  match s.pollReadFrame first r.index (max r.minSequence r.nextSequence) with
  | .ready (.ok (some (payload, found, sequence))) =>
    (.ready (.ok (some payload)),
      { r with
        index := found + 1
        nextSequence := min (sequence + 1) (2 ^ 64 - 1)
        returned := r.returned ++ [(found, sequence)] })
  | .ready (.ok none) => (.ready (.ok none), r)
  | .ready (.error e) => (.ready (.error e), r)
  | .pending => (.pending, r)

variable {first} {groups : List (Option Slot)} {nextSequence : ℕ}

/-- The group at `j` is the first with a frame, from an index on and not below a bound. -/
structure State.IsFirst (first : ℕ → FirstFrame β) (s : State) (index nextSequence j : ℕ)
    (slot : Slot) (payload : β) : Prop where
  le : index ≤ j
  cached : s.slotAt j = some slot
  min_le : nextSequence ≤ slot.sequence
  complete : first j = .complete payload
  passed : ∀ {i other}, index ≤ i → i < j → s.slotAt i = some other →
    nextSequence ≤ other.sequence → first i = .pending ∨ first i = .ended

/-- The scan stops at the first group that has a first frame. -/
theorem readLoop_eq_ok {i j sequence : ℕ} {payload : β} {pendingSeen seen : Bool}
    (h : readLoop first nextSequence groups i pendingSeen =
      (seen, some (.ok (payload, j, sequence)))) :
    i ≤ j ∧ (∃ slot, groups[j - i]? = some (some slot) ∧ slot.sequence = sequence ∧
      nextSequence ≤ sequence) ∧ first j = .complete payload ∧
      ∀ k other, i ≤ k → k < j → groups[k - i]? = some (some other) →
        nextSequence ≤ other.sequence → first k = .pending ∨ first k = .ended := by
  -- what is known of the groups behind the first one, if the first one is passed over
  have hpass : ∀ {x : Option Slot} {groups : List (Option Slot)} {i : ℕ},
      (∀ slot, x = some slot → nextSequence ≤ slot.sequence →
        first i = .pending ∨ first i = .ended) →
      (i + 1 ≤ j ∧ (∃ slot, groups[j - (i + 1)]? = some (some slot) ∧ slot.sequence = sequence ∧
        nextSequence ≤ sequence) ∧ first j = .complete payload ∧
        ∀ k other, i + 1 ≤ k → k < j → groups[k - (i + 1)]? = some (some other) →
          nextSequence ≤ other.sequence → first k = .pending ∨ first k = .ended) →
      i ≤ j ∧ (∃ slot, (x :: groups)[j - i]? = some (some slot) ∧ slot.sequence = sequence ∧
        nextSequence ≤ sequence) ∧ first j = .complete payload ∧
        ∀ k other, i ≤ k → k < j → (x :: groups)[k - i]? = some (some other) →
          nextSequence ≤ other.sequence → first k = .pending ∨ first k = .ended := by
    rintro x groups i hx ⟨_, _, hcomplete, hpassed⟩
    refine ⟨by omega, ?_, hcomplete, fun k other hk hlt hother hmin => ?_⟩
    · rwa [show j - i = j - (i + 1) + 1 by omega, getElem?_cons_succ]
    · rcases eq_or_lt_of_le hk with rfl | hk
      · rw [Nat.sub_self, getElem?_cons_zero] at hother
        exact hx other (Option.some.inj hother) hmin
      · rw [show k - i = k - (i + 1) + 1 by omega, getElem?_cons_succ] at hother
        exact hpassed k other hk hlt hother hmin
  fun_induction readLoop first nextSequence groups i pendingSeen with
  | case1 => cases h
  | case2 groups i pendingSeen ih => exact hpass nofun (ih h)
  | case3 slot groups i pendingSeen hlow ih =>
    refine hpass (fun other hx hmin => ?_) (ih h)
    cases hx
    omega
  | case4 slot groups i pendingSeen hlow payload' hfirst =>
    cases h
    refine ⟨Nat.le_refl _, ⟨slot, by simp, rfl, Nat.le_of_not_lt hlow⟩, hfirst, ?_⟩
    intro k other hk hlt
    omega
  | case5 slot groups i pendingSeen hlow hfirst ih =>
    exact hpass (fun _ _ _ => .inr hfirst) (ih h)
  | case6 slot groups i pendingSeen hlow e hfirst => cases h
  | case7 slot groups i pendingSeen hlow hfirst ih =>
    exact hpass (fun _ _ _ => .inl hfirst) (ih h)

/-- The loop returns a frame if there is one and no error before it. -/
theorem readLoop_exists {i k : ℕ}
    {payload : β} (hslot : groups[k]? = some (some slot)) (hmin : nextSequence ≤ slot.sequence)
    (hcomplete : first (i + k) = .complete payload)
    (hok : ∀ m other e, m < k → groups[m]? = some (some other) → nextSequence ≤ other.sequence →
      first (i + m) ≠ .failed e) (pendingSeen : Bool) :
    ∃ seen found, readLoop first nextSequence groups i pendingSeen = (seen, some (.ok found)) := by
  induction groups generalizing i k pendingSeen with
  | nil => cases hslot
  | cons x groups ih =>
    cases k with
    | zero =>
      obtain rfl : x = some slot := by simpa using hslot
      rw [readLoop, if_neg (not_lt.mpr hmin), show first i = _ from hcomplete]
      exact ⟨_, _, rfl⟩
    | succ k =>
      rw [add_comm k 1, ← add_assoc] at hcomplete
      have hrest : ∀ seen, ∃ seen' found,
          readLoop first nextSequence groups (i + 1) seen = (seen', some (.ok found)) := by
        refine ih hslot hcomplete fun m other e hm hother hle => ?_
        rw [add_assoc, add_comm 1 m]
        exact hok (m + 1) other e (succ_lt_succ hm) (by simpa using hother) hle
      cases x with
      | none => exact hrest pendingSeen
      | some head =>
        rw [readLoop]
        split_ifs with hlow
        · exact hrest pendingSeen
        · have hhead := fun e => hok 0 head e (Nat.succ_pos k) rfl (Nat.le_of_not_lt hlow)
          split
          · exact ⟨_, _, rfl⟩
          · exact hrest pendingSeen
          · rename_i e hfirst
            exact absurd hfirst (hhead e)
          · exact hrest true

namespace State

variable {s : State} {index : ℕ}

/-- The frame that is returned is the first one there is. -/
theorem pollReadFrame_eq {payload : β} {found sequence : ℕ}
    (h : s.pollReadFrame first index nextSequence =
      .ready (.ok (some (payload, found, sequence)))) :
    ∃ slot, s.IsFirst first index nextSequence found slot payload ∧ slot.sequence = sequence := by
  rw [pollReadFrame] at h
  split at h
  · rename_i seen found' hloop
    cases h
    obtain ⟨hle, ⟨slot, hslot, hseq, hmin⟩, hcomplete, hpassed⟩ := readLoop_eq_ok hloop
    obtain ⟨hindex, hcached⟩ := getElem?_drop_iff.mp ⟨hle, hslot⟩
    refine ⟨slot, ⟨hindex, hcached, hseq ▸ hmin, hcomplete,
      fun {i other} hi hlt hother => ?_⟩, hseq⟩
    obtain ⟨hi, hother⟩ := getElem?_drop_iff.mpr ⟨hi, hother⟩
    exact hpassed i other hi hlt hother
  · cases h
  · split at h
    · cases h
    · split at h
      · cases h
      · split at h <;> cases h

/-- A poll returns a frame if there is one and no error before it. -/
theorem pollReadFrame_ready {payload : β} (hj : index ≤ j)
    (hslot : s.slotAt j = some slot) (hmin : nextSequence ≤ slot.sequence)
    (hcomplete : first j = .complete payload)
    (hok : ∀ i other e, index ≤ i → i < j → s.slotAt i = some other →
      nextSequence ≤ other.sequence → first i ≠ .failed e) :
    ∃ found, s.pollReadFrame first index nextSequence = .ready (.ok (some found)) := by
  obtain ⟨hstart, hat⟩ := getElem?_drop_iff.mpr ⟨hj, hslot⟩
  obtain ⟨_, rfl⟩ := Nat.exists_eq_add_of_le hstart
  rw [Nat.add_sub_cancel_left] at hat
  obtain ⟨_, found, hloop⟩ := readLoop_exists hat hmin hcomplete
    (fun m other e hm hother hle => by
      rw [← Nat.add_sub_cancel_left (s.offset + (index - s.offset)) m] at hother
      obtain ⟨hi, hcached⟩ := getElem?_drop_iff.mp ⟨le_add_right _ m, hother⟩
      exact hok _ other e hi (by omega) hcached hle) false
  exact ⟨found, by rw [pollReadFrame, hloop]⟩

end State

end Poll

/-! ### Systems -/

/-- What happens to a track with a reader: a call of a producer, or time passes; the first frame
of a group changes; the reader polls. -/
inductive ReadCall (β : Type)
  | produce (action : Action)
  | become (j : ℕ) (status : FirstFrame β)
  | readFrame
  deriving DecidableEq

/-- A track, the first frames of its groups in the order of arrival, and a reader. -/
structure ReadSystem (β : Type) where
  history : History := {}
  firsts : List (FirstFrame β) := []
  reader : FrameReader := {}
  deriving DecidableEq

/-- The first frame of a group becomes complete, or the group ends or fails without it. A frame
that is complete can only be lost. -/
def FirstFrame.become {β : Type} (old new : FirstFrame β) : FirstFrame β :=
  match old, new with
  | .pending, _ => new
  | .complete _, .ended => .ended
  | .complete _, .failed e => .failed e
  | _, _ => old

namespace ReadSystem

variable {β : Type}

/-- The first frame of the group at an index. -/
def first (y : ReadSystem β) (j : ℕ) : FirstFrame β := y.firsts.getD j .pending

/-- The poll of the reader. -/
def poll (y : ReadSystem β) : Poll (Except ReadFrameError (Option β)) × ReadSystem β :=
  let polled := y.reader.pollReadFrame y.first y.history.track
  (polled.1, { y with reader := polled.2 })

/-- The effect of a call. -/
def step (y : ReadSystem β) : ReadCall β → ReadSystem β
  | .produce action =>
    let history := y.history.step action
    let created := history.arrivals.length - y.history.arrivals.length
    { y with history, firsts := y.firsts ++ List.replicate created .pending }
  | .become j status => { y with firsts := y.firsts.modify j fun old => old.become status }
  | .readFrame => y.poll.2

/-- A new track with a reader whose sequence numbers start at a bound, after some calls. -/
def run (minSequence : ℕ) (calls : List (ReadCall β)) : ReadSystem β :=
  calls.foldl step { reader := { minSequence } }

/-- The reader polls some times, and nothing else happens. -/
def polls (y : ReadSystem β) : ℕ → ReadSystem β
  | 0 => y
  | n + 1 => (y.polls n).poll.2

end ReadSystem

/-! ### What is behind the index -/

/-- What is in the cache after a call was there before, or arrives on an open track. -/
theorem Cached.slotAt_step {h : History} (hc : Cached h) (action : Action)
    (hslot : (h.step action).track.slotAt j = some slot) :
    h.track.slotAt j = some slot ∨
      j = h.arrivals.length ∧ (h.step action).track.closed = false := by
  have hpush : ∀ {sequence}, h.track.closed = false →
      (h.track.push sequence h.clock).slotAt j = some slot →
      h.track.slotAt j = some slot ∨
        j = h.arrivals.length ∧ (h.track.push sequence h.clock).closed = false := by
    intro sequence hopen hslot
    rcases ((hc.slotAt_push hopen j slot).mp hslot).1 with hold | ⟨hj, -⟩
    · exact .inl hold
    · exact .inr ⟨hj, hopen⟩
  cases action with
  | createGroup sequence =>
    rw [History.step] at hslot ⊢
    split at hslot
    · rename_i track hok
      obtain ⟨hopen, -, -, rfl⟩ := State.createGroup_ok hok
      exact hpush hopen hslot
    · exact .inl hslot
  | appendGroup =>
    rw [History.step] at hslot ⊢
    split at hslot
    · rename_i sequence track hok
      obtain ⟨hopen, -, -, -, rfl⟩ := State.appendGroup_ok hok
      exact hpush hopen hslot
    · exact .inl hslot
  | finish =>
    rw [History.step] at hslot
    split at hslot
    · rename_i track hok
      rw [State.finish_ok hok] at hslot
      exact .inl hslot
    · exact .inl hslot
  | finishAt sequence =>
    rw [History.step] at hslot
    split at hslot
    · rename_i track hok
      rw [State.finishAt_ok hok] at hslot
      exact .inl hslot
    · exact .inl hslot
  | abort e =>
    rw [History.step] at hslot
    split at hslot
    · rename_i track hok
      obtain ⟨_, -, hclear⟩ := bind_eq_ok.mp hok
      cases hclear
      rw [State.slotAt_nil rfl] at hslot
      cases hslot
    · exact .inl hslot
  | drop =>
    rw [History.step, State.drop] at hslot
    split_ifs at hslot
    · rw [State.slotAt_nil rfl] at hslot
      cases hslot
    · exact .inl hslot
  | wait nanos => exact .inl hslot

/-- The first frame may still be read. -/
def FirstFrame.Alive {β : Type} : FirstFrame β → Prop
  | .pending | .complete _ => True
  | .ended | .failed _ => False

theorem FirstFrame.alive_of_become {β : Type} {old new : FirstFrame β}
    (h : (old.become new).Alive) : old.Alive := by
  cases old with
  | pending => trivial
  | complete payload => trivial
  | ended => cases new <;> exact h
  | failed e => cases new <;> exact h

namespace ReadSystem

variable {β : Type} {y : ReadSystem β}

/-- The bound of a poll. -/
def lower (y : ReadSystem β) : ℕ := max y.reader.minSequence y.reader.nextSequence

/-- The first group with a complete frame, in the order of arrival, has a larger sequence number
than the groups before it that wait for theirs. -/
def Orderly (y : ReadSystem β) : Prop :=
  ∀ {j : ℕ} {slot : Slot} {payload : β} {i : ℕ} {other : Slot},
    y.history.track.IsFirst y.first y.reader.index y.lower j slot payload →
    y.reader.index ≤ i → i < j → y.history.track.slotAt i = some other →
    y.first i = .pending → other.sequence < slot.sequence

/-- A poll returns a frame of the group at `i` with the sequence number `q`. -/
def Returns (y : ReadSystem β) (i q : ℕ) : Prop :=
  y.poll.2.reader.returned = y.reader.returned ++ [(i, q)]

/-- The groups behind the index that may still be read are older than what was returned. -/
structure Kept (y : ReadSystem β) : Prop where
  cached : Cached y.history
  distinct : ∀ {i j a b}, y.history.track.slotAt i = some a → y.history.track.slotAt j = some b →
    a.sequence = b.sequence → i = j
  length : y.firsts.length = y.history.arrivals.length
  index_le : y.reader.index ≤ y.history.arrivals.length
  behind : ∀ {j slot}, y.history.track.slotAt j = some slot → j < y.reader.index →
    (y.first j).Alive → ∃ e ∈ y.reader.returned, slot.sequence ≤ e.2
  min_le : ∀ e ∈ y.reader.returned, y.reader.minSequence ≤ e.2
  next_le : y.reader.nextSequence = 0 ∨ ∃ e ∈ y.reader.returned, y.reader.nextSequence ≤ e.2 + 1

/-- What a poll does: the first frame is returned, or nothing changes. -/
theorem poll_cases (y : ReadSystem β) :
    (∃ j slot payload,
      y.history.track.IsFirst y.first y.reader.index y.lower j slot payload ∧
      y.poll = (.ready (.ok (some payload)), { y with reader := { y.reader with
        index := j + 1
        nextSequence := min (slot.sequence + 1) (2 ^ 64 - 1)
        returned := y.reader.returned ++ [(j, slot.sequence)] } })) ∨
      y.poll.2 = y := by
  rw [poll, FrameReader.pollReadFrame]
  split
  · rename_i payload found sequence hpoll
    obtain ⟨slot, hfirst, rfl⟩ := State.pollReadFrame_eq hpoll
    exact .inl ⟨found, slot, payload, hfirst, rfl⟩
  all_goals exact .inr rfl

/-- An orderly poll leaves only older groups behind. -/
theorem Kept.poll (h : y.Kept) (horderly : y.Orderly) : y.poll.2.Kept := by
  rcases y.poll_cases with ⟨j, slot, _, hfirst, hpoll⟩ | hsame
  · rw [hpoll]
    have hat := h.cached.found hfirst.cached
    refine ⟨h.cached, h.distinct, h.length, (List.getElem?_eq_some_iff.mp hat).1, ?_, ?_, ?_⟩
    · intro i other hother hlt halive
      rcases lt_or_ge i y.reader.index with hbehind | hahead
      · obtain ⟨e, hmem, hle⟩ := h.behind hother hbehind halive
        exact ⟨e, mem_append_left _ hmem, hle⟩
      · -- a group that is passed over now
        refine ⟨(j, slot.sequence), by simp, ?_⟩
        rcases eq_or_lt_of_le (le_of_lt_succ hlt) with rfl | hlt
        · rw [Option.some.inj (hother.symm.trans hfirst.cached)]
        rcases lt_or_ge other.sequence y.lower with hlow | hhigh
        · exact (le_of_lt hlow).trans hfirst.min_le
        · rcases hfirst.passed hahead hlt hother hhigh with hpending | hended
          · exact le_of_lt (horderly hfirst hahead hlt hother hpending)
          · change (y.first i).Alive at halive
            rw [hended] at halive
            exact halive.elim
    · intro e hmem
      rcases mem_append.mp hmem with hmem | hmem
      · exact h.min_le e hmem
      · rw [mem_singleton.mp hmem]
        exact (le_max_left _ _).trans hfirst.min_le
    · exact .inr ⟨(j, slot.sequence), by simp, min_le_left _ _⟩
  · rwa [hsame]

/-- What the producer does leaves only older groups behind. -/
theorem Kept.produce (h : y.Kept) (action : Action) : (y.step (.produce action)).Kept := by
  have hcached := h.cached.step action
  have hlength : y.history.arrivals.length ≤ (y.history.step action).arrivals.length := by
    rcases arrivals_step h.cached action with heq | ⟨_, heq, -⟩
    · rw [heq]
    · rw [heq, length_append]
      exact le_add_right _ _
  refine ⟨hcached, ?_, ?_, h.index_le.trans hlength, ?_, h.min_le, h.next_le⟩
  · intro i j a b ha hb hseq
    cases hclosed : (y.history.step action).track.closed with
    | false => exact (hcached.complete hclosed).distinct ha hb hseq
    | true =>
      -- nothing arrived, so both were in the cache before
      have hold : ∀ {k slot}, (y.history.step action).track.slotAt k = some slot →
          y.history.track.slotAt k = some slot := fun hslot =>
        (h.cached.slotAt_step action hslot).resolve_right fun hnew => by
          rw [hclosed] at hnew
          cases hnew.2
      exact h.distinct (hold ha) (hold hb) hseq
  · rw [step]
    dsimp only
    rw [length_append, length_replicate, h.length]
    omega
  · intro j slot hslot hlt halive
    have hj : j < y.firsts.length := by
      rw [h.length]
      exact lt_of_lt_of_le hlt h.index_le
    refine h.behind ((h.cached.slotAt_step action hslot).resolve_right fun hnew => ?_) hlt ?_
    · rw [← h.length] at hnew
      omega
    · rw [first, step] at halive
      rwa [getD_append _ _ _ _ hj] at halive

/-- Another first frame leaves only older groups behind. -/
theorem Kept.become (h : y.Kept) (j : ℕ) (status : FirstFrame β) :
    (y.step (.become j status)).Kept := by
  refine ⟨h.cached, h.distinct, ?_, h.index_le, ?_, h.min_le, h.next_le⟩
  · rw [step]
    rw [length_modify, h.length]
  · intro i slot hslot hlt halive
    refine h.behind hslot hlt ?_
    rw [first, step] at halive
    rw [getD_eq_getElem?_getD, getElem?_modify] at halive
    rw [first, getD_eq_getElem?_getD]
    cases hold : y.firsts[i]? with
    | none => trivial
    | some old =>
      rw [hold] at halive
      by_cases hj : j = i
      · simp only [hj, ↓reduceIte, Option.map_eq_map, Option.map_some, Option.getD_some]
          at halive
        exact FirstFrame.alive_of_become halive
      · simpa [hj] using halive

/-- Runs with orderly polls leave only older groups behind. -/
theorem kept_run (minSequence : ℕ) (calls : List (ReadCall β))
    (horderly : ∀ n, calls[n]? = some .readFrame → (run minSequence (calls.take n)).Orderly) :
    (run minSequence calls).Kept := by
  induction calls using reverseRecOn with
  | nil =>
    exact
      { cached := cached_new
        distinct := fun ha => by simp [run, State.slotAt_nil] at ha
        length := rfl
        index_le := le_refl 0
        behind := fun _ hlt => absurd hlt (not_lt_zero _)
        min_le := nofun
        next_le := .inl rfl }
  | append_singleton calls call ih =>
    have hkept : (run minSequence calls).Kept := ih fun n hn => by
      have hlt := (List.getElem?_eq_some_iff.mp hn).1
      have hbefore := @horderly n (by rwa [getElem?_append_left hlt])
      rwa [take_append_of_le_length (le_of_lt hlt)] at hbefore
    have hstep : run minSequence (calls ++ [call]) = (run minSequence calls).step call := by
      rw [run, foldl_append]
      rfl
    rw [hstep]
    cases call with
    | produce action => exact hkept.produce action
    | become j status => exact hkept.become j status
    | readFrame =>
      have hbefore := @horderly calls.length (by simp)
      rw [take_left] at hbefore
      exact hkept.poll hbefore

theorem polls_succ (y : ReadSystem β) (n : ℕ) : y.poll.2.polls n = y.polls (n + 1) := by
  induction n with
  | zero => rfl
  | succ n ih => exact congrArg (fun y => y.poll.2) ih

/-- A group that is complete, not behind the index, not below the bound, and with no error before
it is returned after some polls, unless a newer one is. -/
theorem returned_of_polls (y : ReadSystem β) {payload : β}
    (hdistinct : ∀ {i a}, y.history.track.slotAt i = some a → a.sequence = slot.sequence → i = j)
    (hbound : slot.sequence < 2 ^ 64) (hindex : y.reader.index ≤ j)
    (hslot : y.history.track.slotAt j = some slot) (hlower : y.lower ≤ slot.sequence)
    (hcomplete : y.first j = .complete payload)
    (hok : ∀ i other e, y.reader.index ≤ i → i < j → y.history.track.slotAt i = some other →
      y.lower ≤ other.sequence → y.first i ≠ .failed e) :
    ∃ n, (∀ m < n, ∃ i q, (y.polls m).Returns i q ∧ q < slot.sequence) ∧
      ((y.polls n).Returns j slot.sequence ∧
          (y.polls n).poll.1 = .ready (.ok (some payload)) ∨
        ∃ i q, (y.polls n).Returns i q ∧ slot.sequence < q) := by
  obtain ⟨⟨payload', f, q⟩, hready⟩ :=
    State.pollReadFrame_ready hindex hslot hlower hcomplete hok
  obtain ⟨found, hfirst, rfl⟩ := State.pollReadFrame_eq hready
  have hpoll : y.poll = (.ready (.ok (some payload')), { y with reader := { y.reader with
      index := f + 1
      nextSequence := min (found.sequence + 1) (2 ^ 64 - 1)
      returned := y.reader.returned ++ [(f, found.sequence)] } }) := by
    rw [poll, FrameReader.pollReadFrame]
    rw [lower] at hready
    rw [hready]
  have hreturns : y.Returns f found.sequence := by rw [Returns, hpoll]
  have hle : f ≤ j := by
    by_contra hlt
    rcases hfirst.passed hindex (Nat.lt_of_not_le hlt) hslot hlower with h | h
    all_goals
      rw [hcomplete] at h
      cases h
  rcases eq_or_lt_of_le hle with rfl | hlt
  · obtain rfl : slot = found := Option.some.inj (hslot.symm.trans hfirst.cached)
    have hpayload := hcomplete.symm.trans hfirst.complete
    cases hpayload
    exact ⟨0, fun m hm => absurd hm (not_lt_zero m), .inl ⟨hreturns, by rw [polls, hpoll]⟩⟩
  rcases lt_trichotomy found.sequence slot.sequence with holder | hsame | hnewer
  · -- an older group comes first, and the same holds behind it
    have hnext : y.lower ≤ y.poll.2.lower ∧ y.poll.2.lower ≤ slot.sequence := by
      have hmin := hfirst.min_le
      rw [hpoll, lower, lower] at *
      dsimp only at *
      omega
    have hrest : ∃ n, (∀ m < n, ∃ i q, (y.poll.2.polls m).Returns i q ∧ q < slot.sequence) ∧
        ((y.poll.2.polls n).Returns j slot.sequence ∧
            (y.poll.2.polls n).poll.1 = .ready (.ok (some payload)) ∨
          ∃ i q, (y.poll.2.polls n).Returns i q ∧ slot.sequence < q) := by
      refine returned_of_polls y.poll.2 ?_ hbound ?_ ?_ hnext.2 ?_ ?_
      · exact hdistinct
      · rw [hpoll]
        exact hlt
      · exact hslot
      · exact hcomplete
      · intro i other e hi hij hother hother'
        rw [hpoll] at hi hother ⊢
        have := hfirst.le
        exact hok i other e (by dsimp only at hi; omega) hij hother (hnext.1.trans hother')
    obtain ⟨n, hbefore, _⟩ := hrest
    refine ⟨n + 1, fun m hm => ?_, ?_⟩
    · cases m with
      | zero => exact ⟨f, found.sequence, hreturns, holder⟩
      | succ m =>
        rw [← polls_succ]
        exact hbefore m (lt_of_succ_lt_succ hm)
    · rwa [← polls_succ]
  · exact absurd (hdistinct hfirst.cached hsame) (Nat.ne_of_lt hlt)
  · exact ⟨0, fun m hm => absurd hm (not_lt_zero m),
      .inr ⟨f, found.sequence, hreturns, hnewer⟩⟩
  termination_by j - y.reader.index
  decreasing_by
    rw [hpoll]
    have := hfirst.le
    dsimp only
    omega

theorem polls_of_fixed (hfixed : y.poll.2 = y) (n : ℕ) : y.polls n = y := by
  induction n with
  | zero => rfl
  | succ n ih => rw [polls, ih, hfixed]

end ReadSystem

/-- **The newest group is read.** In every run in which, at each poll, the group that is returned
has a larger sequence number than the groups that are passed over: a group in the cache whose first
frame is complete and whose sequence number is larger than all that were returned is returned by one
of the next polls, unless a group with a larger sequence number is returned before, or the poll
comes to a group that failed. The polls before it return frames of older groups. -/
theorem readFrame_returns_newest {β : Type} (minSequence : ℕ) (calls : List (ReadCall β))
    (horderly : ∀ n, calls[n]? = some .readFrame →
      (ReadSystem.run minSequence (calls.take n)).Orderly)
    {j : ℕ} {slot : Slot} {payload : β}
    (hlive : (ReadSystem.run minSequence calls).history.track.slotAt j = some slot)
    (hcomplete : (ReadSystem.run minSequence calls).first j = .complete payload)
    (hreturned : (ReadSystem.run minSequence calls).reader.returned ≠ [])
    (hnewer : ∀ e ∈ (ReadSystem.run minSequence calls).reader.returned, e.2 < slot.sequence)
    (hok : ∀ i other e, (ReadSystem.run minSequence calls).reader.index ≤ i → i < j →
      (ReadSystem.run minSequence calls).history.track.slotAt i = some other →
      (ReadSystem.run minSequence calls).lower ≤ other.sequence →
      (ReadSystem.run minSequence calls).first i ≠ .failed e) :
    let y := ReadSystem.run minSequence calls
    ∃ n, (∀ m < n, ∃ i q, (y.polls m).Returns i q ∧ q < slot.sequence) ∧
      ((y.polls n).Returns j slot.sequence ∧
          (y.polls n).poll.1 = .ready (.ok (some payload)) ∨
        ∃ i q, (y.polls n).Returns i q ∧ slot.sequence < q) := by
  intro y
  have hkept : y.Kept := ReadSystem.kept_run minSequence calls horderly
  have hindex : y.reader.index ≤ j := by
    by_contra hbehind
    have halive : (y.first j).Alive := by
      rw [show y.first j = _ from hcomplete]
      trivial
    obtain ⟨e, hmem, hle⟩ := hkept.behind hlive (Nat.lt_of_not_le hbehind) halive
    exact not_lt.mpr hle (hnewer e hmem)
  have hlower : y.lower ≤ slot.sequence := by
    obtain ⟨e, hmem⟩ := exists_mem_of_ne_nil _ hreturned
    have hmin := hkept.min_le e hmem
    have hlt := hnewer e hmem
    refine Nat.max_le.mpr ⟨by omega, ?_⟩
    rcases hkept.next_le with hzero | ⟨e', hmem', hnext⟩
    · exact hzero ▸ zero_le _
    · exact hnext.trans (hnewer e' hmem')
  exact ReadSystem.returned_of_polls y (fun hother hseq => hkept.distinct hother hlive hseq)
    (hkept.cached.bounded (hkept.cached.mem_arrivals hlive)) hindex hlive hlower hcomplete hok

/-- Group 3 is read, then group 5 arrives and gets its first frame. -/
def nextGroup : List (ReadCall ℕ) :=
  [.produce (.createGroup 3), .become 0 (.complete 30), .readFrame, .produce (.createGroup 5),
    .become 1 (.complete 50)]

/-- The frame of the group that arrives is returned. -/
theorem readFrame_returns_newest_next :
    (ReadSystem.run 0 nextGroup).reader.returned = [(0, 3)] ∧
      ∃ n, (∀ m < n, ∃ i q, ((ReadSystem.run 0 nextGroup).polls m).Returns i q ∧ q < 5) ∧
        (((ReadSystem.run 0 nextGroup).polls n).Returns 1 5 ∧
          ((ReadSystem.run 0 nextGroup).polls n).poll.1 = .ready (.ok (some 50)) ∨
          ∃ i q, ((ReadSystem.run 0 nextGroup).polls n).Returns i q ∧ 5 < q) := by
  refine ⟨by decide, ?_⟩
  refine readFrame_returns_newest 0 nextGroup ?_ (show _ = some (⟨5, 0⟩ : Slot) by decide)
    (by decide) (by decide) (by decide) ?_
  · intro n hn j slot payload i other hfirst hle hlt
    -- the only poll is the third call, when one group has arrived
    have htwo : n = 2 := by
      rcases n with _ | _ | _ | _ | _ | n <;> simp_all [nextGroup]
    subst htwo
    have hone : j < 1 := State.slotAt_lt hfirst.cached
    omega
  · intro i other e hle hlt
    have hone : 1 ≤ i := hle
    omega

/-- Group 5 arrives, then group 3, whose first frame is complete first and is read. Then the first
frame of group 5 is complete. -/
def stalledGroup : List (ReadCall ℕ) :=
  [.produce (.createGroup 5), .produce (.createGroup 3), .become 1 (.complete 30), .readFrame,
    .become 0 (.complete 50)]

/-- The group is still cached, but no poll ever returns its frame. -/
theorem stalled_group_lost :
    (ReadSystem.run 0 stalledGroup).reader.returned = [(1, 3)] ∧
      (ReadSystem.run 0 stalledGroup).history.track.slotAt 0 = some ⟨5, 0⟩ ∧
      ∀ n, ((ReadSystem.run 0 stalledGroup).polls n).poll.1 = .pending := by
  refine ⟨by decide, by decide, fun n => ?_⟩
  rw [ReadSystem.polls_of_fixed (by decide)]
  decide

end Track

end HermitMoq
