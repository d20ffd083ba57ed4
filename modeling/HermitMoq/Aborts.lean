import HermitMoq.GroupCache
import HermitMoq.TrackDelivery

/-!
# Aborted Tracks and Groups

What consumers find after a track or a group was aborted (`track.rs` and `group.rs` of
`moq-net/src/model`). An abort releases the cached groups or frames and closes the channel, after
which nothing changes any more. It leaves the mark of a finished track or group, which the polls
look at before the error.
-/

namespace HermitMoq

open List GroupCell

namespace Track

/-- On a closed channel every call fails. -/
theorem History.track_step_closed {h : History} (hclosed : h.track.closed = true)
    (action : Action) : (h.step action).track = h.track := by
  have hmodify : h.track.modify = .error (h.track.abort.getD .dropped) := by
    rw [State.modify, if_pos hclosed]
  cases action with
  | createGroup sequence =>
    rw [History.step, State.createGroup, hmodify]
    rfl
  | appendGroup =>
    rw [History.step, State.appendGroup, hmodify]
    rfl
  | finish =>
    rw [History.step, State.finish, hmodify]
    rfl
  | finishAt sequence =>
    rw [History.step, State.finishAt, hmodify]
    rfl
  | abort e =>
    rw [History.step, State.abortWith, hmodify]
    rfl
  | drop =>
    rw [History.step, State.drop, if_neg (by simp [hclosed])]
    conv_lhs => rw [← hclosed]
  | wait nanos => rfl

theorem History.track_foldl_closed {h : History} (hclosed : h.track.closed = true)
    (actions : List Action) : (actions.foldl step h).track = h.track := by
  induction actions generalizing h with
  | nil => rfl
  | cons action actions ih =>
    have hstep := track_step_closed hclosed action
    exact (ih (hstep ▸ hclosed)).trans hstep

/-- The track after an abort, whatever is called later. -/
theorem track_of_abort (before after : List Action) (e : Error)
    (hopen : (History.run before).track.closed = false) :
    (History.run (before ++ .abort e :: after)).track =
      { (History.run before).track with
        abort := some e, groups := [], duplicates := ∅, closed := true } := by
  have hstep : (History.run before).step (.abort e) =
      { History.run before with
        track := { (History.run before).track with
          abort := some e, groups := [], duplicates := ∅, closed := true } } := by
    rw [History.step, State.abortWith, State.modify, if_neg (by simp [hopen])]
    rfl
  rw [History.run, foldl_append, foldl_cons]
  change (after.foldl History.step ((History.run before).step (.abort e))).track = _
  rw [History.track_foldl_closed (by rw [hstep]), hstep]

variable {s : State} {e : Error}

/-- What a poll finds without groups. -/
theorem State.pollRecvGroup_of_abort (hnil : s.groups = [])
    (habort : s.abort = some e) (index minSequence : ℕ) :
    s.pollRecvGroup index minSequence =
      .ready (if s.finalSequence.isSome then .ok none else .error e) := by
  rw [State.pollRecvGroup, hnil, drop_nil, habort]
  split_ifs <;> rfl

theorem Receiver.pollRecvGroup_of_abort (hnil : s.groups = [])
    (habort : s.abort = some e) (r : Receiver) :
    r.pollRecvGroup s = (.ready (if s.finalSequence.isSome then .ok none else .error e), r) := by
  rw [Receiver.pollRecvGroup, State.pollRecvGroup_of_abort hnil habort]
  cases s.finalSequence.isSome <;> rfl

theorem Receiver.pollNextGroup_of_abort (hnil : s.groups = [])
    (habort : s.abort = some e) (r : Receiver) :
    r.pollNextGroup s = (.ready (if s.finalSequence.isSome then .ok none else .error e), r) := by
  have hrecv := r.pollRecvGroup_of_abort hnil habort
  rw [Receiver.pollNextGroup]
  split
  · rename_i sequence r' hpoll
    rw [hrecv] at hpoll
    split_ifs at hpoll <;> cases hpoll
  · rename_i p r' hp hpoll
    exact hpoll.symm.trans hrecv

end Track

namespace GroupHistory

variable {β : Type} {len : β → ℕ} {h : GroupHistory β} (before after : List (GroupCall β))
  (e : GroupError)

/-- On a closed channel nothing changes. -/
theorem step_closed (hclosed : h.group.closed = true) (call : GroupCall β) :
    h.step len call = h := by
  have hne : h.group.closed ≠ false := by simp [hclosed]
  generalize hstep : h.step len call = h'
  cases hstep ▸ moves_step h call with
  | same => rfl
  | append hok => exact absurd (appendFrame_ok hok).2.1 hne
  | finish hopen => exact absurd hopen hne
  | abort hopen => exact absurd hopen hne
  | drop hopen => exact absurd hopen hne
  | dropFinished hopen => exact absurd hopen hne

/-- The group after an abort, whatever is called later. -/
theorem group_of_abort (hopen : (run len before).group.closed = false) :
    (run len (before ++ .abort e :: after)).group =
      { (run len before).group.clear with abort := some e, closed := true } := by
  have hstep : (run len before).step len (.abort e) =
      { run len before with
        group := { (run len before).group.clear with abort := some e, closed := true } } := by
    rw [step, GroupCell.abortWith, GroupCell.modify, if_neg (by simp [hopen])]
    rfl
  have hafter : ∀ h : GroupHistory β, h.group.closed = true → after.foldl (step len) h = h := by
    intro h hclosed
    induction after with
    | nil => rfl
    | cons call after ih => rw [foldl_cons, step_closed hclosed, ih]
  rw [run, foldl_append, foldl_cons]
  change (after.foldl (step len) ((run len before).step len (.abort e))).group = _
  rw [hafter _ (by rw [hstep]), hstep]

/-- What is known of every group: an aborted one is closed and has no frames, and the newest
frame was never evicted. -/
structure Counted (len : β → ℕ) (h : GroupHistory β) : Prop where
  aborted : h.group.abort.isSome → h.group.closed = true ∧ h.group.cached.frames = []
  offset_le : h.group.cached.offset ≤ h.appended.length - 1
  cached : ¬ Released h → Cached len h

theorem Cached.offset_le (hc : Cached len h) :
    h.group.cached.offset ≤ h.appended.length - 1 := by
  have hlength := hc.length_eq
  by_cases hnil : h.group.cached.frames = []
  · have hnewest := hc.newest
    rw [hnil, getLast?_nil] at hnewest
    rw [getLast?_eq_none_iff.mp hnewest.symm, length_nil] at hlength ⊢
    omega
  · have := length_pos_of_ne_nil hnil
    omega

/-- An open group was not released. -/
theorem Counted.not_released (hc : Counted len h) (hopen : h.group.closed = false) :
    ¬ Released h := by
  have hne : h.group.closed ≠ true := by simp [hopen]
  rintro (habort | hclosed)
  · exact hne (hc.aborted habort).1
  · exact hne hclosed.1

/-- Every move keeps what is known of the group. -/
theorem Counted.step {h' : GroupHistory β} (hc : Counted len h) (hmoves : Moves len h h') :
    Counted len h' := by
  have hcached : ¬ Released h' → Cached len h' := Cached.step hc.cached hmoves
  have hopen : h.group.closed = false → ¬ h.group.abort.isSome := fun hopen habort =>
    hc.not_released hopen (.inl habort)
  cases hmoves with
  | same => exact hc
  | append hok =>
    obtain ⟨-, hclosed, -, heq⟩ := appendFrame_ok hok
    have hnext := (hc.cached (hc.not_released hclosed)).append hok
    refine ⟨fun habort => absurd ?_ (hopen hclosed), hnext.offset_le, hcached⟩
    rw [heq] at habort
    exact habort
  | finish hclosed | drop hclosed hfin | dropFinished hclosed hfin =>
    exact ⟨fun habort => absurd habort (hopen hclosed), hc.offset_le, hcached⟩
  | abort hclosed e => exact ⟨fun _ => ⟨rfl, rfl⟩, hc.offset_le, hcached⟩

theorem counted_run (calls : List (GroupCall β)) : Counted len (run len calls) := by
  induction calls using reverseRecOn with
  | nil =>
    exact ⟨fun habort => Bool.noConfusion habort, Nat.le_refl 0, fun _ => cached_new⟩
  | append_singleton calls call ih =>
    rw [run, foldl_append]
    exact ih.step (moves_step _ call)

/-- The number of frames is right, unless the frames of a finished group were released. -/
theorem Counted.pollFinished_iff (hc : Counted len h) :
    (∀ n, h.group.pollFinished = .ready (.ok n) → n = h.appended.length) ↔
      ¬ (h.group.abort.isSome ∧ h.group.cached.fin = true ∧ h.appended ≠ []) := by
  constructor
  · rintro hright ⟨habort, hfin, hne⟩
    have hle := hc.offset_le
    have hpos := length_pos_of_ne_nil hne
    have hcount := hright h.group.cached.offset (by
      rw [pollFinished, if_pos hfin, (hc.aborted habort).2]
      rfl)
    omega
  · intro hnot n hn
    rw [pollFinished] at hn
    split_ifs at hn with hfin
    · cases hn
      by_cases habort : h.group.abort.isSome
      · -- without frames nothing was counted and nothing is left to count
        have hnil : h.appended = [] := by
          by_contra hne
          exact hnot ⟨habort, hfin, hne⟩
        have hle := hc.offset_le
        rw [(hc.aborted habort).2, hnil, length_nil] at *
        omega
      · refine (hc.cached ?_).length_eq
        rintro (habort' | ⟨-, hfin'⟩)
        · exact habort habort'
        · rw [hfin] at hfin'
          cases hfin'
    · rw [pollClosed] at hn
      split at hn
      · cases hn
      · split_ifs at hn
        cases hn

/-- What a consumer finds after an abort. -/
theorem pollGetFrame_of_abort (hopen : (run len before).group.closed = false) (index : ℕ) :
    (run len (before ++ .abort e :: after)).group.pollGetFrame index =
      .ready (if index < (run len before).group.cached.offset then .error .cacheFull
        else if (run len before).group.cached.fin then .ok none else .error e) := by
  rw [group_of_abort before after e hopen, pollGetFrame]
  have hoffset : ({ (run len before).group.clear with
      abort := some e, closed := true } : GroupCell β).cached.offset =
        (run len before).group.cached.offset := rfl
  rw [hoffset]
  by_cases hindex : index < (run len before).group.cached.offset
  · rw [if_pos hindex, if_pos hindex]
  · rw [if_neg hindex, if_neg hindex]
    dsimp only [clear, pollClosed]
    rw [getElem?_nil, apply_ite Poll.ready]
    rfl

end GroupHistory

theorem GroupCell.pollNextFrame_fst {β : Type} (g : GroupCell β) (index : ℕ) :
    (g.pollNextFrame index).1 = g.pollGetFrame index := by
  rw [pollNextFrame]
  split
  · rename_i hpoll
    exact hpoll.symm
  · rfl

/-- **Aborts are observable.** After an abort, whatever happened before and happens later, every
consumer of the track gets the error, and never the end, exactly if the track was not finished
before the abort. The same holds for a consumer of a group, if the frame it asks for was not
evicted. A group reports the number of its frames, unless it was finished, then aborted, and had
frames. -/
theorem abort_observable_iff {β : Type} (len : β → ℕ) :
    (∀ (before after : List Track.Action) (e : Track.Error) (r : Track.Receiver),
      (Track.History.run before).track.closed = false →
      let s := (Track.History.run (before ++ .abort e :: after)).track
      let finished := (Track.History.run before).track.finalSequence.isSome
      ((r.pollRecvGroup s).1 = .ready (.error e) ↔ finished = false) ∧
        ((r.pollRecvGroup s).1 ≠ .ready (.ok none) ↔ finished = false) ∧
        ((r.pollNextGroup s).1 = .ready (.error e) ↔ finished = false) ∧
        ((r.pollNextGroup s).1 ≠ .ready (.ok none) ↔ finished = false)) ∧
    (∀ (before after : List (GroupCall β)) (e : GroupError) (index : ℕ),
      (GroupHistory.run len before).group.closed = false →
      let g := (GroupHistory.run len (before ++ .abort e :: after)).group
      let finished := (GroupHistory.run len before).group.cached.fin
      let evicted := index < (GroupHistory.run len before).group.cached.offset
      (g.pollGetFrame index = .ready (.error e) ↔
          ¬ evicted ∧ finished = false ∨ evicted ∧ e = .cacheFull) ∧
        (g.pollGetFrame index ≠ .ready (.ok none) ↔ evicted ∨ finished = false) ∧
        (g.pollNextFrame index).1 = g.pollGetFrame index) ∧
    ∀ calls : List (GroupCall β),
      let h := GroupHistory.run len calls
      (∀ n, h.group.pollFinished = .ready (.ok n) → n = h.appended.length) ↔
        ¬ (h.group.abort.isSome ∧ h.group.cached.fin = true ∧ h.appended ≠ []) := by
  refine ⟨fun before after e r hopen => ?_, fun before after e index hopen => ?_,
    fun calls => (GroupHistory.counted_run calls).pollFinished_iff⟩
  · intro s finished
    have htrack := Track.track_of_abort before after e hopen
    have hnil : s.groups = [] := congrArg Track.State.groups htrack
    have habort : s.abort = some e := congrArg Track.State.abort htrack
    have hfinal : s.finalSequence.isSome = finished := by rw [show s = _ from htrack]
    rw [r.pollRecvGroup_of_abort hnil habort, r.pollNextGroup_of_abort hnil habort, hfinal]
    cases finished <;> simp
  · intro g finished evicted
    have hpoll := GroupHistory.pollGetFrame_of_abort before after e hopen index
    refine ⟨?_, ?_, g.pollNextFrame_fst index⟩
    · rw [hpoll]
      by_cases hevicted : evicted
      · rw [if_pos hevicted]
        constructor
        · intro heq
          cases heq
          exact .inr ⟨hevicted, rfl⟩
        · rintro (⟨hnot, -⟩ | ⟨-, rfl⟩)
          · exact absurd hevicted hnot
          · rfl
      · rw [if_neg hevicted]
        change Poll.ready (if finished then _ else _) = _ ↔ _
        cases finished <;> simp [hevicted]
    · rw [hpoll]
      by_cases hevicted : evicted
      · rw [if_pos hevicted]
        simp [hevicted]
      · rw [if_neg hevicted]
        change Poll.ready (if finished then _ else _) ≠ _ ↔ _
        cases finished <;> simp [hevicted]

/-- A track and a group that are aborted while they are open. -/
theorem abort_observable_iff_open :
    (({} : Track.Receiver).pollRecvGroup
        (Track.History.run [.createGroup 0, .abort (.app 7)]).track).1 =
          .ready (.error (.app 7)) ∧
      (GroupHistory.run id [.createFrame 5, .abort (.app 7)]).group.pollGetFrame 0 =
        .ready (.error (.app 7)) :=
  ⟨((abort_observable_iff (id : ℕ → ℕ)).1 [.createGroup 0] [] (.app 7) {} rfl).1.mpr rfl,
    ((abort_observable_iff id).2.1 [.createFrame 5] [] (.app 7) 0 rfl).1.mpr
      (.inl ⟨by decide, rfl⟩)⟩

/-- A track with a group, and a group with a frame, that are finished and then aborted: a consumer
that received nothing gets the end, and the group reports that it had no frames. -/
theorem finished_then_aborted :
    ((({} : Track.Receiver).pollRecvGroup
        (Track.History.run [.createGroup 0, .finish, .abort (.app 7)]).track).1 =
          .ready (.ok none)) ∧
      (GroupHistory.run id [.createFrame 5, .finish, .abort (.app 7)]).group.pollGetFrame 0 =
        .ready (.ok none) ∧
      (GroupHistory.run id [.createFrame 5, .finish, .abort (.app 7)]).group.pollFinished =
        .ready (.ok 0) ∧
      (GroupHistory.run id [.createFrame 5, .finish, .abort (.app 7)]).appended = [5] := by
  decide

end HermitMoq
