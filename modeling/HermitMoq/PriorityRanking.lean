import HermitMoq.PriorityInvariant
import Mathlib.Data.Set.Function
import Mathlib.Order.Interval.Set.Defs

/-!
# What the Handles Report

Whatever is inserted, changed and dropped, the queue does not panic, and the handles report a
ranking: the first 255 report different positions from 0 on without a gap, all others report
255, and a handle of strictly higher priority reports a smaller number than one of lower
priority, unless both report 255.
-/

namespace HermitMoq

open List

/-- A rank comes first exactly if the track is higher, or is the same and the group is higher. -/
theorem Priority.rank_lt_iff {a b : Priority} :
    a.rank < b.rank ↔ b.track < a.track ∨ b.track = a.track ∧ b.group < a.group := by
  rw [Priority.rank, Priority.rank, OrderDual.toDual_lt_toDual, Prod.Lex.toLex_lt_toLex,
    UInt8.lt_iff_toNat_lt, ← UInt8.toNat_inj]

namespace PriorityState

variable {c : Collections} {s : PriorityState c} {items : List PriorityItem} {item : PriorityItem}

theorem Holds.place_of_mem (h : Holds 0 s items) (hmem : item ∈ items) :
    (∃ idx : ℕ, s.vec[idx]? = some item) ∨ item ∈ c.heap.toList s.overflow := by
  rcases mem_append.mp (h.perm.symm.subset hmem) with hin | hin
  · exact Or.inl (mem_iff_getElem?.mp hin)
  · exact Or.inr hin

/-- A new item. -/
theorem Holds.insert (h : Holds 0 s items) (hfresh : ∀ x ∈ items, x.id < s.nextId)
    (priority : Priority) :
    ∃ s', s.insert priority = .ok (s.nextId, s') ∧ Holds 0 s' (⟨s.nextId, priority⟩ :: items) ∧
      s'.nextId = s.nextId + 1 := by
  have hid : s.nextId ∉ items.map (·.id) := fun hin => by
    obtain ⟨x, hx, hid⟩ := mem_map.mp hin
    exact absurd hid (hfresh x hx).ne
  have hout : (⟨s.nextId, priority⟩ : PriorityItem).id ∉
      (s.vec ++ c.heap.toList s.overflow).map (·.id) :=
    fun hin => hid ((h.perm.map _).subset hin)
  have hloc := h.located.update hout (some Place.overflow.entry)
  have hregistered : Holds 0 ({ s with
      nextId := s.nextId + 1
      indexes := Function.update s.indexes s.nextId (some Place.overflow.entry) }
        : PriorityState c) items :=
    ⟨h.perm, h.nodup, h.arranged, hloc⟩
  have hnodup : (((⟨s.nextId, priority⟩ : PriorityItem) :: items).map (·.id)).Nodup :=
    List.nodup_cons.mpr ⟨hid, h.nodup⟩
  obtain ⟨s', hok, hs', hnext⟩ := (hregistered.mono (Nat.zero_le 1)).place hnodup
    (by simp only [Function.update_self, Option.isSome_some])
  refine ⟨s', ?_, hs', hnext⟩
  simp only [PriorityState.insert, hok]
  rfl

/-- An item with another priority. -/
theorem Holds.setPriority (h : Holds 0 s items) (hmem : item ∈ items) (priority : Priority) :
    ∃ s', s.setPriority item.id priority = .ok s' ∧
      Holds 0 s' (⟨item.id, priority⟩ :: items.erase item) ∧ s'.nextId = s.nextId := by
  obtain ⟨s₁, hok, hs₁, hsome, hnext⟩ : ∃ s₁, s.extract item.id = .ok (item, s₁) ∧
      Holds 1 s₁ (items.erase item) ∧ (s₁.indexes item.id).isSome ∧ s₁.nextId = s.nextId := by
    rcases h.place_of_mem hmem with ⟨_, hidx⟩ | hover
    · obtain ⟨s₁, hok, hs₁, hsome, -, hnext⟩ := h.extract_vec hidx
      exact ⟨s₁, hok, hs₁, hsome, hnext⟩
    · obtain ⟨s₁, hok, hs₁, hsome, hnext⟩ := h.extract_overflow hover
      exact ⟨s₁, hok, hs₁.mono (Nat.zero_le 1), hsome, hnext⟩
  have hnodup :
      ((⟨item.id, priority⟩ :: items.erase item : List PriorityItem).map (·.id)).Nodup := by
    have hperm := ((perm_cons_erase hmem).map (·.id)).nodup_iff.mp h.nodup
    simpa using hperm
  obtain ⟨s', hplace, hs', hnext'⟩ := hs₁.place hnodup hsome
  exact ⟨s', by rw [PriorityState.setPriority, hok]; exact hplace, hs', hnext'.trans hnext⟩

/-- The first item of the heap takes the room in the vector. -/
theorem Holds.backfill (h : Holds 1 s items) (hroom : s.vec.length < maxVecSize) :
    ∃ s', s.backfill = .ok s' ∧ Holds 0 s' items ∧ s'.nextId = s.nextId := by
  cases hpop : c.heap.pop s.overflow with
  | none =>
    have hempty := c.heap.peek_none (c.heap.pop_none hpop)
    refine ⟨s, by rw [PriorityState.backfill, hpop], ⟨h.perm, h.nodup, ⟨h.arranged.sorted,
      h.arranged.split, h.arranged.bound, fun hne => absurd hempty hne⟩, h.located⟩, rfl⟩
  | some r =>
    obtain ⟨first, overflow⟩ := r
    have hover := c.heap.toList_pop hpop
    have hmem : first ∈ c.heap.toList s.overflow := hover.symm.subset mem_cons_self
    have hsub : ∀ {y}, y ∈ c.heap.toList overflow → y ∈ c.heap.toList s.overflow := fun hy =>
      hover.symm.subset (mem_cons_of_mem _ hy)
    have hall : (s.vec ++ first :: c.heap.toList overflow).Perm items :=
      (hover.symm.append_left s.vec).trans h.perm
    have hid : first.id ∉ (s.vec ++ c.heap.toList overflow).map (·.id) := by
      have hnd := ((perm_middle.symm.trans hall).map (·.id)).nodup_iff.mpr h.nodup
      exact (List.nodup_cons.mp hnd).1
    have hlocated : Located s.vec (c.heap.toList overflow) s.indexes :=
      ⟨h.located.inVec, fun hy => h.located.inOverflow (hsub hy)⟩
    refine ⟨{ s with
        vec := s.vec ++ [first], overflow
        indexes := Function.update s.indexes first.id (some (Place.vec s.vec.length).entry) },
      ?_, ⟨?_, h.nodup, ⟨h.arranged.sorted.append_singleton fun x hx =>
        h.arranged.split x hx first hmem, ?_, ?_, ?_⟩, hlocated.append_singleton hid⟩, rfl⟩
    · simp only [PriorityState.backfill, hpop, length_append, length_singleton,
        Nat.add_sub_cancel,
        updateLocation_eq (h.located.isSome (mem_append_right _ hmem))]
      rfl
    · show (s.vec ++ [first] ++ c.heap.toList overflow).Perm items
      rwa [append_assoc]
    · intro x hx y hy
      rcases mem_append.mp hx with hx | hx
      · exact h.arranged.split x hx y (hsub hy)
      · rw [mem_singleton.mp hx]
        exact c.heap.peek_le (c.heap.pop_peek hpop) y (hsub hy)
    · show (s.vec ++ [first]).length ≤ _
      rw [length_append]
      exact hroom
    · intro _
      have hfull := h.arranged.full (ne_nil_of_mem hmem)
      show _ ≤ (s.vec ++ [first]).length + 0
      rwa [length_append]

/-- An item is removed. -/
theorem Holds.remove (h : Holds 0 s items) (hmem : item ∈ items) :
    ∃ s', s.remove item.id = .ok s' ∧ Holds 0 s' (items.erase item) ∧ s'.nextId = s.nextId := by
  have hid : item.id ∉ (items.erase item).map (·.id) :=
    (List.nodup_cons.mp (((perm_cons_erase hmem).map (·.id)).nodup_iff.mp h.nodup)).1
  have hforget : ∀ {room s₁}, Holds room s₁ (items.erase item) → Holds room ({ s₁ with
      indexes := Function.update s₁.indexes item.id none } : PriorityState c) (items.erase item) :=
    fun hs₁ => ⟨hs₁.perm, hs₁.nodup, hs₁.arranged, hs₁.located.update
      (fun hin => hid ((hs₁.perm.map _).subset hin)) none⟩
  rcases h.place_of_mem hmem with ⟨_, hidx⟩ | hover
  · obtain ⟨s₁, hok, hs₁, -, hroom, hnext⟩ := h.extract_vec hidx
    obtain ⟨s', hfill, hs', hnext'⟩ := (hforget hs₁).backfill hroom
    have hin : s.isInVec item.id = true := by rw [isInVec, h.located.inVec hidx]; rfl
    exact ⟨s', by rw [PriorityState.remove, hok, hin]; exact hfill, hs', hnext'.trans hnext⟩
  · obtain ⟨_, hok, hs₁, -, hnext⟩ := h.extract_overflow hover
    have hin : s.isInVec item.id = false := by rw [isInVec, h.located.inOverflow hover]; rfl
    exact ⟨_, by rw [PriorityState.remove, hok, hin]; rfl, hforget hs₁, hnext⟩

end PriorityState

namespace PriorityQueue

variable {c : Collections} {q : PriorityQueue c}

/-- The queue holds exactly the live handles, and no id is used twice. -/
structure Invariant (q : PriorityQueue c) : Prop where
  holds : PriorityState.Holds 0 q.state q.handles
  fresh : ∀ x ∈ q.handles, x.id < q.state.nextId

/-- A new queue holds nothing. -/
theorem invariant_new (c : Collections) : (new c).Invariant where
  holds := by
    refine ⟨?_, nodup_nil, ⟨Pairwise.nil, ?_, Nat.zero_le _, ?_⟩, ?_, ?_⟩
    · show ([] ++ c.heap.toList c.heap.empty).Perm []
      rw [c.heap.toList_empty]
      exact Perm.refl _
    · exact nofun
    · exact fun hne => absurd c.heap.toList_empty hne
    · exact nofun
    · intro y hy
      change y ∈ c.heap.toList c.heap.empty at hy
      rw [c.heap.toList_empty] at hy
      cases hy
  fresh := nofun

/-- The number that a handle reports. -/
def report (q : PriorityQueue c) (id : ℕ) : ℕ := ((q.current id).getD 255).toNat

theorem toNat_report_vec {i : ℕ} (h : i < maxVecSize) : (Place.vec i).report.toNat = i := by
  have hlt : i < 2 ^ 8 := h.trans (by decide)
  rw [Place.report, if_pos hlt, UInt8.toNat_ofNat']
  exact Nat.mod_eq_of_lt hlt

section

variable (h : q.Invariant) {x : PriorityItem}

include h

/-- A live handle is the one that its id finds. -/
theorem Invariant.find?_handle (hx : x ∈ q.handles) : q.handles.find? (·.id = x.id) = some x := by
  cases hfind : q.handles.find? (·.id = x.id) with
  | none => exact absurd (decide_eq_true rfl) (find?_eq_none.mp hfind x hx)
  | some y =>
    have hid : y.id = x.id := by simpa using find?_some hfind
    rw [inj_on_of_nodup_map h.holds.nodup (mem_of_find?_eq_some hfind) hx hid]

/-- `insert` adds a handle. -/
theorem Invariant.insert (priority : Priority) :
    ∃ q', q.step (.insert priority) = .ok q' ∧ q'.Invariant ∧
      q'.handles = ⟨q.state.nextId, priority⟩ :: q.handles := by
  obtain ⟨state, hok, hs, hnext⟩ := h.holds.insert h.fresh priority
  refine ⟨_, by rw [PriorityQueue.step, hok]; rfl, ⟨hs, fun x hx => ?_⟩, rfl⟩
  show x.id < state.nextId
  rcases mem_cons.mp hx with rfl | hx
  · rw [hnext]
    exact Nat.lt_succ_self _
  · have := h.fresh x hx
    omega

/-- `set_track` changes the track of its handle and no other handle. -/
theorem Invariant.setTrack (hx : x ∈ q.handles) (track : UInt8) :
    ∃ q', q.step (.setTrack x.id track) = .ok q' ∧ q'.Invariant ∧
      q'.handles.Perm (⟨x.id, { x.priority with track }⟩ :: q.handles.erase x) := by
  have hfind := h.find?_handle hx
  by_cases hsame : x.priority.track = track
  · subst hsame
    exact ⟨q, by simp only [PriorityQueue.step, hfind, if_pos], h, perm_cons_erase hx⟩
  · obtain ⟨state, hok, hs, hnext⟩ := h.holds.setPriority hx { x.priority with track }
    refine ⟨_, by simp only [PriorityQueue.step, hfind, if_neg hsame, hok]; rfl,
      ⟨hs, fun y hy => ?_⟩, Perm.refl _⟩
    show y.id < state.nextId
    rw [hnext]
    rcases mem_cons.mp hy with rfl | hy
    · exact h.fresh x hx
    · exact h.fresh y (mem_of_mem_erase hy)

/-- Dropping a handle removes it and no other. -/
theorem Invariant.drop (hx : x ∈ q.handles) :
    ∃ q', q.step (.drop x.id) = .ok q' ∧ q'.Invariant ∧ q'.handles = q.handles.erase x := by
  obtain ⟨state, hok, hs, hnext⟩ := h.holds.remove hx
  refine ⟨_, by simp only [PriorityQueue.step, h.find?_handle hx, hok]; rfl,
    ⟨hs, fun y hy => ?_⟩, rfl⟩
  show y.id < state.nextId
  rw [hnext]
  exact h.fresh y (mem_of_mem_erase hy)

/-- Every operation succeeds and keeps the invariant. -/
theorem Invariant.step (op : PriorityOp) : ∃ q', q.step op = .ok q' ∧ q'.Invariant := by
  cases op with
  | insert priority =>
    obtain ⟨q', hok, h', -⟩ := h.insert priority
    exact ⟨q', hok, h'⟩
  | setTrack id track =>
    cases hfind : q.handles.find? (·.id = id) with
    | none => exact ⟨q, by rw [PriorityQueue.step, hfind], h⟩
    | some handle =>
      obtain rfl : handle.id = id := by simpa using find?_some hfind
      obtain ⟨q', hok, h', -⟩ := h.setTrack (mem_of_find?_eq_some hfind) track
      exact ⟨q', hok, h'⟩
  | drop id =>
    cases hfind : q.handles.find? (·.id = id) with
    | none => exact ⟨q, by rw [PriorityQueue.step, hfind], h⟩
    | some handle =>
      obtain rfl : handle.id = id := by simpa using find?_some hfind
      obtain ⟨q', hok, h', -⟩ := h.drop (mem_of_find?_eq_some hfind)
      exact ⟨q', hok, h'⟩

theorem Invariant.report_vec {i : ℕ} (hi : q.state.vec[i]? = some x) : q.report x.id = i := by
  rw [report, current, h.holds.located.inVec hi]
  exact toNat_report_vec ((List.getElem?_eq_some_iff.mp hi).1.trans_le h.holds.arranged.bound)

theorem Invariant.report_overflow
    (hx : x ∈ c.heap.toList q.state.overflow) : q.report x.id = 255 := by
  rw [report, current, h.holds.located.inOverflow hx]
  rfl

/-- The vector holds as many items as it can. -/
theorem Invariant.length_vec :
    q.state.vec.length = min q.handles.length maxVecSize := by
  have hlen := h.holds.perm.length_eq
  have hbound := h.holds.arranged.bound
  rw [length_append] at hlen
  by_cases hempty : c.heap.toList q.state.overflow = []
  · rw [hempty, length_nil] at hlen
    omega
  · have hfull := h.holds.arranged.full hempty
    omega

/-- The handles that do not report 255 report the positions from 0 on, each once. -/
theorem Invariant.bijOn_report :
    Set.BijOn (fun x => q.report x.id) {x | x ∈ q.handles ∧ q.report x.id ≠ 255}
      (Set.Iio (min q.handles.length maxVecSize)) := by
  have hvec : ∀ {x}, x ∈ q.handles ∧ q.report x.id ≠ 255 →
      q.state.vec[q.report x.id]? = some x := by
    rintro x ⟨hx, hne⟩
    rcases h.holds.place_of_mem hx with ⟨i, hi⟩ | hover
    · rwa [h.report_vec hi]
    · exact absurd (h.report_overflow hover) hne
  rw [← h.length_vec]
  refine ⟨fun x hx => ?_, fun x hx y hy hxy => ?_, fun i hi => ?_⟩
  · exact (List.getElem?_eq_some_iff.mp (hvec hx)).1
  · exact Option.some.inj ((hvec hx).symm.trans ((congrArg (q.state.vec[·]?) hxy).trans (hvec hy)))
  · have hget := getElem?_eq_getElem (Set.mem_Iio.mp hi)
    refine ⟨_, ⟨h.holds.perm.subset (mem_append_left _ (mem_of_getElem? hget)), ?_⟩,
      h.report_vec hget⟩
    rw [h.report_vec hget]
    have hlt : i < maxVecSize := (Set.mem_Iio.mp hi).trans_le h.holds.arranged.bound
    exact hlt.ne

/-- Of two handles the one of higher priority reports the smaller number, or both report 255. -/
theorem Invariant.report_lt {a b : PriorityItem} (ha : a ∈ q.handles)
    (hb : b ∈ q.handles) (hlt : a.rank < b.rank) :
    q.report a.id < q.report b.id ∨ q.report a.id = 255 ∧ q.report b.id = 255 := by
  rcases h.holds.place_of_mem ha with ⟨i, hi⟩ | hover
  · rcases h.holds.place_of_mem hb with ⟨j, hj⟩ | hover'
    · rw [h.report_vec hi, h.report_vec hj]
      left
      by_contra hle
      rcases (Nat.not_lt.mp hle).lt_or_eq with hji | rfl
      · obtain ⟨hilt, rfl⟩ := List.getElem?_eq_some_iff.mp hi
        obtain ⟨hjlt, rfl⟩ := List.getElem?_eq_some_iff.mp hj
        have hsorted := pairwise_iff_getElem.mp h.holds.arranged.sorted j i hjlt hilt hji
        exact absurd hlt (not_lt.mpr hsorted)
      · rw [Option.some.inj (hi.symm.trans hj)] at hlt
        exact absurd hlt (lt_irrefl _)
    · rw [h.report_vec hi, h.report_overflow hover']
      exact Or.inl ((List.getElem?_eq_some_iff.mp hi).1.trans_le h.holds.arranged.bound)
  · rcases h.holds.place_of_mem hb with ⟨_, hj⟩ | hover'
    · have hsplit := h.holds.arranged.split b (mem_of_getElem? hj) a hover
      exact absurd hlt (not_lt.mpr hsplit)
    · exact Or.inr ⟨h.report_overflow hover, h.report_overflow hover'⟩

end

/-- **The handles are ranked**: after any operations, none of which panics, every live handle has a
value. Those other than 255 are a bijection onto the first positions, as many as there are handles
up to 255, and a higher priority has a smaller value unless both are 255. The live handles are those
inserted and not yet dropped, each with the track last set. -/
theorem handles_are_ranked (c : Collections) (ops : List PriorityOp) :
    ∃ q, run step (new c) ops = .ok q ∧ (∀ x ∈ q.handles, (q.current x.id).isSome) ∧
      (q.handles.map (·.id)).Nodup ∧
      Set.BijOn (fun x => q.report x.id) {x | x ∈ q.handles ∧ q.report x.id ≠ 255}
        (Set.Iio (min q.handles.length 255)) ∧
      (∀ a ∈ q.handles, ∀ b ∈ q.handles,
        b.priority.track < a.priority.track ∨
          b.priority.track = a.priority.track ∧ b.priority.group < a.priority.group →
        q.report a.id < q.report b.id ∨ q.report a.id = 255 ∧ q.report b.id = 255) ∧
      (∀ priority, ∃ q', q.step (.insert priority) = .ok q' ∧
        q'.handles = ⟨q.state.nextId, priority⟩ :: q.handles) ∧
      (∀ x ∈ q.handles, ∀ track, ∃ q', q.step (.setTrack x.id track) = .ok q' ∧
        q'.handles.Perm (⟨x.id, { x.priority with track }⟩ :: q.handles.erase x)) ∧
      ∀ x ∈ q.handles, ∃ q', q.step (.drop x.id) = .ok q' ∧ q'.handles = q.handles.erase x := by
  obtain ⟨q, hok, h⟩ := run_invariant (fun op h => Invariant.step h op) (invariant_new c) ops
  refine ⟨q, hok, fun x hx => ?_, h.holds.nodup, h.bijOn_report, fun a ha b hb hlt => ?_,
    fun priority => ?_, fun x hx track => ?_, fun x hx => ?_⟩
  · rw [current, Option.isSome_map]
    exact h.holds.located.isSome (h.holds.perm.symm.subset hx)
  · exact h.report_lt ha hb (Priority.rank_lt_iff.mpr hlt)
  · obtain ⟨q', hstep, -, hq'⟩ := h.insert priority
    exact ⟨q', hstep, hq'⟩
  · obtain ⟨q', hstep, -, hq'⟩ := h.setTrack hx track
    exact ⟨q', hstep, hq'⟩
  · obtain ⟨q', hstep, -, hq'⟩ := h.drop hx
    exact ⟨q', hstep, hq'⟩

/-- Three streams, of which the first is raised over the second, and the second is dropped. -/
def reranked : List PriorityOp :=
  [.insert ⟨7, 1⟩, .insert ⟨9, 0⟩, .insert ⟨7, 2⟩, .setTrack 0 10, .drop 1]

/-- The raised stream comes first and the other one moves up. -/
theorem handles_are_ranked_reranked :
    ∃ q, run step (new ⟨.linear _, .sorted _⟩) reranked = .ok q ∧
      q.handles = [⟨0, 10, 1⟩, ⟨2, 7, 2⟩] ∧
      Set.BijOn (fun x => q.report x.id) {x | x ∈ q.handles ∧ q.report x.id ≠ 255} (Set.Iio 2) ∧
      (q.report 0 < q.report 2 ∨ q.report 0 = 255 ∧ q.report 2 = 255) := by
  obtain ⟨q, hok, -, -, hbij, hlt, -⟩ := handles_are_ranked ⟨.linear _, .sorted _⟩ reranked
  have hhandles : q.handles = [⟨0, 10, 1⟩, ⟨2, 7, 2⟩] := by
    have hrun : (run step (new ⟨.linear _, .sorted _⟩) reranked).toOption.map (·.handles) =
      some [⟨0, 10, 1⟩, ⟨2, 7, 2⟩] := by decide
    rw [hok] at hrun
    exact Option.some.inj hrun
  rw [hhandles] at hlt
  exact ⟨q, hok, hhandles, by rwa [show min q.handles.length 255 = 2 by rw [hhandles]; rfl] at hbij,
    hlt ⟨0, 10, 1⟩ (by decide) ⟨2, 7, 2⟩ (by decide) (Or.inl (by decide))⟩

end PriorityQueue

end HermitMoq
