import HermitMoq.Priority
import Mathlib.Data.List.Nodup

/-!
# The Invariant of the Priority Queue

The vector is sorted, nothing in the heap comes before anything in the vector, and the heap is
empty unless the vector is full. Between taking an item out of the vector and putting one in,
there is room for one more: `Arranged` counts it. The map agrees with where the items are.
-/

namespace HermitMoq

open List Function

namespace PriorityState

variable {c : Collections}

/-- The items of the vector and of the heap are where they should be, up to `room` places in
the vector. -/
structure Arranged (room : ℕ) (vec rest : List PriorityItem) : Prop where
  sorted : Ranked PriorityItem.rank vec
  split : ∀ x ∈ vec, ∀ y ∈ rest, x.rank ≤ y.rank
  bound : vec.length ≤ maxVecSize
  full : rest ≠ [] → maxVecSize ≤ vec.length + room

/-- The map tells where the items are. -/
structure Located (vec rest : List PriorityItem) (indexes : Indexes) : Prop where
  inVec : ∀ {i x}, vec[i]? = some x → indexes x.id = some (Place.vec i).entry
  inOverflow : ∀ {y}, y ∈ rest → indexes y.id = some Place.overflow.entry

/-- The queue holds the items, and keeps its invariant up to `room` places in the vector. -/
structure Holds (room : ℕ) (s : PriorityState c) (items : List PriorityItem) : Prop where
  perm : (s.vec ++ c.heap.toList s.overflow).Perm items
  nodup : (items.map (·.id)).Nodup
  arranged : Arranged room s.vec (c.heap.toList s.overflow)
  located : Located s.vec (c.heap.toList s.overflow) s.indexes

variable {room : ℕ} {vec rest rest' : List PriorityItem} {indexes : Indexes}
  {item : PriorityItem} {items : List PriorityItem} {s : PriorityState c}

/-! ### Rearranging the heap -/

theorem Located.perm_rest (h : Located vec rest indexes) (hperm : rest'.Perm rest) :
    Located vec rest' indexes where
  inVec := h.inVec
  inOverflow := fun hy => h.inOverflow (hperm.subset hy)

variable {x : PriorityItem}

theorem Located.isSome (h : Located vec rest indexes) (hx : x ∈ vec ++ rest) :
    (indexes x.id).isSome := by
  rcases mem_append.mp hx with hx | hx
  · obtain ⟨_, hi⟩ := mem_iff_getElem?.mp hx
    rw [h.inVec hi]
    rfl
  · rw [h.inOverflow hx]
    rfl

/-- Ids tell items apart. -/
theorem eq_of_id_eq (hnodup : (items.map (·.id)).Nodup) {y : PriorityItem} (hx : x ∈ items)
    (hy : y ∈ items) (hid : x.id = y.id) : x = y :=
  inj_on_of_nodup_map hnodup hx hy hid

/-! ### Updating the map -/

theorem updateLocation_eq {id : ℕ} (h : (indexes id).isSome) (p : Place) :
    updateLocation indexes id p = .ok (Function.update indexes id (some p.entry)) := by
  obtain ⟨_, he⟩ := Option.isSome_iff_exists.mp h
  rw [updateLocation, he]

theorem isSome_update {id id' : ℕ} (h : (indexes id').isSome) (e : PriorityEntry) :
    (Function.update indexes id (some e) id').isSome := by
  rcases eq_or_ne id' id with rfl | hne
  · rw [update_self]
    rfl
  · rwa [update_of_ne hne]

/-- The items of a list are given their places, one after another. -/
theorem updateIndices_spec (hnodup : (items.map (·.id)).Nodup) (idx : ℕ)
    (hsome : ∀ x ∈ items, (indexes x.id).isSome) :
    ∃ indexes', updateIndices indexes idx items = .ok indexes' ∧
      (∀ i x, items[i]? = some x → indexes' x.id = some (Place.vec (idx + i)).entry) ∧
      ∀ id ∉ items.map (·.id), indexes' id = indexes id := by
  induction items generalizing indexes idx with
  | nil => exact ⟨indexes, rfl, fun i x h => by simp at h, fun _ _ => rfl⟩
  | cons y items ih =>
    obtain ⟨hy, hnodup⟩ := nodup_cons.mp hnodup
    obtain ⟨indexes', hok, hplaces, hframe⟩ := ih hnodup (idx + 1)
      fun x hx => isSome_update (hsome x (mem_cons_of_mem y hx)) (Place.vec idx).entry
    refine ⟨indexes', ?_, fun i x hi => ?_, fun id hid => ?_⟩
    · rw [updateIndices, updateLocation_eq (hsome y mem_cons_self)]
      exact hok
    · cases i with
      | zero =>
        obtain rfl : y = x := by simpa using hi
        rw [hframe _ hy, update_self]
        rfl
      | succ i =>
        rw [hplaces i x (by simpa using hi)]
        congr 3
        omega
    · rw [map_cons, mem_cons, not_or] at hid
      rw [hframe id hid.2, update_of_ne hid.1]

/-- If the map is right up to `start`, it is right once the rest has been updated. -/
theorem updateIndicesFrom_spec (s : PriorityState c) (rest : List PriorityItem) (start : ℕ)
    (hnodup : ((s.vec ++ rest).map (·.id)).Nodup)
    (hbefore : ∀ {i x}, i < start → s.vec[i]? = some x →
      s.indexes x.id = some (Place.vec i).entry)
    (hover : ∀ y ∈ rest, s.indexes y.id = some Place.overflow.entry)
    (hsome : ∀ x ∈ s.vec.drop start, (s.indexes x.id).isSome) :
    ∃ indexes, s.updateIndicesFrom start = .ok { s with indexes } ∧
      Located s.vec rest indexes ∧ ∀ id, (s.indexes id).isSome → (indexes id).isSome := by
  have hmem : ∀ {x}, x ∈ s.vec.drop start → x ∈ s.vec ++ rest := fun hx =>
    mem_append_left _ (mem_of_mem_drop hx)
  obtain ⟨indexes, hok, hplaces, hframe⟩ := updateIndices_spec
    (hnodup.sublist
      (((drop_sublist start s.vec).trans (sublist_append_left _ rest)).map _))
    start hsome
  refine ⟨indexes, by rw [updateIndicesFrom, hok]; rfl, ⟨fun {i x} hi => ?_, fun {y} hy => ?_⟩,
    fun id hid => ?_⟩
  · by_cases hlt : i < start
    · rw [hframe, hbefore hlt hi]
      -- an item before `start` is not updated again, as no id appears twice
      rw [mem_map]
      rintro ⟨z, hz, hid⟩
      obtain rfl := eq_of_id_eq hnodup (hmem hz) (mem_append_left _ (mem_of_getElem? hi))
        hid
      obtain ⟨_, hj⟩ := mem_iff_getElem?.mp hz
      rw [getElem?_drop] at hj
      have hvec : s.vec.Nodup :=
        (List.Nodup.of_map _ hnodup).sublist (sublist_append_left _ rest)
      have := (List.getElem?_inj (List.getElem?_eq_some_iff.mp hi).1 hvec).mp (hi.trans hj.symm)
      omega
    · have hdrop : (s.vec.drop start)[i - start]? = some x := by
        rw [getElem?_drop, Nat.add_sub_cancel' (Nat.not_lt.mp hlt), hi]
      rw [hplaces _ x hdrop, Nat.add_sub_cancel' (Nat.not_lt.mp hlt)]
  · rw [hframe, hover y hy]
    rw [mem_map]
    rintro ⟨_, hz, hid⟩
    obtain rfl := eq_of_id_eq hnodup (hmem hz) (mem_append_right _ hy) hid
    exact disjoint_of_nodup_append (List.Nodup.of_map _ hnodup) (mem_of_mem_drop hz) hy
  · by_cases hin : id ∈ (s.vec.drop start).map (·.id)
    · obtain ⟨x, hx, rfl⟩ := mem_map.mp hin
      obtain ⟨i, hi⟩ := mem_iff_getElem?.mp hx
      rw [hplaces i x hi]
      rfl
    · rwa [hframe id hin]

/-! ### Into the vector and the heap -/

theorem Located.update (h : Located vec rest indexes) (hid : item.id ∉ (vec ++ rest).map (·.id))
    (e : Option PriorityEntry) : Located vec rest (Function.update indexes item.id e) := by
  have hne : ∀ {x}, x ∈ vec ++ rest → x.id ≠ item.id := fun hx heq =>
    hid (heq ▸ mem_map_of_mem hx)
  refine ⟨fun hi => ?_, fun hy => ?_⟩
  · rw [update_of_ne (hne (mem_append_left _ (mem_of_getElem? hi))), h.inVec hi]
  · rw [update_of_ne (hne (mem_append_right _ hy)), h.inOverflow hy]

/-- An item is added to the end of the vector. -/
theorem Located.append_singleton (h : Located vec rest indexes)
    (hid : item.id ∉ (vec ++ rest).map (·.id)) :
    Located (vec ++ [item]) rest
      (Function.update indexes item.id (some (Place.vec vec.length).entry)) := by
  have hupd := h.update hid (some (Place.vec vec.length).entry)
  refine ⟨fun {i x} hi => ?_, hupd.inOverflow⟩
  rcases Nat.lt_or_ge i vec.length with hlt | hge
  · rw [getElem?_append_left hlt] at hi
    exact hupd.inVec hi
  · rw [getElem?_append_right hge, getElem?_singleton] at hi
    split_ifs at hi with hzero
    obtain rfl : item = x := Option.some.inj hi
    obtain rfl : i = vec.length := by omega
    exact update_self _ _ _

/-- An item is added to the heap. -/
theorem pushOverflow_spec (hloc : Located s.vec (c.heap.toList s.overflow) s.indexes)
    (hid : item.id ∉ (s.vec ++ c.heap.toList s.overflow).map (·.id))
    (hsome : (s.indexes item.id).isSome) :
    ∃ indexes, s.pushOverflow item =
        .ok { s with overflow := c.heap.push s.overflow item, indexes } ∧
      Located s.vec (c.heap.toList (c.heap.push s.overflow item)) indexes ∧
      ∀ id, (s.indexes id).isSome → (indexes id).isSome := by
  have hupd := hloc.update hid (some Place.overflow.entry)
  refine ⟨_, by rw [pushOverflow, updateLocation_eq hsome]; rfl,
    Located.perm_rest ⟨hupd.inVec, fun {y} hy => ?_⟩ (c.heap.toList_push _ _),
    fun id h => isSome_update h _⟩
  rcases mem_cons.mp hy with rfl | hy
  · exact update_self _ _ _
  · exact hupd.inOverflow hy

/-- An item is added to the vector, which stays sorted. -/
theorem insertSorted_spec (hsorted : Ranked PriorityItem.rank s.vec)
    (hloc : Located s.vec rest s.indexes) (hnodup : ((item :: (s.vec ++ rest)).map (·.id)).Nodup)
    (hsome : (s.indexes item.id).isSome) :
    ∃ vec indexes, s.insertSorted item = .ok { s with vec, indexes } ∧ vec.Perm (item :: s.vec) ∧
      Ranked PriorityItem.rank vec ∧ Located vec rest indexes := by
  obtain ⟨pos, hpos⟩ : ∃ pos, c.search.pos s.vec item = pos := ⟨_, rfl⟩
  have hle : pos ≤ s.vec.length := hpos ▸ c.search.pos_le hsorted
  have hlen : (s.vec.take pos).length = pos := length_take_of_le hle
  have hranked := hsorted.insert c.search item
  rw [hpos] at hranked
  have hperm : (s.vec.take pos ++ item :: s.vec.drop pos).Perm (item :: s.vec) := by
    refine perm_middle.trans (List.Perm.of_eq ?_)
    rw [take_append_drop]
  have hupd := hloc.update (nodup_cons.mp hnodup).1 (some (Place.vec pos).entry)
  -- up to the new item, the vector is as before
  have hbefore : ∀ {i x}, i < pos + 1 →
      (s.vec.take pos ++ item :: s.vec.drop pos)[i]? = some x →
      Function.update s.indexes item.id (some (Place.vec pos).entry) x.id =
        some (Place.vec i).entry := by
    intro i x hi hx
    rcases Nat.lt_succ_iff_lt_or_eq.mp hi with hi | rfl
    · rw [getElem?_append_left (by omega), getElem?_take_of_lt hi] at hx
      exact hupd.inVec hx
    · rw [getElem?_append_right (by omega), hlen, Nat.sub_self] at hx
      obtain rfl : item = x := by simpa using hx
      exact update_self _ _ _
  have hafter : ∀ x ∈ (s.vec.take pos ++ item :: s.vec.drop pos).drop (pos + 1),
      (Function.update s.indexes item.id (some (Place.vec pos).entry) x.id).isSome := by
    intro x hx
    rw [drop_append, hlen, drop_of_length_le (by omega), Nat.add_sub_cancel_left,
      nil_append, drop_one, tail_cons] at hx
    exact isSome_update (hloc.isSome (mem_append_left _ (mem_of_mem_drop hx))) _
  obtain ⟨indexes, hok, hlocated, -⟩ := updateIndicesFrom_spec
    { s with
      vec := s.vec.take pos ++ item :: s.vec.drop pos
      indexes := Function.update s.indexes item.id (some (Place.vec pos).entry) }
    rest (pos + 1) ((((hperm.append_right rest).map _).nodup_iff).mpr hnodup) hbefore
    (fun _ hy => hupd.inOverflow hy) hafter
  refine ⟨_, indexes, ?_, hperm, hranked, hlocated⟩
  rw [insertSorted, hpos]
  simp only [if_neg (Nat.not_lt.mpr hle), updateLocation_eq hsome]
  exact hok

theorem Holds.nodup_cons (h : Holds room s items) (hnodup : ((item :: items).map (·.id)).Nodup) :
    ((item :: (s.vec ++ c.heap.toList s.overflow)).map (·.id)).Nodup :=
  (((h.perm.cons item).map _).nodup_iff).mpr hnodup

/-- Placing an item in a vector with room, when nothing in the heap comes before it. -/
theorem Holds.insertSorted (h : Holds 1 s items) (hnodup : ((item :: items).map (·.id)).Nodup)
    (hsome : (s.indexes item.id).isSome) (hroom : s.vec.length < maxVecSize)
    (hfirst : ∀ y ∈ c.heap.toList s.overflow, item.rank ≤ y.rank) :
    ∃ s', s.insertSorted item = .ok s' ∧ Holds 0 s' (item :: items) ∧ s'.nextId = s.nextId := by
  obtain ⟨vec, _, hok, hperm, hsorted, hloc⟩ :=
    insertSorted_spec h.arranged.sorted h.located (h.nodup_cons hnodup) hsome
  have hlen : vec.length = s.vec.length + 1 := hperm.length_eq
  refine ⟨_, hok, ⟨(hperm.append_right _).trans (h.perm.cons item), hnodup, ⟨hsorted, ?_, ?_, ?_⟩,
    hloc⟩, rfl⟩
  · intro x hx y hy
    rcases mem_cons.mp (hperm.subset hx) with rfl | hx
    · exact hfirst y hy
    · exact h.arranged.split x hx y hy
  · show vec.length ≤ _
    omega
  · intro hne
    have hfull := h.arranged.full hne
    show _ ≤ vec.length + 0
    omega

/-- Of two items, the one that comes first is placed in a vector that it fills, and the other in
the heap. -/
theorem holds_exchange {high low : PriorityItem} (hsorted : Ranked PriorityItem.rank s.vec)
    (hloc : Located s.vec (c.heap.toList s.overflow) s.indexes)
    (hperm : (high :: low :: (s.vec ++ c.heap.toList s.overflow)).Perm items)
    (hnodup : (items.map (·.id)).Nodup) (hhigh : (s.indexes high.id).isSome)
    (hlow : (s.indexes low.id).isSome)
    (hsplit : ∀ x ∈ high :: s.vec, ∀ y ∈ low :: c.heap.toList s.overflow, x.rank ≤ y.rank)
    (hlen : s.vec.length + 1 = maxVecSize) :
    ∃ s₁ s', s.pushOverflow low = .ok s₁ ∧ s₁.insertSorted high = .ok s' ∧ Holds 0 s' items ∧
      s'.nextId = s.nextId := by
  have hpush := c.heap.toList_push s.overflow low
  have hids := ((hperm.map (·.id)).nodup_iff).mpr hnodup
  obtain ⟨indexes₁, hok₁, hloc₁, hkeep⟩ :=
    pushOverflow_spec hloc (nodup_cons.mp (nodup_cons.mp hids).2).1 hlow
  have hall : (high :: (s.vec ++ c.heap.toList (c.heap.push s.overflow low))).Perm items :=
    (((hpush.append_left s.vec).trans perm_middle).cons high).trans hperm
  obtain ⟨vec, indexes, hok, hvec, hsorted', hloc'⟩ :=
    insertSorted_spec (s := { s with overflow := c.heap.push s.overflow low, indexes := indexes₁ })
      hsorted hloc₁ (((hall.map _).nodup_iff).mpr hnodup) (hkeep _ hhigh)
  have hlen' : vec.length = s.vec.length + 1 := hvec.length_eq
  refine ⟨_, _, hok₁, hok, ⟨(hvec.append_right _).trans hall, hnodup, ⟨hsorted',
    fun x hx y hy => hsplit x (hvec.subset hx) y (hpush.subset hy), ?_, fun _ => ?_⟩, hloc'⟩, rfl⟩
  · show vec.length ≤ _
    omega
  · show _ ≤ vec.length + 0
    omega

/-- Placing an item that comes after the first of the heap: the two change places. -/
theorem Holds.promote (h : Holds 1 s items) (hnodup : ((item :: items).map (·.id)).Nodup)
    (hsome : (s.indexes item.id).isSome) (hroom : s.vec.length < maxVecSize)
    {promoted : PriorityItem} {overflow : c.heap.Carrier}
    (hpop : c.heap.pop s.overflow = some (promoted, overflow)) (hlt : promoted.rank < item.rank) :
    ∃ s₁ s', pushOverflow { s with overflow } item = .ok s₁ ∧ s₁.insertSorted promoted = .ok s' ∧
      Holds 0 s' (item :: items) ∧ s'.nextId = s.nextId := by
  have hover := c.heap.toList_pop hpop
  have hmem : promoted ∈ c.heap.toList s.overflow := hover.symm.subset mem_cons_self
  have hrest : ∀ {y}, y ∈ c.heap.toList overflow → y ∈ c.heap.toList s.overflow := fun hy =>
    hover.symm.subset (mem_cons_of_mem _ hy)
  have hperm : (promoted :: item :: (s.vec ++ c.heap.toList overflow)).Perm (item :: items) := by
    refine (List.Perm.swap item promoted _).trans (List.Perm.cons item ?_)
    exact (perm_middle.symm.trans (hover.append_left s.vec).symm).trans h.perm
  refine holds_exchange (s := { s with overflow }) h.arranged.sorted
    ⟨h.located.inVec, fun hy => h.located.inOverflow (hrest hy)⟩ hperm hnodup
    (h.located.isSome (mem_append_right _ hmem)) hsome ?_ ?_
  · -- the promoted item separates the vector from the heap
    intro x hx y hy
    have hxle : x.rank ≤ promoted.rank := by
      rcases mem_cons.mp hx with rfl | hx
      · exact le_rfl
      · exact h.arranged.split x hx promoted hmem
    refine hxle.trans ?_
    rcases mem_cons.mp hy with rfl | hy
    · exact hlt.le
    · exact c.heap.peek_le (c.heap.pop_peek hpop) y (hrest hy)
  · have hfull := h.arranged.full (ne_nil_of_mem hmem)
    show s.vec.length + 1 = _
    omega

variable {lowest : PriorityItem}

/-- In a full vector with last item `lowest`, nothing comes after it. -/
theorem rank_le_getLast (h : Ranked PriorityItem.rank vec) (hlast : vec.getLast? = some lowest)
    (hx : x ∈ vec) : x.rank ≤ lowest.rank := by
  obtain ⟨_, rfl⟩ := getLast?_eq_some_iff.mp hlast
  rcases mem_append.mp hx with hx | hx
  · exact (pairwise_append.mp h).2.2 x hx lowest (mem_singleton_self lowest)
  · rw [mem_singleton.mp hx]

/-- Placing an item that comes after all of a full vector. -/
theorem Holds.pushOverflow (h : Holds room s items) (hnodup : ((item :: items).map (·.id)).Nodup)
    (hsome : (s.indexes item.id).isSome) (hlast : s.vec.getLast? = some lowest)
    (hlt : lowest.rank < item.rank) (hfull : maxVecSize ≤ s.vec.length) :
    ∃ s', s.pushOverflow item = .ok s' ∧ Holds 0 s' (item :: items) ∧ s'.nextId = s.nextId := by
  have hpush := c.heap.toList_push s.overflow item
  obtain ⟨_, hok, hloc, -⟩ :=
    pushOverflow_spec h.located (List.nodup_cons.mp (h.nodup_cons hnodup)).1 hsome
  have hperm : (s.vec ++ c.heap.toList (c.heap.push s.overflow item)).Perm (item :: items) :=
    ((hpush.append_left s.vec).trans perm_middle).trans (h.perm.cons item)
  refine ⟨_, hok, ⟨hperm, hnodup, ⟨h.arranged.sorted, ?_, h.arranged.bound, fun _ => hfull⟩, hloc⟩,
    rfl⟩
  intro x hx y hy
  rcases mem_cons.mp (hpush.subset hy) with rfl | hy
  · exact (rank_le_getLast h.arranged.sorted hlast hx).trans hlt.le
  · exact h.arranged.split x hx y hy

/-- Placing an item in a full vector, whose last item is moved to the heap. -/
theorem Holds.demote (h : Holds room s items) (hnodup : ((item :: items).map (·.id)).Nodup)
    (hsome : (s.indexes item.id).isSome) (hlast : s.vec.getLast? = some lowest)
    (hle : item.rank ≤ lowest.rank) (hfull : maxVecSize ≤ s.vec.length) :
    ∃ s₁ s', PriorityState.pushOverflow { s with vec := s.vec.dropLast } lowest = .ok s₁ ∧
      s₁.insertSorted item = .ok s' ∧ Holds 0 s' (item :: items) ∧ s'.nextId = s.nextId := by
  obtain ⟨l, hvec⟩ := getLast?_eq_some_iff.mp hlast
  have hlowest : lowest ∈ s.vec := mem_of_getLast? hlast
  have hbound := h.arranged.bound
  rw [show s.vec.dropLast = l by rw [hvec, dropLast_concat]]
  have hperm : (item :: lowest :: (l ++ c.heap.toList s.overflow)).Perm (item :: items) := by
    have hmiddle : (l ++ [lowest] ++ c.heap.toList s.overflow).Perm
        (lowest :: (l ++ c.heap.toList s.overflow)) := by
      rw [append_assoc]
      exact perm_middle
    exact ((hvec ▸ hmiddle).symm.trans h.perm).cons item
  have hsorted := h.arranged.sorted
  rw [hvec] at hsorted
  refine holds_exchange (s := { s with vec := l }) (pairwise_append.mp hsorted).1
    ⟨fun {i x} hi => h.located.inVec (by
      rw [hvec, List.getElem?_append_left (List.getElem?_eq_some_iff.mp hi).1, hi]),
      h.located.inOverflow⟩
    hperm hnodup hsome (h.located.isSome (mem_append_left _ hlowest)) ?_ ?_
  · -- the demoted item separates the vector from the heap
    intro x hx y hy
    have hxle : x.rank ≤ lowest.rank := by
      rcases mem_cons.mp hx with rfl | hx
      · exact hle
      · exact rank_le_getLast h.arranged.sorted hlast (hvec ▸ mem_append_left _ hx)
    refine hxle.trans ?_
    rcases mem_cons.mp hy with rfl | hy
    · exact le_rfl
    · exact h.arranged.split lowest hlowest y hy
  · rw [hvec, length_append, length_singleton] at hfull hbound
    show l.length + 1 = _
    omega

/-- Placing an item succeeds and fills the room that was left. -/
theorem Holds.place (h : Holds 1 s items) (hnodup : ((item :: items).map (·.id)).Nodup)
    (hsome : (s.indexes item.id).isSome) :
    ∃ s', s.place item = .ok s' ∧ Holds 0 s' (item :: items) ∧ s'.nextId = s.nextId := by
  rw [PriorityState.place]
  by_cases hroom : s.vec.length < maxVecSize
  · rw [if_pos hroom]
    cases hpeek : c.heap.peek s.overflow with
    | none =>
      refine h.insertSorted hnodup hsome hroom ?_
      rw [c.heap.peek_none hpeek]
      exact nofun
    | some top =>
      by_cases hlt : top.rank < item.rank
      · rw [if_pos (by simpa using hlt)]
        cases hpop : c.heap.pop s.overflow with
        | none =>
          rw [c.heap.pop_none hpop] at hpeek
          cases hpeek
        | some r =>
          obtain ⟨promoted, _⟩ := r
          obtain rfl : promoted = top :=
            Option.some.inj ((c.heap.pop_peek hpop).symm.trans hpeek)
          obtain ⟨s₁, s', hok₁, hok, hs'⟩ := h.promote hnodup hsome hroom hpop hlt
          exact ⟨s', by simp only [hok₁]; exact hok, hs'⟩
      · rw [if_neg (by simpa using hlt)]
        exact h.insertSorted hnodup hsome hroom fun y hy =>
          (not_lt.mp hlt).trans (c.heap.peek_le hpeek y hy)
  · rw [if_neg hroom]
    cases hlast : s.vec.getLast? with
    | none =>
      rw [getLast?_eq_none_iff.mp hlast] at hroom
      exact absurd (by decide) hroom
    | some lowest =>
      by_cases hlt : lowest.rank < item.rank
      · simp only [if_pos hlt]
        exact h.pushOverflow hnodup hsome hlast hlt (Nat.not_lt.mp hroom)
      · obtain ⟨_, s', hok₁, hok, hs'⟩ :=
          h.demote hnodup hsome hlast (not_lt.mp hlt) (Nat.not_lt.mp hroom)
        exact ⟨s', by simp only [if_neg hlt, hok₁]; exact hok, hs'⟩

/-! ### Out of the vector and the heap -/

theorem Holds.mono {room' : ℕ} (h : Holds room s items) (hle : room ≤ room') :
    Holds room' s items where
  perm := h.perm
  nodup := h.nodup
  arranged := ⟨h.arranged.sorted, h.arranged.split, h.arranged.bound, fun hne =>
    (h.arranged.full hne).trans (Nat.add_le_add_left hle _)⟩
  located := h.located

/-- Once the item has been found, the others go back into the heap. -/
theorem rebuild_some (id : ℕ) (x : PriorityItem) (entries : List PriorityItem)
    (heap : c.heap.Carrier) :
    ∃ heap', rebuild id entries (some x) heap = (some x, heap') ∧
      (c.heap.toList heap').Perm (entries ++ c.heap.toList heap) := by
  induction entries generalizing heap with
  | nil => exact ⟨heap, rfl, List.Perm.refl _⟩
  | cons y entries ih =>
    obtain ⟨heap', hok, hperm⟩ := ih (c.heap.push heap y)
    refine ⟨heap', by rw [rebuild, if_neg (by simp), hok], ?_⟩
    exact (hperm.trans ((c.heap.toList_push heap y).append_left entries)).trans perm_middle

/-- The item of an id is found, and the others go back into the heap. -/
theorem rebuild_none {entries : List PriorityItem} (hmem : item ∈ entries)
    (hnodup : (entries.map (·.id)).Nodup) (heap : c.heap.Carrier) :
    ∃ heap', rebuild item.id entries none heap = (some item, heap') ∧
      (item :: c.heap.toList heap').Perm (entries ++ c.heap.toList heap) := by
  induction entries generalizing heap with
  | nil => cases hmem
  | cons y entries ih =>
    by_cases hid : y.id = item.id
    · obtain rfl := eq_of_id_eq hnodup mem_cons_self hmem hid
      obtain ⟨heap', hok, hperm⟩ := rebuild_some y.id y entries heap
      refine ⟨heap', by rw [rebuild, if_pos ⟨rfl, rfl⟩, hok], hperm.cons y⟩
    · have hmem : item ∈ entries := by
        rcases mem_cons.mp hmem with rfl | hmem
        · exact absurd rfl hid
        · exact hmem
      obtain ⟨heap', hok, hperm⟩ := ih hmem (nodup_cons.mp hnodup).2 (c.heap.push heap y)
      refine ⟨heap', by rw [rebuild, if_neg (by simp [hid]), hok], ?_⟩
      exact (hperm.trans ((c.heap.toList_push heap y).append_left entries)).trans
        perm_middle

theorem Holds.nodup_erase (h : Holds room s items) (item : PriorityItem) :
    ((items.erase item).map (·.id)).Nodup :=
  h.nodup.sublist (erase_sublist.map _)

/-- Taking an item out of the vector leaves room for another. -/
theorem Holds.extract_vec (h : Holds 0 s items) {idx : ℕ} (hidx : s.vec[idx]? = some item) :
    ∃ s', s.extract item.id = .ok (item, s') ∧ Holds 1 s' (items.erase item) ∧
      (s'.indexes item.id).isSome ∧ s'.vec.length < maxVecSize ∧ s'.nextId = s.nextId := by
  have hperm := perm_cons_eraseIdx hidx
  have hsub := eraseIdx_sublist s.vec idx
  have hlen : s.vec.length = (s.vec.eraseIdx idx).length + 1 := hperm.length_eq
  have hnodup : ((s.vec ++ c.heap.toList s.overflow).map (·.id)).Nodup :=
    ((h.perm.map _).nodup_iff).mpr h.nodup
  have hentry := h.located.inVec hidx
  obtain ⟨indexes, hok, hloc, hkeep⟩ := updateIndicesFrom_spec
    { s with vec := s.vec.eraseIdx idx } (c.heap.toList s.overflow) idx
    (hnodup.sublist ((hsub.append_right _).map _))
    (fun {i x} hi hx => h.located.inVec (by rwa [getElem?_eraseIdx_of_lt hi] at hx))
    (fun y hy => h.located.inOverflow hy)
    (fun x hx => h.located.isSome
      (mem_append_left _ (hsub.subset (mem_of_mem_drop hx))))
  refine ⟨{ s with vec := s.vec.eraseIdx idx, indexes }, ?_,
    ⟨?_, h.nodup_erase item, ⟨?_, ?_, ?_, ?_⟩, hloc⟩, hkeep _ (by rw [hentry]; rfl), ?_, rfl⟩
  · rw [extract, hentry]
    simp only [Place.entry, hidx]
    rw [hok]
    rfl
  · have := (((hperm.append_right (c.heap.toList s.overflow)).symm.trans h.perm).erase item)
    rwa [cons_append, erase_cons_head] at this
  · exact h.arranged.sorted.sublist hsub
  · exact fun x hx => h.arranged.split x (hsub.subset hx)
  · exact hsub.length_le.trans h.arranged.bound
  · intro hne
    have hfull := h.arranged.full hne
    show _ ≤ (s.vec.eraseIdx idx).length + 1
    omega
  · have hbound := h.arranged.bound
    show (s.vec.eraseIdx idx).length < _
    omega

/-- Taking an item out of the heap leaves the vector as it is. -/
theorem Holds.extract_overflow (h : Holds 0 s items) (hmem : item ∈ c.heap.toList s.overflow) :
    ∃ s', s.extract item.id = .ok (item, s') ∧ Holds 0 s' (items.erase item) ∧
      (s'.indexes item.id).isSome ∧ s'.nextId = s.nextId := by
  have hnodup : ((s.vec ++ c.heap.toList s.overflow).map (·.id)).Nodup :=
    ((h.perm.map _).nodup_iff).mpr h.nodup
  have hentry := h.located.inOverflow hmem
  obtain ⟨overflow, hok, hperm⟩ := rebuild_none hmem
    (hnodup.sublist ((sublist_append_right _ _).map _)) c.heap.empty
  rw [c.heap.toList_empty, append_nil] at hperm
  have hsub : ∀ {y}, y ∈ c.heap.toList overflow → y ∈ c.heap.toList s.overflow := fun hy =>
    hperm.subset (mem_cons_of_mem _ hy)
  refine ⟨{ s with overflow }, ?_, ⟨?_, h.nodup_erase item, ⟨h.arranged.sorted, ?_,
    h.arranged.bound, fun _ => h.arranged.full (ne_nil_of_mem hmem)⟩,
    ⟨h.located.inVec, fun hy => h.located.inOverflow (hsub hy)⟩⟩, by rw [hentry]; rfl, rfl⟩
  · rw [extract, hentry]
    simp only [Place.entry, hok]
  · have hall : (item :: (s.vec ++ c.heap.toList overflow)).Perm items :=
      (perm_middle.symm.trans (hperm.append_left s.vec)).trans h.perm
    have := hall.erase item
    rwa [erase_cons_head] at this
  · exact fun x hx y hy => h.arranged.split x hx y (hsub hy)

end PriorityState

end HermitMoq
