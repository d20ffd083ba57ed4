import Mathlib.Data.List.AList

/-!
# Tries Whose Nodes Are Shared Cells

A general library: a trie over keys `κ` whose nodes are cells of a heap, so that a node
can be held on to after it has been unlinked from its parent. Cells are named by natural
numbers in allocation order, cell `0` is the root, and every cell carries a payload, its
labelled children and a link to the cell it was created under. The field `label` records
the keys from the root to the cell at its creation; no operation reads it.

The observable content of the trie below a cell is `valueFrom h n ks`, the payload found
by following the keys `ks` from `n`, with the payload of a fresh cell standing for a
missing path. Creating cells on the way (`entry`, `walk`) and unlinking vacant cells
(`Prunes`) do not change the content; writing a payload changes it exactly at the paths
that lead to the written cell.
-/

namespace HermitMoq

open List Nat Option

/-- A node of the trie. -/
structure Cell (κ ν : Type*) where
  /-- The payload. -/
  value : ν
  /-- The children, by key. -/
  nested : AList fun _ : κ => ℕ
  /-- The cell this one was created under. -/
  parent : Option ℕ
  /-- The keys from the root to this cell at its creation (a ghost). -/
  label : List κ

/-- A heap of trie nodes; the cells from `next` on are not allocated. -/
structure TrieHeap (κ ν : Type*) where
  /-- The content of every cell. -/
  cell : ℕ → Cell κ ν
  /-- The first cell that is not allocated. -/
  next : ℕ

namespace TrieHeap

variable {κ ν : Type*} [DecidableEq κ] [Inhabited ν] {h' : TrieHeap κ ν}

/-- A fresh cell. -/
def blank (parent : Option ℕ) (label : List κ) : Cell κ ν :=
  ⟨default, ∅, parent, label⟩

/-- The trie with only a root. -/
def empty : TrieHeap κ ν := ⟨fun _ => blank none [], 1⟩

/-- Replace one cell. -/
def set (h : TrieHeap κ ν) (n : ℕ) (c : Cell κ ν) : TrieHeap κ ν :=
  { h with cell := Function.update h.cell n c }

/-- Replace the payload of one cell. -/
def setValue (h : TrieHeap κ ν) (n : ℕ) (v : ν) : TrieHeap κ ν :=
  h.set n { h.cell n with value := v }

/-- The child of `n` under the key `k`, created if there is none. -/
def entry (h : TrieHeap κ ν) (n : ℕ) (k : κ) : ℕ × TrieHeap κ ν :=
  match (h.cell n).nested.lookup k with
  | some m => (m, h)
  | none =>
    let fresh := blank (some n) ((h.cell n).label ++ [k])
    let linked := { h.cell n with nested := (h.cell n).nested.insert k h.next }
    (h.next, { (h.set h.next fresh).set n linked with next := h.next + 1 })

/-- Unlink the child of `n` under the key `k`. -/
def unlink (h : TrieHeap κ ν) (n : ℕ) (k : κ) : TrieHeap κ ν :=
  h.set n { h.cell n with nested := (h.cell n).nested.erase k }

/-- Follow the keys from `n`, creating the missing cells. -/
def walk (h : TrieHeap κ ν) (n : ℕ) : List κ → ℕ × TrieHeap κ ν
  | [] => (n, h)
  | k :: ks => ((h.entry n k).2).walk (h.entry n k).1 ks

/-- Follow the keys from `n`. -/
def find (h : TrieHeap κ ν) (n : ℕ) : List κ → Option ℕ
  | [] => some n
  | k :: ks => ((h.cell n).nested.lookup k).bind fun m => h.find m ks

/-- The payload found by following the keys from `n`; a missing path counts as fresh. -/
def valueFrom (h : TrieHeap κ ν) (n : ℕ) (ks : List κ) : ν :=
  ((h.find n ks).map fun m => (h.cell m).value).getD default

/-- The parent links from `n`, nearest first. -/
def ancestors (h : TrieHeap κ ν) : ℕ → ℕ → List ℕ
  | 0, _ => []
  | fuel + 1, n => n :: ((h.cell n).parent.elim [] fun p => h.ancestors fuel p)

/-- The cells below `n`, parents first, for `fuel` levels. -/
def preorder (h : TrieHeap κ ν) : ℕ → ℕ → List ℕ
  | 0, _ => []
  | fuel + 1, n => n :: (h.cell n).nested.entries.flatMap fun e => h.preorder fuel e.2

/-! ### The shape invariant -/

/-- The **shape invariant**: children are allocated after their parent, carry its label
extended by their key, and link back to it. -/
structure WF (h : TrieHeap κ ν) : Prop where
  root_label : (h.cell 0).label = []
  root_parent : (h.cell 0).parent = none
  next_pos : 0 < h.next
  child_bounds : ∀ {n k m}, (h.cell n).nested.lookup k = some m → n < m ∧ m < h.next
  child_label : ∀ {n k m}, (h.cell n).nested.lookup k = some m →
    (h.cell m).label = (h.cell n).label ++ [k]
  child_parent : ∀ {n k m}, (h.cell n).nested.lookup k = some m →
    (h.cell m).parent = some n
  parent_lt : ∀ {n p}, (h.cell n).parent = some p → p < n
  parent_label : ∀ {n p}, (h.cell n).parent = some p →
    ∃ k, (h.cell n).label = (h.cell p).label ++ [k]
  unallocated : ∀ {n}, h.next ≤ n →
    (h.cell n).value = default ∧ (h.cell n).nested = ∅ ∧ (h.cell n).parent = none

/-- The heap of a root is well formed. -/
theorem WF.empty : (TrieHeap.empty : TrieHeap κ ν).WF where
  root_label := rfl
  root_parent := rfl
  next_pos := Nat.one_pos
  child_bounds h := by simp [TrieHeap.empty, blank] at h
  child_label h := by simp [TrieHeap.empty, blank] at h
  child_parent h := by simp [TrieHeap.empty, blank] at h
  parent_lt h := by simp [TrieHeap.empty, blank] at h
  parent_label h := by simp [TrieHeap.empty, blank] at h
  unallocated _ := ⟨rfl, rfl, rfl⟩

/-! ### Following keys -/

section Find

variable {h : TrieHeap κ ν} {n m : ℕ} {k : κ} {ks : List κ}

section

omit [Inhabited ν]

@[simp] theorem find_nil (h : TrieHeap κ ν) (n : ℕ) : h.find n [] = some n := rfl

theorem find_cons (h : TrieHeap κ ν) (n : ℕ) (k : κ) (ks : List κ) :
    h.find n (k :: ks) = ((h.cell n).nested.lookup k).bind fun m => h.find m ks := rfl

/-- Paths depend on the children only. -/
theorem find_congr (hn : ∀ x, (h'.cell x).nested = (h.cell x).nested)
    (n : ℕ) (ks : List κ) : h'.find n ks = h.find n ks := by
  induction ks generalizing n with
  | nil => rfl
  | cons k ks ih => simp only [find_cons, hn, ih]

theorem find_append (h : TrieHeap κ ν) (n : ℕ) (ks ls : List κ) :
    h.find n (ks ++ ls) = (h.find n ks).bind fun m => h.find m ls := by
  induction ks generalizing n with
  | nil => rfl
  | cons k ks ih =>
    rw [cons_append, find_cons, find_cons, bind_assoc]
    simp only [ih]

theorem find_cons_eq_some_iff :
    h.find n (k :: ks) = some m ↔
      ∃ x, (h.cell n).nested.lookup k = some x ∧ h.find x ks = some m := by
  rw [find_cons, bind_eq_some_iff]

/-- Nothing is found below a childless cell. -/
theorem find_of_childless (hc : (h.cell n).nested = ∅) (hf : h.find n ks = some m) :
    ks = [] ∧ m = n := by
  cases ks with
  | nil => exact ⟨rfl, (some.inj hf).symm⟩
  | cons k ks => simp [find_cons, hc] at hf

end

theorem valueFrom_nil (h : TrieHeap κ ν) (n : ℕ) : h.valueFrom n [] = (h.cell n).value := rfl

theorem valueFrom_cons_some (hk : (h.cell n).nested.lookup k = some m) :
    h.valueFrom n (k :: ks) = h.valueFrom m ks := by
  simp [valueFrom, find_cons, hk]

theorem valueFrom_cons_none (hk : (h.cell n).nested.lookup k = none) :
    h.valueFrom n (k :: ks) = default := by
  simp [valueFrom, find_cons, hk]

theorem valueFrom_of_find (hf : h.find n ks = some m) :
    h.valueFrom n ks = (h.cell m).value := by
  simp [valueFrom, hf]

/-- A path to a payload that is not the fresh one exists. -/
theorem exists_find_of_valueFrom (hv : h.valueFrom n ks ≠ default) :
    ∃ m, h.find n ks = some m ∧ (h.cell m).value = h.valueFrom n ks := by
  cases hf : h.find n ks with
  | none => exact absurd (by simp [valueFrom, hf]) hv
  | some m => exact ⟨m, rfl, (valueFrom_of_find hf).symm⟩

theorem valueFrom_of_childless (hc : (h.cell n).nested = ∅) (hv : (h.cell n).value = default) :
    h.valueFrom n ks = default := by
  cases ks with
  | nil => rw [valueFrom_nil, hv]
  | cons k ks => exact valueFrom_cons_none (by simp [hc])

/-- Following keys extends the label by the keys and never goes to an older cell. -/
theorem WF.find_label (wf : h.WF) (hf : h.find n ks = some m) :
    (h.cell m).label = (h.cell n).label ++ ks ∧ n ≤ m := by
  induction ks generalizing n with
  | nil =>
    obtain rfl := some.inj hf
    simp
  | cons k ks ih =>
    obtain ⟨_, hx, hf⟩ := find_cons_eq_some_iff.mp hf
    obtain ⟨hl, hle⟩ := ih hf
    rw [hl, wf.child_label hx, append_assoc, singleton_append]
    exact ⟨rfl, le_trans (le_of_lt (wf.child_bounds hx).1) hle⟩

theorem WF.find_lt (wf : h.WF) (hn : n < h.next) (hf : h.find n ks = some m) :
    m < h.next := by
  induction ks generalizing n with
  | nil => exact some.inj hf ▸ hn
  | cons k ks ih =>
    obtain ⟨_, hx, hf⟩ := find_cons_eq_some_iff.mp hf
    exact ih (wf.child_bounds hx).2 hf

/-- A cell has one incoming link. -/
theorem WF.link_unique (wf : h.WF) {n' : ℕ} {k' : κ}
    (hm : (h.cell n).nested.lookup k = some m)
    (hm' : (h.cell n').nested.lookup k' = some m) : n' = n ∧ k' = k := by
  obtain rfl : n' = n := by
    have hp := wf.child_parent hm
    rw [wf.child_parent hm'] at hp
    exact some.inj hp
  have hl := wf.child_label hm
  rw [wf.child_label hm', append_cancel_left_eq] at hl
  exact ⟨rfl, singleton_injective hl⟩

end Find

/-! ### Replacing a payload -/

section SetValue

variable {h : TrieHeap κ ν} {n x : ℕ} {v : ν} (ks : List κ)

section

omit [DecidableEq κ] [Inhabited ν]

theorem cell_setValue_self : ((h.setValue n v).cell n) = { h.cell n with value := v } :=
  Function.update_self ..

theorem cell_setValue_ne (hx : x ≠ n) : (h.setValue n v).cell x = h.cell x :=
  Function.update_of_ne hx ..

@[simp] theorem nested_setValue : ((h.setValue n v).cell x).nested = (h.cell x).nested := by
  by_cases hx : x = n
  · rw [hx, cell_setValue_self]
  · rw [cell_setValue_ne hx]

@[simp] theorem parent_setValue : ((h.setValue n v).cell x).parent = (h.cell x).parent := by
  by_cases hx : x = n
  · rw [hx, cell_setValue_self]
  · rw [cell_setValue_ne hx]

@[simp] theorem label_setValue : ((h.setValue n v).cell x).label = (h.cell x).label := by
  by_cases hx : x = n
  · rw [hx, cell_setValue_self]
  · rw [cell_setValue_ne hx]

theorem value_setValue :
    ((h.setValue n v).cell x).value = if x = n then v else (h.cell x).value := by
  by_cases hx : x = n
  · rw [hx, cell_setValue_self, if_pos rfl]
  · rw [cell_setValue_ne hx, if_neg hx]

end

omit [Inhabited ν] in
@[simp] theorem find_setValue : (h.setValue n v).find x ks = h.find x ks :=
  find_congr (fun _ => nested_setValue) x ks

/-- Writing a payload changes the content at the paths that lead to the cell. -/
theorem valueFrom_setValue :
    (h.setValue n v).valueFrom x ks = if h.find x ks = some n then v else h.valueFrom x ks := by
  unfold valueFrom
  rw [find_setValue]
  cases hf : h.find x ks with
  | none => simp
  | some m =>
    by_cases hm : m = n
    · simp [hm, value_setValue]
    · simp [hm, value_setValue]

/-- Setting a value keeps the heap well formed. -/
theorem WF.setValue (wf : h.WF) (hn : n < h.next) : (h.setValue n v).WF where
  root_label := by simpa using wf.root_label
  root_parent := by simpa using wf.root_parent
  next_pos := wf.next_pos
  child_bounds hm := by
    rw [nested_setValue] at hm
    exact wf.child_bounds hm
  child_label hm := by
    rw [nested_setValue] at hm
    simpa using wf.child_label hm
  child_parent hm := by
    rw [nested_setValue] at hm
    simpa using wf.child_parent hm
  parent_lt hp := by
    rw [parent_setValue] at hp
    exact wf.parent_lt hp
  parent_label hp := by
    rw [parent_setValue] at hp
    simpa using wf.parent_label hp
  unallocated {x} hx := by
    have hne : x ≠ n := fun he => absurd hn (by rw [← he]; exact not_lt.mpr hx)
    rw [cell_setValue_ne hne]
    exact wf.unallocated hx

end SetValue

/-! ### Creating children -/

section Entry

variable {h : TrieHeap κ ν} {n x : ℕ} {k : κ}

theorem entry_of_some {m : ℕ} (hm : (h.cell n).nested.lookup k = some m) :
    h.entry n k = (m, h) := by
  simp only [entry, hm]

theorem entry_of_none (hm : (h.cell n).nested.lookup k = none) :
    h.entry n k = (h.next,
      { (h.set h.next (blank (some n) ((h.cell n).label ++ [k]))).set n
          { h.cell n with nested := (h.cell n).nested.insert k h.next } with
        next := h.next + 1 }) := by
  simp only [entry, hm]

theorem next_le_entry : h.next ≤ (h.entry n k).2.next := by
  cases hm : (h.cell n).nested.lookup k with
  | some m => rw [entry_of_some hm]
  | none =>
    rw [entry_of_none hm]
    exact le_succ _

/-- The cells after a creation, away from the two cells it touches. -/
theorem cell_entry_ne (hn : x ≠ n) (hx : x ≠ h.next) : (h.entry n k).2.cell x = h.cell x := by
  cases hm : (h.cell n).nested.lookup k with
  | some m => rw [entry_of_some hm]
  | none =>
    rw [entry_of_none hm]
    simp [set, hn, hx]

/-- The created child. -/
theorem cell_entry_next (hn : n < h.next) (hm : (h.cell n).nested.lookup k = none) :
    (h.entry n k).2.cell h.next = blank (some n) ((h.cell n).label ++ [k]) := by
  rw [entry_of_none hm]
  simp [set, (Nat.ne_of_lt hn).symm]

/-- The children after a creation: one more under the new key. -/
theorem lookup_entry (wf : h.WF) (hn : n < h.next) (j : κ) :
    ((h.entry n k).2.cell x).nested.lookup j =
      if x = n ∧ j = k then some (h.entry n k).1 else (h.cell x).nested.lookup j := by
  cases hm : (h.cell n).nested.lookup k with
  | some m =>
    rw [entry_of_some hm]
    split_ifs with hx
    · rw [hx.1, hx.2, hm]
    · rfl
  | none =>
    by_cases hx : x = n
    · subst hx
      rw [entry_of_none hm]
      by_cases hj : j = k
      · subst hj
        simp [set]
      · simp [set, hj, AList.lookup_insert_ne]
    · rw [if_neg (fun hc => hx hc.1)]
      by_cases hx' : x = h.next
      · rw [hx', cell_entry_next hn hm, (wf.unallocated (le_refl _)).2.1]
        simp [blank]
      · rw [cell_entry_ne hx hx']

/-- A new node changes no value. -/
@[simp] theorem value_entry (wf : h.WF) (hn : n < h.next) :
    ((h.entry n k).2.cell x).value = (h.cell x).value := by
  cases hm : (h.cell n).nested.lookup k with
  | some m => rw [entry_of_some hm]
  | none =>
    by_cases hx : x = n
    · rw [hx, entry_of_none hm]
      simp [set]
    · by_cases hx' : x = h.next
      · rw [hx', cell_entry_next hn hm, (wf.unallocated (le_refl _)).1]
        rfl
      · rw [cell_entry_ne hx hx']

/-- A cell that is there keeps its place in the tree. -/
theorem place_entry (hx : x < h.next) :
    ((h.entry n k).2.cell x).parent = (h.cell x).parent ∧
      ((h.entry n k).2.cell x).label = (h.cell x).label := by
  cases hm : (h.cell n).nested.lookup k with
  | some m => simp [entry_of_some hm]
  | none =>
    by_cases hn : x = n
    · rw [hn, entry_of_none hm]
      simp [set]
    · simp [cell_entry_ne hn (Nat.ne_of_lt hx)]

theorem parent_entry (hx : x < h.next) :
    ((h.entry n k).2.cell x).parent = (h.cell x).parent := (place_entry hx).1

theorem label_entry (hx : x < h.next) :
    ((h.entry n k).2.cell x).label = (h.cell x).label := (place_entry hx).2

/-- The child found or created is allocated, younger than `n`, labelled and linked. -/
theorem entry_child (wf : h.WF) (hn : n < h.next) :
    n < (h.entry n k).1 ∧ (h.entry n k).1 < (h.entry n k).2.next ∧
      ((h.entry n k).2.cell (h.entry n k).1).label = (h.cell n).label ++ [k] ∧
      ((h.entry n k).2.cell (h.entry n k).1).parent = some n := by
  cases hm : (h.cell n).nested.lookup k with
  | some m =>
    rw [entry_of_some hm]
    obtain ⟨hlt, hlt'⟩ := wf.child_bounds hm
    exact ⟨hlt, hlt', wf.child_label hm, wf.child_parent hm⟩
  | none =>
    have hcell := cell_entry_next hn hm
    rw [entry_of_none hm] at hcell ⊢
    rw [hcell]
    exact ⟨hn, lt_succ_self _, rfl, rfl⟩

/-- A new node keeps the heap well formed. -/
theorem WF.entry (wf : h.WF) (hn : n < h.next) : (h.entry n k).2.WF := by
  cases hm : (h.cell n).nested.lookup k with
  | some m =>
    rw [entry_of_some hm]
    exact wf
  | none =>
    have hnext : (h.entry n k).2.next = h.next + 1 := by rw [entry_of_none hm]
    have hchild : (h.entry n k).1 = h.next := by rw [entry_of_none hm]
    obtain ⟨-, -, hlabel, hparent⟩ := entry_child wf hn (k := k)
    rw [hchild] at hlabel hparent
    have hlookup : ∀ {x j m}, ((h.entry n k).2.cell x).nested.lookup j = some m →
        (x = n ∧ j = k ∧ m = h.next) ∨ (h.cell x).nested.lookup j = some m := by
      intro x j m hl
      rw [lookup_entry wf hn, hchild] at hl
      split_ifs at hl with hx
      · exact .inl ⟨hx.1, hx.2, (some.inj hl).symm⟩
      · exact .inr hl
    have hold : ∀ {x j m}, (h.cell x).nested.lookup j = some m → x < h.next := by
      intro x j m hl
      obtain ⟨h₁, h₂⟩ := wf.child_bounds hl
      exact lt_trans h₁ h₂
    have hpar : ∀ {x p}, ((h.entry n k).2.cell x).parent = some p →
        (x = h.next ∧ p = n) ∨ (x < h.next ∧ (h.cell x).parent = some p) := by
      intro x p hp
      rcases lt_trichotomy x h.next with hx | rfl | hx
      · exact .inr ⟨hx, by rwa [parent_entry hx] at hp⟩
      · rw [hparent] at hp
        exact .inl ⟨rfl, (some.inj hp).symm⟩
      · have hne : x ≠ n := ne_of_gt (lt_trans hn hx)
        rw [cell_entry_ne hne (ne_of_gt hx),
          (wf.unallocated (le_of_lt hx)).2.2] at hp
        cases hp
    refine ⟨?_, ?_, ?_, ?_, ?_, ?_, ?_, ?_, ?_⟩
    · rw [label_entry wf.next_pos, wf.root_label]
    · rw [parent_entry wf.next_pos, wf.root_parent]
    · rw [hnext]
      exact succ_pos _
    · intro x j m hl
      rw [hnext]
      rcases hlookup hl with ⟨rfl, -, rfl⟩ | hl
      · exact ⟨hn, lt_succ_self _⟩
      · obtain ⟨h₁, h₂⟩ := wf.child_bounds hl
        exact ⟨h₁, lt_succ_of_lt h₂⟩
    · intro x j m hl
      rcases hlookup hl with ⟨rfl, rfl, rfl⟩ | hl
      · rw [hlabel, label_entry hn]
      · rw [label_entry (hold hl), label_entry (wf.child_bounds hl).2, wf.child_label hl]
    · intro x j m hl
      rcases hlookup hl with ⟨rfl, -, rfl⟩ | hl
      · exact hparent
      · rw [parent_entry (wf.child_bounds hl).2, wf.child_parent hl]
    · intro x p hp
      rcases hpar hp with ⟨rfl, rfl⟩ | ⟨-, hp⟩
      · exact hn
      · exact wf.parent_lt hp
    · intro x p hp
      rcases hpar hp with ⟨rfl, rfl⟩ | ⟨hx, hp⟩
      · exact ⟨k, by rw [hlabel, label_entry hn]⟩
      · rw [label_entry hx, label_entry (lt_trans (wf.parent_lt hp) hx)]
        exact wf.parent_label hp
    · intro x hx
      rw [hnext] at hx
      have hx' : h.next ≤ x := le_of_succ_le hx
      have hne : x ≠ n := fun he => absurd hn (by rw [← he]; exact not_lt.mpr hx')
      rw [cell_entry_ne hne (ne_of_gt hx)]
      exact wf.unallocated hx'

end Entry

/-! ### Following keys with creation -/

section Walk

variable {h : TrieHeap κ ν} {n x m : ℕ} {k : κ} {ks ls : List κ}

/-- A creation keeps every path. -/
theorem find_entry_of_some (wf : h.WF) (hn : n < h.next) (hf : h.find x ls = some m) :
    (h.entry n k).2.find x ls = some m := by
  induction ls generalizing x with
  | nil => exact hf
  | cons j ls ih =>
    obtain ⟨y, hy, hf⟩ := find_cons_eq_some_iff.mp hf
    refine find_cons_eq_some_iff.mpr ⟨y, ?_, ih hf⟩
    rw [lookup_entry wf hn]
    split_ifs with hx
    · rw [hx.1, hx.2] at hy
      rw [entry_of_some hy]
    · exact hy

/-- A creation does not change the content. -/
theorem valueFrom_entry (wf : h.WF) (hn : n < h.next) (ls : List κ) :
    (h.entry n k).2.valueFrom x ls = h.valueFrom x ls := by
  induction ls generalizing x with
  | nil => rw [valueFrom_nil, valueFrom_nil, value_entry wf hn]
  | cons j ls ih =>
    have hlookup := lookup_entry wf hn (x := x) (k := k) j
    by_cases hx : x = n ∧ j = k
    · obtain ⟨rfl, rfl⟩ := hx
      rw [if_pos ⟨rfl, rfl⟩] at hlookup
      cases hm : (h.cell x).nested.lookup j with
      | some m => rw [entry_of_some hm]
      | none =>
        have hchild : (h.entry x j).1 = h.next := by rw [entry_of_none hm]
        rw [hchild] at hlookup
        rw [valueFrom_cons_some hlookup, valueFrom_cons_none hm]
        apply valueFrom_of_childless <;> rw [cell_entry_next hn hm] <;> rfl
    · rw [if_neg hx] at hlookup
      cases hm : (h.cell x).nested.lookup j with
      | some m => rw [valueFrom_cons_some (hlookup.trans hm), valueFrom_cons_some hm, ih]
      | none => rw [valueFrom_cons_none (hlookup.trans hm), valueFrom_cons_none hm]

@[simp] theorem walk_nil (h : TrieHeap κ ν) (n : ℕ) : h.walk n [] = (n, h) := rfl

theorem walk_cons (h : TrieHeap κ ν) (n : ℕ) (k : κ) (ks : List κ) :
    h.walk n (k :: ks) = (h.entry n k).2.walk (h.entry n k).1 ks := rfl

/-- What following keys with creation does to the heap: the shape is kept, no cell is
lost, payloads, labels and parent links of old cells stay, every path stays, and the
content does not change. -/
structure Grows (h h' : TrieHeap κ ν) : Prop where
  wf : h'.WF
  next_le : h.next ≤ h'.next
  value : ∀ x, (h'.cell x).value = (h.cell x).value
  parent : ∀ {x}, x < h.next → (h'.cell x).parent = (h.cell x).parent
  label : ∀ {x}, x < h.next → (h'.cell x).label = (h.cell x).label
  find : ∀ {x ls m}, h.find x ls = some m → h'.find x ls = some m
  valueFrom : ∀ x ls, h'.valueFrom x ls = h.valueFrom x ls

theorem Grows.refl (wf : h.WF) : h.Grows h :=
  ⟨wf, le_refl _, fun _ => rfl, fun _ => rfl, fun _ => rfl, fun hf => hf, fun _ _ => rfl⟩

theorem Grows.trans {h₁ h₂ h₃ : TrieHeap κ ν} (g : h₁.Grows h₂) (g' : h₂.Grows h₃) :
    h₁.Grows h₃ where
  wf := g'.wf
  next_le := le_trans g.next_le g'.next_le
  value x := (g'.value x).trans (g.value x)
  parent hx := (g'.parent (lt_of_lt_of_le hx g.next_le)).trans (g.parent hx)
  label hx := (g'.label (lt_of_lt_of_le hx g.next_le)).trans (g.label hx)
  find hf := g'.find (g.find hf)
  valueFrom x ls := (g'.valueFrom x ls).trans (g.valueFrom x ls)

/-- A new node grows the heap. -/
theorem grows_entry (wf : h.WF) (hn : n < h.next) : h.Grows (h.entry n k).2 where
  wf := wf.entry hn
  next_le := next_le_entry
  value _ := value_entry wf hn
  parent := parent_entry
  label := label_entry
  find := find_entry_of_some wf hn
  valueFrom _ ls := valueFrom_entry wf hn ls

theorem grows_walk (wf : h.WF) (hn : n < h.next) (ks : List κ) :
    h.Grows (h.walk n ks).2 := by
  induction ks generalizing h n with
  | nil => exact Grows.refl wf
  | cons k ks ih =>
    have hg := grows_entry wf hn (k := k)
    exact hg.trans (ih hg.wf (entry_child wf hn).2.1)

/-- The walk ends where its keys lead. -/
theorem find_walk (wf : h.WF) (hn : n < h.next) (ks : List κ) :
    (h.walk n ks).2.find n ks = some (h.walk n ks).1 := by
  induction ks generalizing h n with
  | nil => rfl
  | cons k ks ih =>
    obtain ⟨-, hlt, -, -⟩ := entry_child wf hn (k := k)
    have hg := grows_walk (wf.entry hn) hlt ks
    have hstep : (h.entry n k).2.find n [k] = some (h.entry n k).1 := by
      refine find_cons_eq_some_iff.mpr ⟨_, ?_, find_nil _ _⟩
      rw [lookup_entry wf hn, if_pos ⟨rfl, rfl⟩]
    rw [walk_cons, ← singleton_append, find_append, hg.find hstep, bind_some]
    exact ih (wf.entry hn) hlt

theorem walk_lt (wf : h.WF) (hn : n < h.next) (ks : List κ) :
    (h.walk n ks).1 < (h.walk n ks).2.next := by
  have hg := grows_walk wf hn ks
  exact hg.wf.find_lt (lt_of_lt_of_le hn hg.next_le) (find_walk wf hn ks)

/-- A walk along an existing path creates nothing. -/
theorem walk_of_find (hf : h.find n ks = some m) : h.walk n ks = (m, h) := by
  induction ks generalizing n with
  | nil => rw [walk_nil, some.inj hf]
  | cons k ks ih =>
    obtain ⟨_, hx, hf⟩ := find_cons_eq_some_iff.mp hf
    rw [walk_cons, entry_of_some hx]
    exact ih hf

/-- The label of the end of a walk. -/
theorem label_walk (wf : h.WF) (hn : n < h.next) (ks : List κ) :
    ((h.walk n ks).2.cell (h.walk n ks).1).label = (h.cell n).label ++ ks := by
  have hg := grows_walk wf hn ks
  rw [(hg.wf.find_label (find_walk wf hn ks)).1, hg.label hn]

end Walk

/-! ### Unlinking vacant children -/

section Unlink

variable {h : TrieHeap κ ν} {n x m y : ℕ} {k : κ} {ks : List κ}

section

omit [Inhabited ν]

theorem cell_unlink_ne (hx : x ≠ n) : (h.unlink n k).cell x = h.cell x :=
  Function.update_of_ne hx ..

theorem lookup_unlink (j : κ) : ((h.unlink n k).cell x).nested.lookup j =
    if x = n ∧ j = k then none else (h.cell x).nested.lookup j := by
  by_cases hx : x = n
  · subst hx
    by_cases hj : j = k
    · subst hj
      simp [unlink, set]
    · simp [unlink, set, hj, AList.lookup_erase_ne]
  · simp [unlink, set, hx]

@[simp] theorem value_unlink : ((h.unlink n k).cell x).value = (h.cell x).value := by
  by_cases hx : x = n
  · subst hx
    simp [unlink, set]
  · simp [unlink, set, hx]

@[simp] theorem parent_unlink : ((h.unlink n k).cell x).parent = (h.cell x).parent := by
  by_cases hx : x = n
  · subst hx
    simp [unlink, set]
  · simp [unlink, set, hx]

@[simp] theorem label_unlink : ((h.unlink n k).cell x).label = (h.cell x).label := by
  by_cases hx : x = n
  · subst hx
    simp [unlink, set]
  · simp [unlink, set, hx]

theorem lookup_of_unlink {j : κ} (hl : ((h.unlink n k).cell x).nested.lookup j = some m) :
    (h.cell x).nested.lookup j = some m := by
  rw [lookup_unlink] at hl
  split_ifs at hl
  exact hl

end

/-- Unlinking a node keeps the heap well formed. -/
theorem WF.unlink (wf : h.WF) : (h.unlink n k).WF where
  root_label := by simpa using wf.root_label
  root_parent := by simpa using wf.root_parent
  next_pos := wf.next_pos
  child_bounds hm := wf.child_bounds (lookup_of_unlink hm)
  child_label hm := by simpa using wf.child_label (lookup_of_unlink hm)
  child_parent hm := by simpa using wf.child_parent (lookup_of_unlink hm)
  parent_lt hp := by
    rw [parent_unlink] at hp
    exact wf.parent_lt hp
  parent_label hp := by
    rw [parent_unlink] at hp
    simpa using wf.parent_label hp
  unallocated {x} hx := by
    obtain ⟨hv, hn, hp⟩ := wf.unallocated hx
    refine ⟨by simpa using hv, ?_, by simpa using hp⟩
    by_cases hxn : x = n
    · subst hxn
      have herase : (∅ : AList fun _ : κ => ℕ).erase k = ∅ := rfl
      simp [TrieHeap.unlink, set, hn, herase]
    · simp [TrieHeap.unlink, set, hxn, hn]

/-- Unlinking a childless cell removes exactly the nonempty paths to it. -/
theorem find_unlink (wf : h.WF) (hm : (h.cell n).nested.lookup k = some m)
    (hc : (h.cell m).nested = ∅) :
    (h.unlink n k).find x ks = some y ↔ h.find x ks = some y ∧ (y = m → ks = []) := by
  induction ks generalizing x with
  | nil => simp
  | cons j ks ih =>
    simp only [find_cons_eq_some_iff, lookup_unlink, ih, reduceCtorEq, imp_false]
    by_cases hx : x = n ∧ j = k
    · obtain ⟨rfl, rfl⟩ := hx
      simp only [and_self, if_true, reduceCtorEq, false_and, exists_false, false_iff]
      rintro ⟨⟨z, hz, hf⟩, hy⟩
      obtain rfl : m = z := some.inj (hm.symm.trans hz)
      exact hy (find_of_childless hc hf).2
    · rw [if_neg hx]
      constructor
      · rintro ⟨z, hz, hf, hy⟩
        refine ⟨⟨z, hz, hf⟩, ?_⟩
        rintro rfl
        obtain rfl := hy rfl
        obtain rfl := some.inj hf
        exact hx (wf.link_unique hm hz)
      · rintro ⟨⟨z, hz, hf⟩, hy⟩
        exact ⟨z, hz, hf, fun he => absurd he hy⟩

/-- Unlinking a vacant childless cell does not change the content. -/
theorem valueFrom_unlink (wf : h.WF) (hm : (h.cell n).nested.lookup k = some m)
    (hc : (h.cell m).nested = ∅) (hv : (h.cell m).value = default) (ks : List κ) :
    (h.unlink n k).valueFrom x ks = h.valueFrom x ks := by
  cases hf : (h.unlink n k).find x ks with
  | some y =>
    obtain ⟨hf', -⟩ := (find_unlink wf hm hc).mp hf
    rw [valueFrom_of_find hf, valueFrom_of_find hf', value_unlink]
  | none =>
    have hnone : (h.unlink n k).valueFrom x ks = default := by simp [valueFrom, hf]
    rw [hnone]
    cases hf' : h.find x ks with
    | none => simp [valueFrom, hf']
    | some y =>
      -- the path was lost, so it led to the vacant cell
      have hy : y = m := by
        by_contra hne
        have := (find_unlink wf hm hc).mpr ⟨hf', fun he => absurd he hne⟩
        rw [hf] at this
        cases this
      rw [valueFrom_of_find hf', hy, hv]

end Unlink

/-- A cell is **vacant** if its payload is and it has no children. -/
def isVacant (vacant : ν → Bool) (h : TrieHeap κ ν) (n : ℕ) : Bool :=
  vacant (h.cell n).value && (h.cell n).nested.entries.isEmpty

/-- `h'` is `h` with vacant cells unlinked. -/
inductive Prunes (vacant : ν → Bool) (h : TrieHeap κ ν) : TrieHeap κ ν → Prop
  | refl : Prunes vacant h h
  | unlink {h' : TrieHeap κ ν} {n m : ℕ} {k : κ} :
      Prunes vacant h h' → (h'.cell n).nested.lookup k = some m →
      h'.isVacant vacant m = true → Prunes vacant h (h'.unlink n k)

section Prunes

variable {vacant : ν → Bool} {h : TrieHeap κ ν} {n : ℕ} {ks : List κ}

section

omit [DecidableEq κ] [Inhabited ν]

theorem nested_eq_empty_of_isVacant (hv : h.isVacant vacant n = true) :
    (h.cell n).nested = ∅ := by
  simp only [isVacant, Bool.and_eq_true, List.isEmpty_iff] at hv
  exact AList.ext hv.2

theorem vacant_of_isVacant (hv : h.isVacant vacant n = true) :
    vacant (h.cell n).value = true := by
  simp only [isVacant, Bool.and_eq_true] at hv
  exact hv.1

end

section

variable (hp : h.Prunes vacant h') (x : ℕ)

include hp

section

omit [Inhabited ν]

theorem Prunes.next : h'.next = h.next := by
  induction hp with
  | refl => rfl
  | unlink _ _ _ ih => exact ih

theorem Prunes.value :
    (h'.cell x).value = (h.cell x).value := by
  induction hp with
  | refl => rfl
  | unlink _ _ _ ih => rw [value_unlink, ih]

theorem Prunes.parent :
    (h'.cell x).parent = (h.cell x).parent := by
  induction hp with
  | refl => rfl
  | unlink _ _ _ ih => rw [parent_unlink, ih]

theorem Prunes.label :
    (h'.cell x).label = (h.cell x).label := by
  induction hp with
  | refl => rfl
  | unlink _ _ _ ih => rw [label_unlink, ih]

end

theorem Prunes.wf (wf : h.WF) : h'.WF := by
  induction hp with
  | refl => exact wf
  | unlink _ _ _ ih => exact ih.unlink

end

/-- Pruning does not change the content. -/
theorem Prunes.valueFrom (hvac : ∀ v, vacant v = true → v = default)
    (hp : h.Prunes vacant h') (wf : h.WF) (x : ℕ) (ks : List κ) :
    h'.valueFrom x ks = h.valueFrom x ks := by
  induction hp with
  | refl => rfl
  | unlink hp hm hv ih =>
    rw [valueFrom_unlink (hp.wf wf) hm (nested_eq_empty_of_isVacant hv)
      (hvac _ (vacant_of_isVacant hv)), ih]

/-- Pruning creates no path. -/
theorem Prunes.find_of_some (hp : h.Prunes vacant h') (wf : h.WF) {x y : ℕ}
    (hf : h'.find x ks = some y) : h.find x ks = some y := by
  induction hp with
  | refl => exact hf
  | unlink hp hm hv ih =>
    exact ih ((find_unlink (hp.wf wf) hm (nested_eq_empty_of_isVacant hv)).mp hf).1

/-- Pruning keeps the paths to the cells whose payload is not vacant. -/
theorem Prunes.find_of_occupied (hp : h.Prunes vacant h') (wf : h.WF) {x y : ℕ}
    (hf : h.find x ks = some y) (ho : vacant (h.cell y).value = false) :
    h'.find x ks = some y := by
  induction hp with
  | refl => exact hf
  | unlink hp hm hv ih =>
    refine (find_unlink (hp.wf wf) hm (nested_eq_empty_of_isVacant hv)).mpr ⟨ih, ?_⟩
    rintro rfl
    have := vacant_of_isVacant hv
    rw [hp.value, ho] at this
    cases this

end Prunes

/-! ### Cells linked to the root -/

/-- A cell is **linked** if the path of its label leads from the root to it. -/
def Linked (h : TrieHeap κ ν) (n : ℕ) : Prop :=
  h.find 0 (h.cell n).label = some n

instance (h : TrieHeap κ ν) (n : ℕ) : Decidable (h.Linked n) :=
  inferInstanceAs (Decidable (_ = _))

section Linked

variable {vacant : ν → Bool} {h : TrieHeap κ ν} {n m x : ℕ} {ks : List κ}

theorem linked_zero (wf : h.WF) : h.Linked 0 := by
  rw [Linked, wf.root_label, find_nil]

/-- The label of a cell found from the root is its path. -/
theorem WF.label_of_find (wf : h.WF) (hf : h.find 0 ks = some n) : (h.cell n).label = ks := by
  rw [(wf.find_label hf).1, wf.root_label, nil_append]

theorem linked_of_find (wf : h.WF) (hf : h.find 0 ks = some n) : h.Linked n := by
  rw [Linked, wf.label_of_find hf, hf]

omit [Inhabited ν] in
/-- Paths below a linked cell are paths from the root. -/
theorem Linked.find_append (hl : h.Linked n) (ks : List κ) :
    h.find 0 ((h.cell n).label ++ ks) = h.find n ks := by
  rw [TrieHeap.find_append, hl, bind_some]

theorem Linked.valueFrom_append (hl : h.Linked n) (ks : List κ) :
    h.valueFrom 0 ((h.cell n).label ++ ks) = h.valueFrom n ks := by
  rw [valueFrom, valueFrom, hl.find_append]

theorem Linked.find (wf : h.WF) (hl : h.Linked n) (hf : h.find n ks = some m) :
    h.Linked m := by
  have hm : h.find 0 ((h.cell n).label ++ ks) = some m := by rw [hl.find_append, hf]
  exact linked_of_find wf hm

theorem Linked.lt (wf : h.WF) (hl : h.Linked n) : n < h.next :=
  wf.find_lt wf.next_pos hl

theorem Linked.grows (g : h.Grows h') (hn : n < h.next) (hl : h.Linked n) : h'.Linked n := by
  rw [Linked, g.label hn]
  exact g.find hl

omit [Inhabited ν] in
theorem linked_setValue {v : ν} : (h.setValue n v).Linked x ↔ h.Linked x := by
  rw [Linked, Linked, find_setValue, label_setValue]

/-- Pruning keeps the links to a cell below which some payload is not vacant. -/
theorem Linked.prunes (hp : h.Prunes vacant h') (wf : h.WF) (hl : h.Linked n)
    (hf : h.find n ks = some m) (ho : vacant (h.cell m).value = false) : h'.Linked n := by
  have hm : h'.find 0 ((h.cell n).label ++ ks) = some m := by
    refine hp.find_of_occupied wf ?_ ho
    rw [hl.find_append, hf]
  rw [TrieHeap.find_append, bind_eq_some_iff] at hm
  obtain ⟨y, hy, -⟩ := hm
  have hyn : h.find 0 (h.cell n).label = some y := hp.find_of_some wf hy
  rw [Linked, hp.label, hy, ← hyn, hl]

end Linked

/-! ### Parent links -/

section Ancestors

variable {h : TrieHeap κ ν} {n x fuel : ℕ}

/-- The labels on the way up are prefixes of the label below. -/
theorem WF.label_of_mem_ancestors (wf : h.WF) (hx : x ∈ h.ancestors fuel n) :
    (h.cell x).label <+: (h.cell n).label ∧ x ≤ n := by
  induction fuel generalizing n with
  | zero => simp [ancestors] at hx
  | succ fuel ih =>
    rw [ancestors, mem_cons] at hx
    rcases hx with rfl | hx
    · exact ⟨prefix_rfl, le_refl _⟩
    · cases hp : (h.cell n).parent with
      | none => simp [hp] at hx
      | some p =>
        rw [hp] at hx
        obtain ⟨hpre, hle⟩ := ih hx
        obtain ⟨k, hk⟩ := wf.parent_label hp
        refine ⟨hpre.trans ⟨[k], hk.symm⟩, le_trans hle (le_of_lt (wf.parent_lt hp))⟩

/-- No node is its own ancestor. -/
theorem WF.nodup_ancestors (wf : h.WF) : (h.ancestors fuel n).Nodup := by
  induction fuel generalizing n with
  | zero => exact nodup_nil
  | succ fuel ih =>
    rw [ancestors, nodup_cons]
    cases hp : (h.cell n).parent with
    | none => simp
    | some p =>
      refine ⟨fun hx => ?_, ih⟩
      have hle := (wf.label_of_mem_ancestors hx).2
      exact absurd (wf.parent_lt hp) (not_lt.mpr hle)

/-- The way up depends on the parent links only. -/
theorem ancestors_congr (wf : h.WF) (hp : ∀ x ≤ n, (h'.cell x).parent = (h.cell x).parent) :
    h'.ancestors fuel n = h.ancestors fuel n := by
  induction fuel generalizing n with
  | zero => rfl
  | succ fuel ih =>
    rw [ancestors, ancestors, hp n (le_refl n)]
    cases hpar : (h.cell n).parent with
    | none => rfl
    | some p =>
      have hlt := wf.parent_lt hpar
      rw [elim_some, elim_some, ih fun x hx => hp x (by omega)]

/-- The parent links from a linked cell pass exactly through the cells of the prefixes
of its path. -/
theorem mem_ancestors_iff (wf : h.WF) (hl : h.Linked n) (hfuel : n < fuel) :
    x ∈ h.ancestors fuel n ↔ ∃ ks, ks <+: (h.cell n).label ∧ h.find 0 ks = some x := by
  induction fuel generalizing n with
  | zero => exact absurd hfuel (not_lt_zero _)
  | succ fuel ih =>
    rw [ancestors, mem_cons]
    rcases eq_nil_or_concat' (h.cell n).label with hlab | ⟨q, k, hlab⟩
    · have hn : 0 = n := by
        rw [Linked, hlab, find_nil] at hl
        exact some.inj hl
      subst hn
      rw [wf.root_parent, hlab]
      simp [eq_comm]
    · rw [Linked, hlab, TrieHeap.find_append, bind_eq_some_iff] at hl
      obtain ⟨p, hp, hk⟩ := hl
      obtain ⟨m, hm, hmn⟩ := find_cons_eq_some_iff.mp hk
      obtain rfl := some.inj hmn
      have hpar := wf.child_parent hm
      have hplab := wf.label_of_find hp
      have hplt : p < fuel := lt_of_lt_of_le (wf.parent_lt hpar) (le_of_lt_succ hfuel)
      have hroot : h.find 0 (q ++ [k]) = some m := by
        rw [TrieHeap.find_append, hp]
        exact hk
      rw [hpar, elim_some, ih (linked_of_find wf hp) hplt, hplab, hlab]
      constructor
      · rintro (rfl | ⟨ks, hks, hf⟩)
        · exact ⟨q ++ [k], prefix_rfl, hroot⟩
        · exact ⟨ks, hks.trans (prefix_append _ _), hf⟩
      · rintro ⟨ks, hks, hf⟩
        rcases prefix_concat_iff.mp hks with rfl | hks
        · rw [hroot] at hf
          exact .inl (some.inj hf).symm
        · exact .inr ⟨ks, hks, hf⟩

end Ancestors

/-! ### Traversal -/

section Preorder

variable {h : TrieHeap κ ν} {n m fuel : ℕ} {ks : List κ}

omit [DecidableEq κ] [Inhabited ν] in
/-- The traversal depends on the children only. -/
theorem preorder_congr (hn : ∀ x, (h'.cell x).nested = (h.cell x).nested) :
    h'.preorder fuel n = h.preorder fuel n := by
  induction fuel generalizing n with
  | zero => rfl
  | succ fuel ih => simp only [preorder, hn, ih]

omit [Inhabited ν] in
/-- The traversal visits what is found at a smaller depth. -/
theorem mem_preorder_iff_length :
    m ∈ h.preorder fuel n ↔ ∃ ks, ks.length < fuel ∧ h.find n ks = some m := by
  induction fuel generalizing n with
  | zero => simp [preorder]
  | succ fuel ih =>
    rw [preorder, mem_cons, mem_flatMap]
    constructor
    · rintro (rfl | ⟨⟨k, c⟩, he, hm⟩)
      · exact ⟨[], succ_pos _, rfl⟩
      · obtain ⟨ks, hlen, hf⟩ := ih.mp hm
        refine ⟨k :: ks, succ_lt_succ hlen, find_cons_eq_some_iff.mpr ⟨c, ?_, hf⟩⟩
        exact AList.mem_lookup_iff.mpr he
    · rintro ⟨ks, hlen, hf⟩
      cases ks with
      | nil => exact .inl (some.inj hf).symm
      | cons k ks =>
        obtain ⟨c, hc, hf⟩ := find_cons_eq_some_iff.mp hf
        refine .inr ⟨⟨k, c⟩, AList.mem_lookup_iff.mp hc, ?_⟩
        exact ih.mpr ⟨ks, lt_of_succ_lt_succ hlen, hf⟩

/-- Every key on a path goes to a younger cell. -/
theorem WF.length_add_le (wf : h.WF) (hf : h.find n ks = some m) : n + ks.length ≤ m := by
  induction ks generalizing n with
  | nil => exact le_of_eq (some.inj hf)
  | cons k ks ih =>
    obtain ⟨_, hc, hf⟩ := find_cons_eq_some_iff.mp hf
    have hlt := (wf.child_bounds hc).1
    have hle := ih hf
    rw [length_cons]
    omega

/-- The traversal of a whole heap visits exactly the cells below `n`. -/
theorem mem_preorder_iff (wf : h.WF) (hn : n < h.next) :
    m ∈ h.preorder h.next n ↔ ∃ ks, h.find n ks = some m := by
  rw [mem_preorder_iff_length]
  constructor
  · rintro ⟨ks, -, hf⟩
    exact ⟨ks, hf⟩
  · rintro ⟨ks, hf⟩
    have hle := wf.length_add_le hf
    have hlt := wf.find_lt hn hf
    exact ⟨ks, by omega, hf⟩

end Preorder

end TrieHeap

end HermitMoq
