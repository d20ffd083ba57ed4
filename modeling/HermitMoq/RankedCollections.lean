import Mathlib.Data.List.Perm.Basic
import Mathlib.Data.List.TakeWhile
import Mathlib.Order.Lattice

/-!
# Collections Ordered by a Rank

Lists sorted by a rank, smallest first, and what a standard library promises about searching
them and about heaps. A search returns some position at which the list stays sorted, and a heap
gives out some element of least rank; of elements of equal rank, neither says which. So both
are structures, an implementation together with what it promises.
-/

namespace HermitMoq

open List

variable {α κ : Type} [LinearOrder κ] {rank : α → κ} {l : List α}

/-- The list is sorted by rank. -/
def Ranked (rank : α → κ) (l : List α) : Prop := l.Pairwise fun a b => rank a ≤ rank b

/-- A search for the position of an element in a sorted list. -/
structure Search (rank : α → κ) where
  pos : List α → α → ℕ
  pos_le : ∀ {l a}, Ranked rank l → pos l a ≤ l.length
  before : ∀ {l a}, Ranked rank l → ∀ x ∈ l.take (pos l a), rank x ≤ rank a
  after : ∀ {l a}, Ranked rank l → ∀ x ∈ l.drop (pos l a), rank a ≤ rank x

/-- A heap that gives out elements of least rank. -/
structure MinHeap (rank : α → κ) where
  Carrier : Type
  /-- The elements, in no particular order. -/
  toList : Carrier → List α
  empty : Carrier
  push : Carrier → α → Carrier
  peek : Carrier → Option α
  pop : Carrier → Option (α × Carrier)
  toList_empty : toList empty = []
  toList_push : ∀ h a, (toList (push h a)).Perm (a :: toList h)
  peek_none : ∀ {h}, peek h = none → toList h = []
  peek_le : ∀ {h a}, peek h = some a → ∀ b ∈ toList h, rank a ≤ rank b
  pop_none : ∀ {h}, pop h = none → peek h = none
  pop_peek : ∀ {h a h'}, pop h = some (a, h') → peek h = some a
  toList_pop : ∀ {h a h'}, pop h = some (a, h') → (toList h).Perm (a :: toList h')

/-! ### Sorted lists -/

theorem Ranked.insertAt (h : Ranked rank l) {a : α} {i : ℕ}
    (hbefore : ∀ x ∈ l.take i, rank x ≤ rank a) (hafter : ∀ x ∈ l.drop i, rank a ≤ rank x) :
    Ranked rank (l.take i ++ a :: l.drop i) := by
  have hsplit := h
  rw [← take_append_drop i l, Ranked, pairwise_append] at hsplit
  refine pairwise_append.mpr ⟨hsplit.1, pairwise_cons.mpr ⟨hafter, hsplit.2.1⟩, ?_⟩
  rintro x hx y hy
  rcases mem_cons.mp hy with rfl | hy
  · exact hbefore x hx
  · exact hsplit.2.2 x hx y hy

/-- Inserting at the position found keeps the list sorted. -/
theorem Ranked.insert (h : Ranked rank l) (search : Search rank) (a : α) :
    Ranked rank (l.take (search.pos l a) ++ a :: l.drop (search.pos l a)) :=
  h.insertAt (search.before h) (search.after h)

theorem Ranked.append_singleton (h : Ranked rank l) {a : α}
    (ha : ∀ x ∈ l, rank x ≤ rank a) : Ranked rank (l ++ [a]) :=
  pairwise_append.mpr ⟨h, pairwise_singleton _ a, fun x hx y hy => by
    rw [mem_singleton.mp hy]
    exact ha x hx⟩

/-! ### Implementations -/

/-- What is left has at least the rank. -/
theorem rank_le_of_mem_dropWhile (h : Ranked rank l) {a x : α}
    (hx : x ∈ l.dropWhile fun y => decide (rank y < rank a)) : rank a ≤ rank x := by
  induction l with
  | nil => cases hx
  | cons y l ih =>
    obtain ⟨hy, hl⟩ := pairwise_cons.mp h
    rw [dropWhile_cons] at hx
    split_ifs at hx with hlt
    · exact ih hl hx
    · have hle : rank a ≤ rank y := not_lt.mp (by simpa using hlt)
      rcases mem_cons.mp hx with rfl | hx
      · exact hle
      · exact hle.trans (hy x hx)

/-- Search from the front. -/
def Search.linear (rank : α → κ) : Search rank where
  pos l a := (l.takeWhile fun y => decide (rank y < rank a)).length
  pos_le _ := List.IsPrefix.length_le <| List.takeWhile_prefix _
  before {l a} _ x hx := by
    rw [← List.prefix_iff_eq_take.mp <| List.takeWhile_prefix _] at hx
    have hlt := List.mem_takeWhile_imp hx
    exact (of_decide_eq_true hlt).le
  after {l a} h x hx := by
    have htake := List.prefix_iff_eq_take.mp <|
      List.takeWhile_prefix (l := l) fun y => decide (rank y < rank a)
    have hdrop := List.take_append_drop (l.takeWhile fun y => decide (rank y < rank a)).length l
    rw [← htake] at hdrop
    rw [List.append_cancel_left (hdrop.trans List.takeWhile_append_dropWhile.symm)] at hx
    exact rank_le_of_mem_dropWhile h hx

/-- The heap that keeps its elements sorted. -/
def MinHeap.sorted (rank : α → κ) : MinHeap rank where
  Carrier := {l : List α // Ranked rank l}
  toList h := h.1
  empty := ⟨[], List.Pairwise.nil⟩
  push h a := ⟨_, h.2.insert (Search.linear rank) a⟩
  peek h := h.1.head?
  pop h :=
    match h with
    | ⟨[], _⟩ => none
    | ⟨a :: l, hl⟩ => some (a, ⟨l, (List.pairwise_cons.mp hl).2⟩)
  toList_empty := rfl
  toList_push h a := by
    refine List.perm_middle.trans (List.Perm.of_eq ?_)
    rw [List.take_append_drop]
  peek_none h := List.head?_eq_none_iff.mp h
  peek_le {h a} ha b hb := by
    obtain ⟨l, hl⟩ := h
    cases l with
    | nil => cases hb
    | cons x l =>
      cases ha
      rcases List.mem_cons.mp hb with rfl | hb
      · exact le_rfl
      · exact (List.pairwise_cons.mp hl).1 b hb
  pop_none {h} hp := by
    obtain ⟨l, hl⟩ := h
    cases l with
    | nil => rfl
    | cons x l => cases hp
  pop_peek {h a h'} hp := by
    obtain ⟨l, hl⟩ := h
    cases l with
    | nil => cases hp
    | cons x l =>
      cases hp
      rfl
  toList_pop {h a h'} hp := by
    obtain ⟨l, hl⟩ := h
    cases l with
    | nil => cases hp
    | cons x l =>
      cases hp
      exact List.Perm.refl _

end HermitMoq
