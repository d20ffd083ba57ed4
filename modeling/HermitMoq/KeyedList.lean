import Mathlib.Data.List.Nodup
import Mathlib.Data.List.Perm.Subperm
import Mathlib.Order.Lattice

/-!
# Maps as Lists Sorted by Key

A map over a linear order of keys, as the list of its entries in the order of the keys. Sorted
lists with the same values are equal, so an equation of maps is one of lists.
-/

namespace HermitMoq

open List

namespace Keyed

variable {κ α : Type} [LinearOrder κ]

/-- The value at a key. -/
def get (k : κ) : List (κ × α) → Option α
  | [] => none
  | (k', a) :: l => if k = k' then some a else get k l

/-- Set the value at a key. -/
def insert (k : κ) (a : α) : List (κ × α) → List (κ × α)
  | [] => [(k, a)]
  | (k', b) :: l =>
    if k < k' then (k, a) :: (k', b) :: l
    else if k = k' then (k, a) :: l
    else (k', b) :: insert k a l

/-- Remove a key. -/
def erase (k : κ) : List (κ × α) → List (κ × α)
  | [] => []
  | (k', b) :: l => if k = k' then l else (k', b) :: erase k l

/-- The keys increase. -/
def Sorted (l : List (κ × α)) : Prop := l.Pairwise fun a b => a.1 < b.1

instance (l : List (κ × α)) : Decidable (Sorted l) :=
  inferInstanceAs (Decidable (List.Pairwise _ l))

variable {k j : κ} {a : α} {l l' : List (κ × α)}

/-! ### Keys and values -/

/-- What is found is in the list. -/
theorem mem_of_get (h : get k l = some a) : (k, a) ∈ l := by
  induction l with
  | nil => cases h
  | cons e l ih =>
    rw [get] at h
    split_ifs at h with hk
    · cases h
      exact hk ▸ mem_cons_self
    · exact mem_cons_of_mem e (ih h)

/-- Nothing is found exactly for the keys that do not occur. -/
theorem get_eq_none_iff : get k l = none ↔ k ∉ l.map Prod.fst := by
  induction l with
  | nil => simp [get]
  | cons e l ih =>
    rw [get, map_cons, mem_cons, not_or, ← ih]
    split_ifs with hk <;> simp [hk]

/-- Something is found exactly for the keys that occur. -/
theorem isSome_get_iff : (get k l).isSome ↔ k ∈ l.map Prod.fst := by
  rw [← not_iff_not, ← get_eq_none_iff, Option.not_isSome_iff_eq_none]

/-- A sorted list has no key twice. -/
theorem Sorted.nodup (h : Sorted l) : (l.map Prod.fst).Nodup :=
  pairwise_map.mpr (h.imp fun hlt => hlt.ne)

/-- In a sorted list every entry is found. -/
theorem Sorted.get_of_mem (h : Sorted l) (hmem : (k, a) ∈ l) : get k l = some a := by
  induction l with
  | nil => cases hmem
  | cons e l ih =>
    obtain ⟨he, hl⟩ := pairwise_cons.mp h
    rw [get]
    rcases mem_cons.mp hmem with rfl | hmem
    · rw [if_pos rfl]
    · rw [if_neg (he _ hmem).ne', ih hl hmem]

/-- A sorted list is determined by its values. -/
theorem Sorted.ext (h : Sorted l) (h' : Sorted l') (heq : ∀ k, get k l = get k l') : l = l' := by
  have hsub : ∀ {l l' : List (κ × α)}, Sorted l → Sorted l' → (∀ k, get k l = get k l') →
      ∀ e ∈ l, e ∈ l' := fun h _ heq e he =>
    mem_of_get ((heq e.1).symm.trans (h.get_of_mem he))
  refine List.Perm.eq_of_pairwise (fun a b _ _ hab hba => (lt_asymm hab hba).elim) h h' ?_
  refine (perm_ext_iff_of_nodup ?_ ?_).mpr fun e =>
    ⟨hsub h h' heq e, hsub h' h (fun k => (heq k).symm) e⟩
  · exact List.Nodup.of_map _ h.nodup
  · exact List.Nodup.of_map _ h'.nodup

/-! ### Updates -/

/-- An insertion changes what is found under its key alone. -/
theorem get_insert (j k : κ) (a : α) (l : List (κ × α)) :
    get j (insert k a l) = if j = k then some a else get j l := by
  induction l with
  | nil => rfl
  | cons e l ih =>
    rw [insert]
    split_ifs with hlt heq hjk hjk hjk <;> simp_all [get]

/-- An erasure changes what is found under its key alone. -/
theorem Sorted.get_erase (h : Sorted l) (j k : κ) :
    get j (erase k l) = if j = k then none else get j l := by
  induction l with
  | nil => simp [erase, get]
  | cons e l ih =>
    obtain ⟨he, hl⟩ := pairwise_cons.mp h
    have hnone : get e.1 l = none := get_eq_none_iff.mpr fun hmem => by
      obtain ⟨x, hx, hkey⟩ := mem_map.mp hmem
      exact (he x hx).ne' hkey
    have ih := ih hl
    rw [erase]
    split_ifs with hk hjk hjk <;> simp_all [get]

/-- An insertion adds no other entry. -/
theorem fst_mem_insert {e : κ × α} (h : e ∈ insert k a l) : e.1 = k ∨ e ∈ l := by
  induction l with
  | nil => exact Or.inl (by rw [mem_singleton.mp h])
  | cons x l ih =>
    rw [insert] at h
    split_ifs at h with hlt heq
    · rcases mem_cons.mp h with rfl | h
      · exact Or.inl rfl
      · exact Or.inr h
    · rcases mem_cons.mp h with rfl | h
      · exact Or.inl rfl
      · exact Or.inr (mem_cons_of_mem x h)
    · rcases mem_cons.mp h with rfl | h
      · exact Or.inr mem_cons_self
      · exact (ih h).imp_right (mem_cons_of_mem x)

/-- An insertion keeps the order. -/
theorem Sorted.insert (h : Sorted l) (k : κ) (a : α) : Sorted (insert k a l) := by
  induction l with
  | nil => exact pairwise_singleton _ _
  | cons e l ih =>
    obtain ⟨he, hl⟩ := pairwise_cons.mp h
    rw [Keyed.insert]
    split_ifs with hlt heq
    · refine pairwise_cons.mpr ⟨fun x hx => ?_, h⟩
      rcases mem_cons.mp hx with rfl | hx
      · exact hlt
      · exact hlt.trans (he x hx)
    · exact pairwise_cons.mpr ⟨fun x hx => heq ▸ he x hx, hl⟩
    · refine pairwise_cons.mpr ⟨fun x hx => ?_, ih hl⟩
      rcases fst_mem_insert hx with hxk | hx
      · rw [hxk]
        exact lt_of_le_of_ne (not_lt.mp hlt) (Ne.symm heq)
      · exact he x hx

/-- An erasure leaves a part of the list. -/
theorem erase_sublist (k : κ) (l : List (κ × α)) : (erase k l).Sublist l := by
  induction l with
  | nil => exact List.Sublist.refl _
  | cons e l ih =>
    rw [erase]
    split_ifs
    · exact sublist_cons_self e l
    · exact ih.cons_cons e

/-- An erasure keeps the order. -/
theorem Sorted.erase (h : Sorted l) (k : κ) : Sorted (erase k l) :=
  List.Pairwise.sublist (erase_sublist k l) h

end Keyed

end HermitMoq
