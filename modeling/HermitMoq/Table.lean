import Mathlib.Data.List.AList

/-!
# Tables

A general library about maps and a pass over a map in which every entry gets a new value or is
removed, as `HashMap::retain` of Rust does it.
-/

namespace HermitMoq

open List

/-- A map with at most one value for each key. -/
abbrev Table (κ α : Type) := AList fun _ : κ => α

namespace Table

variable {κ α : Type} {f : κ → α → Option α} {l : List (Sigma fun _ : κ => α)}

/-! ### Lists of entries -/

/-- The entries that have a new value, with it. -/
def retainEntries (f : κ → α → Option α) :
    List (Sigma fun _ : κ => α) → List (Sigma fun _ : κ => α)
  | [] => []
  | e :: l =>
    match f e.1 e.2 with
    | some a => ⟨e.1, a⟩ :: retainEntries f l
    | none => retainEntries f l

/-- The values that are removed. -/
def droppedEntries (f : κ → α → Option α) : List (Sigma fun _ : κ => α) → List α
  | [] => []
  | e :: l =>
    match f e.1 e.2 with
    | some _ => droppedEntries f l
    | none => e.2 :: droppedEntries f l

/-- The keys that are kept stand in their old order. -/
theorem keys_retainEntries (f : κ → α → Option α) (l : List (Sigma fun _ : κ => α)) :
    (retainEntries f l).keys.Sublist l.keys := by
  induction l with
  | nil => exact List.Sublist.refl _
  | cons e l ih =>
    rw [retainEntries]
    cases f e.1 e.2 with
    | some a => exact ih.cons_cons e.1
    | none => exact ih.cons e.1

/-- What is kept is found under its key. -/
theorem dlookup_retainEntries [DecidableEq κ] (h : l.NodupKeys) (k : κ) :
    (retainEntries f l).dlookup k = (l.dlookup k).bind (f k) := by
  induction l with
  | nil => rfl
  | cons e l ih =>
    obtain ⟨hnotin, hl⟩ := nodupKeys_cons.mp h
    replace ih := ih hl
    by_cases hk : k = e.1
    · subst hk
      rw [retainEntries, dlookup_cons_eq, Option.bind_some]
      cases hf : f e.1 e.2 with
      | some a => exact dlookup_cons_eq _ _ _
      | none =>
        rw [dlookup_eq_none]
        exact fun hmem => hnotin ((keys_retainEntries f l).subset hmem)
    · rw [dlookup_cons_ne l e hk, ← ih, retainEntries]
      cases f e.1 e.2 with
      | some a =>
        exact dlookup_cons_ne (retainEntries f l) (⟨e.1, a⟩ : Sigma fun _ : κ => α) hk
      | none => rfl

/-- What is dropped was there, and is not kept. -/
theorem mem_droppedEntries {a : α}
    (h : a ∈ droppedEntries f l) : ∃ k, ⟨k, a⟩ ∈ l ∧ f k a = none := by
  induction l with
  | nil => cases h
  | cons e l ih =>
    rw [droppedEntries] at h
    have hrest (h : a ∈ droppedEntries f l) : ∃ k, ⟨k, a⟩ ∈ e :: l ∧ f k a = none :=
      (ih h).imp fun k hk => hk.imp_left (mem_cons_of_mem e)
    cases hf : f e.1 e.2 with
    | some a' =>
      rw [hf] at h
      exact hrest h
    | none =>
      rw [hf] at h
      rcases mem_cons.mp h with rfl | h
      · exact ⟨e.1, mem_cons_self, hf⟩
      · exact hrest h

/-! ### Maps -/

/-- `HashMap::retain` with a function that changes the values it keeps. -/
def retain (f : κ → α → Option α) (m : Table κ α) : Table κ α :=
  ⟨retainEntries f m.entries, (keys_retainEntries f m.entries).nodup m.nodupKeys⟩

/-- The values that `retain` removes. -/
def dropped (f : κ → α → Option α) (m : Table κ α) : List α := droppedEntries f m.entries

variable [DecidableEq κ]

/-- A lookup after `retain` is one before it, filtered. -/
theorem lookup_retain (f : κ → α → Option α) (m : Table κ α) (k : κ) :
    (m.retain f).lookup k = (m.lookup k).bind (f k) :=
  dlookup_retainEntries m.nodupKeys k

end Table

end HermitMoq
