import Mathlib.Data.List.Chain

/-!
# Toggling Logs

A general library: the log of updates a reader has received about one key, each either
`some b` (the key now holds `b`) or `none` (it holds nothing). A log **alternates** if
`some` and `none` take turns and the first update is `some`; a reader that starts with
nothing then never learns twice in a row that something is there, nor that nothing is.
-/

namespace HermitMoq

variable {β : Type*} {log : List (Option β)} {u : Option β}

/-- What the key holds according to a log. -/
def shown (log : List (Option β)) : Option β := log.getLast?.join

/-- The updates of a log take turns, starting with `some`. -/
def Alternates (log : List (Option β)) : Prop :=
  List.IsChain (fun u v => u.isSome ≠ v.isSome) (none :: log)

instance (log : List (Option β)) : Decidable (Alternates log) :=
  inferInstanceAs (Decidable (List.IsChain _ _))

@[simp] theorem shown_nil : shown ([] : List (Option β)) = none := rfl

@[simp] theorem shown_concat : shown (log ++ [u]) = u := by
  simp [shown]

/-- Appending an update keeps the turns if it differs in kind from what is shown. -/
theorem alternates_concat :
    Alternates (log ++ [u]) ↔ Alternates log ∧ (shown log).isSome ≠ u.isSome := by
  have hlast : (none :: log).getLast? = some (shown log) := by
    rw [List.getLast?_cons, shown]
    cases log.getLast? with
    | none => rfl
    | some v => rfl
  rw [Alternates, Alternates, ← List.cons_append, List.isChain_append, hlast]
  simp

/-- No `some` follows another `some`. -/
def NoRepeat (log : List (Option β)) : Prop :=
  List.IsChain (fun u v => u = none ∨ v = none) log

theorem noRepeat_concat : NoRepeat (log ++ [u]) ↔ NoRepeat log ∧ (shown log = none ∨ u = none) := by
  rw [NoRepeat, NoRepeat, List.isChain_append, shown]
  cases log.getLast? with
  | none => simp
  | some v => simp

end HermitMoq
