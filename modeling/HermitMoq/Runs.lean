import Mathlib.Data.List.Perm.Basic

/-!
# Runs of Systems That May Fail

A general library: a system takes actions one after another, each of which gives the next
state or fails. `run` executes a list of actions and stops at the first failure; `Meets`
says that every action of a run satisfies a condition in the state it is taken in. Systems
keep their tasks in lists, from which an action takes a task by its index.
-/

namespace HermitMoq

variable {σ α ε : Type*} {step : σ → α → Except ε σ} {P : σ → α → Prop}

/-- Take the actions one after another, stopping at the first failure. -/
def run (step : σ → α → Except ε σ) : σ → List α → Except ε σ
  | s, [] => .ok s
  | s, a :: as =>
    match step s a with
    | .ok s' => run step s' as
    | .error e => .error e

/-- Every action that is taken meets the condition in the state it is taken in. -/
def Meets (step : σ → α → Except ε σ) (P : σ → α → Prop) : σ → List α → Prop
  | _, [] => True
  | s, a :: as =>
    P s a ∧
      match step s a with
      | .ok s' => Meets step P s' as
      | .error _ => True

instance Meets.decidable [∀ s a, Decidable (P s a)] :
    (s : σ) → (as : List α) → Decidable (Meets step P s as)
  | _, [] => isTrue trivial
  | s, a :: as =>
    have : Decidable (match step s a with
        | .ok s' => Meets step P s' as
        | .error _ => True) :=
      match step s a with
      | .ok s' => Meets.decidable s' as
      | .error _ => isTrue trivial
    inferInstanceAs (Decidable (_ ∧ _))

variable {s : σ} {s' : σ}

theorem run_cons_of_ok {a : α} (h : step s a = .ok s') (as : List α) :
    run step s (a :: as) = run step s' as := by
  rw [run, h]

theorem meets_cons_of_ok {a : α} (h : step s a = .ok s') (as : List α) :
    Meets step P s (a :: as) ↔ P s a ∧ Meets step P s' as := by
  rw [Meets, h]

variable {I : σ → Prop} {as : List α}

/-- An invariant kept by every step that meets the condition is kept by every run that
meets it, and such a run does not fail. -/
theorem Meets.invariant (hstep : ∀ {s a}, I s → P s a → ∃ s', step s a = .ok s' ∧ I s') (hs : I s)
    (hm : Meets step P s as) : ∃ s', run step s as = .ok s' ∧ I s' := by
  induction as generalizing s with
  | nil => exact ⟨s, rfl, hs⟩
  | cons a as ih =>
    obtain ⟨_, hrun, hs₁⟩ := hstep hs hm.1
    obtain ⟨-, hm⟩ := (meets_cons_of_ok hrun as).mp hm
    rw [run_cons_of_ok hrun]
    exact ih hs₁ hm

/-- A run that meets a condition meets every weaker one. -/
theorem Meets.mono {Q : σ → α → Prop} (h : ∀ {s a}, P s a → Q s a)
    (hm : Meets step P s as) : Meets step Q s as := by
  induction as generalizing s with
  | nil => trivial
  | cons a as ih =>
    refine ⟨h hm.1, ?_⟩
    cases hstep : step s a with
    | error e => trivial
    | ok s' => exact ih ((meets_cons_of_ok hstep as).mp hm).2

theorem meets_true (s : σ) (as : List α) : Meets step (fun _ _ => True) s as := by
  induction as generalizing s with
  | nil => trivial
  | cons a as ih =>
    refine ⟨trivial, ?_⟩
    cases step s a with
    | error e => trivial
    | ok s' => exact ih s'

/-- An invariant kept by every step is kept by every run, which does not fail. -/
theorem run_invariant (hstep : ∀ {s} (a), I s → ∃ s', step s a = .ok s' ∧ I s') (hs : I s)
    (as : List α) : ∃ s', run step s as = .ok s' ∧ I s' :=
  (meets_true s as).invariant (fun hs _ => hstep _ hs) hs

/-- An invariant of the number of steps and the state, kept by every step that meets the condition
and succeeds, holds where a run that meets it ends. -/
theorem Meets.preserves_length {I : ℕ → σ → Prop} {n : ℕ}
    (hstep : ∀ {n s a s'}, I n s → P s a → step s a = .ok s' → I (n + 1) s') (hs : I n s)
    (hm : Meets step P s as) (hrun : run step s as = .ok s') : I (n + as.length) s' := by
  induction as generalizing s n with
  | nil => exact Except.ok.inj hrun ▸ hs
  | cons a as ih =>
    cases h : step s a with
    | error e =>
      rw [run, h] at hrun
      cases hrun
    | ok s₁ =>
      obtain ⟨hp, hm⟩ := (meets_cons_of_ok h as).mp hm
      rw [List.length_cons, Nat.add_comm as.length, ← Nat.add_assoc]
      exact ih (hstep hs hp h) hm (run_cons_of_ok h as ▸ hrun)

/-- An invariant kept by every step that meets the condition and succeeds holds where a run that
meets it ends. -/
theorem Meets.preserves (hstep : ∀ {s a s'}, I s → P s a → step s a = .ok s' → I s')
    (hs : I s) (hm : Meets step P s as) (hrun : run step s as = .ok s') : I s' :=
  hm.preserves_length (I := fun _ => I) (n := 0) hstep hs hrun

/-- An invariant kept by every step that succeeds holds where a run ends. -/
theorem run_preserves (hstep : ∀ {s a s'}, I s → step s a = .ok s' → I s') (hs : I s)
    (hrun : run step s as = .ok s') : I s' :=
  (meets_true s as).preserves (fun hs _ => hstep hs) hs hrun

/-- A failure that no step from an invariant state has is not that of a run. -/
theorem run_ne_error (hstep : ∀ {s a s'}, I s → step s a = .ok s' → I s') {e : ε}
    (hne : ∀ {s a}, I s → step s a ≠ .error e) (hs : I s) (as : List α) :
    run step s as ≠ .error e := by
  induction as generalizing s with
  | nil => exact nofun
  | cons a as ih =>
    cases h : step s a with
    | error e' =>
      rw [run, h]
      exact fun heq => hne hs (Except.error.inj heq ▸ h)
    | ok s₁ =>
      rw [run_cons_of_ok h]
      exact ih (hstep hs h)

/-- A property that each step keeps exactly if it meets the condition holds all along a run
exactly if the run meets the condition. -/
theorem forall_take_iff_meets {Q : σ → Prop} (hI : ∀ {s a s'}, I s → step s a = .ok s' → I s')
    (hQ : ∀ {s a s'}, I s → Q s → step s a = .ok s' → (Q s' ↔ P s a))
    (herr : ∀ {s a e}, I s → step s a = .error e → P s a) (hs : I s) (hq : Q s) (as : List α) :
    (∀ n s', run step s (as.take n) = .ok s' → Q s') ↔ Meets step P s as := by
  induction as generalizing s with
  | nil =>
    refine ⟨fun _ => trivial, fun _ n s' hrun => ?_⟩
    rw [List.take_nil] at hrun
    exact Except.ok.inj hrun ▸ hq
  | cons a as ih =>
    cases h : step s a with
    | error e =>
      refine ⟨fun _ => ⟨herr hs h, by rw [h]; trivial⟩, fun _ n s' hrun => ?_⟩
      cases n with
      | zero => exact Except.ok.inj hrun ▸ hq
      | succ n =>
        rw [List.take_succ_cons, run, h] at hrun
        cases hrun
    | ok s₁ =>
      rw [meets_cons_of_ok h]
      constructor
      · intro hall
        have hq₁ : Q s₁ := hall 1 s₁ (by rw [List.take_succ_cons, run_cons_of_ok h]; rfl)
        refine ⟨(hQ hs hq h).mp hq₁, (ih (hI hs h) hq₁).mp fun n s' hrun => ?_⟩
        exact hall (n + 1) s' (by rw [List.take_succ_cons, run_cons_of_ok h, hrun])
      · rintro ⟨hp, hm⟩ n s' hrun
        cases n with
        | zero => exact Except.ok.inj hrun ▸ hq
        | succ n =>
          rw [List.take_succ_cons, run_cons_of_ok h] at hrun
          exact (ih (hI hs h) ((hQ hs hq h).mpr hp)).mpr hm n s' hrun

/-- A sequence of computations succeeds if all of them do. -/
theorem bind_eq_ok {ε α β : Type} {x : Except ε α} {f : α → Except ε β} {b : β} :
    x >>= f = .ok b ↔ ∃ a, x = .ok a ∧ f a = .ok b := by
  cases x <;> simp [bind, Except.bind]

theorem mapError_eq_ok {ε ε' α : Type} {x : Except ε α} {f : ε → ε'} {a : α} :
    x.mapError f = .ok a ↔ x = .ok a := by
  cases x <;> simp [Except.mapError]

/-- The task at an index comes first, up to the order. -/
theorem perm_cons_eraseIdx {l : List α} {i : ℕ} {x : α} (h : l[i]? = some x) :
    l.Perm (x :: l.eraseIdx i) := by
  obtain ⟨hlt, rfl⟩ := List.getElem?_eq_some_iff.mp h
  exact (List.getElem_cons_eraseIdx_perm hlt).symm

end HermitMoq
