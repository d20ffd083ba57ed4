import HermitMoq.Kio
import HermitMoq.Runs
import Mathlib.Data.Fintype.EquivFin

/-!
# How Long a List of Waiters Gets

A registration looks at no more than two slots and reuses the first of them whose waiter was
dropped. The cursor passes a slot only while its waiter is alive, but with two tasks that
are polled in turn it does: each reuses the slot after that of the other. Once in a lap the
cursor then comes to a waiter that stays, finds two live slots in a row, and a slot is
appended. So the list grows without bound while no more than three waiters are alive.
-/

namespace HermitMoq

open List Nat

namespace WaiterList

variable {alive : WaiterId → Bool} {w : WaiterId} {l : WaiterList}

theorem next_slot (hlt : l.cursor < l.entries.length) :
    l.cursor + 1 < l.entries.length ∧ (l.cursor + 1) % l.entries.length = l.cursor + 1 ∨
      l.cursor + 1 = l.entries.length ∧ (l.cursor + 1) % l.entries.length = 0 := by
  rcases lt_or_eq_of_le (succ_le_of_lt hlt) with hlt | heq
  · exact .inl ⟨hlt, mod_eq_of_lt hlt⟩
  · exact .inr ⟨heq, Nat.mod_eq_zero_of_dvd (heq ▸ Nat.dvd_refl _)⟩

/-- A registration reuses a slot whose waiter was dropped, at the cursor or after a live slot
there, or appends one; with two slots or more it has then seen two live ones. -/
theorem register_cases :
    (∃ i e, l.entries[i]? = some e ∧ alive e = false ∧
      (l.register alive w).entries = l.entries.set i w ∧ (l.register alive w).cursor = i ∧
      (i = l.cursor ∨ i = (l.cursor + 1) % l.entries.length)) ∨
    (l.register alive w).entries = l.entries ++ [w] ∧
      (l.entries.Nodup → 2 ≤ l.entries.length →
        ∃ e ∈ l.entries, ∃ e' ∈ l.entries, e ≠ e' ∧ alive e = true ∧ alive e' = true) := by
  have hprobe : ∀ {n} (hn : min l.entries.length 2 = n),
      l.register alive w = probe alive w n l (hn ▸ min_le_left _ _) := by
    rintro _ rfl
    rfl
  obtain hlen | hlen | hlen : l.entries.length = 0 ∨ l.entries.length = 1 ∨ 2 ≤ l.entries.length :=
    by omega
  · rw [@hprobe 0 (by omega), probe]
    exact .inr ⟨rfl, by omega⟩
  · rw [@hprobe 1 (by omega), probe]
    split_ifs with hslot
    · exact .inr ⟨rfl, by omega⟩
    · exact .inl ⟨_, _, getElem?_eq_getElem _, eq_false_of_ne_true hslot, rfl, rfl, .inl rfl⟩
  · have hne : l.cursor ≠ (l.cursor + 1) % l.entries.length := by
      rcases next_slot (l.cursor_lt (by omega)) with h | h <;> omega
    rw [@hprobe 2 (by omega), probe]
    split_ifs with hslot
    · rw [probe]
      split_ifs with hnext
      · exact .inr ⟨rfl, fun hnodup _ => ⟨_, get_mem _ _, _, get_mem _ _,
          fun heq => hne (congrArg Fin.val (hnodup.get_inj_iff.mp heq)), hslot, hnext⟩⟩
      · exact .inl ⟨_, _, getElem?_eq_getElem _, eq_false_of_ne_true hnext, rfl, rfl, .inr rfl⟩
    · exact .inl ⟨_, _, getElem?_eq_getElem _, eq_false_of_ne_true hslot, rfl, rfl, .inl rfl⟩

end WaiterList

/-- A list of waiters, and those of its waiters that were not dropped. -/
structure Waiters where
  list : WaiterList
  alive : List WaiterId

inductive WaiterOp
  /-- `Waiter::register`, of a waiter that may be new. -/
  | register (w : WaiterId)
  /-- The owner drops the waiter. -/
  | drop (w : WaiterId)

/-- A waiter was used after it was dropped. -/
inductive Misuse
  | dropped

namespace Waiters

def start : Waiters := ⟨.new, []⟩

/-- A slot keeps the allocation of its waiter, so that a new waiter is in no slot. -/
def step (s : Waiters) : WaiterOp → Except Misuse Waiters
  | .register w =>
    if w ∈ s.alive ∨ w ∉ s.list.entries then
      .ok ⟨s.list.register (· ∈ s.alive.insert w) w, s.alive.insert w⟩
    else .error .dropped
  | .drop w => if w ∈ s.alive then .ok { s with alive := s.alive.erase w } else .error .dropped

/-- No more than `k` waiters are alive after the step. -/
def AtMost (k : ℕ) (s : Waiters) (a : WaiterOp) : Prop :=
  ∀ s', s.step a = .ok s' → s'.alive.length ≤ k

/-- No waiter registers again. -/
def Once (s : Waiters) (a : WaiterOp) : Prop := ∀ w, a = .register w → w ∉ s.list.entries

/-- In every run that meets the condition the list has no more than `bound` slots. -/
def Bounded (P : Waiters → WaiterOp → Prop) (bound : ℕ) : Prop :=
  ∀ ops s, Meets step P start ops → run step start ops = .ok s → s.list.entries.length ≤ bound

variable {s s' : Waiters} {a : WaiterOp} {k n : ℕ} {P : Waiters → WaiterOp → Prop} {x : WaiterId}

/-! ### Two live waiters -/

/-- There are at most two slots, of different waiters. -/
structure Short (s : Waiters) : Prop where
  nodup : s.list.entries.Nodup
  length : s.list.entries.length ≤ 2

/-- Two waiters at a time keep the list short. -/
theorem Short.step (hk : k ≤ 2) (hs : s.Short) (hp : AtMost k s a ∧ Once s a)
    (hstep : s.step a = .ok s') : s'.Short := by
  have halive := hp.1 s' hstep
  cases a with
  | drop w =>
    rw [Waiters.step] at hstep
    split_ifs at hstep
    cases hstep
    exact ⟨hs.nodup, hs.length⟩
  | register w =>
    have hw := hp.2 w rfl
    rw [Waiters.step, if_pos (.inr hw)] at hstep
    cases hstep
    rcases @WaiterList.register_cases (· ∈ s.alive.insert w) w s.list with
      ⟨i, -, -, -, hset, -⟩ | ⟨hpush, hlive⟩
    · exact ⟨hset ▸ hs.nodup.set hw, by rw [hset, length_set]; exact hs.length⟩
    · refine ⟨?_, ?_⟩
      · rw [hpush, ← concat_eq_append]
        exact hs.nodup.concat hw
      · rw [hpush, length_append, length_singleton]
        by_contra hlong
        obtain ⟨e, he, e', he', hne, hlive, _⟩ := hlive hs.nodup (by omega)
        have hsub : [w, e, e'] ⊆ s.alive.insert w := by simp_all
        have hnodup : [w, e, e'].Nodup := by
          simp [hne, ne_of_mem_of_not_mem he hw |>.symm, ne_of_mem_of_not_mem he' hw |>.symm]
        have hle := (subperm_of_subset hnodup hsub).length_le
        exact absurd (hle.trans (halive.trans hk)) (by simp)

/-! ### Three live waiters -/

/-- The list can get `n` slots from here. -/
def Reaches (P : Waiters → WaiterOp → Prop) (n : ℕ) (s : Waiters) : Prop :=
  ∃ ops s', Meets step P s ops ∧ run step s ops = .ok s' ∧ n ≤ s'.list.entries.length

theorem Reaches.step (hstep : s.step a = .ok s') (hp : P s a) (h : Reaches P n s') :
    Reaches P n s := by
  obtain ⟨ops, s₁, hm, hrun, hlen⟩ := h
  exact ⟨a :: ops, s₁, (meets_cons_of_ok hstep ops).mpr ⟨hp, hm⟩,
    (run_cons_of_ok hstep ops).trans hrun, hlen⟩

theorem atMost_of_ok (hstep : s.step a = .ok s') (hle : s'.alive.length ≤ k) : AtMost k s a := by
  intro s₁ h
  cases hstep.symm.trans h
  exact hle

/-- The waiter `0` keeps the first slot, and one other is alive. -/
structure Lap (s : Waiters) (x : WaiterId) : Prop where
  alive : s.alive = [x, 0]
  other : x ≠ 0
  nodup : s.list.entries.Nodup
  keeper : s.list.entries[0]? = some 0

/-- How far the cursor is from the first slot, counting a slot to be reused on the way. -/
def ahead (s : Waiters) : ℕ :=
  2 * (s.list.entries.length - s.list.cursor) +
    if ∃ e ∈ s.alive, s.list.entries[s.list.cursor]? = some e then 0 else 1

/-- A new waiter registers and then the other one is dropped: the list is longer, or the cursor
is nearer to the first slot. -/
theorem Lap.turn (h : s.Lap x) : ∃ w s₁ s', s.step (.register w) = .ok s₁ ∧
    w ∉ s.list.entries ∧ s₁.alive.length = 3 ∧ s₁.step (.drop x) = .ok s' ∧ s'.Lap w ∧
    (s'.list.entries.length = s.list.entries.length + 1 ∨
      s'.list.entries.length = s.list.entries.length ∧ s'.ahead < s.ahead) := by
  obtain ⟨list, alive⟩ := s
  obtain rfl : alive = [x, 0] := h.alive
  obtain ⟨w, hw⟩ := Infinite.exists_notMem_finset (x :: 0 :: list.entries).toFinset
  simp only [mem_toFinset, mem_cons, not_or] at hw
  obtain ⟨hwx, hw0, hw⟩ := hw
  have hinsert : [x, 0].insert w = [w, x, 0] := insert_of_not_mem (by simp [hwx, hw0])
  have herase : [w, x, 0].erase x = [w, 0] := by simp [hwx]
  refine ⟨w, ⟨list.register (· ∈ [w, x, 0]) w, [w, x, 0]⟩,
    ⟨list.register (· ∈ [w, x, 0]) w, [w, 0]⟩, ?_, hw, rfl, ?_, ?_⟩
  · rw [step, if_pos (.inr hw), hinsert]
  · rw [step, if_pos (by simp), herase]
  rcases @WaiterList.register_cases (· ∈ [w, x, 0]) w list with
    ⟨i, e, he, hdead, hset, hcursor, hi⟩ | ⟨hpush, -⟩
  · have hdead := of_decide_eq_false hdead
    have hi0 : i ≠ 0 := by
      rintro rfl
      cases h.keeper.symm.trans he
      exact hdead (by simp)
    have hlt := (List.getElem?_eq_some_iff.mp he).1
    refine ⟨⟨rfl, hw0, hset ▸ h.nodup.set hw, ?_⟩, .inr ⟨by rw [hset, length_set], ?_⟩⟩
    · rw [hset, getElem?_set_ne hi0, h.keeper]
    · rw [ahead, ahead, hcursor, hset, length_set, if_pos ⟨w, by simp, getElem?_set_self hlt⟩]
      rcases hi with rfl | hi
      · rw [if_neg]
        · exact lt_succ_self _
        · rintro ⟨_, hmem, he'⟩
          cases he.symm.trans he'
          exact hdead (mem_cons_of_mem w hmem)
      · rcases WaiterList.next_slot (list.cursor_lt (by omega)) with h | h <;> dsimp only <;> omega
  · refine ⟨⟨rfl, hw0, ?_, ?_⟩, .inl (by rw [hpush, length_append, length_singleton])⟩
    · rw [hpush, ← concat_eq_append]
      exact h.nodup.concat hw
    · rw [hpush, List.getElem?_append_left (List.getElem?_eq_some_iff.mp h.keeper).1, h.keeper]

/-- By induction on the slots that are missing, and on the way to the first slot. -/
theorem Lap.reaches (hk : 3 ≤ k) (d : ℕ) (h : s.Lap x) (hn : n ≤ s.list.entries.length + d) :
    Reaches (fun s a => AtMost k s a ∧ Once s a) n s := by
  induction d generalizing s x with
  | zero => exact ⟨[], s, trivial, rfl, hn⟩
  | succ d ih =>
    induction hr : s.ahead using Nat.strong_induction_on generalizing s x with
    | _ r ihr =>
      obtain ⟨_, _, s', hregister, hw, halive, hdrop, hlap, hlong⟩ := h.turn
      have hle : s'.alive.length ≤ k := by
        rw [hlap.alive]
        exact (by decide : 2 ≤ 3).trans hk
      have hfrom : Reaches (fun s a => AtMost k s a ∧ Once s a) n s' := by
        rcases hlong with hlong | ⟨hsame, hahead⟩
        · exact ih hlap (by omega)
        · exact ihr _ (hr ▸ hahead) hlap (hsame ▸ hn) rfl
      refine .step hregister ⟨atMost_of_ok hregister (halive ▸ hk), ?_⟩
        (.step hdrop ⟨atMost_of_ok hdrop hle, nofun⟩ hfrom)
      rintro _ ⟨⟩
      exact hw

/-- Three waiters at a time reach every length. -/
theorem reaches_of_three (hk : 3 ≤ k) (n : ℕ) :
    Reaches (fun s a => AtMost k s a ∧ Once s a) n start := by
  have hlap : Lap ⟨⟨[0, 1], 0, .inr rfl⟩, [1, 0]⟩ 1 := ⟨rfl, by decide, by decide, rfl⟩
  have hfirst : start.step (.register 0) = .ok ⟨⟨[0], 0, .inr rfl⟩, [0]⟩ := rfl
  have hsecond : (⟨⟨[0], 0, .inr rfl⟩, [0]⟩ : Waiters).step (.register 1) =
    .ok ⟨⟨[0, 1], 0, .inr rfl⟩, [1, 0]⟩ := rfl
  refine .step hfirst ⟨atMost_of_ok hfirst ?_, ?_⟩ (.step hsecond ⟨atMost_of_ok hsecond ?_, ?_⟩
    (hlap.reaches hk n (le_add_left n 2)))
  · exact (by decide : 1 ≤ 3).trans hk
  · exact fun w _ => not_mem_nil
  · exact (by decide : 2 ≤ 3).trans hk
  · rintro _ ⟨⟩
    decide

/-- No bound on the waiters that are alive at the same time bounds the list. -/
theorem not_bounded : ¬ ∃ f : ℕ → ℕ, ∀ k, Bounded (AtMost k) (f k) := by
  rintro ⟨f, hf⟩
  obtain ⟨ops, s, hm, hrun, hlen⟩ := reaches_of_three (le_refl 3) (f 3 + 1)
  exact not_succ_le_self _ (hlen.trans (hf 3 ops s (hm.mono And.left) hrun))

/-- **There is a bound** exactly if at most two waiters are alive at the same time and none
registers twice. -/
theorem bounded_iff (k : ℕ) :
    (∃ bound, Bounded (fun s a => AtMost k s a ∧ Once s a) bound) ↔ k ≤ 2 := by
  constructor
  · rintro ⟨bound, hb⟩
    by_contra hk
    obtain ⟨ops, s, hm, hrun, hlen⟩ := reaches_of_three (by omega : 3 ≤ k) (bound + 1)
    exact not_succ_le_self _ (hlen.trans (hb ops s hm hrun))
  · intro hk
    refine ⟨2, fun ops s hm hrun => ?_⟩
    have hstart : Short start := ⟨nodup_nil, zero_le 2⟩
    exact (hm.preserves (I := Short) (fun hs hp => hs.step hk hp) hstart hrun).length

end Waiters

end HermitMoq
