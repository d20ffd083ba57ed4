import Mathlib.Data.Nat.Find
import Mathlib.Order.Monotone.Basic
import Mathlib.Algebra.Group.Int.Defs
import Mathlib.Algebra.Group.Nat.Defs

/-!
# Timestamps of a Transport Stream

`PtsUnwrap` of `moq-mux/src/container/ts/import.rs` and `author_dts` of
`moq-mux/src/container/ts/export.rs`. Times are ticks of 90 kHz, as natural numbers. On the wire a
time has 33 bits: the importer extends it to a continuous one. The exporter makes up the decode
times, for which it has only the presentation times in decode order.
-/

namespace HermitMoq

/-! ### Unwrapping presentation times -/

/-- `WRAP`: the period of the 33-bit field. -/
def ptsWrap : ℕ :=
  2 ^ 33

/-- `PtsUnwrap`. -/
structure PtsUnwrap where
  last : Option ℕ
  offset : ℕ
  deriving DecidableEq, Repr

namespace PtsUnwrap

/-- `PtsUnwrap::default`. -/
def default : PtsUnwrap where
  last := none
  offset := 0

/-- The offset after `raw` has been seen: a fall by more than half the period is a wrap, a rise by
more than half the period goes back over one, if there was one. -/
def shift (s : PtsUnwrap) (raw : ℕ) : ℕ :=
  match s.last with
  | none => s.offset
  | some last =>
    let diff : ℤ := raw - last
    if diff < -(ptsWrap / 2 : ℕ) then s.offset + ptsWrap
    else if (ptsWrap / 2 : ℕ) < diff ∧ ptsWrap ≤ s.offset then s.offset - ptsWrap
    else s.offset

/-- `PtsUnwrap::unwrap`. -/
def unwrap (s : PtsUnwrap) (raw : ℕ) : PtsUnwrap × ℕ :=
  (⟨some raw, s.shift raw⟩, s.shift raw + raw)

/-- The state before the `n`-th of a sequence of fields. -/
def after (raw : ℕ → ℕ) : ℕ → PtsUnwrap
  | 0 => default
  | n + 1 => ((after raw n).unwrap (raw n)).1

/-- The `n`-th time that comes out. -/
def unwrapped (raw : ℕ → ℕ) (n : ℕ) : ℕ :=
  ((after raw n).unwrap (raw n)).2

/-- The 33-bit field of a true time. -/
def field (t : ℕ → ℕ) (n : ℕ) : ℕ :=
  t n % ptsWrap

/-- The offset follows the period of the time, from one at or above period `q` to the next. -/
theorem shift_eq {a b q : ℕ} (ha : q ≤ a / ptsWrap) (hb : q ≤ b / ptsWrap)
    (hab : a < b + 2 ^ 32) (hba : b < a + 2 ^ 32) :
    shift ⟨some (a % ptsWrap), ptsWrap * (a / ptsWrap - q)⟩ (b % ptsWrap) =
      ptsWrap * (b / ptsWrap - q) := by
  dsimp only [shift]
  split_ifs <;> simp only [ptsWrap] at * <;> omega

variable {t : ℕ → ℕ}

/-- The state follows the period of the last time, counted from that of the first. -/
theorem after_succ_eq (near : ∀ i, t i < t (i + 1) + 2 ^ 32 ∧ t (i + 1) < t i + 2 ^ 32) (n : ℕ)
    (h : ∀ i ≤ n, t 0 / ptsWrap ≤ t i / ptsWrap) :
    after (field t) (n + 1) =
      ⟨some (t n % ptsWrap), ptsWrap * (t n / ptsWrap - t 0 / ptsWrap)⟩ := by
  induction n with
  | zero => simp [after, unwrap, shift, field, default]
  | succ n ih =>
    have hs := shift_eq (h n n.le_succ) (h (n + 1) le_rfl) (near n).1 (near n).2
    rw [after, ih fun i hi => h i (Nat.le_succ_of_le hi)]
    simp only [unwrap, field, hs]

theorem unwrapped_eq (near : ∀ i, t i < t (i + 1) + 2 ^ 32 ∧ t (i + 1) < t i + 2 ^ 32) (n : ℕ)
    (h : ∀ i ≤ n, t 0 / ptsWrap ≤ t i / ptsWrap) :
    unwrapped (field t) n + ptsWrap * (t 0 / ptsWrap) = t n := by
  have hn := h n le_rfl
  have hs := congrArg offset (after_succ_eq near n h)
  simp only [after, unwrap] at hs
  simp only [unwrapped, unwrap, hs, field, ptsWrap] at *
  omega

/-- **Unwrapping is exact iff the times stay at or above the period of the first one**: only then
the unwrapped times differ from the true ones by a constant, and are ordered as they are. -/
theorem unwrap_exact_iff (t : ℕ → ℕ)
    (near : ∀ i, ((t (i + 1) : ℤ) - t i).natAbs < 2 ^ 32) :
    ((∃ c : ℤ, ∀ i, (unwrapped (field t) i : ℤ) - t i = c) ∧
      ∀ i j, unwrapped (field t) i < unwrapped (field t) j ↔ t i < t j) ↔
    ∀ i, t 0 / ptsWrap ≤ t i / ptsWrap := by
  have near' : ∀ i, t i < t (i + 1) + 2 ^ 32 ∧ t (i + 1) < t i + 2 ^ 32 := by
    intro i
    have := near i
    omega
  constructor
  · rintro ⟨⟨_, hc⟩, -⟩
    by_contra hlow
    simp only [not_forall, not_le] at hlow
    -- the first time that lies below
    have hfind := Nat.find_spec hlow
    have hmin := fun m => @Nat.find_min _ _ hlow m
    generalize Nat.find hlow = k at hfind hmin
    cases k with
    | zero => exact absurd hfind (lt_irrefl _)
    | succ n =>
      have hup : ∀ i ≤ n, t 0 / ptsWrap ≤ t i / ptsWrap := by
        intro i hi
        exact not_lt.mp (hmin i (by omega))
      have h0 := unwrapped_eq near' 0 fun i hi => hup i (Nat.le_trans hi n.zero_le)
      have hc0 := hc 0
      have hcn := hc (n + 1)
      simp only [ptsWrap] at *
      omega
  · intro h
    have heq := fun n => unwrapped_eq near' n fun i _ => h i
    refine ⟨⟨-(ptsWrap * (t 0 / ptsWrap) : ℕ), ?_⟩, ?_⟩
    · intro i
      have := heq i
      omega
    · intro i j
      have hi := heq i
      have hj := heq j
      omega

/-- A clock that steps over the wrap is unwrapped. -/
theorem unwrap_exact_across_wrap :
    (∃ c : ℤ, ∀ i, (unwrapped (field fun n => 2 ^ 33 - 5 + 10 * n) i : ℤ) -
        (2 ^ 33 - 5 + 10 * i : ℕ) = c) ∧
      ∀ i j, unwrapped (field fun n => 2 ^ 33 - 5 + 10 * n) i <
        unwrapped (field fun n => 2 ^ 33 - 5 + 10 * n) j ↔
          2 ^ 33 - 5 + 10 * i < 2 ^ 33 - 5 + 10 * j := by
  refine (unwrap_exact_iff (fun n => 2 ^ 33 - 5 + 10 * n) ?_).mpr ?_
  · intro i
    omega
  · intro i
    simp only [ptsWrap]
    omega

/-- A stream that starts right after a wrap, with a reordered frame of before. -/
def reordered : ℕ → ℕ
  | 0 => 2 ^ 33 + 5
  | _ + 1 => 2 ^ 33 - 5

/-- A frame of before the wrap is not unwrapped right. -/
theorem not_unwrap_exact_reordered :
    (∀ i, ((reordered (i + 1) : ℤ) - reordered i).natAbs < 2 ^ 32) ∧
      ¬ ∃ c : ℤ, ∀ i, (unwrapped (field reordered) i : ℤ) - reordered i = c := by
  refine ⟨?_, ?_⟩
  · intro i
    cases i with
    | zero => decide
    | succ n => simp [reordered]
  · rintro ⟨_, hc⟩
    have h : (unwrapped (field reordered) 0 : ℤ) - reordered 0 =
        unwrapped (field reordered) 1 - reordered 1 := (hc 0).trans (hc 1).symm
    exact absurd h (by decide)

end PtsUnwrap

/-! ### Authoring decode times -/

/-- `author_dts`: what is returned, with what is stored in `last`. -/
def authorDts (pts reserve : ℕ) (last : Option ℕ) : Option ℕ × Option ℕ :=
  let dts :=
    match last with
    | some prev => if pts - reserve ≤ prev then prev + 1 else pts - reserve
    | none => pts - reserve
  (if dts ≠ pts then some dts else none, some dts)

/-- `last_dts` before the `n`-th frame of a track. -/
def lastDts (reserve : ℕ) (pts : ℕ → ℕ) : ℕ → Option ℕ
  | 0 => none
  | n + 1 => (authorDts (pts n) reserve (lastDts reserve pts n)).2

/-- The decode time that is returned for the `n`-th frame, if it is not the presentation time. -/
def authored (reserve : ℕ) (pts : ℕ → ℕ) (n : ℕ) : Option ℕ :=
  (authorDts (pts n) reserve (lastDts reserve pts n)).1

/-- The least decode times: each at most `reserve` before the presentation, and later than the one
before. -/
def leastDts (reserve : ℕ) (pts : ℕ → ℕ) : ℕ → ℕ
  | 0 => pts 0 - reserve
  | n + 1 => max (pts (n + 1) - reserve) (leastDts reserve pts n + 1)

theorem leastDts_lt_succ (reserve : ℕ) (pts : ℕ → ℕ) (n : ℕ) :
    leastDts reserve pts n < leastDts reserve pts (n + 1) := by
  simp only [leastDts]
  omega

/-- No valid decode times are smaller than the least ones. -/
theorem leastDts_le {reserve n : ℕ} {pts d : ℕ → ℕ} (hd : ∀ i < n, d i < d (i + 1))
    (hp : ∀ i ≤ n, pts i ≤ d i + reserve) : ∀ i ≤ n, leastDts reserve pts i ≤ d i := by
  intro i hi
  induction i with
  | zero =>
    have := hp 0 hi
    simp only [leastDts]
    omega
  | succ i ih =>
    have := hp (i + 1) hi
    have := hd i hi
    simp only [leastDts]
    omega

/-- The clock stores the least decode times. -/
theorem lastDts_eq (reserve : ℕ) (pts : ℕ → ℕ) (n : ℕ) :
    lastDts reserve pts (n + 1) = some (leastDts reserve pts n) := by
  induction n with
  | zero => rfl
  | succ n ih =>
    rw [lastDts, ih]
    simp only [authorDts, leastDts, Option.some.injEq]
    split_ifs <;> omega

/-- What is returned is what is stored. -/
theorem authored_eq {reserve n d : ℕ} {pts : ℕ → ℕ} (h : authored reserve pts n = some d) :
    d = leastDts reserve pts n := by
  have hstored := lastDts_eq reserve pts n
  simp only [authored, lastDts, authorDts] at h hstored
  split_ifs at h
  exact (Option.some.inj h).symm.trans (Option.some.inj hstored)

/-- **Authored decode times are the least valid ones**: what the clock stores increases, no
increasing sequence that keeps the reserve is below it anywhere, and so it stays at or below the
presentation times if any such sequence does. -/
theorem authorDts_least (reserve : ℕ) (pts : ℕ → ℕ) :
    ∃ dts : ℕ → ℕ, (∀ n, lastDts reserve pts (n + 1) = some (dts n)) ∧
      (∀ i j, i < j → dts i < dts j) ∧
      (∀ n (d : ℕ → ℕ), (∀ i < n, d i < d (i + 1)) → (∀ i ≤ n, (pts i : ℤ) - reserve ≤ d i) →
        ∀ i ≤ n, dts i ≤ d i) ∧
      ∀ n, (∃ d : ℕ → ℕ, (∀ i < n, d i < d (i + 1)) ∧
          ∀ i ≤ n, (pts i : ℤ) - reserve ≤ d i ∧ d i ≤ pts i) →
        ∀ i ≤ n, dts i ≤ pts i ∧ ∀ d, authored reserve pts i = some d → d ≤ pts i := by
  have hleast : ∀ n (d : ℕ → ℕ), (∀ i < n, d i < d (i + 1)) →
      (∀ i ≤ n, (pts i : ℤ) - reserve ≤ d i) → ∀ i ≤ n, leastDts reserve pts i ≤ d i := by
    intro n d hd hp
    refine leastDts_le hd fun i hi => ?_
    have := hp i hi
    omega
  refine ⟨leastDts reserve pts, lastDts_eq reserve pts, ?_, hleast, ?_⟩
  · intro i j hij
    exact strictMono_nat_of_lt_succ (leastDts_lt_succ reserve pts) hij
  · rintro n ⟨d, hd, hp⟩ i hi
    have hle := le_trans (hleast n d hd (fun i hi => (hp i hi).1) i hi) (hp i hi).2
    refine ⟨hle, ?_⟩
    intro x hx
    rwa [authored_eq hx]

/-- A reference frame three frames ahead, then the two before it. -/
def reorderedPts : ℕ → ℕ
  | 0 => 100
  | 1 => 130
  | n + 2 => 110 + 10 * n

theorem authorDts_least_reordered :
    ∃ d, lastDts 30 reorderedPts 3 = some d ∧ d ≤ reorderedPts 2 := by
  obtain ⟨dts, hstored, -, -, h⟩ := authorDts_least 30 reorderedPts
  have hle := h 2 ⟨fun n => 90 + 10 * n, fun i _ => Nat.add_lt_add_left (by omega) 90, ?_⟩ 2 le_rfl
  · exact ⟨dts 2, hstored 2, hle.1⟩
  · intro i hi
    match i, hi with
    | 0, _ => decide
    | 1, _ => decide
    | 2, _ => decide

end HermitMoq
