import Mathlib.Algebra.Order.Group.Nat
import Mathlib.Tactic.Common

/-!
# Timestamps of Any Scale

A `Timescale<SCALE>` counts ticks, of which there are `SCALE` to the second, in the range of a
QUIC integer. It is converted to another scale, and to the `Duration` of the standard library
and back, with 128 bit products and divisions that round down. The two parts of a `Duration`
are computed separately, the seconds from the ticks and the nanoseconds as a remainder.
-/

namespace HermitMoq

/-- A timestamp out of the range of a QUIC integer. -/
inductive TimeOverflow
  | timeOverflow
  deriving DecidableEq, Repr

/-- `Duration` of the standard library. -/
structure Duration where
  secs : ℕ
  nanos : ℕ
  subsec : nanos < 10 ^ 9
  deriving DecidableEq, Repr

/-- `Duration::new`: whole seconds of the nanoseconds are carried over. -/
def Duration.new (secs nanos : ℕ) : Duration :=
  ⟨secs + nanos / 10 ^ 9, nanos % 10 ^ 9, Nat.mod_lt _ (by decide)⟩

/-- `Duration::as_nanos`. -/
def Duration.asNanos (d : Duration) : ℕ := d.secs * 10 ^ 9 + d.nanos

/-- `u128::checked_mul`. -/
def checkedMul (a b : ℕ) : Option ℕ := if a * b < 2 ^ 128 then some (a * b) else none

/-- `u128::checked_div`. -/
def checkedDiv (a b : ℕ) : Option ℕ := if b = 0 then none else some (a / b)

/-- A number of ticks that fits a QUIC integer. -/
structure Timescale (scale : UInt64) where
  ticks : ℕ
  fits : ticks < 2 ^ 62
  deriving DecidableEq, Repr

namespace Timescale

variable {S T : UInt64} (t : Timescale S)

/-- `VarInt::from_u128`, with the error of its callers. -/
def ofU128 (value : ℕ) : Except TimeOverflow (Timescale S) :=
  if h : value < 2 ^ 62 then .ok ⟨value, h⟩ else .error .timeOverflow

/-- `Timescale::from_scale_u128`. -/
def fromScaleU128 (value : ℕ) (scale : UInt64) : Except TimeOverflow (Timescale S) :=
  match checkedMul value S.toNat with
  | some value => ofU128 (value / scale.toNat)
  | none => .error .timeOverflow

/-- `Timescale::as_secs`. -/
def asSecs (t : Timescale S) : ℕ := t.ticks / S.toNat

/-- `Timescale::as_scale`. -/
def asScale (t : Timescale S) (scale : UInt64) : ℕ := t.ticks * scale.toNat / S.toNat

/-- `Timescale::as_nanos`. -/
def asNanos (t : Timescale S) : ℕ := t.asScale 1000000000

/-- `Timescale::convert`. -/
def convert (t : Timescale S) (T : UInt64) : Except TimeOverflow (Timescale T) :=
  match checkedMul t.ticks T.toNat with
  | some v =>
    match checkedDiv v S.toNat with
    | some v => ofU128 v
    | none => .error .timeOverflow
  | none => .error .timeOverflow

/-- `TryFrom<Duration>`. -/
def ofDuration (d : Duration) : Except TimeOverflow (Timescale S) :=
  fromScaleU128 d.asNanos 1000000000

/-- `From<Timescale>` for a `Duration`; the remainder is cast to 32 bits. -/
def toDuration (t : Timescale S) : Duration :=
  Duration.new t.asSecs (t.asNanos % 10 ^ 9 % 2 ^ 32)

/-! ### Other scales -/

theorem toNat_pos (hS : S ≠ 0) : 0 < S.toNat :=
  Nat.pos_of_ne_zero fun h => hS (UInt64.toNat_inj.mp h)

theorem ofU128_eq_ok {v : ℕ} {t : Timescale S} : ofU128 v = .ok t ↔ v = t.ticks := by
  unfold ofU128
  constructor
  · intro h
    split at h
    · rw [← Except.ok.inj h]
    · cases h
  · rintro rfl
    exact dif_pos t.fits

theorem checkedMul_ticks (T : UInt64) :
    checkedMul t.ticks T.toNat = some (t.ticks * T.toNat) := by
  have hlt : t.ticks * T.toNat < 2 ^ 62 * 2 ^ 64 := Nat.mul_lt_mul'' t.fits T.toNat_lt
  exact if_pos (by omega)

theorem convert_eq (hS : S ≠ 0) (t : Timescale S) (T : UInt64) :
    t.convert T = ofU128 (t.ticks * T.toNat / S.toNat) := by
  rw [convert, checkedMul_ticks]
  show (match checkedDiv _ _ with
    | some v => ofU128 v
    | none => .error .timeOverflow) = _
  rw [checkedDiv, if_neg (toNat_pos hS).ne']

/-! ### Durations -/

/-- The two parts are those of one number of nanoseconds. -/
theorem toDuration_parts :
    t.toDuration.secs = t.ticks * 10 ^ 9 / S.toNat / 10 ^ 9 ∧
      t.toDuration.nanos = t.ticks * 10 ^ 9 / S.toNat % 10 ^ 9 := by
  have hsecs : t.ticks * 10 ^ 9 / S.toNat / 10 ^ 9 = t.ticks / S.toNat := by
    rw [Nat.div_div_eq_div_mul, Nat.mul_div_mul_right _ _ (by decide)]
  have hnanos : t.asNanos = t.ticks * 10 ^ 9 / S.toNat := rfl
  have hrem := Nat.mod_lt t.asNanos (by decide : 10 ^ 9 > 0)
  rw [hsecs, ← hnanos]
  simp only [toDuration, Duration.new, asSecs]
  omega

theorem asNanos_toDuration :
    t.toDuration.asNanos = t.ticks * 10 ^ 9 / S.toNat := by
  obtain ⟨hsecs, hnanos⟩ := t.toDuration_parts
  rw [Duration.asNanos, hsecs, hnanos, Nat.div_add_mod']

/-- The way back multiplies the nanoseconds by the scale without overflow. -/
theorem ofDuration_toDuration :
    ofDuration t.toDuration =
      @ofU128 S (t.ticks * 10 ^ 9 / S.toNat * S.toNat / 10 ^ 9) := by
  have hle := Nat.div_mul_le_self (t.ticks * 10 ^ 9) S.toNat
  have hfits := t.fits
  rw [ofDuration, fromScaleU128, asNanos_toDuration, checkedMul, if_pos (by omega)]
  rfl

/-- The nanoseconds lose less than one of them, which is at most a tick. -/
theorem ofDuration_near (hS : S ≠ 0) (hle : S.toNat ≤ 10 ^ 9) (t : Timescale S) :
    ∃ t' : Timescale S, ofDuration t.toDuration = .ok t' ∧
      (t'.ticks = t.ticks ∨ t'.ticks + 1 = t.ticks) := by
  have hdown := Nat.div_mul_le_self (t.ticks * 10 ^ 9) S.toNat
  have hup := Nat.lt_div_mul_add (a := t.ticks * 10 ^ 9) (toNat_pos hS)
  rw [ofDuration_toDuration]
  generalize t.ticks * 10 ^ 9 / S.toNat * S.toNat = product at *
  have hfits := t.fits
  exact ⟨⟨product / 10 ^ 9, by omega⟩, ofU128_eq_ok.mpr rfl, by dsimp only; omega⟩

/-! ### All conversions -/

/-- **Conversions are exact.** A conversion to another scale rounds down and fails exactly out of
range; it is monotone, and undone by the one back if the other scale is a multiple. A `Duration` has
exactly the nanoseconds rounded down, in consistent parts; the way back gives the same timestamp if
the scale divides a second in nanoseconds, and the same or the one before it up to that scale. -/
theorem conversions_exact (hS : S ≠ 0) (hT : T ≠ 0) :
    (∀ t : Timescale S, (t.convert T).map ticks =
      if t.ticks * T.toNat / S.toNat ≤ 2 ^ 62 - 1 then .ok (t.ticks * T.toNat / S.toNat)
      else .error .timeOverflow) ∧
    (∀ (t u : Timescale S) (u' : Timescale T), t.ticks ≤ u.ticks → u.convert T = .ok u' →
      ∃ t', t.convert T = .ok t' ∧ t'.ticks ≤ u'.ticks) ∧
    (S.toNat ∣ T.toNat → ∀ (t : Timescale S) (t' : Timescale T),
      t.convert T = .ok t' → t'.convert S = .ok t) ∧
    (∀ t : Timescale S, t.toDuration.asNanos = t.ticks * 10 ^ 9 / S.toNat ∧
      t.toDuration.secs = t.ticks * 10 ^ 9 / S.toNat / 10 ^ 9 ∧
      t.toDuration.nanos = t.ticks * 10 ^ 9 / S.toNat % 10 ^ 9) ∧
    (S.toNat ∣ 10 ^ 9 → ∀ t : Timescale S, ofDuration t.toDuration = .ok t) ∧
    (S.toNat ≤ 10 ^ 9 → ∀ t : Timescale S, ∃ t' : Timescale S,
      ofDuration t.toDuration = .ok t' ∧ (t'.ticks = t.ticks ∨ t'.ticks + 1 = t.ticks)) := by
  refine ⟨fun t => ?_, fun t u u' hle hu => ?_, fun hdvd t t' h => ?_,
    fun t => ⟨t.asNanos_toDuration, t.toDuration_parts⟩, fun hdvd t => ?_, ofDuration_near hS⟩
  · rw [convert_eq hS, ofU128]
    split_ifs with hfits hle hle
    · rfl
    · omega
    · omega
    · rfl
  · rw [convert_eq hS, ofU128_eq_ok] at hu
    have hdiv : t.ticks * T.toNat / S.toNat ≤ u'.ticks :=
      hu ▸ Nat.div_le_div_right (Nat.mul_le_mul_right _ hle)
    refine ⟨⟨_, Nat.lt_of_le_of_lt hdiv u'.fits⟩, ?_, hdiv⟩
    rw [convert_eq hS, ofU128_eq_ok]
  · rw [convert_eq hS, ofU128_eq_ok] at h
    rw [convert_eq hT, ofU128_eq_ok, ← h, Nat.div_mul_cancel (Nat.dvd_mul_left_of_dvd hdvd _),
      Nat.mul_div_cancel _ (toNat_pos hT)]
  · rw [ofDuration_toDuration, ofU128_eq_ok, Nat.div_mul_cancel (Nat.dvd_mul_left_of_dvd hdvd _),
      Nat.mul_div_cancel _ (by decide)]

/-- Of seven ticks of a 90 kHz clock, six come back. -/
theorem conversions_exact_clock :
    ofDuration (toDuration (⟨7, by decide⟩ : Timescale 90000)) =
        .ok (⟨6, by decide⟩ : Timescale 90000) ∧
      ∃ t' : Timescale 90000, ofDuration (toDuration (⟨7, by decide⟩ : Timescale 90000)) = .ok t' ∧
        (t'.ticks = 7 ∨ t'.ticks + 1 = 7) := by
  obtain ⟨-, -, -, -, -, hnear⟩ := @conversions_exact 90000 1000 (by decide) (by decide)
  exact ⟨by decide, hnear (by decide) ⟨7, by decide⟩⟩

end Timescale

end HermitMoq
