import Mathlib.Data.Nat.Bits
import Mathlib.Tactic.Ring

/-!
# Big-Endian Numbers

Numbers as fixed-width lists of bytes, most significant byte first.
-/

namespace HermitMoq

namespace BigEndian

/-- The low `n` bytes of a number. -/
def toBytes : ℕ → ℕ → List UInt8
  | 0, _ => []
  | n + 1, x => UInt8.ofNat (x / 256 ^ n) :: toBytes n x

/-- The number of a list of bytes. -/
def ofBytes : List UInt8 → ℕ
  | [] => 0
  | b :: bs => b.toNat * 256 ^ bs.length + ofBytes bs

@[simp] theorem length_toBytes (n x : ℕ) : (toBytes n x).length = n := by
  induction n with
  | zero => rfl
  | succ n ih => rw [toBytes, List.length_cons, ih]

/-- Reading back gives the number modulo the width. -/
theorem ofBytes_toBytes (n x : ℕ) : ofBytes (toBytes n x) = x % 256 ^ n := by
  induction n with
  | zero => rw [toBytes, ofBytes, pow_zero, Nat.mod_one]
  | succ n ih =>
    rw [toBytes, ofBytes, ih, length_toBytes, UInt8.toNat_ofNat', pow_succ 256,
      Nat.mod_mul (a := 256 ^ n), Nat.mul_comm, Nat.add_comm]

/-- What does not fit the width is lost. -/
theorem toBytes_add_mul (n a x : ℕ) : toBytes n (a * 256 ^ n + x) = toBytes n x := by
  induction n generalizing a with
  | zero => rfl
  | succ n ih =>
    have hpow : a * 256 ^ (n + 1) + x = a * 256 * 256 ^ n + x := by ring
    have hdiv : (a * 256 * 256 ^ n + x) / 256 ^ n = x / 256 ^ n + 256 * a := by
      rw [Nat.add_comm, Nat.add_mul_div_right _ _ (Nat.pow_pos (by decide)), Nat.mul_comm a]
    rw [toBytes, toBytes, hpow, ih, hdiv]
    congr 1
    apply UInt8.toNat_inj.mp
    rw [UInt8.toNat_ofNat', UInt8.toNat_ofNat']
    omega

theorem ofBytes_lt (bs : List UInt8) : ofBytes bs < 256 ^ bs.length := by
  induction bs with
  | nil => exact Nat.one_pos
  | cons b bs ih =>
    have hb : b.toNat + 1 ≤ 256 := b.toNat_lt
    calc b.toNat * 256 ^ bs.length + ofBytes bs
        < b.toNat * 256 ^ bs.length + 256 ^ bs.length := Nat.add_lt_add_left ih _
      _ = (b.toNat + 1) * 256 ^ bs.length := by ring
      _ ≤ 256 * 256 ^ bs.length := Nat.mul_le_mul_right _ hb
      _ = 256 ^ (b :: bs).length := by rw [List.length_cons, pow_succ']

/-- Bytes are determined by their number. -/
theorem toBytes_ofBytes (bs : List UInt8) : toBytes bs.length (ofBytes bs) = bs := by
  induction bs with
  | nil => rfl
  | cons b bs ih =>
    have hdiv : ofBytes (b :: bs) / 256 ^ bs.length = b.toNat := by
      rw [ofBytes, Nat.add_comm, Nat.add_mul_div_right _ _ (Nat.pow_pos (by decide)),
        Nat.div_eq_of_lt (ofBytes_lt bs), Nat.zero_add]
    rw [List.length_cons, toBytes, hdiv, UInt8.ofNat_toNat, ofBytes, toBytes_add_mul, ih]

end BigEndian

end HermitMoq
