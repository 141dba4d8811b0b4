import Mathlib.Data.Nat.Bitwise

/-! # Bit fields and alignment

A mask of adjacent bits reads a field of the number; clearing the low bits rounds down to a multiple of a
power of two.
-/

namespace BitFields

theorem and_field (x m k : Nat) :
    x &&& ((2 ^ m - 1) * 2 ^ k) = x % 2 ^ (k + m) / 2 ^ k * 2 ^ k := by
  apply Nat.eq_of_testBit_eq
  intro i
  rw [Nat.testBit_and, Nat.testBit_mul_two_pow, Nat.testBit_two_pow_sub_one, Nat.testBit_mul_two_pow,
    Nat.testBit_div_two_pow, Nat.testBit_mod_two_pow]
  by_cases h : k ≤ i
  · simp [h, show i - k < m ↔ i < k + m by omega, Bool.and_comm]
  · simp [h]

theorem toNat_and_not_low (x : UInt64) {k : Nat} {mask : UInt64} (hk : k ≤ 64)
    (hMask : mask.toNat = (2 ^ (64 - k) - 1) * 2 ^ k) :
    (x &&& mask).toNat = x.toNat / 2 ^ k * 2 ^ k := by
  rw [UInt64.toNat_and, hMask, and_field, Nat.add_sub_cancel' hk, Nat.mod_eq_of_lt x.toNat_lt]

theorem masked_or_and (x mask bits m : UInt64) :
    ((x &&& mask) ||| bits) &&& m = (x &&& (mask &&& m)) ||| (bits &&& m) := by
  apply UInt64.toNat_inj.mp
  simp only [UInt64.toNat_and, UInt64.toNat_or, Nat.and_or_distrib_right, Nat.and_assoc]

end BitFields
