import Mathlib.Data.Nat.Bitwise
import Mathlib.Tactic.NormNum.Basic

/-!
# Bit fields of 32-bit addresses

Page-table code splits an address with masks and shifts: `a & ~(2^k - 1)` rounds down to a
multiple of `2 ^ k`, and `(a >> s) & (2^m - 1)` extracts an `m`-bit field.  In `Nat` these
are division and remainder (`Align.and_two_pow_sub_two_pow`, `Align.uint32_field_toNat`), so
that `omega` can finish the arithmetic of a loop over pages.
-/

namespace Align

/-- Clearing the low `k` bits of a `w`-bit number rounds it down to a multiple of `2 ^ k`. -/
theorem and_two_pow_sub_two_pow {x w k : ℕ} (hx : x < 2 ^ w) (hk : k ≤ w) :
    x &&& (2 ^ w - 2 ^ k) = x / 2 ^ k * 2 ^ k := by
  have low : 2 ^ k - 1 < 2 ^ w := by
    have := Nat.pow_le_pow_right (by decide : 0 < 2) hk
    have := Nat.one_le_two_pow (n := k)
    omega
  have mask : 2 ^ w - 2 ^ k = 2 ^ w - (2 ^ k - 1 + 1) := by
    have := Nat.one_le_two_pow (n := k)
    omega
  apply Nat.eq_of_testBit_eq
  intro i
  rw [Nat.testBit_and, mask, Nat.testBit_two_pow_sub_succ low, Nat.testBit_two_pow_sub_one,
    Nat.testBit_mul_two_pow, Nat.testBit_div_two_pow]
  -- bit `i` survives exactly when `k ≤ i`, and `x` has no bit at or past `w`
  by_cases hi : k ≤ i
  · rw [Nat.sub_add_cancel hi]
    by_cases hw : i < w
    · simp [hi, hw, Nat.not_lt.mpr hi]
    · have : x.testBit i = false :=
        Nat.testBit_lt_two_pow (lt_of_lt_of_le hx (Nat.pow_le_pow_right (by decide) (by omega)))
      simp [hw, this]
  · simp [Nat.lt_of_not_le hi, hi]

/-- `a & ~0xFFF`, on a 32-bit word: `a` rounded down to a multiple of `4096`. -/
theorem uint32_and_not_toNat (a : UInt32) :
    (a &&& ~~~4095).toNat = a.toNat / 4096 * 4096 := by
  rw [UInt32.toNat_and, show (~~~4095 : UInt32).toNat = 2 ^ 32 - 2 ^ 12 from rfl]
  exact and_two_pow_sub_two_pow a.toNat_lt (by decide)

/-- `(a >> s) & 0x3FF`, on a 32-bit word: the ten bits of `a` from bit `s`. -/
theorem uint32_field_toNat (a s : UInt32) (hs : s.toNat < 32) :
    ((a >>> s) &&& 0x3FF).toNat = a.toNat / 2 ^ s.toNat % 1024 := by
  rw [UInt32.toNat_and, UInt32.toNat_shiftRight, Nat.mod_eq_of_lt hs, Nat.shiftRight_eq_div_pow,
    show (0x3FF : UInt32).toNat = 2 ^ 10 - 1 from rfl, Nat.and_two_pow_sub_one_eq_mod]

end Align
