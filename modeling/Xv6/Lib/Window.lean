import Mathlib.Tactic.Ring
import Mathlib.Data.UInt

/-!
# Windows of the 32-bit address space

Code that runs a counter `k` over the bytes from an address `b` and tests `a - b < k` in
unsigned 32-bit arithmetic asks whether `a` lies in the `k` addresses from `b`.  While those
addresses do not run past `2^32`, that is the interval `[b, b + k)` of the naturals:

* `toNat_add_ofNat`: `b + k` does not wrap;
* `sub_toNat_lt_iff`: `a - b < k` is `b ≤ a < b + k`, and `sub_toNat` the distance there.

`rep stosb`, `rep insl` and a loop over the sectors of a segment each write such a window.
-/

namespace Window

theorem toNat_add_ofNat {a : UInt32} {k : Nat} (h : a.toNat + k < 2 ^ 32) :
    (a + UInt32.ofNat k).toNat = a.toNat + k := by
  rw [UInt32.toNat_add, UInt32.toNat_ofNat']
  have := a.toNat_lt
  omega

/-- The distance from `b` to an address at or above it. -/
theorem sub_toNat {a b : UInt32} (h : b.toNat ≤ a.toNat) : (a - b).toNat = a.toNat - b.toNat := by
  rw [UInt32.toNat_sub]
  have := a.toNat_lt
  omega

/-- `a - b < k`, in 32-bit arithmetic, is `a` among the `k` addresses from `b`. -/
theorem sub_toNat_lt_iff {a b : UInt32} {k : Nat} (hk : b.toNat + k ≤ 2 ^ 32) :
    (a - b).toNat < k ↔ b.toNat ≤ a.toNat ∧ a.toNat < b.toNat + k := by
  rw [UInt32.toNat_sub]
  have := a.toNat_lt
  have := b.toNat_lt
  constructor
  · intro h
    by_cases below : b.toNat ≤ a.toNat
    · omega
    · rw [Nat.mod_eq_of_lt (by omega)] at h
      omega
  · intro h
    omega

end Window
