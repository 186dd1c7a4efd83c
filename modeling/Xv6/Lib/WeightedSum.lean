import Mathlib.Algebra.BigOperators.Group.Finset.Piecewise
import Mathlib.Data.Int.ModEq
import Mathlib.Tactic.Ring

/-!
# Weighted sums and the changes a modular checksum misses

A position-weighted checksum adds `w i * x i` over every position `i` and keeps the
remainder modulo `m`.  Changing one position `i` from `x i` to `b` moves the sum by exactly
`w i * (b - x i)` (`WeightedSum.total_update`), so the checksum sees the change if and only
if `m` does not divide that product (`WeightedSum.total_update_emod_eq_iff`): a weight that
shares a factor with `m` hides every change that supplies the rest of `m`.

A program that accumulates such a sum in a 32-bit word wraps modulo `2 ^ 32`; modulo any
divisor of `2 ^ 32` the word still holds the sum's remainder
(`WeightedSum.foldl_uint32_emod`).
-/

namespace WeightedSum

variable {ι : Type*} [Fintype ι] [DecidableEq ι]

/-- The weighted sum of the values `x` under the weights `w`. -/
def total (w x : ι → ℤ) : ℤ := ∑ i, w i * x i

/-- Changing one position moves the sum by that position's weight times the change. -/
theorem total_update (w x : ι → ℤ) (i : ι) (b : ℤ) :
    total w (Function.update x i b) = total w x + w i * (b - x i) := by
  have pointwise : ∀ j, w j * Function.update x i b j =
      w j * x j + if j = i then w i * (b - x i) else 0 := by
    intro j
    by_cases hj : j = i
    · subst hj
      simp only [Function.update_self, if_true]
      ring
    · simp only [Function.update_of_ne hj, hj, if_false, add_zero]
  simp only [total, pointwise, Finset.sum_add_distrib, Finset.sum_ite_eq', Finset.mem_univ,
    if_true]

/-- A one-position change leaves the sum's remainder modulo `m` unchanged exactly when
`m` divides the weighted change. -/
theorem total_update_emod_eq_iff (w x : ι → ℤ) (i : ι) (b m : ℤ) :
    total w (Function.update x i b) % m = total w x % m ↔ m ∣ w i * (b - x i) := by
  rw [total_update]
  change Int.ModEq m _ _ ↔ _
  rw [Int.modEq_iff_dvd, show total w x - (total w x + w i * (b - x i)) =
    -(w i * (b - x i)) by ring, Int.dvd_neg]

/-- Changing one position of `p` moves `∑ j, g (p j)` by the change of that position's
term: the rule for a count or a budget summed over processes. -/
theorem sum_comp_update {α : Type*} (g : α → ℤ) (p : ι → α) (i : ι) (v : α) :
    ∑ j, g (Function.update p i v j) = ∑ j, g (p j) + (g v - g (p i)) := by
  have pointwise : (fun j => g (Function.update p i v j)) =
      Function.update (fun j => g (p j)) i (g v) :=
    funext fun j => Function.apply_update (fun _ => g) p i v j
  rw [pointwise, Finset.sum_update_of_mem (Finset.mem_univ i),
    Finset.sum_eq_add_sum_sdiff_singleton_of_mem (Finset.mem_univ i) (fun j => g (p j))]
  ring

/-- A 32-bit accumulator that adds `f x` for each `x` holds, modulo any divisor of `2 ^ 32`,
the remainder of the sum. -/
theorem foldl_uint32_emod {α : Type*} (f : α → ℕ) (l : List α) (a : UInt32) {m : ℕ}
    (hm : m ∣ 2 ^ 32) :
    (l.foldl (fun acc x => acc + UInt32.ofNat (f x)) a).toNat % m =
      (a.toNat + (l.map f).sum) % m := by
  have wrap : ∀ n, n % 2 ^ 32 ≡ n [MOD m] := fun n => (Nat.mod_modEq n _).of_dvd hm
  induction l generalizing a with
  | nil => rfl
  | cons x l ih =>
      rw [List.foldl_cons, ih, List.map_cons, List.sum_cons]
      change _ ≡ _ [MOD m]
      rw [UInt32.toNat_add, UInt32.toNat_ofNat']
      calc (a.toNat + f x % 2 ^ 32) % 2 ^ 32 + (l.map f).sum
          ≡ a.toNat + f x % 2 ^ 32 + (l.map f).sum [MOD m] := (wrap _).add_right _
        _ ≡ a.toNat + f x + (l.map f).sum [MOD m] := ((wrap _).add_left _).add_right _
        _ = a.toNat + (f x + (l.map f).sum) := Nat.add_assoc _ _ _

end WeightedSum
