import Mathlib.Data.List.FinRange

/-!
# The first match of a scan

A loop `for(i = 0; i < n; i++)` that stops at, or remembers, the first `i` with `p(i)` is
`(List.finRange n).find? p`.  `Scan.find?_finRange_eq_some` says which index it returns:
one that satisfies `p`, with no smaller one that does.
-/

namespace Scan

/-- The scan returns `i` exactly when `p i` holds and no index below `i` satisfies `p`.  The
induction is on `n`: past a first index that fails, the scan is the scan of the rest,
shifted by one. -/
theorem find?_finRange_eq_some {n : Nat} {p : Fin n → Bool} {i : Fin n} :
    (List.finRange n).find? p = some i ↔ p i = true ∧ ∀ j < i, p j = false := by
  induction n with
  | zero => exact i.elim0
  | succ n ih =>
    rw [List.finRange_succ, List.find?_cons, List.find?_map]
    cases i using Fin.cases with
    | zero => cases p 0 <;> simp
    | succ i =>
      cases h0 : p 0
      · simp only [Option.map_eq_some_iff, Fin.succ_inj, exists_eq_right, ih, Function.comp_apply]
        constructor
        · rintro ⟨hi, below⟩
          refine ⟨hi, fun j hj => ?_⟩
          cases j using Fin.cases with
          | zero => exact h0
          | succ j => exact below j (Fin.succ_lt_succ_iff.mp hj)
        · rintro ⟨hi, below⟩
          exact ⟨hi, fun j hj => below j.succ (Fin.succ_lt_succ_iff.mpr hj)⟩
      · -- the scan stops at `0`, below `i + 1`
        simp only [Option.some.injEq]
        constructor
        · intro h
          exact absurd h (Fin.succ_ne_zero i).symm
        · rintro ⟨-, below⟩
          rw [below 0 (Fin.succ_pos i)] at h0
          cases h0

end Scan
