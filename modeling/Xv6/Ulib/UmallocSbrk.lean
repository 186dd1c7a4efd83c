import Xv6.Ulib.UmallocInv
import Xv6.Vm.Allocuvm

/-!
# `sbrk` as the kernel implements it

`umalloc.c` gets its memory from `sbrk`, the system call stub of `usys.S`: the kernel's
`sys_sbrk` returns the process's old size and grows it with `growproc`, which maps fresh pages
with `allocuvm` up to the new size.  `UmallocInv` assumes of `sbrk` only `SbrkSpec`; here the
kernel's `sbrk` is shown to meet it, so the allocator's invariants hold over the kernel.

* `allocuvmLoop_result`: `allocuvm`'s loop returns the new size, or `0` when it ran out of
  memory;
* `growproc_grow`: `growproc` of a positive amount fails with the size kept, or grows the size
  by exactly that amount below `KERNBASE`;
* `userSbrk_spec`: the user's `sbrk` through `sys_sbrk` keeps to `SbrkSpec`, and answers
  every `n ≥ 0` on a process whose pages from its size up `allocuvm` can map (`Growable`).
-/

namespace Xv6

namespace Vm

/-- `allocuvm`'s loop ends with the new size, or with `0` when a page or a page table could not
be allocated. -/
theorem allocuvmLoop_result {pgdir oldsz newsz : UInt32} (k : Nat) :
    ∀ (a : UInt32) (s s' : Vm) (r : UInt32), s.allocuvmLoop pgdir oldsz newsz k a = .ok (r, s') →
      r = newsz ∨ r = 0 := by
  induction k with
  | zero =>
    intro a s s' r run
    cases run
    exact .inl rfl
  | succ k ih =>
    intro a s s' r run
    simp only [allocuvmLoop] at run
    split at run
    · obtain ⟨⟨m, s₁⟩, -, run⟩ := except_bind_eq_ok run
      dsimp only at run
      split at run
      · -- out of memory: the pages mapped so far are freed, and `0`
        obtain ⟨⟨_, s₂⟩, -, run⟩ := except_bind_eq_ok run
        cases run
        exact .inr rfl
      · obtain ⟨⟨r', s₂⟩, -, run⟩ := except_bind_eq_ok run
        dsimp only at run
        split at run
        · obtain ⟨⟨_, s₃⟩, -, run⟩ := except_bind_eq_ok run
          obtain ⟨s₄, -, run⟩ := except_bind_eq_ok run
          cases run
          exact .inr rfl
        · exact ih _ _ _ _ run
    · cases run
      exact .inl rfl

end Vm

/-- `growproc(n)` for `n > 0` on a process of at most `2^31` bytes: `-1` with the size kept,
or `0` with the size grown by exactly `n` and below `KERNBASE`. -/
theorem growproc_grow {s s' : Vm} {pgdir sz sz' : UInt32} {n : Int32} {r : Int} (pos : 0 < n.toInt)
    (top : sz.toNat ≤ 2 ^ 31) (run : growproc s pgdir sz n = .ok (r, sz', s')) :
    (r = -1 ∧ sz' = sz) ∨ (r = 0 ∧ sz'.toNat = sz.toNat + n.toInt.toNat ∧ sz'.toNat < 2 ^ 31) := by
  have gt : n > 0 := by rw [gt_iff_lt, Int32.lt_iff_toInt_lt]; simpa using pos
  -- `sz + n` computed in `uint` does not wrap
  have sum : (sz + n.toUInt32).toNat = sz.toNat + n.toInt.toNat := by
    have lt := n.toInt_lt
    have amount : (n.toUInt32.toNat : Int) = n.toInt := by
      rw [← Int32.toNat_toBitVec, ← Int32.toInt_toBitVec, BitVec.toInt_eq_toNat_of_lt]
      rw [← Int32.toInt_toBitVec, BitVec.toInt_eq_toNat_cond] at pos
      split at pos <;> omega
    rw [UInt32.toNat_add, Nat.mod_eq_of_lt (by omega)]
    omega
  rw [growproc, if_pos gt] at run
  obtain ⟨⟨sz'', s''⟩, grown, run⟩ := except_bind_eq_ok run
  dsimp only at run
  -- what `allocuvm` returned: `0`, or the new size
  have result : sz'' = 0 ∨ sz'' = sz + n.toUInt32 ∧ (sz + n.toUInt32).toNat < 2 ^ 31 := by
    rw [Vm.allocuvm] at grown
    split at grown
    · cases grown
      exact .inl rfl
    · rename_i below
      split at grown
      · rename_i wrapped
        have := UInt32.lt_iff_toNat_lt.mp wrapped
        omega
      · rcases Vm.allocuvmLoop_result _ _ _ _ _ grown with same | zero
        · have := UInt32.lt_iff_toNat_lt.mp (UInt32.not_le.mp below)
          exact .inr ⟨same, this.trans_eq rfl⟩
        · exact .inl zero
  rcases result with zero | ⟨rfl, small⟩
  · rw [if_pos zero] at run
    cases run
    exact .inl ⟨rfl, rfl⟩
  · have nonzero : sz + n.toUInt32 ≠ 0 := fun zero => by
      have := congrArg UInt32.toNat zero
      rw [sum, UInt32.toNat_zero] at this
      omega
    rw [if_neg nonzero] at run
    cases run
    exact .inr ⟨rfl, sum, small⟩

/-- `sbrk(n)` as a user program sees it: `sys_sbrk` on the process with page directory `pgdir`,
its result read as a pointer; nothing when the kernel faults. -/
def userSbrk (pgdir : UInt32) (k : Vm × UInt32) (n : Int32) : Option (UInt32 × (Vm × UInt32)) :=
  match sysSbrk k.1 pgdir k.2 n with
  | .ok (r, sz, s) => some ((Int32.ofInt r).toUInt32, (s, sz))
  | .error _ => none

/-- The kernel's `sbrk` keeps to what `umalloc` assumes of it: for `n ≥ 0` on a process of at
most `2^31` bytes, `-1` with the size kept, or the old size with the size grown by `n`, at most
`2^31`. -/
theorem userSbrk_keeps (pgdir : UInt32) : Umalloc.SbrkSpec (userSbrk pgdir) fun k => k.2.toNat := by
  intro k n p k' top nonneg run
  unfold userSbrk sysSbrk at run
  split at run
  · rename_i r sz s answered
    obtain ⟨⟨r', sz', s'⟩, grown, answered⟩ := except_bind_eq_ok answered
    simp only [Option.some.injEq, Prod.mk.injEq] at run
    obtain ⟨rfl, rfl⟩ := run
    -- `growproc`: `-1` and the size kept, or `0` and the size grown by `n`
    have outcome : (r' = -1 ∧ sz' = k.2) ∨ (r' = 0 ∧ sz'.toNat = k.2.toNat + n.toInt.toNat ∧ sz'.toNat ≤ 2 ^ 31) := by
      rcases Int.lt_or_eq_of_le nonneg with pos | zero
      · rcases growproc_grow pos top grown with failed | ⟨ok, size, below⟩
        · exact .inl failed
        · exact .inr ⟨ok, size, below.le⟩
      · have : n = 0 := Int32.toInt_inj.mp (by simpa using zero.symm)
        subst this
        rw [growproc, if_neg (by decide), if_neg (by decide)] at grown
        cases grown
        exact .inr ⟨rfl, by simp, top⟩
    rcases outcome with ⟨rfl, rfl⟩ | ⟨rfl, size, below⟩ <;> dsimp only at answered
    · rw [if_pos (by decide)] at answered
      cases answered
      exact .inl ⟨by decide, rfl⟩
    · rw [if_neg (by decide)] at answered
      cases answered
      refine .inr ⟨?_, size, below⟩
      rw [Int32.ofInt_toInt, UInt32.toUInt32_toInt32]
  · cases run

/-- A process of size `sz` whose pages from `PGROUNDUP(sz)` up to `KERNBASE` `allocuvm` can
map: the directory and free list well formed for them, none of them present, every free page
past the kernel's image and not page `0`. -/
def Growable (pgdir : UInt32) (k : Vm × UInt32) : Prop :=
  ∃ free, MapWf k.1 pgdir (pages (pgRoundUp k.2) kernBase) free ∧ (∀ p ∈ free, k.1.kend ≤ p2v p ∧ p ≠ 0) ∧
    ∀ c ∈ pages (pgRoundUp k.2) kernBase, ¬ Present k.1.mem pgdir c

/-- `growproc(n)` for `n ≥ 0` on a growable process returns. -/
theorem growproc_ok {s : Vm} {pgdir sz : UInt32} {n : Int32} (nonneg : 0 ≤ n.toInt)
    (grow : Growable pgdir (s, sz)) : ∃ r, growproc s pgdir sz n = .ok r := by
  obtain ⟨free, map, past, absent⟩ := grow
  unfold growproc
  by_cases pos : n > 0
  · rw [if_pos pos]
    obtain ⟨r, s', run, -⟩ := @allocuvm_ok s pgdir sz (sz + n.toUInt32) free map past absent
    rw [run, except_ok_bind]
    dsimp only
    split <;> exact ⟨_, rfl⟩
  · have notNeg : ¬ n < 0 := fun neg => by
      rw [Int32.lt_iff_toInt_lt] at neg
      simp only [Int32.toInt_zero] at neg
      omega
    rw [if_neg pos, if_neg notNeg]
    exact ⟨_, rfl⟩

/-- So `sbrk(n)` for `n ≥ 0` answers. -/
theorem userSbrk_answers {pgdir : UInt32} {k : Vm × UInt32} {n : Int32} (nonneg : 0 ≤ n.toInt)
    (grow : Growable pgdir k) : userSbrk pgdir k n ≠ none := by
  obtain ⟨s, sz⟩ := k
  obtain ⟨⟨r, sz', s'⟩, grown⟩ := growproc_ok nonneg grow
  unfold userSbrk sysSbrk
  rw [grown, except_ok_bind]
  dsimp only
  by_cases neg : r < 0 <;> simp [neg]

end Xv6
