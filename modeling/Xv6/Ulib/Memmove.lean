import Xv6.Param

/-!
# `memmove`

The kernel's `memmove` (`string.c`) copies backward when the destination starts inside the
source, and forward otherwise; the user library's (`ulib.c`) always copies forward.  Memory
is a byte at each 32-bit address, and the pointers advance modulo `2^32`.

`Moved mem mem' dst src n` is the contract: `dst[0..n)` of `mem'` holds `src[0..n)` of `mem`,
and every other byte is as in `mem`.  A copy loop meets it when none of its writes lands on a
source byte it has still to read (`copyForward_moves`, `copyBackward_moves`).

* `memmove_moves`: the kernel's `memmove` meets the contract for every overlap of two ranges
  inside the address space, the source ending below `2^32` so that its test `s + n > d` is the
  comparison it means;
* `memmoveUser_moves`: the user version meets it when the destination does not start inside
  the source;
* `copyForward_clobbers`: when it does, the destination's byte at the distance between the
  two starts receives the source's first byte again.
-/

namespace Xv6

/-- Memory: a byte at each 32-bit address. -/
abbrev Mem := UInt32 → UInt8

namespace Mem

/-- `while(n-- > 0) *d++ = *s++;` -/
def copyForward (mem : Mem) (d s : UInt32) : Nat → Mem
  | 0 => mem
  | n + 1 => copyForward (Function.update mem d (mem s)) (d + 1) (s + 1) n

/-- `while(n-- > 0) *--d = *--s;`, from `d` and `s` past the ends of the ranges. -/
def copyBackward (mem : Mem) (d s : UInt32) : Nat → Mem
  | 0 => mem
  | n + 1 => copyBackward (Function.update mem (d - 1) (mem (s - 1))) (d - 1) (s - 1) n

/-- The kernel's `memmove(dst, src, n)` (`string.c`). -/
def memmove (mem : Mem) (dst src n : UInt32) : Mem :=
  if src < dst ∧ src + n > dst then copyBackward mem (dst + n) (src + n) n.toNat
  else copyForward mem dst src n.toNat

/-- The user library's `memmove(vdst, vsrc, n)` (`ulib.c`), whose `n` is an `int`. -/
def memmoveUser (mem : Mem) (vdst vsrc : UInt32) (n : Int32) : Mem :=
  copyForward mem vdst vsrc n.toInt.toNat

/-- The contract of `memmove`: the destination holds the source's old bytes, and nothing
else changed. -/
structure Moved (mem mem' : Mem) (dst src : UInt32) (n : Nat) : Prop where
  copied : ∀ i < n, mem' (dst + UInt32.ofNat i) = mem (src + UInt32.ofNat i)
  frame : ∀ a, (∀ i < n, a ≠ dst + UInt32.ofNat i) → mem' a = mem a

/-! ## Addresses -/

theorem add_one_add_ofNat (a : UInt32) (i : Nat) :
    a + 1 + UInt32.ofNat i = a + UInt32.ofNat (i + 1) := by
  rw [UInt32.ofNat_add, add_assoc, add_comm 1]
  rfl

theorem add_ofNat_succ_sub_one (a : UInt32) (i : Nat) :
    a + UInt32.ofNat (i + 1) - 1 = a + UInt32.ofNat i := by
  rw [UInt32.ofNat_add, ← add_assoc, add_sub_assoc, UInt32.ofNat_one, sub_self, add_zero]

theorem add_ofNat_add_ofNat (a : UInt32) (i j : Nat) :
    a + UInt32.ofNat i + UInt32.ofNat j = a + UInt32.ofNat (i + j) := by
  rw [UInt32.ofNat_add, add_assoc]

theorem toNat_add_ofNat {a : UInt32} {i : Nat} (h : a.toNat + i < 2 ^ 32) :
    (a + UInt32.ofNat i).toNat = a.toNat + i := by
  rw [UInt32.toNat_add, UInt32.toNat_ofNat_of_lt' (lt_of_le_of_lt (Nat.le_add_left i _) h),
    Nat.mod_eq_of_lt h]

/-- Two offsets below `2^32` from one address are different addresses. -/
theorem add_ofNat_ne {a : UInt32} {i j : Nat} (hi : i < 2 ^ 32) (hj : j < 2 ^ 32) (h : i ≠ j) :
    a + UInt32.ofNat i ≠ a + UInt32.ofNat j := by
  intro same
  apply h
  have := congrArg UInt32.toNat (add_left_cancel same)
  rwa [UInt32.toNat_ofNat_of_lt' hi, UInt32.toNat_ofNat_of_lt' hj] at this

/-! ## The two loops -/

/-- The forward loop writes only its destination range. -/
theorem copyForward_frame (mem : Mem) (d s : UInt32) (n : Nat) (a : UInt32)
    (outside : ∀ i < n, a ≠ d + UInt32.ofNat i) : copyForward mem d s n a = mem a := by
  induction n generalizing mem d s with
  | zero => rfl
  | succ n ih =>
    rw [copyForward, ih _ _ _ fun i hi => by rw [add_one_add_ofNat]; exact outside _ (by omega)]
    exact Function.update_of_ne (by simpa using outside 0 (by omega)) _ _

/-- `a + b` turns of the forward loop are `a` turns and then `b` from where they stop. -/
theorem copyForward_add (mem : Mem) (d s : UInt32) (a b : Nat) :
    copyForward mem d s (a + b) =
      copyForward (copyForward mem d s a) (d + UInt32.ofNat a) (s + UInt32.ofNat a) b := by
  induction a generalizing mem d s with
  | zero => simp [copyForward]
  | succ a ih =>
    rw [Nat.add_right_comm, copyForward, copyForward, ih, add_one_add_ofNat, add_one_add_ofNat]

/-- The forward loop moves its ranges when no write lands on a source byte still to be
read: a write at `d + i` and a later read at `s + j`, `i < j`, never meet.  The induction is
on the length; the first turn's write is outside what the rest reads. -/
theorem copyForward_moves (mem : Mem) (d s : UInt32) (n : Nat) (small : n ≤ 2 ^ 32)
    (unread : ∀ i j, i < j → j < n → d + UInt32.ofNat i ≠ s + UInt32.ofNat j) :
    Moved mem (copyForward mem d s n) d s n := by
  induction n generalizing mem d s with
  | zero => exact ⟨fun i hi => absurd hi (Nat.not_lt_zero _), fun _ _ => rfl⟩
  | succ n ih =>
    let mem1 := Function.update mem d (mem s)
    have rest := ih mem1 (d + 1) (s + 1) (by omega) fun i j hij hj => by
      rw [add_one_add_ofNat, add_one_add_ofNat]
      exact unread _ _ (by omega) (by omega)
    -- the bytes the rest reads are the old ones
    have reads : ∀ j < n, mem1 (s + 1 + UInt32.ofNat j) = mem (s + 1 + UInt32.ofNat j) := by
      intro j hj
      rw [add_one_add_ofNat]
      exact Function.update_of_ne (by simpa using (unread 0 (j + 1) (by omega) (by omega)).symm) _ _
    have first : copyForward mem1 (d + 1) (s + 1) n d = mem s := by
      rw [rest.frame d fun i hi => by
        rw [add_one_add_ofNat]
        simpa using add_ofNat_ne (a := d) (i := 0) (j := i + 1) (by omega) (by omega) (by omega)]
      exact Function.update_self _ _ _
    refine ⟨fun i hi => ?_, fun a outside => ?_⟩
    · rw [copyForward]
      rcases i with _ | i
      · simpa using first
      · rw [← add_one_add_ofNat, rest.copied i (by omega), reads i (by omega), add_one_add_ofNat]
    · rw [copyForward, rest.frame a fun i hi => by rw [add_one_add_ofNat]; exact outside _ (by omega)]
      exact Function.update_of_ne (by simpa using outside 0 (by omega)) _ _

/-- The backward loop from the ends moves its ranges when no write lands on a source byte
still to be read: a write at `d + i` and a later read at `s + j`, `j < i`, never meet.  The
induction is on the length; the first turn writes the last byte. -/
theorem copyBackward_moves (mem : Mem) (d s : UInt32) (n : Nat) (small : n < 2 ^ 32)
    (unread : ∀ i j, j < i → i < n → d + UInt32.ofNat i ≠ s + UInt32.ofNat j) :
    Moved mem (copyBackward mem (d + UInt32.ofNat n) (s + UInt32.ofNat n) n) d s n := by
  induction n generalizing mem with
  | zero => exact ⟨fun i hi => absurd hi (Nat.not_lt_zero _), fun _ _ => rfl⟩
  | succ n ih =>
    rw [copyBackward, add_ofNat_succ_sub_one, add_ofNat_succ_sub_one]
    let mem1 := Function.update mem (d + UInt32.ofNat n) (mem (s + UInt32.ofNat n))
    have rest := ih mem1 (by omega) fun i j hji hi => unread i j hji (by omega)
    have reads : ∀ j < n, mem1 (s + UInt32.ofNat j) = mem (s + UInt32.ofNat j) := fun j hj =>
      Function.update_of_ne (unread n j hj (by omega)).symm _ _
    refine ⟨fun i hi => ?_, fun a outside => ?_⟩
    · by_cases last : i = n
      · subst last
        rw [rest.frame _ fun j hj => add_ofNat_ne (by omega) (by omega) (by omega)]
        exact Function.update_self _ _ _
      · rw [rest.copied i (by omega), reads i (by omega)]
    · rw [rest.frame a fun i hi => outside i (by omega)]
      exact Function.update_of_ne (outside n (by omega)) _ _

/-! ## The two `memmove`s -/

/-- The kernel's `memmove` moves `n` bytes from `src` to `dst` however the two ranges
overlap, when both lie in the address space and the source ends below `2^32`. -/
theorem memmove_moves (mem : Mem) (dst src n : UInt32)
    (srcFits : src.toNat + n.toNat < 2 ^ 32) (dstFits : dst.toNat + n.toNat ≤ 2 ^ 32) :
    Moved mem (memmove mem dst src n) dst src n.toNat := by
  have srcEnd : (src + n).toNat = src.toNat + n.toNat := by
    rw [UInt32.toNat_add, Nat.mod_eq_of_lt srcFits]
  unfold memmove
  split
  · -- `dst` starts inside the source: the backward copy reads each byte before it is written
    rename_i inside
    have lt := UInt32.lt_iff_toNat_lt.mp inside.1
    have nEq : UInt32.ofNat n.toNat = n := UInt32.ofNat_toNat
    have moved := copyBackward_moves mem dst src n.toNat n.toNat_lt fun i j hji hi same => by
      have := congrArg UInt32.toNat same
      rw [toNat_add_ofNat (by omega), toNat_add_ofNat (by omega)] at this
      omega
    rwa [nEq] at moved
  · rename_i notInside
    rw [UInt32.lt_iff_toNat_lt, gt_iff_lt, UInt32.lt_iff_toNat_lt, srcEnd] at notInside
    exact copyForward_moves mem dst src n.toNat (by have := n.toNat_lt; omega)
      fun i j hij hj same => by
        have := congrArg UInt32.toNat same
        rw [toNat_add_ofNat (by omega), toNat_add_ofNat (by omega)] at this
        omega

/-- The user library's `memmove` moves `n` bytes when the destination does not start inside
the source, both ranges lying in the address space. -/
theorem memmoveUser_moves (mem : Mem) (dst src : UInt32) (n : Int32)
    (srcFits : src.toNat + n.toInt.toNat ≤ 2 ^ 32) (dstFits : dst.toNat + n.toInt.toNat ≤ 2 ^ 32)
    (outside : dst.toNat ≤ src.toNat ∨ src.toNat + n.toInt.toNat ≤ dst.toNat) :
    Moved mem (memmoveUser mem dst src n) dst src n.toInt.toNat :=
  copyForward_moves mem dst src _ (by omega) fun i j hij hj same => by
    have := congrArg UInt32.toNat same
    rw [toNat_add_ofNat (by omega), toNat_add_ofNat (by omega)] at this
    omega

/-- When the destination starts `δ > 0` bytes into the source, the forward loop has
overwritten source byte `δ` (destination byte `0`) before it reads it: destination byte `δ`
receives the source's byte `0`.  The loop is cut at `δ` (`copyForward_add`). -/
theorem copyForward_clobbers (mem : Mem) (dst src : UInt32) (n : Nat)
    (lt : src.toNat < dst.toNat) (inside : dst.toNat < src.toNat + n)
    (dstFits : dst.toNat + n ≤ 2 ^ 32) :
    copyForward mem dst src n (dst + UInt32.ofNat (dst.toNat - src.toNat)) = mem src := by
  obtain ⟨δ, hδ⟩ : ∃ δ, δ = dst.toNat - src.toNat := ⟨_, rfl⟩
  rw [← hδ]
  have split : n = δ + (1 + (n - δ - 1)) := by omega
  -- the first `δ` turns read source bytes below `δ`, which no write of theirs reaches
  have before := copyForward_moves mem dst src δ (by omega) fun i j hij hj same => by
    have := congrArg UInt32.toNat same
    rw [toNat_add_ofNat (by omega), toNat_add_ofNat (by omega)] at this
    omega
  have srcδ : src + UInt32.ofNat δ = dst + UInt32.ofNat 0 := by
    apply UInt32.toNat_inj.mp
    rw [toNat_add_ofNat (by omega), toNat_add_ofNat (by omega)]
    omega
  have cut : copyForward mem dst src n = copyForward
      (copyForward (copyForward mem dst src δ) (dst + UInt32.ofNat δ) (src + UInt32.ofNat δ) 1)
      (dst + UInt32.ofNat δ + UInt32.ofNat 1) (src + UInt32.ofNat δ + UInt32.ofNat 1)
      (n - δ - 1) := by
    conv_lhs => rw [split]
    rw [copyForward_add, copyForward_add]
  -- the turns after `δ` write further on
  rw [cut, copyForward_frame _ _ _ _ _ fun i hi => by
      rw [add_ofNat_add_ofNat, add_ofNat_add_ofNat]
      exact add_ofNat_ne (by omega) (by omega) (by omega),
    copyForward, copyForward, Function.update_self, srcδ, before.copied 0 (by omega)]
  simp

/-- `memmove(0x1001, 0x1000, 2)` over `1, 2` at `0x1000`: the kernel's leaves `1, 2` at
`0x1001`, the user library's `1, 1`. -/
theorem memmoveUser_overlap_wrong :
    let mem : Mem := fun a => if a = 0x1000 then 1 else if a = 0x1001 then 2 else 0
    memmove mem 0x1001 0x1000 2 0x1001 = 1 ∧ memmove mem 0x1001 0x1000 2 0x1002 = 2 ∧
      memmoveUser mem 0x1001 0x1000 2 0x1001 = 1 ∧ memmoveUser mem 0x1001 0x1000 2 0x1002 = 1 := by
  decide

end Mem

end Xv6
