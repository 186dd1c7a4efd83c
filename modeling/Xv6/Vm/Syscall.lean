import Xv6.Vm.Copyout

/-!
# System-call arguments

`syscall.c` fetches a system call's arguments from the calling process: `fetchint` a word
at a user address, `fetchstr` a NUL-terminated string, `argint` the `n`th word above the
saved user `%esp`, `argptr` a pointer to `size` bytes and `argstr` a string pointer.  Each
checks its address against the process size `sz` before the kernel touches user memory.

The kernel reads user memory through the process's page table, whose user part is
`[0, sz)`; a read anywhere else reaches memory that is not the process's, and the model
stops there with `Fault.outOfBounds` (`Proc.userByte`).  A result `.ok` is therefore a run
in which every byte the kernel read was the process's own.

For every process with `sz <= KERNBASE`, every saved `%esp`, memory and argument word:

* `fetchint_eq`: `fetchint` reads the four bytes at `addr` exactly when they lie below
  `sz`, and returns `-1` otherwise;
* `fetchstr_spec`: `fetchstr` returns the length of the string at `addr` exactly when its
  NUL lies below `sz` (`StrAt`), and `-1` otherwise;
* `argptr_spec`: `argptr` returns the argument `i` exactly when `0 <= size` and
  `[i, i + size)` lies in `[0, sz)`;
* `syscall_args_safe`: the five routines together.

The sums in the bound checks, `addr+4` and `(uint)i+size`, stay below `2^32`
(`add_toNat_of_lt`); `argint`'s `esp+4+4*n` may wrap, and `fetchint` then checks the
wrapped address like any other.
-/

namespace Xv6

/-- What `syscall.c` reads of the calling process: its size `sz`, the user `%esp` saved in
its trap frame, and its memory by user virtual address. -/
structure Proc where
  sz : UInt32
  esp : UInt32
  mem : UInt32 → UInt8

namespace Proc

/-- A byte of user memory, read through the process's page table. -/
def userByte (p : Proc) (a : UInt32) : Except Fault UInt8 :=
  if a < p.sz then .ok (p.mem a) else .error .outOfBounds

/-- `fetchint(addr, ip)`: the `int` at `addr` (`some`, with `0` returned), or `-1`
(`none`). -/
def fetchint (p : Proc) (addr : UInt32) : Except Fault (Option Int32) :=
  if addr ≥ p.sz ∨ addr + 4 > p.sz then .ok none
  else do
    let b0 ← p.userByte addr
    let b1 ← p.userByte (addr + 1)
    let b2 ← p.userByte (addr + 2)
    let b3 ← p.userByte (addr + 3)
    pure (some (LittleEndian.word32 b0 b1 b2 b3).toInt32)

/-- The loop of `fetchstr`, `for(s = *pp; s < ep; s++) if(*s == 0) return s - *pp;`, from
`s` with `fuel` iterations left: the string's length, or `none` once `s` reaches `ep`. -/
def fetchstrLoop (p : Proc) (start : UInt32) : Nat → UInt32 → Except Fault (Option Nat)
  | 0, _ => .ok none
  | fuel + 1, s =>
    if s < p.sz then do
      let c ← p.userByte s
      if c = 0 then pure (some (s - start).toNat) else p.fetchstrLoop start fuel (s + 1)
    else .ok none

/-- `fetchstr(addr, pp)`: with `*pp = addr`, the length of the string there, or `-1`.  The
loop runs at most `sz - addr` times, the fuel it is given. -/
def fetchstr (p : Proc) (addr : UInt32) : Except Fault (Option Nat) :=
  if addr ≥ p.sz then .ok none
  else p.fetchstrLoop addr (p.sz - addr).toNat addr

/-- Where `argint(n, ip)` looks: past the return address at the saved `%esp`, word `n`. -/
def argAddr (p : Proc) (n : Nat) : UInt32 := p.esp + 4 + 4 * UInt32.ofNat n

/-- `argint(n, ip)`. -/
def argint (p : Proc) (n : Nat) : Except Fault (Option Int32) := p.fetchint (p.argAddr n)

/-- `argptr(n, pp, size)`: the `n`th argument as a pointer to `size` bytes of the process. -/
def argptr (p : Proc) (n : Nat) (size : Int32) : Except Fault (Option UInt32) := do
  let some i ← p.argint n | pure none
  if size < 0 ∨ i.toUInt32 ≥ p.sz ∨ i.toUInt32 + size.toUInt32 > p.sz then pure none
  else pure (some i.toUInt32)

/-- `argstr(n, pp)`: the `n`th argument as a string pointer, with the string's length. -/
def argstr (p : Proc) (n : Nat) : Except Fault (Option (UInt32 × Nat)) := do
  let some addr ← p.argint n | pure none
  let some len ← p.fetchstr addr.toUInt32 | pure none
  pure (some (addr.toUInt32, len))

/-! ## What the routines read -/

/-- The `int` at `addr`, little-endian. -/
def intAt (p : Proc) (addr : UInt32) : Int32 :=
  (LittleEndian.word32 (p.mem addr) (p.mem (addr + 1)) (p.mem (addr + 2))
    (p.mem (addr + 3))).toInt32

/-- The string at `addr` is `len` bytes long: its NUL, at `addr + len`, lies below `sz`,
and no byte before it is NUL. -/
structure StrAt (p : Proc) (addr : UInt32) (len : Nat) : Prop where
  lt : addr.toNat + len < p.sz.toNat
  nul : p.mem (addr + UInt32.ofNat len) = 0
  before : ∀ j < len, p.mem (addr + UInt32.ofNat j) ≠ 0

/-- Two lengths of the string at one address agree: each is the first NUL. -/
theorem StrAt.unique {p : Proc} {addr : UInt32} {len len' : Nat} (h : p.StrAt addr len)
    (h' : p.StrAt addr len') : len = len' := by
  rcases Nat.lt_trichotomy len len' with lt | eq | gt
  · exact absurd h.nul (h'.before len lt)
  · exact eq
  · exact absurd h'.nul (h.before len' gt)

theorem add_toNat_of_lt {a b : UInt32} (h : a.toNat + b.toNat < 2 ^ 32) :
    (a + b).toNat = a.toNat + b.toNat := by
  rw [UInt32.toNat_add, Nat.mod_eq_of_lt h]

theorem userByte_of_lt {p : Proc} {a : UInt32} (h : a.toNat < p.sz.toNat) :
    p.userByte a = .ok (p.mem a) := if_pos h

section

variable {p : Proc} (hsz : p.sz ≤ kernBase)
include hsz

theorem sz_le : p.sz.toNat ≤ 2 ^ 31 := hsz

/-- `fetchint`'s check, `addr >= sz || addr+4 > sz`, is the check on numbers: below `sz`,
`addr+4` does not wrap. -/
theorem fetchint_check_iff (addr : UInt32) :
    (addr ≥ p.sz ∨ addr + 4 > p.sz) ↔ ¬addr.toNat + 4 ≤ p.sz.toNat := by
  have szLe := sz_le hsz
  by_cases below : addr.toNat < p.sz.toNat
  · have sum : (addr + 4).toNat = addr.toNat + 4 := add_toNat_of_lt (by simp; omega)
    simp only [ge_iff_le, gt_iff_lt, UInt32.le_iff_toNat_le, UInt32.lt_iff_toNat_lt, sum]
    omega
  · exact iff_of_true (.inl (UInt32.le_iff_toNat_le.mpr (by omega))) (by omega)

/-- `fetchint`: the four bytes at `addr` when they lie below `sz`, `-1` otherwise. -/
theorem fetchint_eq (addr : UInt32) :
    p.fetchint addr = .ok (if addr.toNat + 4 ≤ p.sz.toNat then some (p.intAt addr) else none) := by
  have szLe := sz_le hsz
  unfold fetchint
  by_cases fits : addr.toNat + 4 ≤ p.sz.toNat
  · -- the check passes, and each of the four bytes lies below `sz`
    have byteAt : ∀ k : UInt32, k.toNat ≤ 3 → (addr + k).toNat < p.sz.toNat := fun k hk => by
      rw [add_toNat_of_lt (by omega)]
      omega
    rw [if_neg fun c => (fetchint_check_iff hsz addr).mp c fits, if_pos fits,
      userByte_of_lt (by omega), except_ok_bind,
      userByte_of_lt (byteAt 1 (by decide)), except_ok_bind,
      userByte_of_lt (byteAt 2 (by decide)), except_ok_bind,
      userByte_of_lt (byteAt 3 (by decide)), except_ok_bind]
    rfl
  · rw [if_pos ((fetchint_check_iff hsz addr).mpr fits), if_neg fits]

/-- The loop of `fetchstr`, from `start + k` with every byte before it nonzero and `fuel`
the steps up to `sz`: the string at `start`, wherever its NUL lies below `sz`. -/
theorem fetchstrLoop_spec (start : UInt32) (fuel : Nat) :
    ∀ k, start.toNat + k + fuel = p.sz.toNat →
      (∀ j < k, p.mem (start + UInt32.ofNat j) ≠ 0) →
      ∃ r, p.fetchstrLoop start fuel (start + UInt32.ofNat k) = .ok r ∧
        ∀ len, r = some len ↔ p.StrAt start len := by
  have szLe := sz_le hsz
  induction fuel with
  | zero =>
    -- `s` is `sz`: no NUL lies at or past it, and none lies before it
    intro k hk before
    refine ⟨none, rfl, fun len => ⟨nofun, fun h => ?_⟩⟩
    rcases Nat.lt_or_ge len k with lt | ge
    · exact absurd h.nul (before len lt)
    · have := h.lt
      omega
  | succ fuel ih =>
    intro k hk before
    have kNat : (UInt32.ofNat k).toNat = k := by
      rw [UInt32.toNat_ofNat', Nat.mod_eq_of_lt (by omega)]
    have sNat : (start + UInt32.ofNat k).toNat = start.toNat + k := by
      rw [add_toNat_of_lt (by omega), kNat]
    have below : start + UInt32.ofNat k < p.sz := UInt32.lt_iff_toNat_lt.mpr (by omega)
    simp only [fetchstrLoop, if_pos below, userByte_of_lt below, except_ok_bind]
    by_cases nul : p.mem (start + UInt32.ofNat k) = 0
    · -- the NUL at `start + k`: the length is `k`
      have isStr : p.StrAt start k := ⟨by omega, nul, before⟩
      have len : (start + UInt32.ofNat k - start).toNat = k := by
        rw [add_sub_cancel_left, kNat]
      refine ⟨some k, by rw [if_pos nul, len]; rfl, fun len' => ⟨?_, fun h => ?_⟩⟩
      · rintro ⟨⟩
        exact isStr
      · rw [isStr.unique h]
    · -- a nonzero byte: one step further
      rw [if_neg nul, add_assoc, show UInt32.ofNat k + 1 = UInt32.ofNat (k + 1) by
        rw [UInt32.ofNat_add]; rfl]
      exact ih (k + 1) (by omega) fun j hj => by
        rcases Nat.lt_or_ge j k with lt | ge
        · exact before j lt
        · obtain rfl : j = k := by omega
          exact nul

/-- `fetchstr`: the length of the string at `addr` when its NUL lies below `sz`, `-1`
otherwise. -/
theorem fetchstr_spec (addr : UInt32) :
    ∃ r, p.fetchstr addr = .ok r ∧ ∀ len, r = some len ↔ p.StrAt addr len := by
  unfold fetchstr
  by_cases past : addr ≥ p.sz
  · -- no string starts at or past `sz`
    refine ⟨none, if_pos past, fun len => ⟨nofun, fun h => ?_⟩⟩
    have := h.lt
    have := UInt32.le_iff_toNat_le.mp past
    omega
  · rw [if_neg past]
    have below : addr.toNat < p.sz.toNat := by
      rw [ge_iff_le, UInt32.le_iff_toNat_le] at past
      omega
    have steps : addr.toNat + 0 + (p.sz - addr).toNat = p.sz.toNat := by
      rw [UInt32.toNat_sub_of_le _ _ (UInt32.le_iff_toNat_le.mpr below.le)]
      omega
    simpa using fetchstrLoop_spec hsz addr _ 0 steps (fun j hj => absurd hj (Nat.not_lt_zero j))

/-- `argptr`'s check, `size < 0 || (uint)i >= sz || (uint)i+size > sz`, is the check on
numbers: `(uint)i+size` does not wrap. -/
theorem argptr_check_iff (x : UInt32) (size : Int32) :
    (size < 0 ∨ x ≥ p.sz ∨ x + size.toUInt32 > p.sz) ↔
      ¬(0 ≤ size ∧ x.toNat < p.sz.toNat ∧ x.toNat + size.toNatClampNeg ≤ p.sz.toNat) := by
  have szLe := sz_le hsz
  by_cases nonneg : 0 ≤ size
  · by_cases lt : x.toNat < p.sz.toNat
    · -- only the last check can fire, on the sum that does not wrap
      have sizeNat : size.toUInt32.toNat = size.toNatClampNeg :=
        Int32.toNat_toUInt32_of_le nonneg
      have small := Int32.toNatClampNeg_lt size
      have sum : (x + size.toUInt32).toNat = x.toNat + size.toNatClampNeg := by
        rw [add_toNat_of_lt (by rw [sizeNat]; omega), sizeNat]
      simp only [Int32.not_lt.mpr nonneg, ge_iff_le, gt_iff_lt, UInt32.le_iff_toNat_le,
        UInt32.lt_iff_toNat_lt, sum, nonneg, lt, false_or, true_and]
      omega
    · exact iff_of_true (.inr (.inl (UInt32.le_iff_toNat_le.mpr (by omega)))) fun h => lt h.2.1
  · exact iff_of_true (.inl (Int32.not_le.mp nonneg)) fun h => nonneg h.1

/-- `argptr`: the argument `i` when `0 <= size` and `[i, i + size)` lies below `sz`, `-1`
otherwise. -/
theorem argptr_spec (n : Nat) (size : Int32) :
    ∃ r, p.argptr n size = .ok r ∧ ∀ ptr, r = some ptr ↔
      ∃ i, p.argint n = .ok (some i) ∧ ptr = i.toUInt32 ∧ 0 ≤ size ∧
        ptr.toNat < p.sz.toNat ∧ ptr.toNat + size.toNatClampNeg ≤ p.sz.toNat := by
  unfold argptr argint
  rw [fetchint_eq hsz]
  by_cases fits : (p.argAddr n).toNat + 4 ≤ p.sz.toNat
  · rw [if_pos fits, except_ok_bind]
    generalize p.intAt (p.argAddr n) = i
    by_cases ok : 0 ≤ size ∧ i.toUInt32.toNat < p.sz.toNat ∧
        i.toUInt32.toNat + size.toNatClampNeg ≤ p.sz.toNat
    · refine ⟨some i.toUInt32, if_neg fun c => (argptr_check_iff hsz _ _).mp c ok,
        fun ptr => ⟨fun h => ?_, ?_⟩⟩
      · rw [← Option.some_inj.mp h]
        exact ⟨i, rfl, rfl, ok⟩
      · rintro ⟨j, hj, rfl, -⟩
        obtain rfl := Option.some_inj.mp (Except.ok.inj hj)
        rfl
    · refine ⟨none, if_pos ((argptr_check_iff hsz _ _).mpr ok), fun ptr => ⟨nofun, ?_⟩⟩
      rintro ⟨j, hj, rfl, rest⟩
      obtain rfl := Option.some_inj.mp (Except.ok.inj hj)
      exact absurd rest ok
  · -- `argint` fails
    rw [if_neg fits]
    exact ⟨none, rfl, fun ptr => ⟨nofun, fun ⟨j, hj, _⟩ => nomatch hj⟩⟩

/-- `argstr`: the argument `i` and the length of the string there when its NUL lies below
`sz`, `-1` otherwise. -/
theorem argstr_spec (n : Nat) :
    ∃ r, p.argstr n = .ok r ∧ ∀ ptr len, r = some (ptr, len) ↔
      ∃ i, p.argint n = .ok (some i) ∧ ptr = i.toUInt32 ∧ p.StrAt ptr len := by
  unfold argstr argint
  rw [fetchint_eq hsz]
  by_cases fits : (p.argAddr n).toNat + 4 ≤ p.sz.toNat
  · rw [if_pos fits, except_ok_bind]
    generalize p.intAt (p.argAddr n) = i
    obtain ⟨r, hr, spec⟩ := fetchstr_spec hsz i.toUInt32
    dsimp only
    rw [hr, except_ok_bind]
    cases r with
    | none =>
      refine ⟨none, rfl, fun ptr len => ⟨nofun, ?_⟩⟩
      rintro ⟨j, hj, rfl, str⟩
      cases hj
      cases (spec len).mpr str
    | some len =>
      refine ⟨some (i.toUInt32, len), rfl, fun ptr len' => ⟨?_, ?_⟩⟩
      · intro h
        cases h
        exact ⟨i, rfl, rfl, (spec len).mp rfl⟩
      · rintro ⟨j, hj, rfl, str⟩
        cases hj
        cases (spec len').mpr str
        rfl
  · rw [if_neg fits]
    exact ⟨none, rfl, fun ptr len => ⟨nofun, fun ⟨j, hj, _⟩ => nomatch hj⟩⟩

end

/-- Every argument routine of `syscall.c`, for a process with `sz <= KERNBASE`: none reads
a byte outside `[0, sz)`, and each returns `-1` exactly when its bytes would not lie
there. -/
theorem syscall_args_safe (p : Proc) (hsz : p.sz ≤ kernBase) (addr : UInt32) (n : Nat)
    (size : Int32) :
    p.fetchint addr = .ok (if addr.toNat + 4 ≤ p.sz.toNat then some (p.intAt addr) else none) ∧
    (∃ r, p.fetchstr addr = .ok r ∧ ∀ len, r = some len ↔ p.StrAt addr len) ∧
    p.argint n = .ok (if (p.argAddr n).toNat + 4 ≤ p.sz.toNat then
      some (p.intAt (p.argAddr n)) else none) ∧
    (∃ r, p.argptr n size = .ok r ∧ ∀ ptr, r = some ptr ↔
      ∃ i, p.argint n = .ok (some i) ∧ ptr = i.toUInt32 ∧ 0 ≤ size ∧
        ptr.toNat < p.sz.toNat ∧ ptr.toNat + size.toNatClampNeg ≤ p.sz.toNat) ∧
    (∃ r, p.argstr n = .ok r ∧ ∀ ptr len, r = some (ptr, len) ↔
      ∃ i, p.argint n = .ok (some i) ∧ ptr = i.toUInt32 ∧ p.StrAt ptr len) :=
  ⟨fetchint_eq hsz addr, fetchstr_spec hsz addr, fetchint_eq hsz (p.argAddr n),
    argptr_spec hsz n size, argstr_spec hsz n⟩

/-- A one-page process whose saved `%esp` lies near the page's end. -/
theorem syscall_args_safe_page :
    let p : Proc := ⟨4096, 4088, fun _ => 0⟩
    p.sz ≤ kernBase ∧
    (p.fetchint 0 = .ok (if (0 : UInt32).toNat + 4 ≤ p.sz.toNat then some (p.intAt 0) else none) ∧
    (∃ r, p.fetchstr 0 = .ok r ∧ ∀ len, r = some len ↔ p.StrAt 0 len) ∧
    p.argint 1 = .ok (if (p.argAddr 1).toNat + 4 ≤ p.sz.toNat then
      some (p.intAt (p.argAddr 1)) else none) ∧
    (∃ r, p.argptr 1 8 = .ok r ∧ ∀ ptr, r = some ptr ↔
      ∃ i, p.argint 1 = .ok (some i) ∧ ptr = i.toUInt32 ∧ 0 ≤ (8 : Int32) ∧
        ptr.toNat < p.sz.toNat ∧ ptr.toNat + (8 : Int32).toNatClampNeg ≤ p.sz.toNat) ∧
    (∃ r, p.argstr 1 = .ok r ∧ ∀ ptr len, r = some (ptr, len) ↔
      ∃ i, p.argint 1 = .ok (some i) ∧ ptr = i.toUInt32 ∧ p.StrAt ptr len)) :=
  ⟨by decide, syscall_args_safe _ (by decide) 0 1 8⟩

end Proc

end Xv6
