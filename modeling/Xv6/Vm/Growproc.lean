import Xv6.Vm.Copyout

/-!
# Growing and shrinking a user address space

`kalloc.c` keeps the free pages on a list threaded through the pages themselves;
`allocuvm` maps fresh zeroed pages up to a new size and `deallocuvm` unmaps and frees the
pages above one; `growproc(n)` calls one or the other on `sz + n`, computed in `uint`, and
reads a result of `0` as failure.

* `growproc_wraps`: when `sz + n < 0`, the sum wraps above `sz`, `deallocuvm` returns `sz`
  unchanged, and `growproc` returns `0` having done nothing;
* `growproc_to_zero`: shrinking to size `0` makes `deallocuvm` return `0`, its correct new
  size, which `growproc` takes for failure: it returns `-1` and keeps the old `sz`, after
  `deallocuvm` has freed the pages;
* `sbrk_misreads_shrink`: both, on a process of one page.
-/

namespace Xv6

/-! ## `mmu.h` -/

/-- `PGROUNDUP(sz)`. -/
def pgRoundUp (sz : UInt32) : UInt32 := (sz + pgSize - 1) &&& ~~~(pgSize - 1)

/-- `PGADDR(d, t, o)`. -/
def pgAddr (d t o : UInt32) : UInt32 := d <<< 22 ||| t <<< 12 ||| o

/-- The pages a 32-bit address space holds: no loop over pages below a size runs more often. -/
def pageCount : Nat := 2 ^ 20

/-! ## Memory -/

/-- The word `w` at physical address `a`, little-endian. -/
def writeWord (mem : PhysMem) (a w : UInt32) : PhysMem :=
  Writes.apply ((List.range 4).map fun k => (a + UInt32.ofNat k, LittleEndian.byte32 w k)) mem

/-- `*x = w` for a kernel pointer `x`: through the direct map, undefined for null. -/
def store (mem : PhysMem) (x w : UInt32) : Except Fault PhysMem :=
  if x = 0 then .error .nullDeref else .ok (writeWord mem (v2p x) w)

/-- `memset(v, c, n)` for a kernel address `v`. -/
def memset (mem : PhysMem) (v : UInt32) (c : UInt8) (n : Nat) : PhysMem :=
  fun a => if (a - v2p v).toNat < n then c else mem a

/-- Physical memory and `kmem`. -/
structure Vm where
  mem : PhysMem
  /-- `kmem.freelist`: the first free page, by its kernel address, or `0`. -/
  freelist : UInt32
  /-- `end`: the first address after the kernel's image. -/
  kend : UInt32

namespace Vm

/-- `kfree(v)`: fill the page with junk and push it on the free list, its first word
`r->next`. -/
def kfree (s : Vm) (v : UInt32) : Except Fault Vm :=
  if v % pgSize ≠ 0 ∨ v < s.kend ∨ v2p v ≥ physTop then .error (.panic "kfree")
  else do
    let mem ← store (memset s.mem v 1 4096) v s.freelist
    return { s with mem, freelist := v }

/-- `kalloc()`: pop the first free page, or `0` when there is none. -/
def kalloc (s : Vm) : Except Fault (UInt32 × Vm) :=
  if s.freelist = 0 then return (0, s)
  else do
    let next ← load s.mem s.freelist
    return (s.freelist, { s with freelist := next })

/-- `walkpgdir(pgdir, va, alloc)`: a pointer to `va`'s page-table entry; when the directory
entry is absent, `0`, or with `alloc` a fresh zeroed page table installed. -/
def walkpgdir (s : Vm) (pgdir va : UInt32) (alloc : Bool) : Except Fault (UInt32 × Vm) := do
  let pde := pgdir + 4 * pdx va
  let e ← load s.mem pde
  if e &&& pteP ≠ 0 then return (p2v (pteAddr e) + 4 * ptx va, s)
  if !alloc then return (0, s)
  let (pgtab, s) ← s.kalloc
  if pgtab = 0 then return (0, s)
  let mem ← store (memset s.mem pgtab 0 4096) pde (v2p pgtab ||| pteP ||| pteW ||| pteU)
  return (pgtab + 4 * ptx va, { s with mem })

/-- `mappages`' loop from page `a`, mapped to `pa`, up to the page `last`. -/
def mappagesLoop (pgdir perm last : UInt32) : Nat → UInt32 → UInt32 → Vm → Except Fault (Int × Vm)
  | 0, _, _, s => return (0, s)
  | k + 1, a, pa, s => do
    let (pte, s) ← s.walkpgdir pgdir a true
    if pte = 0 then return (-1, s)
    let e ← load s.mem pte
    if e &&& pteP ≠ 0 then throw (.panic "remap")
    let mem ← store s.mem pte (pa ||| perm ||| pteP)
    let s := { s with mem }
    if a = last then return (0, s)
    mappagesLoop pgdir perm last k (a + pgSize) (pa + pgSize) s

/-- `mappages(pgdir, va, size, pa, perm)`: `0`, or `-1` when a page table cannot be
allocated.  The loop stops at `last`, `(last - a) / PGSIZE` pages after `a`. -/
def mappages (s : Vm) (pgdir va size pa perm : UInt32) : Except Fault (Int × Vm) :=
  let a := pgRoundDown va
  let last := pgRoundDown (va + size - 1)
  mappagesLoop pgdir perm last (((last - a) / pgSize).toNat + 1) a pa s

/-- `deallocuvm`'s loop from page `a` up to `oldsz`. -/
def deallocuvmLoop (pgdir oldsz : UInt32) : Nat → UInt32 → Vm → Except Fault Vm
  | 0, _, s => return s
  | k + 1, a, s =>
    if a < oldsz then do
      let (pte, s) ← s.walkpgdir pgdir a false
      if pte = 0 then
        -- no page table here: on to the first page of the next directory entry
        deallocuvmLoop pgdir oldsz k (pgAddr (pdx a + 1) 0 0 - pgSize + pgSize) s
      else
        let e ← load s.mem pte
        if e &&& pteP ≠ 0 then
          let pa := pteAddr e
          if pa = 0 then throw (.panic "kfree")
          let s ← s.kfree (p2v pa)
          let mem ← store s.mem pte 0
          deallocuvmLoop pgdir oldsz k (a + pgSize) { s with mem }
        else deallocuvmLoop pgdir oldsz k (a + pgSize) s
    else return s

/-- `deallocuvm(pgdir, oldsz, newsz)`: free the pages from `PGROUNDUP(newsz)` below
`oldsz`; the new size. -/
def deallocuvm (s : Vm) (pgdir oldsz newsz : UInt32) : Except Fault (UInt32 × Vm) :=
  if newsz ≥ oldsz then return (oldsz, s)
  else do
    let s ← deallocuvmLoop pgdir oldsz pageCount (pgRoundUp newsz) s
    return (newsz, s)

/-- `allocuvm`'s loop from page `a` up to `newsz`. -/
def allocuvmLoop (pgdir oldsz newsz : UInt32) : Nat → UInt32 → Vm → Except Fault (UInt32 × Vm)
  | 0, _, s => return (newsz, s)
  | k + 1, a, s =>
    if a < newsz then do
      let (m, s) ← s.kalloc
      if m = 0 then
        -- "allocuvm out of memory"
        let (_, s) ← s.deallocuvm pgdir newsz oldsz
        return (0, s)
      let s := { s with mem := memset s.mem m 0 4096 }
      let (r, s) ← s.mappages pgdir a pgSize (v2p m) (pteW ||| pteU)
      if r < 0 then
        -- "allocuvm out of memory (2)"
        let (_, s) ← s.deallocuvm pgdir newsz oldsz
        let s ← s.kfree m
        return (0, s)
      allocuvmLoop pgdir oldsz newsz k (a + pgSize) s
    else return (newsz, s)

/-- `allocuvm(pgdir, oldsz, newsz)`: map zeroed pages from `PGROUNDUP(oldsz)` below
`newsz`; the new size, or `0` on error. -/
def allocuvm (s : Vm) (pgdir oldsz newsz : UInt32) : Except Fault (UInt32 × Vm) :=
  if newsz ≥ kernBase then return (0, s)
  else if newsz < oldsz then return (oldsz, s)
  else allocuvmLoop pgdir oldsz newsz pageCount (pgRoundUp oldsz) s

end Vm

/-- `growproc(n)` by the process with page directory `pgdir` and size `sz`: what it returns,
the process's `sz` after it, and the machine.  `switchuvm` is left out. -/
def growproc (s : Vm) (pgdir sz : UInt32) (n : Int32) : Except Fault (Int × UInt32 × Vm) :=
  if n > 0 then do
    let (sz', s) ← s.allocuvm pgdir sz (sz + n.toUInt32)
    if sz' = 0 then return (-1, sz, s)
    return (0, sz', s)
  else if n < 0 then do
    let (sz', s) ← s.deallocuvm pgdir sz (sz + n.toUInt32)
    if sz' = 0 then return (-1, sz, s)
    return (0, sz', s)
  else return (0, sz, s)

/-- `sys_sbrk()` with argument `n`: the old size, or `-1`. -/
def sysSbrk (s : Vm) (pgdir sz : UInt32) (n : Int32) : Except Fault (Int × UInt32 × Vm) := do
  let (r, sz', s) ← growproc s pgdir sz n
  if r < 0 then return (-1, sz', s)
  return (sz.toInt32.toInt, sz', s)

/-! ## What `growproc` returns -/

/-- A negative `int` converted to `uint` is `2^32` past it. -/
theorem toNat_toUInt32_of_neg {n : Int32} (h : n.toInt < 0) :
    (n.toUInt32.toNat : Int) = n.toInt + 2 ^ 32 := by
  rw [← Int32.toNat_toBitVec]
  rw [← Int32.toInt_toBitVec, BitVec.toInt_eq_toNat_cond] at h ⊢
  have := n.toBitVec.isLt
  split at h
  · omega
  · rw [if_neg (by assumption)]
    push_cast
    omega

/-- `deallocuvm` to a size not below the old one does nothing. -/
theorem Vm.deallocuvm_of_le (s : Vm) (pgdir : UInt32) {oldsz newsz : UInt32}
    (h : oldsz ≤ newsz) : s.deallocuvm pgdir oldsz newsz = .ok (oldsz, s) := by
  rw [Vm.deallocuvm, if_pos h]
  rfl

/-- Below the old size, `deallocuvm` returns the new size. -/
theorem Vm.deallocuvm_of_lt {s s' : Vm} {pgdir oldsz newsz r : UInt32} (hlt : newsz < oldsz)
    (h : s.deallocuvm pgdir oldsz newsz = .ok (r, s')) :
    r = newsz ∧ s.deallocuvmLoop pgdir oldsz pageCount (pgRoundUp newsz) = .ok s' := by
  rw [Vm.deallocuvm, if_neg (show ¬ newsz ≥ oldsz by rw [ge_iff_le, UInt32.not_le]; exact hlt)] at h
  obtain ⟨s'', hloop, h⟩ := except_bind_eq_ok h
  obtain ⟨rfl, rfl⟩ := Prod.mk.inj (Except.ok.inj h)
  exact ⟨rfl, hloop⟩

/-- When `sz + n` is negative, the `uint` sum wraps above `sz`: `deallocuvm` returns `sz`
unchanged, and `growproc` returns `0` having changed nothing. -/
theorem growproc_wraps (s : Vm) (pgdir sz : UInt32) (n : Int32) (hsz : sz ≠ 0)
    (hneg : (sz.toNat : Int) + n.toInt < 0) : growproc s pgdir sz n = .ok (0, sz, s) := by
  have hn : n.toInt < 0 := by omega
  have hwrap := toNat_toUInt32_of_neg hn
  have hle : sz ≤ sz + n.toUInt32 := by
    rw [UInt32.le_iff_toNat_le, UInt32.toNat_add]
    have := n.le_toInt
    rw [Nat.mod_eq_of_lt (by omega)]
    omega
  have hnpos : ¬ n > 0 := fun h => by rw [gt_iff_lt, Int32.lt_iff_toInt_lt] at h; simp at h; omega
  have hnneg : n < 0 := by rw [Int32.lt_iff_toInt_lt]; simpa using hn
  rw [growproc, if_neg hnpos, if_pos hnneg, Vm.deallocuvm_of_le s pgdir hle, except_ok_bind]
  dsimp only
  rw [if_neg hsz]
  rfl

/-- Shrinking to size `0`: `deallocuvm` returns `0`, the right new size, and `growproc`
takes it for failure, returning `-1` with the old `sz`, the pages below it freed. -/
theorem growproc_to_zero {s s' : Vm} {pgdir sz sz' : UInt32} {n : Int32} {r : Int}
    (hsz : sz ≠ 0) (hzero : (sz.toNat : Int) + n.toInt = 0)
    (h : growproc s pgdir sz n = .ok (r, sz', s')) :
    r = -1 ∧ sz' = sz ∧ s.deallocuvm pgdir sz 0 = .ok (0, s') := by
  have hn : n.toInt < 0 := by
    have : 0 < sz.toNat := by
      rcases Nat.eq_zero_or_pos sz.toNat with h0 | h0
      · exact absurd (UInt32.toNat_inj.mp (h0.trans UInt32.toNat_zero.symm)) hsz
      · exact h0
    omega
  have hsum : sz + n.toUInt32 = 0 := by
    rw [← UInt32.toNat_inj, UInt32.toNat_add, UInt32.toNat_zero]
    have := toNat_toUInt32_of_neg hn
    have : sz.toNat + n.toUInt32.toNat = 2 ^ 32 := by omega
    rw [this]
    rfl
  have hnpos : ¬ n > 0 := fun h => by rw [gt_iff_lt, Int32.lt_iff_toInt_lt] at h; simp at h; omega
  have hnneg : n < 0 := by rw [Int32.lt_iff_toInt_lt]; simpa using hn
  rw [growproc, if_neg hnpos, if_pos hnneg, hsum] at h
  obtain ⟨⟨sz'', s''⟩, hdealloc, h⟩ := except_bind_eq_ok h
  have hpos : (0 : UInt32) < sz := by
    rw [UInt32.lt_iff_toNat_lt, UInt32.toNat_zero]
    omega
  obtain ⟨rfl, -⟩ := Vm.deallocuvm_of_lt hpos hdealloc
  dsimp only at h
  rw [if_pos rfl] at h
  obtain ⟨rfl, rfl, rfl⟩ : r = -1 ∧ sz' = sz ∧ s' = s'' := by
    simpa [Prod.ext_iff, eq_comm] using (Except.ok.inj h)
  exact ⟨rfl, rfl, hdealloc⟩

/-! ## One page -/

/-- A process of one page: its page directory at physical `0x200000`, one page table at
`0x201000` mapping user address `0` to the frame `0x202000`, no free page, the kernel's
image ending at `0x80100000`. -/
def onePage : Vm where
  mem := writeWord (writeWord (fun _ => 0) 0x200000 (0x201000 ||| 7)) 0x201000 (0x202000 ||| 7)
  freelist := 0
  kend := 0x80100000

/-- The page directory of `onePage`, by its kernel address. -/
def onePgdir : UInt32 := p2v 0x200000

/-- After `growproc(-sz)` on `onePage`, the page is unmapped and first on the free list,
although `growproc` returned `-1` and kept `sz`. -/
def shrinkCheck : Except Fault (Int × UInt32 × Vm) → Bool
  | .ok (r, sz, s) =>
    r == -1 && sz == 4096 && uva2ka s.mem onePgdir 0 == .ok 0 && s.freelist == p2v 0x202000
  | .error _ => false

/-- `sbrk(-8192)` and `sbrk(-4096)` on a process of one page.  The first returns the old
size, as on success, and changes nothing, though `4096 - 8192 < 0`.  In the second,
`growproc` frees and unmaps the page at user address `0`, then returns `-1` with `sz` still
`4096`. -/
theorem sbrk_misreads_shrink :
    uva2ka onePage.mem onePgdir 0 = .ok (p2v 0x202000) ∧
      sysSbrk onePage onePgdir 4096 (-8192) = .ok (4096, 4096, onePage) ∧
      ∃ s', growproc onePage onePgdir 4096 (-4096) = .ok (-1, 4096, s') ∧
        uva2ka s'.mem onePgdir 0 = .ok 0 ∧ s'.freelist = p2v 0x202000 := by
  have wraps := growproc_wraps onePage onePgdir 4096 (-8192) (by decide) (by decide)
  refine ⟨by decide, by rw [sysSbrk, wraps]; rfl, ?_⟩
  have run : shrinkCheck (growproc onePage onePgdir 4096 (-4096)) = true := by
    decide +kernel
  generalize growproc onePage onePgdir 4096 (-4096) = r at run ⊢
  rcases r with _ | ⟨r, sz, s'⟩
  · cases run
  · simp only [shrinkCheck, Bool.and_eq_true, beq_iff_eq] at run
    obtain ⟨⟨⟨rfl, rfl⟩, unmapped⟩, freed⟩ := run
    exact ⟨s', rfl, unmapped, freed⟩

end Xv6
