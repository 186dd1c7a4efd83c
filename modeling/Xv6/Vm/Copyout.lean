import Xv6.Param
import Xv6.Lib.Writes
import Xv6.Lib.LittleEndian
import Xv6.Lib.Align
import Mathlib.Data.UInt
import Mathlib.Algebra.Group.Basic

/-!
# `copyout`: writing into another address space

`copyout(pgdir, va, p, len)` walks the destination range page by page; for each page
`uva2ka` looks up the page-table entry through `walkpgdir(pgdir, va0, 0)` and, when the
page is present and user-accessible, `memmove` copies the part of `p` that falls in it.

The kernel reaches a page-table page through the direct map `P2V`, so a kernel pointer
`x` to such a page designates physical address `V2P(x)`; memory is modelled physically.
`walkpgdir` returns `0` when the page-directory entry is absent, and `uva2ka`
dereferences that pointer: a null dereference, `Fault.nullDeref`.

* `copyout_error`: a fault of `copyout` is always that null dereference.
* `copyout_of_absent_pde`: whenever the first page of a nonempty range has no page table,
  `copyout` dereferences null instead of returning `-1`.
* `copyout_writes_user`: when `copyout` returns, every byte it wrote lies in a page that
  `uva2ka` found present and user-accessible in `pgdir`.
-/

namespace Xv6

/-! ## `memlayout.h` and `mmu.h` -/

/-- `KERNBASE`: the first kernel virtual address. -/
def kernBase : UInt32 := 0x80000000

/-- `PHYSTOP`: the top of physical memory. -/
def physTop : UInt32 := 0xE000000

/-- `DEVSPACE`: the devices at high addresses. -/
def devSpace : UInt32 := 0xFE000000

/-- `PGSIZE`. -/
def pgSize : UInt32 := 4096

/-- `PTE_P`: present. -/
def pteP : UInt32 := 0x001

/-- `PTE_W`: writeable. -/
def pteW : UInt32 := 0x002

/-- `PTE_U`: user. -/
def pteU : UInt32 := 0x004

/-- `PDX(va)`: the page-directory index. -/
def pdx (va : UInt32) : UInt32 := (va >>> 22) &&& 0x3FF

/-- `PTX(va)`: the page-table index. -/
def ptx (va : UInt32) : UInt32 := (va >>> 12) &&& 0x3FF

/-- `PTE_ADDR(pte)`: the frame an entry names. -/
def pteAddr (pte : UInt32) : UInt32 := pte &&& ~~~0xFFF

/-- `PGROUNDDOWN(a)`. -/
def pgRoundDown (a : UInt32) : UInt32 := a &&& ~~~(pgSize - 1)

/-- `V2P(a)`. -/
def v2p (a : UInt32) : UInt32 := a - kernBase

/-- `P2V(a)`. -/
def p2v (a : UInt32) : UInt32 := a + kernBase

/-! ## Memory and the page walk -/

/-- Physical memory, byte by byte. -/
abbrev PhysMem := UInt32 → UInt8

/-- The little-endian word at physical address `a`. -/
def readWord (mem : PhysMem) (a : UInt32) : UInt32 :=
  LittleEndian.word32 (mem a) (mem (a + 1)) (mem (a + 2)) (mem (a + 3))

/-- `*x` for a kernel pointer `x` to a `pde_t` or `pte_t`: through the direct map, and
undefined for the null pointer. -/
def load (mem : PhysMem) (x : UInt32) : Except Fault UInt32 :=
  if x = 0 then .error .nullDeref else .ok (readWord mem (v2p x))

/-- `walkpgdir(pgdir, va, 0)`: a pointer to `va`'s page-table entry, or `0` when the
page-directory entry is absent; with `alloc = 0` it never allocates. -/
def walkpgdir (mem : PhysMem) (pgdir va : UInt32) : Except Fault UInt32 := do
  let pde ← load mem (pgdir + 4 * pdx va)
  if pde &&& pteP ≠ 0 then
    return p2v (pteAddr pde) + 4 * ptx va
  else
    return 0

/-- `uva2ka(pgdir, uva)`: the kernel address of the page of `uva`, or `0` when it is not
present or not user-accessible. -/
def uva2ka (mem : PhysMem) (pgdir uva : UInt32) : Except Fault UInt32 := do
  let pte ← walkpgdir mem pgdir uva
  let e ← load mem pte
  if e &&& pteP = 0 then return 0
  if e &&& pteU = 0 then return 0
  return p2v (pteAddr e)

/-- `memmove(dst, src, n)` to the kernel address `dst`: byte `k` of `src` to physical
address `V2P(dst + k)`, in order. -/
def memmoveWrites (dst : UInt32) (src : Nat → UInt8) (n : Nat) : List (UInt32 × UInt8) :=
  (List.range n).map fun k => (v2p (dst + UInt32.ofNat k), src k)

/-! ## `copyout` -/

/-- Within a page, `va - PGROUNDDOWN(va)` is the offset `va % PGSIZE`. -/
theorem sub_pgRoundDown_toNat (va : UInt32) :
    (va - pgRoundDown va).toNat = va.toNat % 4096 := by
  have down : (pgRoundDown va).toNat = va.toNat / 4096 * 4096 :=
    Align.uint32_and_not_toNat va
  rw [UInt32.toNat_sub_of_le _ _ (by rw [UInt32.le_iff_toNat_le, down]; omega), down]
  omega

/-- The bytes `copyout` copies into the page of `va`: the rest of the page, or the rest of
the data when that is shorter. -/
def chunk (va len : UInt32) : UInt32 :=
  if pgSize - (va - pgRoundDown va) > len then len else pgSize - (va - pgRoundDown va)

theorem chunk_pos (va : UInt32) {len : UInt32} (h : 0 < len) : 0 < (chunk va len).toNat ∧
    (chunk va len).toNat ≤ len.toNat ∧ (chunk va len).toNat ≤ 4096 - va.toNat % 4096 := by
  have offset := sub_pgRoundDown_toNat va
  have room : (pgSize - (va - pgRoundDown va)).toNat = 4096 - va.toNat % 4096 := by
    rw [UInt32.toNat_sub_of_le _ _ (by rw [UInt32.le_iff_toNat_le, offset]; show _ ≤ 4096; omega),
      offset]
    rfl
  have pos : 0 < len.toNat := by simpa [UInt32.lt_iff_toNat_lt] using h
  unfold chunk
  split
  · rename_i more
    rw [gt_iff_lt, UInt32.lt_iff_toNat_lt, room] at more
    exact ⟨pos, le_rfl, by omega⟩
  · rename_i fits
    rw [gt_iff_lt, UInt32.lt_iff_toNat_lt, room] at fits
    rw [room]
    refine ⟨by omega, by omega, le_rfl⟩

/-- Each turn of the loop consumes at least one byte. -/
theorem sub_chunk_lt {va len : UInt32} (h : 0 < len) :
    (len - chunk va len).toNat < len.toNat := by
  have := chunk_pos va h
  rw [UInt32.toNat_sub_of_le _ _ (by rw [UInt32.le_iff_toNat_le]; exact this.2.1)]
  omega

/-- The loop of `copyout(pgdir, va, p, len)`, `done` bytes of `p` copied so far. -/
def copyoutLoop (pgdir : UInt32) (p : Nat → UInt8) (mem : PhysMem) (va len : UInt32)
    (done : Nat) : Except Fault (Int × PhysMem) :=
  if 0 < len then do
    let va0 := pgRoundDown va
    let pa0 ← uva2ka mem pgdir va0
    if pa0 = 0 then return (-1, mem)
    let n := chunk va len
    let mem := Writes.apply (memmoveWrites (pa0 + (va - va0)) (fun k => p (done + k)) n.toNat) mem
    copyoutLoop pgdir p mem (va0 + pgSize) (len - n) (done + n.toNat)
  else return (0, mem)
termination_by len.toNat
decreasing_by exact sub_chunk_lt ‹0 < len›

/-! ## Faults -/

theorem load_error {mem : PhysMem} {x : UInt32} {f : Fault} (h : load mem x = .error f) :
    x = 0 ∧ f = .nullDeref := by
  unfold load at h
  split at h
  · rename_i null
    exact ⟨null, (Except.error.inj h).symm⟩
  · cases h

theorem walkpgdir_error {mem : PhysMem} {pgdir va : UInt32} {f : Fault}
    (h : walkpgdir mem pgdir va = .error f) : f = .nullDeref := by
  unfold walkpgdir at h
  rcases except_bind_eq_error h with hl | ⟨pde, -, h⟩
  · exact (load_error hl).2
  · split at h <;> cases h

/-- `uva2ka` faults only by dereferencing a null page-table pointer. -/
theorem uva2ka_error {mem : PhysMem} {pgdir uva : UInt32} {f : Fault}
    (h : uva2ka mem pgdir uva = .error f) : f = .nullDeref := by
  unfold uva2ka at h
  rcases except_bind_eq_error h with hw | ⟨pte, -, h⟩
  · exact walkpgdir_error hw
  rcases except_bind_eq_error h with hl | ⟨e, -, h⟩
  · exact (load_error hl).2
  · split at h
    · cases h
    · split at h <;> cases h

/-- A page whose page-directory entry is absent: `walkpgdir` returns `0`, and `uva2ka`
dereferences it. -/
theorem uva2ka_of_absent_pde {mem : PhysMem} {pgdir uva : UInt32}
    (slot : pgdir + 4 * pdx uva ≠ 0) (absent : readWord mem (v2p (pgdir + 4 * pdx uva)) &&& pteP = 0) :
    uva2ka mem pgdir uva = .error .nullDeref := by
  have walk : walkpgdir mem pgdir uva = .ok 0 := by
    unfold walkpgdir load
    rw [if_neg slot, except_ok_bind, if_neg (not_not.mpr absent)]
    rfl
  unfold uva2ka
  rw [walk, except_ok_bind]
  rfl

/-- A nonzero `uva2ka` found a present, user-accessible entry, and names its frame. -/
theorem uva2ka_ok {mem : PhysMem} {pgdir uva ka : UInt32} (h : uva2ka mem pgdir uva = .ok ka)
    (hka : ka ≠ 0) : ∃ pte e, walkpgdir mem pgdir uva = .ok pte ∧ load mem pte = .ok e ∧
      e &&& pteP ≠ 0 ∧ e &&& pteU ≠ 0 ∧ ka = p2v (pteAddr e) := by
  unfold uva2ka at h
  obtain ⟨pte, walk, h⟩ := except_bind_eq_ok h
  obtain ⟨e, loaded, h⟩ := except_bind_eq_ok h
  split at h
  · exact absurd (Except.ok.inj h).symm hka
  · rename_i present
    split at h
    · exact absurd (Except.ok.inj h).symm hka
    · rename_i user
      exact ⟨pte, e, walk, loaded, present, user, (Except.ok.inj h).symm⟩

/-! ## The loop -/

/-- One turn of `copyout`'s loop, when the data is not exhausted. -/
theorem copyoutLoop_pos {pgdir : UInt32} {p : Nat → UInt8} {mem : PhysMem} {va len : UInt32}
    {done : Nat} (h : 0 < len) :
    copyoutLoop pgdir p mem va len done = (do
      let pa0 ← uva2ka mem pgdir (pgRoundDown va)
      if pa0 = 0 then return (-1, mem)
      copyoutLoop pgdir p (Writes.apply (memmoveWrites (pa0 + (va - pgRoundDown va))
          (fun k => p (done + k)) (chunk va len).toNat) mem)
        (pgRoundDown va + pgSize) (len - chunk va len) (done + (chunk va len).toNat)) := by
  rw [copyoutLoop, if_pos h]

/-- The loop stops once the data is exhausted. -/
theorem copyoutLoop_zero {pgdir : UInt32} {p : Nat → UInt8} {mem : PhysMem} {va len : UInt32}
    {done : Nat} (h : ¬0 < len) : copyoutLoop pgdir p mem va len done = .ok (0, mem) := by
  rw [copyoutLoop, if_neg h]
  rfl

/-- `copyout`'s only fault is `uva2ka`'s null dereference. -/
theorem copyoutLoop_error {pgdir : UInt32} {p : Nat → UInt8} {mem : PhysMem} {va len : UInt32}
    {done : Nat} {f : Fault} (h : copyoutLoop pgdir p mem va len done = .error f) :
    f = .nullDeref := by
  -- induction on the bytes left, which every turn of the loop decreases
  induction hn : len.toNat using Nat.strong_induction_on generalizing mem va len done with
  | _ n ih =>
      by_cases pos : 0 < len
      · rw [copyoutLoop_pos pos] at h
        rcases except_bind_eq_error h with hu | ⟨pa0, -, h⟩
        · exact uva2ka_error hu
        · split at h
          · cases h
          · exact ih _ (hn ▸ sub_chunk_lt pos) h rfl
      · rw [copyoutLoop_zero pos] at h
        cases h

/-- A chunk's bytes land at offsets below `PGSIZE` of the page `uva2ka` returned. -/
theorem memmoveWrites_in_page {pa0 va len : UInt32} {src : Nat → UInt8} (pos : 0 < len)
    {w : UInt32 × UInt8}
    (hw : w ∈ memmoveWrites (pa0 + (va - pgRoundDown va)) src (chunk va len).toNat) :
    ∃ j < 4096, w.1 = v2p pa0 + UInt32.ofNat j := by
  obtain ⟨k, hk, rfl⟩ := List.mem_map.mp hw
  have bound := (chunk_pos va pos).2.2
  have offset := sub_pgRoundDown_toNat va
  refine ⟨(va - pgRoundDown va).toNat + k, by rw [List.mem_range] at hk; omega, ?_⟩
  rw [UInt32.ofNat_add, UInt32.ofNat_toNat, v2p, v2p, add_assoc, add_sub_right_comm]

/-- What the loop writes: every byte lands in a page that `uva2ka` returned, nonzero, for
`pgdir` in the memory of that turn. -/
theorem copyoutLoop_writes {pgdir : UInt32} {p : Nat → UInt8} {mem mem' : PhysMem}
    {va len : UInt32} {done : Nat} {r : Int}
    (h : copyoutLoop pgdir p mem va len done = .ok (r, mem')) :
    ∃ ws : List (UInt32 × UInt8), mem' = Writes.apply ws mem ∧ ∀ w ∈ ws, ∃ M va0 ka, ∃ j < 4096,
      uva2ka M pgdir va0 = .ok ka ∧ ka ≠ 0 ∧ w.1 = v2p ka + UInt32.ofNat j := by
  -- induction on the bytes left, as for `copyoutLoop_error`
  induction hn : len.toNat using Nat.strong_induction_on generalizing mem va len done with
  | _ n ih =>
      by_cases pos : 0 < len
      · rw [copyoutLoop_pos pos] at h
        obtain ⟨pa0, found, h⟩ := except_bind_eq_ok h
        split at h
        · obtain ⟨-, rfl⟩ := Prod.mk.inj (Except.ok.inj h)
          exact ⟨[], rfl, fun w hw => nomatch hw⟩
        · rename_i nonzero
          obtain ⟨ws, rfl, inPages⟩ := ih _ (hn ▸ sub_chunk_lt pos) h rfl
          refine ⟨_ ++ ws, Writes.apply_append _ _ _ |>.symm, fun w hw => ?_⟩
          rcases List.mem_append.mp hw with mine | later
          · obtain ⟨j, hj, addr⟩ := memmoveWrites_in_page pos mine
            exact ⟨mem, pgRoundDown va, pa0, j, hj, found, nonzero, addr⟩
          · exact inPages w later
      · rw [copyoutLoop_zero pos] at h
        obtain ⟨-, rfl⟩ := Prod.mk.inj (Except.ok.inj h)
        exact ⟨[], rfl, fun w hw => nomatch hw⟩

theorem v2p_p2v (a : UInt32) : v2p (p2v a) = a := by
  rw [v2p, p2v, add_sub_cancel_right]

/-- `copyout(pgdir, va, p, len)`: `0`, or `-1` when some page of the range is not present
or not user-accessible, with the memory it leaves. -/
def copyout (mem : PhysMem) (pgdir va : UInt32) (p : Nat → UInt8) (len : UInt32) :
    Except Fault (Int × PhysMem) :=
  copyoutLoop pgdir p mem va len 0

/-! ## What `copyout` does -/

/-- A fault of `copyout` is always `uva2ka`'s null dereference. -/
theorem copyout_error {mem : PhysMem} {pgdir va : UInt32} {p : Nat → UInt8} {len : UInt32}
    {f : Fault} (h : copyout mem pgdir va p len = .error f) : f = .nullDeref :=
  copyoutLoop_error h

/-- **Where `copyout` writes.**  When it returns, every byte it wrote lies in the frame of a
page-table entry that `pgdir` holds present and user-accessible, in the memory of that
turn of the loop. -/
theorem copyout_writes_user {mem mem' : PhysMem} {pgdir va : UInt32} {p : Nat → UInt8}
    {len : UInt32} {r : Int} (h : copyout mem pgdir va p len = .ok (r, mem')) :
    ∃ ws : List (UInt32 × UInt8), mem' = Writes.apply ws mem ∧ ∀ w ∈ ws,
      ∃ M va0 pte e, ∃ j < 4096, walkpgdir M pgdir va0 = .ok pte ∧ load M pte = .ok e ∧
        e &&& pteP ≠ 0 ∧ e &&& pteU ≠ 0 ∧ w.1 = pteAddr e + UInt32.ofNat j := by
  obtain ⟨ws, rfl, inPages⟩ := copyoutLoop_writes h
  refine ⟨ws, rfl, fun w hw => ?_⟩
  obtain ⟨M, va0, ka, j, hj, found, nonzero, addr⟩ := inPages w hw
  obtain ⟨pte, e, walk, loaded, present, user, rfl⟩ := uva2ka_ok found nonzero
  exact ⟨M, va0, pte, e, j, hj, walk, loaded, present, user, by rw [addr, v2p_p2v]⟩

/-- Whenever the first page of a nonempty range has no page table, `copyout` dereferences
the null pointer `walkpgdir` returns, where it was to return `-1`. -/
theorem copyout_of_absent_pde {mem : PhysMem} {pgdir va : UInt32} {p : Nat → UInt8}
    {len : UInt32} (pos : 0 < len) (slot : pgdir + 4 * pdx (pgRoundDown va) ≠ 0)
    (absent : readWord mem (v2p (pgdir + 4 * pdx (pgRoundDown va))) &&& pteP = 0) :
    copyout mem pgdir va p len = .error .nullDeref := by
  rw [copyout, copyoutLoop_pos pos, uva2ka_of_absent_pde slot absent]
  rfl

/-! ## A wrapped stack pointer in `exec` -/

/-- Physical memory holding, at `0x1000`, the page directory `exec` builds for a small
image: slot `0`, whose table maps the image's pages below `0x3000`, and the slots `setupkvm`
makes from `kmap`, those of `KERNBASE .. KERNBASE+PHYSTOP` and of `DEVSPACE ..` (each entry
`PTE_P | PTE_W | PTE_U`, naming frame `0`); every other byte is `0`. -/
def kvmMem : PhysMem := fun a =>
  if 0x1000 ≤ a ∧ a < 0x2000 ∧ a % 4 = 0 ∧
      ((a - 0x1000) / 4 = 0 ∨
        pdx kernBase ≤ (a - 0x1000) / 4 ∧ (a - 0x1000) / 4 < pdx (kernBase + physTop) ∨
        pdx devSpace ≤ (a - 0x1000) / 4) then 0x07
  else 0

/-- `exec`'s first `copyout`, for an argument of `0x02003003` bytes with the stack pointer
at `0x3000`: `(sp - (strlen + 1)) & ~3` wraps to `0xFDFFFFFC`, whose page-directory slot
lies between `KERNBASE+PHYSTOP` and `DEVSPACE` and is absent; `walkpgdir` returns `0`, and
`copyout` dereferences it instead of returning `-1`. -/
theorem copyout_wrapped_argument_faults :
    (0x3000 - (0x02003003 + 1) &&& ~~~3 : UInt32) = 0xFDFFFFFC ∧
    walkpgdir kvmMem (p2v 0x1000) (pgRoundDown 0xFDFFFFFC) = .ok 0 ∧
    copyout kvmMem (p2v 0x1000) 0xFDFFFFFC (fun _ => 0x41) (0x02003003 + 1) =
      .error .nullDeref :=
  ⟨by decide, by decide, copyout_of_absent_pde (by decide) (by decide) (by decide)⟩

end Xv6
