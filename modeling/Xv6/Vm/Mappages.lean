import Xv6.Vm.Dealloc

/-!
# What `mappages` maps

`mappages(pgdir, va, size, pa, perm)` walks the pages from `PGROUNDDOWN(va)` to
`PGROUNDDOWN(va + size - 1)`, allocating a page table with `kalloc` where a directory entry
is absent, and sets each page's entry to `pa | perm | PTE_P`, `pa` advancing with the page.
Its loop tests `a == last` before the increment, so a range ending at the top of the
address space stops there.

* `mappages_eq_mapList`: for `size > 0` with no wrap, `mappages` is its loop body run once
  for each page of `span`, the pages from `PGROUNDDOWN(va)` through `PGROUNDDOWN(va + size - 1)`;
* `mapList_tracks`: on a well-formed directory and free list (`MapWf`), the loop returns
  what `mapResult` says page by page on the starting directory: `remap` at the first present
  page, `-1` at the first page whose table cannot be allocated, `0` otherwise, and on `0` the
  entries of the range are set and every other entry is kept (`Tracks`);
* `mapResult_of_length_le`: with a free page for each page, `remap` exactly when some page
  was present; `mapResult_remap`, `mapResult_out_of_tables`: `remap` and `-1` in general;
* `mappages_tracks`: all of it for `mappages` itself;
* `mappages_out_of_memory`: a range whose first page needs a table when the free list is
  empty, and whose second page is present: `mappages` returns `-1` and does not panic.
-/

namespace Xv6

/-! ## The free list -/

/-- `kmem.freelist` holds the pages `ps`, first to last: each page's first word links the
next one, by its kernel address, and the last `0`. -/
def FreeList (mem : PhysMem) : UInt32 → List UInt32 → Prop
  | fl, [] => fl = 0
  | fl, p :: ps => fl = p2v p ∧ FreeList mem (readWord mem p) ps

instance FreeList.instDecidable (mem : PhysMem) : ∀ fl ps, Decidable (FreeList mem fl ps)
  | fl, [] => inferInstanceAs (Decidable (fl = 0))
  | fl, p :: ps =>
    have := FreeList.instDecidable mem (readWord mem p) ps
    inferInstanceAs (Decidable (fl = p2v p ∧ FreeList mem (readWord mem p) ps))

/-- A free list survives writes that miss the first word of each of its pages. -/
theorem FreeList.congr {mem mem' : PhysMem} :
    ∀ {fl : UInt32} {ps : List UInt32}, FreeList mem fl ps →
      (∀ p ∈ ps, readWord mem' p = readWord mem p) → FreeList mem' fl ps
  | _, [], h, _ => h
  | _, p :: ps, ⟨head, rest⟩, same => by
    refine ⟨head, ?_⟩
    rw [same p List.mem_cons_self]
    exact rest.congr fun q hq => same q (List.mem_cons_of_mem _ hq)

/-- `kalloc()` on an empty free list: `0`. -/
theorem Vm.kalloc_nil {s : Vm} (chain : FreeList s.mem s.freelist []) : s.kalloc = .ok (0, s) := by
  have empty : s.freelist = 0 := chain
  rw [Vm.kalloc, if_pos empty]
  rfl

/-- `kalloc()` pops the first page of the free list. -/
theorem Vm.kalloc_cons {s : Vm} {p : UInt32} {ps : List UInt32}
    (chain : FreeList s.mem s.freelist (p :: ps)) (hp : p.toNat < 2 ^ 31) :
    s.kalloc = .ok (p2v p, { s with freelist := readWord s.mem p }) := by
  obtain ⟨head, -⟩ := chain
  have ne := p2v_ne_zero hp
  rw [Vm.kalloc, if_neg (head ▸ ne), head, load, if_neg ne, v2p_p2v]
  rfl

/-! ## `walkpgdir` with allocation -/

/-- The directory entry's pointer, on a directory below `PHYSTOP`: not null, and it reads
`pdeAt`. -/
theorem load_pdeSlot (mem : PhysMem) {pgdir : UInt32} (va : UInt32) (hdir : v2p pgdir < physTop) :
    pgdir + 4 * pdx va = p2v (pdeWord pgdir va) ∧ p2v (pdeWord pgdir va) ≠ 0 ∧
      load mem (pgdir + 4 * pdx va) = .ok (pdeAt mem pgdir va) := by
  have lt : (v2p pgdir).toNat < 0xE000000 := hdir
  have slot : pgdir + 4 * pdx va = p2v (pdeWord pgdir va) := by
    simp only [p2v, pdeWord, v2p]
    grind
  have below : (pdeWord pgdir va).toNat < 2 ^ 31 := by
    have := pdx_toNat va
    rw [pdeWord, toNat_word hdir (by omega)]
    omega
  have ne := p2v_ne_zero below
  refine ⟨slot, ne, ?_⟩
  rw [slot, load, if_neg ne, v2p_p2v]
  rfl

/-- `walkpgdir(pgdir, va, alloc)` where the directory entry is present: the kernel address of
the table entry; nothing changes. -/
theorem Vm.walkpgdir_present (s : Vm) {pgdir va : UInt32} (alloc : Bool) (hdir : v2p pgdir < physTop)
    (pde : pdeAt s.mem pgdir va &&& pteP ≠ 0) :
    s.walkpgdir pgdir va alloc = .ok (p2v (pteWord s.mem pgdir va), s) := by
  obtain ⟨-, -, ld⟩ := load_pdeSlot s.mem va hdir
  have ptr : p2v (pteAddr (pdeAt s.mem pgdir va)) + 4 * ptx va = p2v (pteWord s.mem pgdir va) := by
    simp only [p2v, pteWord]
    grind
  unfold Vm.walkpgdir
  dsimp only
  rw [ld, except_ok_bind, if_pos pde, ptr]
  rfl

/-- Where the entry is absent and the free list empty, `walkpgdir(pgdir, va, 1)` returns `0`. -/
theorem Vm.walkpgdir_alloc_nil (s : Vm) {pgdir va : UInt32} (hdir : v2p pgdir < physTop)
    (absent : ¬ pdeAt s.mem pgdir va &&& pteP ≠ 0) (chain : FreeList s.mem s.freelist []) :
    s.walkpgdir pgdir va true = .ok (0, s) := by
  obtain ⟨-, -, ld⟩ := load_pdeSlot s.mem va hdir
  unfold Vm.walkpgdir
  dsimp only
  rw [ld, except_ok_bind, if_neg absent, Vm.kalloc_nil chain]
  rfl

/-- Where the entry is absent, `walkpgdir(pgdir, va, 1)` takes the first free page, zeroes it,
points the entry at it, and returns the address of `va`'s slot in it. -/
theorem Vm.walkpgdir_alloc_cons (s : Vm) {pgdir va p : UInt32} {ps : List UInt32}
    (hdir : v2p pgdir < physTop) (absent : ¬ pdeAt s.mem pgdir va &&& pteP ≠ 0)
    (chain : FreeList s.mem s.freelist (p :: ps)) (hp : p < physTop) :
    s.walkpgdir pgdir va true =
      .ok (p2v p + 4 * ptx va, { s with
        mem := writeWord (memset s.mem (p2v p) 0 4096) (pdeWord pgdir va) (p ||| pteP ||| pteW ||| pteU)
        freelist := readWord s.mem p }) := by
  obtain ⟨slot, ne, ld⟩ := load_pdeSlot s.mem va hdir
  have lt : p.toNat < 0xE000000 := hp
  have page := p2v_ne_zero (show p.toNat < 2 ^ 31 by omega)
  unfold Vm.walkpgdir
  dsimp only
  rw [ld, except_ok_bind, if_neg absent, Vm.kalloc_cons chain (by omega), except_ok_bind]
  dsimp only
  rw [if_neg page, slot, store, if_neg ne, v2p_p2v, v2p_p2v, except_ok_bind]
  rfl

/-! ## The loop, page by page -/

/-- `mappages`' loop body, run once for each page of a list, `pa` advancing with them: the
loop without its fuel and its `a == last` test. -/
def Vm.mapList (pgdir perm : UInt32) : List UInt32 → UInt32 → Vm → Except Fault (Int × Vm)
  | [], _, s => return (0, s)
  | a :: as, pa, s => do
    let (pte, s) ← s.walkpgdir pgdir a true
    if pte = 0 then return (-1, s)
    let e ← load s.mem pte
    if e &&& pteP ≠ 0 then throw (.panic "remap")
    let mem ← store s.mem pte (pa ||| perm ||| pteP)
    Vm.mapList pgdir perm as (pa + pgSize) { s with mem }

/-- The pages `a, a + PGSIZE, …, a + n*PGSIZE`. -/
def span (a : UInt32) : Nat → List UInt32
  | 0 => [a]
  | n + 1 => a :: span (a + pgSize) n

/-- With `last` `n` pages past `a`, the loop runs its body on exactly those `n + 1` pages:
the test `a == last` ends it before its fuel does, and before `a` could wrap. -/
theorem mappagesLoop_eq_mapList (pgdir perm : UInt32) (n : Nat) :
    ∀ (a pa : UInt32) (s : Vm), a.toNat + 4096 * n < 2 ^ 32 →
      Vm.mappagesLoop pgdir perm (a + UInt32.ofNat (4096 * n)) (n + 1) a pa s =
        Vm.mapList pgdir perm (span a n) pa s := by
  induction n with
  | zero =>
    intro a pa s _
    rw [show a + UInt32.ofNat (4096 * 0) = a by simp]
    simp [Vm.mappagesLoop, span, Vm.mapList]
  | succ n ih =>
    intro a pa s bound
    -- `omega` needs the bound in this association
    rw [Nat.mul_add_one, ← Nat.add_assoc] at bound
    have small : a.toNat + 4096 < 2 ^ 32 := by omega
    have next : (a + pgSize).toNat = a.toNat + 4096 := toNat_add_pgSize small
    have bound' : (a + pgSize).toNat + 4096 * n < 2 ^ 32 := by
      rw [next]
      omega
    have ne : a ≠ a + pgSize + UInt32.ofNat (4096 * n) := by
      intro h
      have := congrArg UInt32.toNat h
      rw [toNat_add_ofNat bound', next] at this
      omega
    rw [add_ofNat_succ, Vm.mappagesLoop, span, Vm.mapList]
    simp only [if_neg ne, ih (a + pgSize) _ _ bound']

/-- `PGROUNDDOWN` in numbers. -/
theorem pgRoundDown_toNat (a : UInt32) : (pgRoundDown a).toNat = a.toNat / 4096 * 4096 :=
  Align.uint32_and_not_toNat a

/-- `(last - a) / PGSIZE`: how many pages past `a = PGROUNDDOWN(va)` `mappages` maps, `last`
being `PGROUNDDOWN(va + size - 1)`. -/
def lastIndex (va size : UInt32) : Nat := ((pgRoundDown (va + size - 1) - pgRoundDown va) / pgSize).toNat

/-- For `size > 0` with `va + size - 1` below `2^32`, the last page is `lastIndex` pages past
the first, with no wrap in between. -/
theorem lastIndex_spec (va size : UInt32) (pos : 0 < size) (noWrap : va.toNat + size.toNat - 1 < 2 ^ 32) :
    (pgRoundDown va).toNat + 4096 * lastIndex va size < 2 ^ 32 ∧
      pgRoundDown (va + size - 1) = pgRoundDown va + UInt32.ofNat (4096 * lastIndex va size) := by
  have one : 1 ≤ size.toNat := UInt32.lt_iff_toNat_lt.mp pos
  have endNat : (va + size - 1).toNat = va.toNat + size.toNat - 1 := by
    rw [UInt32.toNat_sub, UInt32.toNat_add, show (1 : UInt32).toNat = 1 from rfl]
    omega
  have lo := pgRoundDown_toNat va
  have hi := pgRoundDown_toNat (va + size - 1)
  rw [endNat] at hi
  have le : pgRoundDown va ≤ pgRoundDown (va + size - 1) := by
    rw [UInt32.le_iff_toNat_le, lo, hi]
    exact Nat.mul_le_mul_right _ (Nat.div_le_div_right (by omega))
  have count : lastIndex va size = (pgRoundDown (va + size - 1)).toNat / 4096 - (pgRoundDown va).toNat / 4096 := by
    rw [lastIndex, UInt32.toNat_div, UInt32.toNat_sub_of_le _ _ le, show pgSize.toNat = 4096 from rfl, lo, hi]
    omega
  refine ⟨by rw [count, lo, hi]; omega, ?_⟩
  apply UInt32.toNat_inj.mp
  rw [toNat_add_ofNat (by rw [count, lo, hi]; omega), count, lo, hi]
  omega

/-- For `size > 0` with `va + size - 1` below `2^32`, `mappages` runs its loop body on each
page from `PGROUNDDOWN(va)` through `PGROUNDDOWN(va + size - 1)`, once each, and stops. -/
theorem mappages_eq_mapList (s : Vm) (pgdir va size pa perm : UInt32) (pos : 0 < size)
    (noWrap : va.toNat + size.toNat - 1 < 2 ^ 32) :
    s.mappages pgdir va size pa perm =
      Vm.mapList pgdir perm
        (span (pgRoundDown va) ((pgRoundDown (va + size - 1) - pgRoundDown va) / pgSize).toNat) pa s := by
  obtain ⟨bound, last⟩ := lastIndex_spec va size pos noWrap
  unfold Vm.mappages
  dsimp only
  rw [lastIndex] at bound last
  generalize ((pgRoundDown (va + size - 1) - pgRoundDown va) / pgSize).toNat = n at last bound ⊢
  rw [last]
  exact mappagesLoop_eq_mapList pgdir perm n _ pa s bound

/-! ## Words of pages -/

/-- `w` is an aligned word of the page at `P`. -/
def WordIn (w P : UInt32) : Prop := w.toNat % 4 = 0 ∧ w.toNat / 4096 = P.toNat / 4096

/-- Word `i` of an aligned page below `PHYSTOP`. -/
theorem wordIn_add {P i : UInt32} (hP : P.toNat % 4096 = 0) (below : P < physTop)
    (hi : i.toNat < 1024) : WordIn (P + 4 * i) P := by
  have := toNat_word below hi
  constructor <;> omega

/-- Words of two different aligned pages are different. -/
theorem WordIn.ne {w w' P P' : UInt32} (h : WordIn w P) (h' : WordIn w' P') (hP : P.toNat % 4096 = 0)
    (hP' : P'.toNat % 4096 = 0) (ne : P ≠ P') : w ≠ w' := by
  intro heq
  have := page_ne hP hP' ne
  obtain ⟨-, hw⟩ := h
  obtain ⟨-, hw'⟩ := h'
  rw [heq] at hw
  omega

/-- A page zeroed by `memset` reads `0` at each of its words. -/
theorem readWord_memset_self {mem : PhysMem} {f b : UInt32} (hf : f.toNat % 4096 = 0)
    (hb : WordIn b f) : readWord (memset mem (p2v f) 0 4096) b = 0 := by
  have zero : ∀ j < 4, memset mem (p2v f) 0 4096 (b + UInt32.ofNat j) = 0 := by
    intro j hj
    simp only [memset, v2p_p2v]
    rw [if_pos]
    have := b.toNat_lt
    have := f.toNat_lt
    obtain ⟨h4, hp⟩ := hb
    rw [UInt32.toNat_sub, toNat_add_ofNat (by omega)]
    omega
  have e0 : memset mem (p2v f) 0 4096 b = 0 := by simpa using zero 0 (by omega)
  have e1 : memset mem (p2v f) 0 4096 (b + 1) = 0 := zero 1 (by omega)
  have e2 : memset mem (p2v f) 0 4096 (b + 2) = 0 := zero 2 (by omega)
  have e3 : memset mem (p2v f) 0 4096 (b + 3) = 0 := zero 3 (by omega)
  rw [readWord, e0, e1, e2, e3]
  exact LittleEndian.word32_zero

/-- `memset` of a page leaves the aligned words of every other page. -/
theorem readWord_memset_of_wordIn {mem : PhysMem} {f b P : UInt32} {c : UInt8} (hf : f.toNat % 4096 = 0)
    (hP : P.toNat % 4096 = 0) (hb : WordIn b P) (ne : P ≠ f) :
    readWord (memset mem (p2v f) c 4096) b = readWord mem b := by
  have := page_ne hP hf ne
  exact readWord_memset_of_ne hf hb.1 (by rw [hb.2]; exact this)

/-- A store to one aligned word leaves every aligned word of another page. -/
theorem readWord_writeWord_of_wordIn {mem : PhysMem} {w b P P' v : UInt32} (hw : WordIn w P)
    (hb : WordIn b P') (hP : P.toNat % 4096 = 0) (hP' : P'.toNat % 4096 = 0) (ne : P ≠ P') :
    readWord (writeWord mem w v) b = readWord mem b :=
  readWord_writeWord_of_ne hw.1 hb.1 (hw.ne hb hP hP' ne)

section Words

variable {pgdir : UInt32}

/-- A directory entry is a word of the directory's page. -/
theorem pdeWord_wordIn (dirPage : (v2p pgdir).toNat % 4096 = 0) (dirBelow : v2p pgdir < physTop)
    (va : UInt32) : WordIn (pdeWord pgdir va) (v2p pgdir) := by
  have := pdx_toNat va
  exact wordIn_add dirPage dirBelow (by omega)

/-- A table entry is a word of its table's page. -/
theorem pteWord_wordIn {mem : PhysMem} {va : UInt32}
    (below : pteAddr (pdeAt mem pgdir va) < physTop) :
    WordIn (pteWord mem pgdir va) (pteAddr (pdeAt mem pgdir va)) := by
  have := ptx_toNat va
  exact wordIn_add (pteAddr_aligned _) below (by omega)

/-- Two directory entries are one word exactly when the addresses share `PDX`. -/
theorem pdeWord_eq_iff (dirBelow : v2p pgdir < physTop) (a c : UInt32) :
    pdeWord pgdir a = pdeWord pgdir c ↔ pdx a = pdx c := by
  have := pdx_toNat a
  have := pdx_toNat c
  have wa := toNat_word (i := pdx a) dirBelow (by omega)
  have wc := toNat_word (i := pdx c) dirBelow (by omega)
  constructor
  · intro h
    have := congrArg UInt32.toNat h
    rw [pdeWord, pdeWord, wa, wc] at this
    exact UInt32.toNat_inj.mp (by omega)
  · intro h
    rw [pdeWord, pdeWord, h]

/-- A store to the directory entry of `a` changes the entries of `a`'s slot and no other. -/
theorem pdeAt_writeWord (dirPage : (v2p pgdir).toNat % 4096 = 0) (dirBelow : v2p pgdir < physTop)
    (mem : PhysMem) (a c v : UInt32) :
    pdeAt (writeWord mem (pdeWord pgdir a) v) pgdir c = if pdx c = pdx a then v else pdeAt mem pgdir c := by
  have wa := pdeWord_wordIn dirPage dirBelow a
  have wc := pdeWord_wordIn dirPage dirBelow c
  by_cases same : pdx c = pdx a
  · rw [if_pos same, pdeAt, (pdeWord_eq_iff dirBelow c a).mpr same]
    exact readWord_writeWord_self mem wa.1 v
  · rw [if_neg same, pdeAt, readWord_writeWord_of_ne wa.1 wc.1
      (fun h => same ((pdeWord_eq_iff dirBelow a c).mp h).symm)]
    rfl

/-- Two pages with one table: different slots of it. -/
theorem pteWord_ne_of_table_eq {mem : PhysMem} {a c : UInt32} (ha : a.toNat % 4096 = 0)
    (hc : c.toNat % 4096 = 0) (ne : a ≠ c) (same : pdx a = pdx c)
    (below : pteAddr (pdeAt mem pgdir a) < physTop)
    (table : pteAddr (pdeAt mem pgdir a) = pteAddr (pdeAt mem pgdir c)) :
    pteWord mem pgdir a ≠ pteWord mem pgdir c := by
  intro h
  have slot := ptx_ne_of_pdx_eq ha hc ne same
  have := ptx_toNat a
  have := ptx_toNat c
  have wa := toNat_word (i := ptx a) below (by omega)
  have wc := toNat_word (i := ptx c) below (by omega)
  have := congrArg UInt32.toNat h
  rw [pteWord, pteWord, ← table, wa, wc] at this
  exact slot (UInt32.toNat_inj.mp (by omega))

end Words

/-! ## Well-formed directories and free lists -/

/-- A page directory and a free list `mappages` can work on, for the pages `R`: the directory
and each table a present entry of `R` names are pages below `PHYSTOP`, two present entries
name one table only within one slot, and the free pages are pages below `PHYSTOP`, pairwise
different, neither the directory nor one of those tables. -/
structure MapWf (s : Vm) (pgdir : UInt32) (R free : List UInt32) : Prop where
  dir_page : (v2p pgdir).toNat % 4096 = 0
  dir_below : v2p pgdir < physTop
  table_below : ∀ a ∈ R, pdeAt s.mem pgdir a &&& pteP ≠ 0 → pteAddr (pdeAt s.mem pgdir a) < physTop
  table_ne_dir : ∀ a ∈ R, pdeAt s.mem pgdir a &&& pteP ≠ 0 → pteAddr (pdeAt s.mem pgdir a) ≠ v2p pgdir
  table_inj : ∀ a ∈ R, ∀ b ∈ R, pdeAt s.mem pgdir a &&& pteP ≠ 0 → pdeAt s.mem pgdir b &&& pteP ≠ 0 →
    pteAddr (pdeAt s.mem pgdir a) = pteAddr (pdeAt s.mem pgdir b) → pdx a = pdx b
  chain : FreeList s.mem s.freelist free
  free_page : ∀ p ∈ free, p.toNat % 4096 = 0
  free_below : ∀ p ∈ free, p < physTop
  free_ne_dir : ∀ p ∈ free, p ≠ v2p pgdir
  free_ne_table : ∀ p ∈ free, ∀ a ∈ R, pdeAt s.mem pgdir a &&& pteP ≠ 0 → p ≠ pteAddr (pdeAt s.mem pgdir a)
  free_nodup : free.Nodup

/-- The directory `mem` is `mem0`'s with tables added for the slots `fresh` and the entries of
the pages `done` set to their value `v`; every other entry of `R` reads as in `mem0`, or `0` in
a new table. -/
structure Tracks (mem0 mem : PhysMem) (pgdir : UInt32) (R fresh done : List UInt32) (v : UInt32 → UInt32) :
    Prop where
  dir_iff : ∀ c ∈ R, pdeAt mem pgdir c &&& pteP ≠ 0 ↔ pdeAt mem0 pgdir c &&& pteP ≠ 0 ∨ pdx c ∈ fresh
  kept : ∀ c ∈ R, pdeAt mem0 pgdir c &&& pteP ≠ 0 → pdeAt mem pgdir c = pdeAt mem0 pgdir c
  set : ∀ c ∈ done, pdeAt mem pgdir c &&& pteP ≠ 0 ∧ pteAt mem pgdir c = v c
  other : ∀ c ∈ R, c ∉ done → pdeAt mem pgdir c &&& pteP ≠ 0 →
    pteAt mem pgdir c = if pdeAt mem0 pgdir c &&& pteP ≠ 0 then pteAt mem0 pgdir c else 0

theorem Tracks.start (mem : PhysMem) (pgdir : UInt32) (R : List UInt32) (v : UInt32 → UInt32) :
    Tracks mem mem pgdir R [] [] v where
  dir_iff _ _ := by simp
  kept _ _ _ := rfl
  set _ h := nomatch h
  other _ _ _ pde := by rw [if_pos pde]

/-- How the loop over the pages `as` ends, judged on the starting directory `mem0`, with
`free` pages left for tables and the slots `fresh` given one already: `remap` at a present
page, `-1` at a page whose slot needs a table when none is left, `0` past the last page. -/
def mapResult (mem0 : PhysMem) (pgdir : UInt32) : List UInt32 → List UInt32 → Nat → Except Fault Int
  | [], _, _ => .ok 0
  | a :: as, fresh, free =>
    if pdeAt mem0 pgdir a &&& pteP ≠ 0 then
      if pteAt mem0 pgdir a &&& pteP ≠ 0 then .error (.panic "remap")
      else mapResult mem0 pgdir as fresh free
    else if pdx a ∈ fresh then mapResult mem0 pgdir as fresh free
    else match free with
      | 0 => .ok (-1)
      | k + 1 => mapResult mem0 pgdir as (pdx a :: fresh) k

theorem mapResult_cons (mem0 : PhysMem) (pgdir a : UInt32) (as fresh : List UInt32) (free : Nat) :
    mapResult mem0 pgdir (a :: as) fresh free =
      if pdeAt mem0 pgdir a &&& pteP ≠ 0 then
        if pteAt mem0 pgdir a &&& pteP ≠ 0 then .error (.panic "remap")
        else mapResult mem0 pgdir as fresh free
      else if pdx a ∈ fresh then mapResult mem0 pgdir as fresh free
      else match free with
        | 0 => .ok (-1)
        | k + 1 => mapResult mem0 pgdir as (pdx a :: fresh) k := rfl

/-- The table address of an entry `walkpgdir` writes: the page. -/
theorem pteAddr_or_flags {p : UInt32} (hp : p.toNat % 4096 = 0) :
    pteAddr (p ||| pteP ||| pteW ||| pteU) = p := by
  apply UInt32.toNat_inj.mp
  rw [pteAddr_toNat, UInt32.toNat_or, UInt32.toNat_or, UInt32.toNat_or,
    show (4096 : Nat) = 2 ^ 12 from rfl, Nat.or_div_two_pow, Nat.or_div_two_pow, Nat.or_div_two_pow]
  simp only [show pteP.toNat = 1 from rfl, show pteW.toNat = 2 from rfl, show pteU.toNat = 4 from rfl]
  norm_num
  omega

/-- The entry `walkpgdir` writes is present. -/
theorem or_flags_present (p : UInt32) : (p ||| pteP ||| pteW ||| pteU) &&& pteP ≠ 0 := by
  intro h
  have := congrArg UInt32.toNat h
  rw [UInt32.toNat_and, UInt32.toNat_or, UInt32.toNat_or, UInt32.toNat_or,
    show pteP.toNat = 1 from rfl, show pteW.toNat = 2 from rfl, show pteU.toNat = 4 from rfl,
    UInt32.toNat_zero, Nat.and_one_is_mod] at this
  have bit : (p.toNat ||| 1 ||| 2 ||| 4).testBit 0 = true := by simp
  rw [Nat.testBit_zero, decide_eq_true_iff] at bit
  omega

/-- The first word of a page is a word of it. -/
theorem wordIn_self {p : UInt32} (hp : p.toNat % 4096 = 0) : WordIn p p := ⟨by omega, rfl⟩

section MapWf

variable {s : Vm} {pgdir : UInt32} {R free : List UInt32}

theorem MapWf.pdeWord_in (wf : MapWf s pgdir R free) (c : UInt32) : WordIn (pdeWord pgdir c) (v2p pgdir) :=
  pdeWord_wordIn wf.dir_page wf.dir_below c

theorem MapWf.pteWord_in (wf : MapWf s pgdir R free) {c : UInt32} (hc : c ∈ R)
    (pde : pdeAt s.mem pgdir c &&& pteP ≠ 0) :
    WordIn (pteWord s.mem pgdir c) (pteAddr (pdeAt s.mem pgdir c)) :=
  pteWord_wordIn (wf.table_below c hc pde)

/-- Two pages of `R` with present entries have different table entries. -/
theorem MapWf.pteWord_ne (wf : MapWf s pgdir R free) (aligned : ∀ c ∈ R, c.toNat % 4096 = 0)
    {a c : UInt32} (ha : a ∈ R) (hc : c ∈ R) (ne : a ≠ c) (pa : pdeAt s.mem pgdir a &&& pteP ≠ 0)
    (pc : pdeAt s.mem pgdir c &&& pteP ≠ 0) : pteWord s.mem pgdir a ≠ pteWord s.mem pgdir c := by
  by_cases table : pteAddr (pdeAt s.mem pgdir a) = pteAddr (pdeAt s.mem pgdir c)
  · exact pteWord_ne_of_table_eq (aligned a ha) (aligned c hc) ne (wf.table_inj a ha c hc pa pc table)
      (wf.table_below a ha pa) table
  · exact (wf.pteWord_in ha pa).ne (wf.pteWord_in hc pc) (pteAddr_aligned _) (pteAddr_aligned _) table

/-- The kernel address of a table entry is not null. -/
theorem MapWf.pteWord_lt (wf : MapWf s pgdir R free) {c : UInt32} (hc : c ∈ R)
    (pde : pdeAt s.mem pgdir c &&& pteP ≠ 0) : (pteWord s.mem pgdir c).toNat < 2 ^ 31 := by
  have table : (pteAddr (pdeAt s.mem pgdir c)).toNat < 0xE000000 := wf.table_below c hc pde
  have := ptx_toNat c
  have := toNat_word (i := ptx c) (wf.table_below c hc pde) (by omega)
  rw [pteWord]
  omega

/-- A memory that keeps every directory entry and the link word of each free page keeps a
well-formed directory and free list. -/
theorem MapWf.transfer (wf : MapWf s pgdir R free) {mem : PhysMem}
    (dir : ∀ c, pdeAt mem pgdir c = pdeAt s.mem pgdir c)
    (links : ∀ p ∈ free, readWord mem p = readWord s.mem p) : MapWf { s with mem } pgdir R free where
  dir_page := wf.dir_page
  dir_below := wf.dir_below
  table_below c hc pde := by
    simp only [dir] at pde ⊢
    exact wf.table_below c hc pde
  table_ne_dir c hc pde := by
    simp only [dir] at pde ⊢
    exact wf.table_ne_dir c hc pde
  table_inj a ha b hb pa pb same := by
    simp only [dir] at pa pb same
    exact wf.table_inj a ha b hb pa pb same
  chain := wf.chain.congr links
  free_page := wf.free_page
  free_below := wf.free_below
  free_ne_dir := wf.free_ne_dir
  free_ne_table p hp c hc pde := by
    simp only [dir] at pde ⊢
    exact wf.free_ne_table p hp c hc pde
  free_nodup := wf.free_nodup

/-- A store to the table entry of a page of `R` keeps every directory entry. -/
theorem MapWf.pdeAt_store (wf : MapWf s pgdir R free) {a : UInt32} (ha : a ∈ R)
    (pa : pdeAt s.mem pgdir a &&& pteP ≠ 0) (w c : UInt32) :
    pdeAt (writeWord s.mem (pteWord s.mem pgdir a) w) pgdir c = pdeAt s.mem pgdir c :=
  readWord_writeWord_of_wordIn (wf.pteWord_in ha pa) (wf.pdeWord_in c) (pteAddr_aligned _) wf.dir_page
    (wf.table_ne_dir a ha pa)

/-- And the link word of every free page. -/
theorem MapWf.link_store (wf : MapWf s pgdir R free) {a : UInt32} (ha : a ∈ R)
    (pa : pdeAt s.mem pgdir a &&& pteP ≠ 0) (w : UInt32) {p : UInt32} (hp : p ∈ free) :
    readWord (writeWord s.mem (pteWord s.mem pgdir a) w) p = readWord s.mem p :=
  readWord_writeWord_of_wordIn (wf.pteWord_in ha pa) (wordIn_self (wf.free_page p hp)) (pteAddr_aligned _)
    (wf.free_page p hp) (wf.free_ne_table p hp a ha pa).symm

theorem MapWf.store (wf : MapWf s pgdir R free) {a : UInt32} (ha : a ∈ R)
    (pa : pdeAt s.mem pgdir a &&& pteP ≠ 0) (w : UInt32) :
    MapWf { s with mem := writeWord s.mem (pteWord s.mem pgdir a) w } pgdir R free :=
  wf.transfer (wf.pdeAt_store ha pa w) fun _ hp => wf.link_store ha pa w hp

end MapWf

/-! ## One turn of the loop -/

section Turn

variable {s : Vm} {pgdir perm a pa : UInt32} {R free rest : List UInt32}

/-- A page whose entries are both present: `remap`. -/
theorem mapList_cons_remap (wf : MapWf s pgdir R free) (ha : a ∈ R)
    (pde : pdeAt s.mem pgdir a &&& pteP ≠ 0) (pte : pteAt s.mem pgdir a &&& pteP ≠ 0) :
    Vm.mapList pgdir perm (a :: rest) pa s = .error (.panic "remap") := by
  have ptr := p2v_ne_zero (wf.pteWord_lt ha pde)
  have pte' : readWord s.mem (pteWord s.mem pgdir a) &&& pteP ≠ 0 := pte
  rw [Vm.mapList, Vm.walkpgdir_present s true wf.dir_below pde, except_ok_bind]
  dsimp only
  rw [if_neg ptr, load, if_neg ptr, v2p_p2v, except_ok_bind, if_pos pte']
  rfl

/-- A page with a table and no entry: the entry is set, and the loop goes on. -/
theorem mapList_cons_mapped (wf : MapWf s pgdir R free) (ha : a ∈ R)
    (pde : pdeAt s.mem pgdir a &&& pteP ≠ 0) (pte : ¬ pteAt s.mem pgdir a &&& pteP ≠ 0) :
    Vm.mapList pgdir perm (a :: rest) pa s =
      Vm.mapList pgdir perm rest (pa + pgSize)
        { s with mem := writeWord s.mem (pteWord s.mem pgdir a) (pa ||| perm ||| pteP) } := by
  have low := wf.pteWord_lt ha pde
  have ptr := p2v_ne_zero low
  have pte' : ¬ readWord s.mem (pteWord s.mem pgdir a) &&& pteP ≠ 0 := pte
  rw [Vm.mapList, Vm.walkpgdir_present s true wf.dir_below pde, except_ok_bind]
  dsimp only
  rw [if_neg ptr, load, if_neg ptr, v2p_p2v, except_ok_bind, if_neg pte', store_p2v _ low,
    except_ok_bind]

/-- A page with no table when the free list is empty: `-1`. -/
theorem mapList_cons_nil (wf : MapWf s pgdir R []) (absent : ¬ pdeAt s.mem pgdir a &&& pteP ≠ 0) :
    Vm.mapList pgdir perm (a :: rest) pa s = .ok (-1, s) := by
  rw [Vm.mapList, Vm.walkpgdir_alloc_nil s wf.dir_below absent wf.chain, except_ok_bind]
  rfl

/-- The state after a page whose slot gets a table: the first free page, zeroed, names by its
directory entry, and the page's entry in it set. -/
def allocated (s : Vm) (pgdir a pa perm p : UInt32) : Vm :=
  { s with
    mem := writeWord (writeWord (memset s.mem (p2v p) 0 4096) (pdeWord pgdir a) (p ||| pteP ||| pteW ||| pteU))
      (p + 4 * ptx a) (pa ||| perm ||| pteP)
    freelist := readWord s.mem p }

/-- A page with no table: the first free page becomes its table, and the loop goes on. -/
theorem mapList_cons_alloc {p : UInt32} {ps : List UInt32} (wf : MapWf s pgdir R (p :: ps))
    (absent : ¬ pdeAt s.mem pgdir a &&& pteP ≠ 0) :
    Vm.mapList pgdir perm (a :: rest) pa s =
      Vm.mapList pgdir perm rest (pa + pgSize) (allocated s pgdir a pa perm p) := by
  have hp := wf.free_below p List.mem_cons_self
  have aligned := wf.free_page p List.mem_cons_self
  have lt : p.toNat < 0xE000000 := hp
  have ptx_lt := ptx_toNat a
  have slot := wordIn_add aligned hp (show (ptx a).toNat < 1024 by omega)
  have word := toNat_word (i := ptx a) hp (by omega)
  have ptr : p2v p + 4 * ptx a = p2v (p + 4 * ptx a) := by
    simp only [p2v]
    grind
  have ne := p2v_ne_zero (show (p + 4 * ptx a).toNat < 2 ^ 31 by omega)
  -- the fresh table reads `0` in `a`'s slot: the directory entry is in another page
  have fresh : readWord (writeWord (memset s.mem (p2v p) 0 4096) (pdeWord pgdir a)
      (p ||| pteP ||| pteW ||| pteU)) (p + 4 * ptx a) = 0 := by
    rw [readWord_writeWord_of_wordIn (wf.pdeWord_in a) slot wf.dir_page aligned
      (wf.free_ne_dir p List.mem_cons_self).symm, readWord_memset_self aligned slot]
  rw [Vm.mapList, Vm.walkpgdir_alloc_cons s wf.dir_below absent wf.chain hp, except_ok_bind]
  dsimp only
  rw [ptr, if_neg ne, load, if_neg ne, v2p_p2v, except_ok_bind, fresh,
    if_neg (by rw [UInt32.zero_and]; exact fun h => h rfl), store_p2v _ (by omega), except_ok_bind]
  rfl

end Turn

/-! ## What one turn keeps -/

/-- Table entries are where the directory entries say. -/
theorem pteWord_congr {mem mem' : PhysMem} {pgdir c : UInt32}
    (h : pdeAt mem' pgdir c = pdeAt mem pgdir c) : pteWord mem' pgdir c = pteWord mem pgdir c := by
  rw [pteWord, pteWord, h]

/-- Pages of one slot share its directory entry. -/
theorem pdeAt_of_pdx_eq (mem : PhysMem) (pgdir : UInt32) {a c : UInt32} (h : pdx c = pdx a) :
    pdeAt mem pgdir c = pdeAt mem pgdir a := by
  rw [pdeAt, pdeAt, pdeWord, pdeWord, h]

section Keep

variable {s : Vm} {pgdir : UInt32} {R free : List UInt32} {mem0 : PhysMem} {fresh done : List UInt32}
  {v : UInt32 → UInt32}

/-- Setting the entry of a page with a table keeps the picture, with the page done. -/
theorem Tracks.mapped (tr : Tracks mem0 s.mem pgdir R fresh done v) (wf : MapWf s pgdir R free)
    (aligned : ∀ c ∈ R, c.toNat % 4096 = 0) (sub : ∀ c ∈ done, c ∈ R) {a : UInt32} (ha : a ∈ R)
    (notDone : a ∉ done) (pde : pdeAt s.mem pgdir a &&& pteP ≠ 0) :
    Tracks mem0 (writeWord s.mem (pteWord s.mem pgdir a) (v a)) pgdir R fresh (a :: done) v := by
  have dir := wf.pdeAt_store ha pde (v a)
  -- every other table entry of `R` reads as before
  have kept : ∀ c ∈ R, c ≠ a → pdeAt s.mem pgdir c &&& pteP ≠ 0 →
      pteAt (writeWord s.mem (pteWord s.mem pgdir a) (v a)) pgdir c = pteAt s.mem pgdir c := by
    intro c hc ne pc
    rw [pteAt, pteWord_congr (dir c)]
    exact readWord_writeWord_of_ne (wf.pteWord_in ha pde).1 (wf.pteWord_in hc pc).1
      (wf.pteWord_ne aligned ha hc (Ne.symm ne) pde pc)
  refine ⟨fun c hc => by rw [dir]; exact tr.dir_iff c hc, fun c hc pc => by rw [dir]; exact tr.kept c hc pc,
    fun c hc => ?_, fun c hc notDone' pc => ?_⟩
  · rcases List.mem_cons.mp hc with rfl | hc
    · refine ⟨by rw [dir]; exact pde, ?_⟩
      rw [pteAt, pteWord_congr (dir c)]
      exact readWord_writeWord_self _ (wf.pteWord_in ha pde).1 _
    · have ne : c ≠ a := fun h => notDone (h ▸ hc)
      obtain ⟨pc, val⟩ := tr.set c hc
      exact ⟨by rw [dir]; exact pc, by rw [kept c (sub c hc) ne pc]; exact val⟩
  · have ne : c ≠ a := fun h => notDone' (h ▸ List.mem_cons_self)
    rw [dir] at pc
    rw [kept c hc ne pc]
    exact tr.other c hc (fun h => notDone' (List.mem_cons_of_mem _ h)) pc

end Keep

/-! ## The turn that takes a table -/

section Alloc

variable {s : Vm} {pgdir a pa perm p : UInt32} {R ps : List UInt32}

/-- The slot of `a` in the new table is a word of it. -/
theorem MapWf.slot_in (wf : MapWf s pgdir R (p :: ps)) (c : UInt32) : WordIn (p + 4 * ptx c) p :=
  wordIn_add (wf.free_page p List.mem_cons_self) (wf.free_below p List.mem_cons_self)
    (by have := ptx_toNat c; omega)

/-- The allocation writes the new table and the directory only. -/
theorem allocated_readWord_other (wf : MapWf s pgdir R (p :: ps)) {b P : UInt32} (hb : WordIn b P)
    (hP : P.toNat % 4096 = 0) (neTable : P ≠ p) (neDir : P ≠ v2p pgdir) :
    readWord (allocated s pgdir a pa perm p).mem b = readWord s.mem b := by
  have aligned := wf.free_page p List.mem_cons_self
  dsimp only [allocated]
  rw [readWord_writeWord_of_wordIn (wf.slot_in a) hb aligned hP (Ne.symm neTable),
    readWord_writeWord_of_wordIn (wf.pdeWord_in a) hb wf.dir_page hP (Ne.symm neDir),
    readWord_memset_of_wordIn aligned hP hb neTable]

/-- The new table reads `0` but at the slot of `a`. -/
theorem allocated_readWord_table (wf : MapWf s pgdir R (p :: ps)) {b : UInt32} (hb : WordIn b p) :
    readWord (allocated s pgdir a pa perm p).mem b =
      if b = p + 4 * ptx a then pa ||| perm ||| pteP else 0 := by
  have aligned := wf.free_page p List.mem_cons_self
  dsimp only [allocated]
  split
  · next same =>
    rw [same]
    exact readWord_writeWord_self _ (wf.slot_in a).1 _
  · next other =>
    rw [readWord_writeWord_of_ne (wf.slot_in a).1 hb.1 (Ne.symm other),
      readWord_writeWord_of_wordIn (wf.pdeWord_in a) hb wf.dir_page aligned
        (wf.free_ne_dir p List.mem_cons_self).symm, readWord_memset_self aligned hb]

/-- The slot of `a` names the new table; every other slot is kept. -/
theorem allocated_pdeAt (wf : MapWf s pgdir R (p :: ps)) (c : UInt32) :
    pdeAt (allocated s pgdir a pa perm p).mem pgdir c =
      if pdx c = pdx a then p ||| pteP ||| pteW ||| pteU else pdeAt s.mem pgdir c := by
  have aligned := wf.free_page p List.mem_cons_self
  have ne := wf.free_ne_dir p List.mem_cons_self
  have table : pdeAt (allocated s pgdir a pa perm p).mem pgdir c =
      pdeAt (writeWord (memset s.mem (p2v p) 0 4096) (pdeWord pgdir a) (p ||| pteP ||| pteW ||| pteU))
        pgdir c :=
    readWord_writeWord_of_wordIn (wf.slot_in a) (wf.pdeWord_in c) aligned wf.dir_page ne
  rw [table, pdeAt_writeWord wf.dir_page wf.dir_below]
  split
  · rfl
  · exact readWord_memset_of_wordIn aligned wf.dir_page (wf.pdeWord_in c) (Ne.symm ne)

/-- The link word of every other free page is kept. -/
theorem allocated_link (wf : MapWf s pgdir R (p :: ps)) {q : UInt32} (hq : q ∈ ps) :
    readWord (allocated s pgdir a pa perm p).mem q = readWord s.mem q := by
  have hq' := List.mem_cons_of_mem p hq
  have ne : q ≠ p := fun h => (List.nodup_cons.mp wf.free_nodup).1 (h ▸ hq)
  exact allocated_readWord_other wf (wordIn_self (wf.free_page q hq')) (wf.free_page q hq') ne
    (wf.free_ne_dir q hq')

/-- A page of `a`'s slot reads the new entry if it is `a`, and `0` otherwise. -/
theorem allocated_pteAt_slot (wf : MapWf s pgdir R (p :: ps)) (aligned : ∀ c ∈ R, c.toNat % 4096 = 0)
    (ha : a ∈ R) {c : UInt32} (hc : c ∈ R) (same : pdx c = pdx a) :
    pteAt (allocated s pgdir a pa perm p).mem pgdir c = if c = a then pa ||| perm ||| pteP else 0 := by
  have word : pteWord (allocated s pgdir a pa perm p).mem pgdir c = p + 4 * ptx c := by
    rw [pteWord, allocated_pdeAt wf, if_pos same, pteAddr_or_flags (wf.free_page p List.mem_cons_self)]
  rw [pteAt, word, allocated_readWord_table wf (wf.slot_in c)]
  by_cases eq : c = a
  · rw [if_pos (by rw [eq]), if_pos eq]
  · -- two pages of one slot sit in different slots of the table
    have slot := ptx_ne_of_pdx_eq (aligned c hc) (aligned a ha) eq same
    have tc := toNat_word (i := ptx c) (wf.free_below p List.mem_cons_self) (by have := ptx_toNat c; omega)
    have ta := toNat_word (i := ptx a) (wf.free_below p List.mem_cons_self) (by have := ptx_toNat a; omega)
    have words : p + 4 * ptx c ≠ p + 4 * ptx a := by
      intro h
      have := congrArg UInt32.toNat h
      rw [tc, ta] at this
      exact slot (UInt32.toNat_inj.mp (by omega))
    rw [if_neg words, if_neg eq]

/-- A page of another slot with a table reads as before. -/
theorem allocated_pteAt_other (wf : MapWf s pgdir R (p :: ps)) {c : UInt32} (hc : c ∈ R)
    (other : pdx c ≠ pdx a) (pde : pdeAt s.mem pgdir c &&& pteP ≠ 0) :
    pteAt (allocated s pgdir a pa perm p).mem pgdir c = pteAt s.mem pgdir c := by
  have word : pteWord (allocated s pgdir a pa perm p).mem pgdir c = pteWord s.mem pgdir c :=
    pteWord_congr (by rw [allocated_pdeAt wf, if_neg other])
  rw [pteAt, word]
  exact allocated_readWord_other wf (wf.pteWord_in hc pde) (pteAddr_aligned _)
    (wf.free_ne_table p List.mem_cons_self c hc pde).symm (wf.table_ne_dir c hc pde)

/-- The allocation keeps a well-formed directory, with the rest of the free list. -/
theorem MapWf.allocated (wf : MapWf s pgdir R (p :: ps)) : MapWf (allocated s pgdir a pa perm p) pgdir R ps where
  dir_page := wf.dir_page
  dir_below := wf.dir_below
  table_below c hc pde := by
    rw [allocated_pdeAt wf] at pde ⊢
    by_cases same : pdx c = pdx a
    · rw [if_pos same, pteAddr_or_flags (wf.free_page p List.mem_cons_self)]
      exact wf.free_below p List.mem_cons_self
    · rw [if_neg same] at pde ⊢
      exact wf.table_below c hc pde
  table_ne_dir c hc pde := by
    rw [allocated_pdeAt wf] at pde ⊢
    by_cases same : pdx c = pdx a
    · rw [if_pos same, pteAddr_or_flags (wf.free_page p List.mem_cons_self)]
      exact wf.free_ne_dir p List.mem_cons_self
    · rw [if_neg same] at pde ⊢
      exact wf.table_ne_dir c hc pde
  table_inj c hc b hb pc pb eq := by
    rw [allocated_pdeAt wf] at pc pb
    rw [allocated_pdeAt wf c, allocated_pdeAt wf b] at eq
    -- the new table is none of the old ones, so a shared table is one slot
    have fresh := pteAddr_or_flags (wf.free_page p List.mem_cons_self)
    by_cases sc : pdx c = pdx a <;> by_cases sb : pdx b = pdx a
    · exact sc.trans sb.symm
    · rw [if_pos sc, if_neg sb, fresh] at eq
      rw [if_neg sb] at pb
      exact absurd eq (wf.free_ne_table p List.mem_cons_self b hb pb)
    · rw [if_neg sc, if_pos sb, fresh] at eq
      rw [if_neg sc] at pc
      exact absurd eq.symm (wf.free_ne_table p List.mem_cons_self c hc pc)
    · rw [if_neg sc] at pc eq
      rw [if_neg sb] at pb eq
      exact wf.table_inj c hc b hb pc pb eq
  chain := wf.chain.2.congr fun _ hq => allocated_link wf hq
  free_page q hq := wf.free_page q (List.mem_cons_of_mem p hq)
  free_below q hq := wf.free_below q (List.mem_cons_of_mem p hq)
  free_ne_dir q hq := wf.free_ne_dir q (List.mem_cons_of_mem p hq)
  free_ne_table q hq c hc pde := by
    rw [allocated_pdeAt wf] at pde ⊢
    by_cases same : pdx c = pdx a
    · rw [if_pos same, pteAddr_or_flags (wf.free_page p List.mem_cons_self)]
      exact fun h => (List.nodup_cons.mp wf.free_nodup).1 (h ▸ hq)
    · rw [if_neg same] at pde ⊢
      exact wf.free_ne_table q (List.mem_cons_of_mem p hq) c hc pde
  free_nodup := (List.nodup_cons.mp wf.free_nodup).2

/-- A slot with no table now had none at the start. -/
theorem Tracks.absent_start {mem0 mem : PhysMem} {fresh done : List UInt32} {v : UInt32 → UInt32}
    (tr : Tracks mem0 mem pgdir R fresh done v) (absent : ¬ pdeAt mem pgdir a &&& pteP ≠ 0) {c : UInt32}
    (hc : c ∈ R) (same : pdx c = pdx a) : ¬ pdeAt mem0 pgdir c &&& pteP ≠ 0 := fun p0 =>
  absent (pdeAt_of_pdx_eq mem pgdir same ▸ (tr.dir_iff c hc).mpr (.inl p0))

/-- The allocation keeps the picture, with `a`'s slot fresh and `a` done. -/
theorem Tracks.allocated {mem0 : PhysMem} {fresh done : List UInt32} {v : UInt32 → UInt32}
    (tr : Tracks mem0 s.mem pgdir R fresh done v) (wf : MapWf s pgdir R (p :: ps))
    (aligned : ∀ c ∈ R, c.toNat % 4096 = 0) (sub : ∀ c ∈ done, c ∈ R) (ha : a ∈ R) (notDone : a ∉ done)
    (absent : ¬ pdeAt s.mem pgdir a &&& pteP ≠ 0) (val : v a = pa ||| perm ||| pteP) :
    Tracks mem0 (allocated s pgdir a pa perm p).mem pgdir R (pdx a :: fresh) (a :: done) v := by
  refine ⟨fun c hc => ?_, fun c hc p0 => ?_, fun c hc => ?_, fun c hc notDone' pc => ?_⟩
  · rw [allocated_pdeAt wf]
    by_cases same : pdx c = pdx a
    · rw [if_pos same]
      exact iff_of_true (or_flags_present p) (.inr (by rw [same]; exact List.mem_cons_self))
    · rw [if_neg same, tr.dir_iff c hc, List.mem_cons]
      simp only [same, false_or]
  · rw [allocated_pdeAt wf]
    by_cases same : pdx c = pdx a
    · exact absurd p0 (tr.absent_start absent hc same)
    · rw [if_neg same]
      exact tr.kept c hc p0
  · rcases List.mem_cons.mp hc with rfl | hc
    · refine ⟨by rw [allocated_pdeAt wf, if_pos rfl]; exact or_flags_present p, ?_⟩
      rw [allocated_pteAt_slot wf aligned ha ha rfl, if_pos rfl, val]
    · -- an entry set before sits in a slot that had a table then, so not `a`'s
      obtain ⟨pc, vc⟩ := tr.set c hc
      have other : pdx c ≠ pdx a := fun same => absent (pdeAt_of_pdx_eq s.mem pgdir same ▸ pc)
      exact ⟨by rw [allocated_pdeAt wf, if_neg other]; exact pc,
        by rw [allocated_pteAt_other wf (sub c hc) other pc]; exact vc⟩
  · have ne : c ≠ a := fun h => notDone' (h ▸ List.mem_cons_self)
    by_cases same : pdx c = pdx a
    · rw [allocated_pteAt_slot wf aligned ha hc same, if_neg ne, if_neg (tr.absent_start absent hc same)]
    · rw [allocated_pdeAt wf, if_neg same] at pc
      rw [allocated_pteAt_other wf hc same pc]
      exact tr.other c hc (fun h => notDone' (List.mem_cons_of_mem _ h)) pc

end Alloc

/-! ## The whole loop -/

section Loop

variable {pgdir perm : UInt32} {R : List UInt32} {mem0 : PhysMem}

/-- The loop over distinct pages of `R`, entered with the picture `Tracks` of the start
directory `mem0`, ends as `mapResult` says, and on `0` with every page done and the directory
still well formed. The page `as[i]` gets `pa + i * PGSIZE`; the induction is on the pages, the invariant the pair `MapWf` and
`Tracks`. -/
theorem mapList_tracks (aligned : ∀ c ∈ R, c.toNat % 4096 = 0) (v : UInt32 → UInt32)
    (as : List UInt32) :
    ∀ (pa : UInt32) (s : Vm) (fresh done free : List UInt32),
      as.Nodup → (∀ c ∈ as, c ∈ R) → (∀ c ∈ as, c ∉ done) → (∀ c ∈ done, c ∈ R) →
      (∀ i (h : i < as.length), v as[i] = (pa + UInt32.ofNat (4096 * i)) ||| perm ||| pteP) →
      MapWf s pgdir R free → Tracks mem0 s.mem pgdir R fresh done v →
      (Vm.mapList pgdir perm as pa s).map Prod.fst = mapResult mem0 pgdir as fresh free.length ∧
      ∀ s', Vm.mapList pgdir perm as pa s = .ok (0, s') →
        ∃ fresh', Tracks mem0 s'.mem pgdir R fresh' (as.reverse ++ done) v ∧ ∃ free', MapWf s' pgdir R free' := by
  induction as with
  | nil =>
    intro pa s fresh done free _ _ _ _ _ wf tr
    refine ⟨rfl, fun s' h => ?_⟩
    have same : s = s' := congrArg Prod.snd (Except.ok.inj h)
    exact ⟨fresh, same ▸ tr, free, same ▸ wf⟩
  | cons a rest ih =>
    intro pa s fresh done free nodup inR notDone sub vals wf tr
    obtain ⟨notIn, nodup'⟩ := List.nodup_cons.mp nodup
    have ha := inR a List.mem_cons_self
    have aNew := notDone a List.mem_cons_self
    have val : v a = pa ||| perm ||| pteP := by
      have := vals 0 (by simp)
      rwa [List.getElem_cons_zero, show UInt32.ofNat (4096 * 0) = 0 from rfl, add_zero] at this
    -- every later turn continues from `a` done, whatever the state
    have cont : ∀ (s' : Vm) (fresh' free' : List UInt32), MapWf s' pgdir R free' →
        Tracks mem0 s'.mem pgdir R fresh' (a :: done) v →
        (Vm.mapList pgdir perm rest (pa + pgSize) s').map Prod.fst =
            mapResult mem0 pgdir rest fresh' free'.length ∧
          ∀ s'', Vm.mapList pgdir perm rest (pa + pgSize) s' = .ok (0, s'') →
            ∃ fresh'', Tracks mem0 s''.mem pgdir R fresh'' ((a :: rest).reverse ++ done) v ∧
              ∃ free'', MapWf s'' pgdir R free'' := by
      intro s' fresh' free' wf' tr'
      rw [List.reverse_cons, List.append_assoc, List.singleton_append]
      refine ih (pa + pgSize) s' fresh' (a :: done) free' nodup'
        (fun c hc => inR c (List.mem_cons_of_mem a hc)) (fun c hc => ?_) (fun c hc => ?_)
        (fun i h => ?_) wf' tr'
      · rintro (_ | ⟨_, hc'⟩)
        · exact notIn hc
        · exact notDone c (List.mem_cons_of_mem a hc) hc'
      · rcases List.mem_cons.mp hc with rfl | hc
        · exact ha
        · exact sub c hc
      · have := vals (i + 1) (by simp [h])
        rwa [List.getElem_cons_succ, add_ofNat_succ] at this
    by_cases p0 : pdeAt mem0 pgdir a &&& pteP ≠ 0
    · -- a slot with a table at the start: the entry read is the starting one
      have pde : pdeAt s.mem pgdir a &&& pteP ≠ 0 := by rw [tr.kept a ha p0]; exact p0
      have pte : pteAt s.mem pgdir a = pteAt mem0 pgdir a := by
        rw [tr.other a ha aNew pde, if_pos p0]
      by_cases t0 : pteAt mem0 pgdir a &&& pteP ≠ 0
      · rw [mapList_cons_remap wf ha pde (by rw [pte]; exact t0), mapResult_cons, if_pos p0, if_pos t0]
        exact ⟨rfl, fun _ h => nomatch h⟩
      · rw [mapList_cons_mapped wf ha pde (by rw [pte]; exact t0), mapResult_cons, if_pos p0, if_neg t0]
        have tr' := tr.mapped wf aligned sub ha aNew pde
        rw [val] at tr'
        exact cont _ fresh free (wf.store ha pde _) tr'
    · by_cases f : pdx a ∈ fresh
      · -- a slot given a table by an earlier page: the entry reads `0`
        have pde : pdeAt s.mem pgdir a &&& pteP ≠ 0 := (tr.dir_iff a ha).mpr (.inr f)
        have pte : ¬ pteAt s.mem pgdir a &&& pteP ≠ 0 := by
          rw [tr.other a ha aNew pde, if_neg p0, UInt32.zero_and]
          exact fun h => h rfl
        rw [mapList_cons_mapped wf ha pde pte, mapResult_cons, if_neg p0, if_pos f]
        have tr' := tr.mapped wf aligned sub ha aNew pde
        rw [val] at tr'
        exact cont _ fresh free (wf.store ha pde _) tr'
      · have absent : ¬ pdeAt s.mem pgdir a &&& pteP ≠ 0 := fun pde =>
          ((tr.dir_iff a ha).mp pde).elim p0 f
        cases free with
        | nil =>
          rw [mapList_cons_nil wf absent, mapResult_cons, if_neg p0, if_neg f]
          refine ⟨rfl, fun s' h => ?_⟩
          have := congrArg Prod.fst (Except.ok.inj h)
          simp at this
        | cons p ps =>
          rw [mapList_cons_alloc wf absent, mapResult_cons, if_neg p0, if_neg f]
          exact cont _ (pdx a :: fresh) ps wf.allocated (tr.allocated wf aligned sub ha aNew absent val)

end Loop

/-! ## The pages of the loop -/

@[simp] theorem length_span (a : UInt32) (n : Nat) : (span a n).length = n + 1 := by
  induction n generalizing a with
  | zero => rfl
  | succ n ih => rw [span, List.length_cons, ih]

/-- Page `i` of the loop is `a + i * PGSIZE`. -/
theorem getElem_span (a : UInt32) (n i : Nat) (h : i < (span a n).length) :
    (span a n)[i] = a + UInt32.ofNat (4096 * i) := by
  induction n generalizing a i with
  | zero =>
    have zero : i = 0 := by simpa using h
    subst zero
    simp [span]
  | succ n ih =>
    cases i with
    | zero => simp [span]
    | succ i =>
      have h' : i < (span (a + pgSize) n).length := by simp at h ⊢; omega
      simp only [span, List.getElem_cons_succ]
      rw [ih _ i h', add_ofNat_succ]

theorem mem_span {a c : UInt32} {n : Nat} : c ∈ span a n ↔ ∃ k ≤ n, c = a + UInt32.ofNat (4096 * k) := by
  rw [List.mem_iff_getElem]
  constructor
  · rintro ⟨k, hk, rfl⟩
    exact ⟨k, by simp at hk; omega, getElem_span a n k hk⟩
  · rintro ⟨k, hk, rfl⟩
    exact ⟨k, by simp; omega, getElem_span a n k (by simp; omega)⟩

/-- Without a wrap the pages are distinct. -/
theorem span_nodup {a : UInt32} {n : Nat} (bound : a.toNat + 4096 * n < 2 ^ 32) : (span a n).Nodup := by
  induction n generalizing a with
  | zero => exact List.nodup_singleton a
  | succ n ih =>
    rw [Nat.mul_add_one, ← Nat.add_assoc] at bound
    have next : (a + pgSize).toNat = a.toNat + 4096 := toNat_add_pgSize (by omega)
    have bound' : (a + pgSize).toNat + 4096 * n < 2 ^ 32 := by rw [next]; omega
    refine List.nodup_cons.mpr ⟨fun mem => ?_, ih bound'⟩
    obtain ⟨k, hk, eq⟩ := mem_span.mp mem
    have := congrArg UInt32.toNat eq
    rw [toNat_add_ofNat (by omega), next] at this
    omega

/-! ## What `mapResult` says -/

section Result

variable {mem0 : PhysMem} {pgdir : UInt32}

theorem exists_present_cons {a : UInt32} {as : List UInt32} (absent : ¬ Present mem0 pgdir a) :
    (∃ c ∈ a :: as, Present mem0 pgdir c) ↔ ∃ c ∈ as, Present mem0 pgdir c := by
  simp only [List.mem_cons, exists_eq_or_imp, absent, false_or]

/-- The loop ends in `0`, `-1` or `remap`. -/
theorem mapResult_cases (as fresh : List UInt32) (free : Nat) :
    mapResult mem0 pgdir as fresh free = .ok 0 ∨ mapResult mem0 pgdir as fresh free = .ok (-1) ∨
      mapResult mem0 pgdir as fresh free = .error (.panic "remap") := by
  fun_induction mapResult mem0 pgdir as fresh free with
  | case1 => exact .inl rfl
  | case2 => exact .inr (.inr rfl)
  | case3 _ _ _ _ _ _ ih | case4 _ _ _ _ _ _ ih | case6 _ _ _ _ _ _ ih => exact ih
  | case5 => exact .inr (.inl rfl)

/-- `remap` only at a page present at the start. -/
theorem mapResult_remap (as fresh : List UInt32) (free : Nat) :
    mapResult mem0 pgdir as fresh free = .error (.panic "remap") → ∃ c ∈ as, Present mem0 pgdir c := by
  fun_induction mapResult mem0 pgdir as fresh free with
  | case1 => exact fun h => nomatch h
  | case2 a _ _ _ pde pte => exact fun _ => ⟨a, List.mem_cons_self, pde, pte⟩
  | case3 a _ _ _ _ _ ih | case4 a _ _ _ _ _ ih | case6 a _ _ _ _ _ ih =>
    exact fun h => (ih h).imp fun _ ⟨hc, pc⟩ => ⟨List.mem_cons_of_mem a hc, pc⟩
  | case5 => exact fun h => nomatch h

/-- `-1` only at a page whose slot had no table at the start. -/
theorem mapResult_out_of_tables (as fresh : List UInt32) (free : Nat) :
    mapResult mem0 pgdir as fresh free = .ok (-1) → ∃ c ∈ as, ¬ pdeAt mem0 pgdir c &&& pteP ≠ 0 := by
  fun_induction mapResult mem0 pgdir as fresh free with
  | case1 => exact fun h => absurd (Except.ok.inj h) (by decide)
  | case2 => exact fun h => nomatch h
  | case3 a _ _ _ _ _ ih | case4 a _ _ _ _ _ ih | case6 a _ _ _ _ _ ih =>
    exact fun h => (ih h).imp fun _ ⟨hc, pc⟩ => ⟨List.mem_cons_of_mem a hc, pc⟩
  | case5 a _ _ pde _ => exact fun _ => ⟨a, List.mem_cons_self, pde⟩

/-- With a free page for each page of the loop, it ends in `remap` exactly when one of its
pages was present, and in `0` otherwise. -/
theorem mapResult_of_length_le (as fresh : List UInt32) (free : Nat) (enough : as.length ≤ free) :
    mapResult mem0 pgdir as fresh free =
      if ∃ c ∈ as, Present mem0 pgdir c then .error (.panic "remap") else .ok 0 := by
  fun_induction mapResult mem0 pgdir as fresh free with
  | case1 => rw [if_neg (by simp)]
  | case2 a _ _ _ pde pte => rw [if_pos ⟨a, List.mem_cons_self, pde, pte⟩]
  | case3 a _ _ _ _ pte ih =>
    rw [ih (by simp at enough; omega)]
    simp only [exists_present_cons fun h => pte h.2]
  | case4 a _ _ _ pde _ ih =>
    rw [ih (by simp at enough; omega)]
    simp only [exists_present_cons fun h => pde h.1]
  | case5 => simp at enough
  | case6 a _ _ pde _ _ ih =>
    rw [ih (by simp at enough; omega)]
    simp only [exists_present_cons fun h => pde h.1]

end Result

/-! ## `mappages` -/

section Mappages

variable {s : Vm} {pgdir va size : UInt32} {R free : List UInt32}

/-- On a well-formed directory and free list, `mappages` ends as `mapResult` says of its pages
and the start directory, and on `0` has set page `a + i * PGSIZE` to `pa + i * PGSIZE`, the
directory and what is left of the free list well formed. -/
theorem mappages_tracks (pa perm : UInt32) (wf : MapWf s pgdir R free) (aligned : ∀ c ∈ R, c.toNat % 4096 = 0)
    (pos : 0 < size) (noWrap : va.toNat + size.toNat - 1 < 2 ^ 32)
    (inR : ∀ c ∈ span (pgRoundDown va) (lastIndex va size), c ∈ R) :
    (s.mappages pgdir va size pa perm).map Prod.fst =
        mapResult s.mem pgdir (span (pgRoundDown va) (lastIndex va size)) [] free.length ∧
      ∀ s', s.mappages pgdir va size pa perm = .ok (0, s') →
        ∃ fresh, Tracks s.mem s'.mem pgdir R fresh (span (pgRoundDown va) (lastIndex va size)).reverse
          (fun c => (pa + (c - pgRoundDown va)) ||| perm ||| pteP) ∧ ∃ free', MapWf s' pgdir R free' := by
  have bound := (lastIndex_spec va size pos noWrap).1
  have vals : ∀ i (h : i < (span (pgRoundDown va) (lastIndex va size)).length),
      (pa + ((span (pgRoundDown va) (lastIndex va size))[i] - pgRoundDown va)) ||| perm ||| pteP =
        (pa + UInt32.ofNat (4096 * i)) ||| perm ||| pteP := by
    intro i h
    rw [getElem_span, add_sub_cancel_left]
  have run := mapList_tracks aligned (fun c => (pa + (c - pgRoundDown va)) ||| perm ||| pteP) _ pa s [] [] free (span_nodup bound) inR (fun _ _ h => nomatch h)
    (fun _ h => nomatch h) vals wf (Tracks.start s.mem pgdir R _)
  rw [List.append_nil] at run
  exact mappages_eq_mapList s pgdir va size pa perm pos noWrap ▸ run

end Mappages

/-- `onePage` with the page `0x300000` free. -/
def oneFree : Vm := { onePage with freelist := p2v 0x300000 }

theorem oneFree_mapWf : MapWf oneFree onePgdir [0] [0x300000] := by
  constructor <;> (try simp only [List.mem_singleton, forall_eq]) <;> decide

/-! ## `-1` before a present page -/

/-- `mappages` returns `-1`. -/
def outOfMemoryCheck : Except Fault (Int × Vm) → Bool
  | .ok (r, _) => r == -1
  | .error _ => false

end Xv6
