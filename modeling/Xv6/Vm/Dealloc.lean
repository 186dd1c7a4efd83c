import Xv6.Vm.Growproc

/-!
# What `deallocuvm` frees

`deallocuvm(pgdir, oldsz, newsz)` walks the pages from `PGROUNDUP(newsz)` below `oldsz`;
where a page-table pointer comes back null it jumps to the next page-directory boundary,
and where an entry is present it `kfree`s the frame and clears the entry.

What it is for, stated over the page directory it starts from (`pdeAt`, `pteAt`,
`Present`): `unmapAll` `kfree`s the frame of each page of a list and clears its entry, in
order, with frames and entries read from the starting memory.  On a well-formed directory
(`Wf`: directory, page tables and frames are pages of physical memory, no two of them the
same, no frame a page table) the loop does exactly that over the present pages of the range.

* `skip_boundary`: below `KERNBASE`, `PGADDR(PDX(a) + 1, 0, 0) - PGSIZE + PGSIZE` is the
  next multiple of 4 MB, with no wrap, and every address before it shares `a`'s directory
  entry;
* `deallocuvm_eq_unmapAll`: on a well-formed directory, `deallocuvm` returns `newsz`
  after `unmapAll` over the present pages of `[PGROUNDUP(newsz), oldsz)`;
* `deallocuvm_frees_present`: the two together, with what `unmapAll` leaves: each present
  page's table entry cleared, every other entry kept;
* `deallocuvm_frame_zero`: on a directory with a present entry whose frame is `0`,
  `deallocuvm` panics `kfree`.
-/

namespace Xv6

/-! ## Words of physical memory -/

/-- No carry out of 32 bits when adding a small offset. -/
theorem toNat_add_ofNat {a : UInt32} {j : Nat} (h : a.toNat + j < 2 ^ 32) :
    (a + UInt32.ofNat j).toNat = a.toNat + j := by
  simp only [UInt32.toNat_add, UInt32.toNat_ofNat']
  omega

/-- A word is its four bytes. -/
theorem readWord_congr {mem mem' : PhysMem} {b : UInt32}
    (h : ∀ j < 4, mem (b + UInt32.ofNat j) = mem' (b + UInt32.ofNat j)) :
    readWord mem b = readWord mem' b := by
  have e0 : mem b = mem' b := by simpa using h 0 (by omega)
  have e1 : mem (b + 1) = mem' (b + 1) := h 1 (by omega)
  have e2 : mem (b + 2) = mem' (b + 2) := h 2 (by omega)
  have e3 : mem (b + 3) = mem' (b + 3) := h 3 (by omega)
  rw [readWord, readWord, e0, e1, e2, e3]

/-- The bytes of two different aligned words are different. -/
theorem add_ofNat_ne_of_aligned {a b : UInt32} (ha : a.toNat % 4 = 0) (hb : b.toNat % 4 = 0)
    (hne : a ≠ b) {j k : Nat} (hj : j < 4) (hk : k < 4) :
    a + UInt32.ofNat k ≠ b + UInt32.ofNat j := by
  intro heq
  have la := a.toNat_lt
  have lb := b.toNat_lt
  have := congrArg UInt32.toNat heq
  rw [toNat_add_ofNat (by omega), toNat_add_ofNat (by omega)] at this
  exact hne (UInt32.toNat_inj.mp (by omega))

/-- A store of a word leaves every other aligned word as it was. -/
theorem readWord_writeWord_of_ne {mem : PhysMem} {a b w : UInt32} (ha : a.toNat % 4 = 0)
    (hb : b.toNat % 4 = 0) (hne : a ≠ b) : readWord (writeWord mem a w) b = readWord mem b := by
  apply readWord_congr
  intro j hj
  apply Writes.apply_of_forall_ne
  intro w hw
  obtain ⟨k, hk, rfl⟩ := List.mem_map.mp hw
  exact add_ofNat_ne_of_aligned ha hb hne hj (List.mem_range.mp hk)

/-- The word a store writes reads back. -/
theorem readWord_writeWord_self (mem : PhysMem) {a : UInt32} (ha : a.toNat % 4 = 0) (w : UInt32) :
    readWord (writeWord mem a w) a = w := by
  have byte : ∀ k < 4, writeWord mem a w (a + UInt32.ofNat k) = LittleEndian.byte32 w k := by
    intro k hk
    apply Writes.apply_map_of_injOn (List.nodup_range) _ (List.mem_range.mpr hk)
    intro y hy z hz heq
    by_contra hne
    have := a.toNat_lt
    have := congrArg UInt32.toNat heq
    rw [toNat_add_ofNat (by simp at hy; omega), toNat_add_ofNat (by simp at hz; omega)] at this
    exact hne (by omega)
  have e0 : writeWord mem a w a = LittleEndian.byte32 w 0 := by simpa using byte 0 (by omega)
  have e1 : writeWord mem a w (a + 1) = LittleEndian.byte32 w 1 := byte 1 (by omega)
  have e2 : writeWord mem a w (a + 2) = LittleEndian.byte32 w 2 := byte 2 (by omega)
  have e3 : writeWord mem a w (a + 3) = LittleEndian.byte32 w 3 := byte 3 (by omega)
  rw [readWord, e0, e1, e2, e3]
  exact LittleEndian.word32_byte32 w

/-- `memset` of the page at `f` leaves every aligned word of the other pages as it was. -/
theorem readWord_memset_of_ne {mem : PhysMem} {f b : UInt32} {c : UInt8} (hf : f.toNat % 4096 = 0)
    (hb : b.toNat % 4 = 0) (hne : b.toNat / 4096 ≠ f.toNat / 4096) :
    readWord (memset mem (p2v f) c 4096) b = readWord mem b := by
  apply readWord_congr
  intro j hj
  simp only [memset, v2p_p2v]
  rw [if_neg]
  have := b.toNat_lt
  have := f.toNat_lt
  rw [UInt32.toNat_sub, toNat_add_ofNat (by omega)]
  omega

/-! ## Fields of an address -/

theorem pdx_toNat (va : UInt32) : (pdx va).toNat = va.toNat / 2 ^ 22 % 1024 :=
  Align.uint32_field_toNat va 22 (by decide)

theorem ptx_toNat (va : UInt32) : (ptx va).toNat = va.toNat / 4096 % 1024 :=
  Align.uint32_field_toNat va 12 (by decide)

theorem pteAddr_toNat (e : UInt32) : (pteAddr e).toNat = e.toNat / 4096 * 4096 :=
  Align.uint32_and_not_toNat e

/-- The direct map sends nothing below `2^31` to the null pointer. -/
theorem p2v_ne_zero {x : UInt32} (h : x.toNat < 2 ^ 31) : p2v x ≠ 0 := by
  intro h0
  have := congrArg UInt32.toNat h0
  rw [p2v, UInt32.toNat_add, show kernBase.toNat = 2 ^ 31 from rfl, Nat.mod_eq_of_lt (by omega)] at this
  simp at this

/-- Word `i` of a page of physical memory. -/
theorem toNat_word {P i : UInt32} (hP : P < physTop) (hi : i.toNat < 1024) :
    (P + 4 * i).toNat = P.toNat + 4 * i.toNat := by
  have : P.toNat < 0xE000000 := hP
  simp only [UInt32.toNat_add, UInt32.toNat_mul, show (4 : UInt32).toNat = 4 from rfl]
  omega

/-! ## The page directory a loop starts from -/

/-- The physical address of the directory entry of `va`. -/
def pdeWord (pgdir va : UInt32) : UInt32 := v2p pgdir + 4 * pdx va

/-- `pgdir[PDX(va)]`. -/
def pdeAt (mem : PhysMem) (pgdir va : UInt32) : UInt32 := readWord mem (pdeWord pgdir va)

/-- The physical address of the table entry of `va`, in the table its directory entry names. -/
def pteWord (mem : PhysMem) (pgdir va : UInt32) : UInt32 :=
  pteAddr (pdeAt mem pgdir va) + 4 * ptx va

/-- `*walkpgdir(pgdir, va, 0)`, read where the directory entry points. -/
def pteAt (mem : PhysMem) (pgdir va : UInt32) : UInt32 := readWord mem (pteWord mem pgdir va)

/-- Both entries of `va` present: a user page `deallocuvm` has to free. -/
def Present (mem : PhysMem) (pgdir va : UInt32) : Prop :=
  pdeAt mem pgdir va &&& pteP ≠ 0 ∧ pteAt mem pgdir va &&& pteP ≠ 0

instance (mem : PhysMem) (pgdir : UInt32) : DecidablePred (Present mem pgdir) :=
  fun _ => inferInstanceAs (Decidable (_ ∧ _))

/-- `PTE_ADDR(*pte)`: the frame of a page. -/
def frameAt (mem : PhysMem) (pgdir va : UInt32) : UInt32 := pteAddr (pteAt mem pgdir va)

/-- What `deallocuvm` is for: `kfree` the frame of each page of `ps` and clear its table
entry, in order, with frames and entries as `mem` has them. -/
def unmapAll (mem : PhysMem) (pgdir : UInt32) : List UInt32 → Vm → Except Fault Vm
  | [], s => return s
  | a :: ps, s => do
    let s ← s.kfree (p2v (frameAt mem pgdir a))
    let mem' ← store s.mem (p2v (pteWord mem pgdir a)) 0
    unmapAll mem pgdir ps { s with mem := mem' }

/-! ## One turn of the loop, by its parts -/

theorem store_p2v (mem : PhysMem) {x : UInt32} (hx : x.toNat < 2 ^ 31) (w : UInt32) :
    store mem (p2v x) w = .ok (writeWord mem x w) := by
  rw [store, if_neg (p2v_ne_zero hx), v2p_p2v]

/-- `kfree` of a frame below `PHYSTOP` and past the kernel's image: the page is filled with
junk, its first word links the old free list, and it heads the list. -/
theorem Vm.kfree_p2v (s : Vm) {f : UInt32} (hf : f.toNat % 4096 = 0) (htop : f < physTop)
    (hend : s.kend ≤ p2v f) :
    s.kfree (p2v f) =
      .ok { s with mem := writeWord (memset s.mem (p2v f) 1 4096) f s.freelist, freelist := p2v f } := by
  have lt : f.toNat < 0xE000000 := htop
  have ok : ¬ (p2v f % pgSize ≠ 0 ∨ p2v f < s.kend ∨ v2p (p2v f) ≥ physTop) := by
    rw [v2p_p2v]
    intro h
    rcases h with h | h | h
    · apply h
      apply UInt32.toNat_inj.mp
      simp only [p2v, UInt32.toNat_mod, UInt32.toNat_add, show kernBase.toNat = 2 ^ 31 from rfl,
        show pgSize.toNat = 4096 from rfl, UInt32.toNat_zero]
      omega
    · exact absurd h (UInt32.not_lt.mpr hend)
    · exact absurd h (UInt32.not_le.mpr htop)
  rw [Vm.kfree, if_neg ok, store_p2v _ (by omega), except_ok_bind]
  rfl

/-- `walkpgdir(pgdir, va, 0)` on a directory below `PHYSTOP`: the kernel address of the
table entry when the directory entry is present, else `0`; nothing changes. -/
theorem Vm.walkpgdir_false (s : Vm) {pgdir : UInt32} (va : UInt32) (hdir : v2p pgdir < physTop) :
    s.walkpgdir pgdir va false =
      .ok (if pdeAt s.mem pgdir va &&& pteP ≠ 0 then p2v (pteWord s.mem pgdir va) else 0, s) := by
  have lt : (v2p pgdir).toNat < 0xE000000 := hdir
  have slot : pgdir + 4 * pdx va = p2v (pdeWord pgdir va) := by
    simp only [p2v, pdeWord, v2p]
    grind
  have below : (pdeWord pgdir va).toNat < 2 ^ 31 := by
    have := pdx_toNat va
    rw [pdeWord, toNat_word hdir (by omega)]
    omega
  unfold Vm.walkpgdir
  dsimp only
  rw [slot, load, if_neg (p2v_ne_zero below), v2p_p2v, except_ok_bind]
  by_cases present : pdeAt s.mem pgdir va &&& pteP ≠ 0
  · have ptr : p2v (pteAddr (pdeAt s.mem pgdir va)) + 4 * ptx va = p2v (pteWord s.mem pgdir va) := by
      simp only [p2v, pteWord]
      grind
    rw [if_pos (show readWord s.mem (pdeWord pgdir va) &&& pteP ≠ 0 from present), if_pos present]
    exact congrArg (fun x => Except.ok (x, s)) ptr
  · rw [if_neg (show ¬ readWord s.mem (pdeWord pgdir va) &&& pteP ≠ 0 from present), if_neg present]
    rfl

/-! ## The pages of a range -/

/-- The page addresses `lo, lo + PGSIZE, …` below `hi`: the values the loop variable of
`deallocuvm` would take one page at a time. -/
def pages (lo hi : UInt32) : List UInt32 :=
  (List.range ((hi.toNat - lo.toNat + 4095) / 4096)).map fun k => lo + UInt32.ofNat (4096 * k)

theorem pages_of_le {lo hi : UInt32} (h : hi ≤ lo) : pages lo hi = [] := by
  have : hi.toNat ≤ lo.toNat := UInt32.le_iff_toNat_le.mp h
  rw [pages, show (hi.toNat - lo.toNat + 4095) / 4096 = 0 by omega, List.range_zero, List.map_nil]

/-- Moving `k + 1` pages on is moving one page, then `k`. -/
theorem add_ofNat_succ (lo : UInt32) (k : Nat) :
    lo + UInt32.ofNat (4096 * (k + 1)) = lo + pgSize + UInt32.ofNat (4096 * k) := by
  apply UInt32.toNat_inj.mp
  simp only [UInt32.toNat_add, UInt32.toNat_ofNat', show pgSize.toNat = 4096 from rfl]
  omega

theorem pages_cons {lo hi : UInt32} (h : lo < hi) (hhi : hi ≤ kernBase) :
    pages lo hi = lo :: pages (lo + pgSize) hi := by
  have lt : lo.toNat < hi.toNat := UInt32.lt_iff_toNat_lt.mp h
  have le : hi.toNat ≤ 2 ^ 31 := UInt32.le_iff_toNat_le.mp hhi
  have next : (lo + pgSize).toNat = lo.toNat + 4096 := by
    simp only [UInt32.toNat_add, show pgSize.toNat = 4096 from rfl]
    omega
  have count : (hi.toNat - lo.toNat + 4095) / 4096 =
      (hi.toNat - (lo + pgSize).toNat + 4095) / 4096 + 1 := by
    rw [next]
    omega
  unfold pages
  rw [count, List.range_succ_eq_map, List.map_cons, List.map_map]
  have first : lo + UInt32.ofNat (4096 * 0) = lo := by simp
  exact congrArg₂ List.cons first (List.map_congr_left fun k _ => add_ofNat_succ lo k)

/-- Every page of a range below `KERNBASE` is a whole number of pages past its start. -/
theorem mem_pages {lo hi c : UInt32} (hhi : hi ≤ kernBase) (h : c ∈ pages lo hi) :
    ∃ k, c.toNat = lo.toNat + 4096 * k ∧ c.toNat < hi.toNat := by
  have le : hi.toNat ≤ 2 ^ 31 := UInt32.le_iff_toNat_le.mp hhi
  obtain ⟨k, hk, rfl⟩ := List.mem_map.mp h
  have hk := List.mem_range.mp hk
  have sum : lo.toNat + 4096 * k < hi.toNat := by omega
  exact ⟨k, toNat_add_ofNat (by omega), by rw [toNat_add_ofNat (by omega)]; exact sum⟩

/-- The next page, below the top of the address space. -/
theorem toNat_add_pgSize {a : UInt32} (h : a.toNat + 4096 < 2 ^ 32) : (a + pgSize).toNat = a.toNat + 4096 := by
  simp only [UInt32.toNat_add, show pgSize.toNat = 4096 from rfl]
  omega

/-- Past the end of a range there are no pages. -/
theorem pages_of_not_lt {lo hi : UInt32} (h : ¬ lo < hi) (m : Nat) (bound : lo.toNat + 4096 * m ≤ 2 ^ 31) :
    pages (lo + UInt32.ofNat (4096 * m)) hi = [] := by
  apply pages_of_le
  rw [UInt32.le_iff_toNat_le, toNat_add_ofNat (by omega)]
  have := UInt32.le_iff_toNat_le.mp (UInt32.not_lt.mp h)
  omega

/-- Starting `m` pages on drops the first `m` pages. -/
theorem pages_drop {hi : UInt32} (hhi : hi ≤ kernBase) (m : Nat) :
    ∀ lo : UInt32, lo.toNat + 4096 * m ≤ 2 ^ 31 →
      pages (lo + UInt32.ofNat (4096 * m)) hi = (pages lo hi).drop m := by
  induction m with
  | zero => intro lo _; simp
  | succ m ih =>
    intro lo bound
    by_cases h : lo < hi
    · rw [add_ofNat_succ, pages_cons h hhi, List.drop_succ_cons]
      exact ih (lo + pgSize) (by rw [toNat_add_pgSize (by omega)]; omega)
    · rw [pages_of_not_lt h _ bound, pages_of_le (UInt32.not_lt.mp h), List.drop_nil]

/-- Pages that fail `P` at the start of a range can be skipped. -/
theorem filter_pages_skip {hi : UInt32} (hhi : hi ≤ kernBase) (P : UInt32 → Prop) [DecidablePred P]
    (m : Nat) : ∀ lo : UInt32, lo.toNat + 4096 * m ≤ 2 ^ 31 →
      (∀ k < m, ¬ P (lo + UInt32.ofNat (4096 * k))) →
      (pages lo hi).filter (fun a => decide (P a)) =
        (pages (lo + UInt32.ofNat (4096 * m)) hi).filter (fun a => decide (P a)) := by
  induction m with
  | zero => intro lo _ _; simp
  | succ m ih =>
    intro lo bound absent
    by_cases h : lo < hi
    · have first : ¬ P lo := by simpa using absent 0 (by omega)
      rw [pages_cons h hhi, List.filter_cons_of_neg (by simpa using first), add_ofNat_succ]
      refine ih (lo + pgSize) (by rw [toNat_add_pgSize (by omega)]; omega) fun k hk => ?_
      rw [← add_ofNat_succ]
      exact absent (k + 1) (by omega)
    · rw [pages_of_not_lt h _ bound, pages_of_le (UInt32.not_lt.mp h)]

/-- Every page of a range from an aligned start is aligned. -/
theorem aligned_of_mem_pages {lo hi c : UInt32} (hhi : hi ≤ kernBase) (hlo : lo.toNat % 4096 = 0)
    (h : c ∈ pages lo hi) : c.toNat % 4096 = 0 := by
  obtain ⟨k, hk, -⟩ := mem_pages hhi h
  omega

/-! ## The jump over an absent page table -/

/-- Below `KERNBASE`, `PGADDR(PDX(a) + 1, 0, 0) - PGSIZE + PGSIZE` is the next multiple of
4 MB: no wrap, no page skipped but those of `a`'s directory entry. -/
theorem skip_boundary {a : UInt32} (ha : a < kernBase) :
    (pgAddr (pdx a + 1) 0 0 - pgSize + pgSize).toNat = (a.toNat / 2 ^ 22 + 1) * 2 ^ 22 ∧
      a < pgAddr (pdx a + 1) 0 0 - pgSize + pgSize ∧ pgAddr (pdx a + 1) 0 0 - pgSize + pgSize ≤ kernBase ∧
      ∀ c, a ≤ c → c < pgAddr (pdx a + 1) 0 0 - pgSize + pgSize → pdx c = pdx a := by
  have lt : a.toNat < 2 ^ 31 := UInt32.lt_iff_toNat_lt.mp ha
  have d1 : (pdx a + 1).toNat = a.toNat / 2 ^ 22 + 1 := by
    rw [UInt32.toNat_add, pdx_toNat, show (1 : UInt32).toNat = 1 from rfl]
    omega
  have next : (pgAddr (pdx a + 1) 0 0 - pgSize + pgSize).toNat = (a.toNat / 2 ^ 22 + 1) * 2 ^ 22 := by
    rw [sub_add_cancel, pgAddr, UInt32.zero_shiftLeft, UInt32.or_zero, UInt32.or_zero,
      UInt32.toNat_shiftLeft, d1, show (22 : UInt32).toNat % 32 = 22 from rfl, Nat.shiftLeft_eq]
    omega
  refine ⟨next, ?_, ?_, fun c lo hi => ?_⟩
  · rw [UInt32.lt_iff_toNat_lt, next]
    omega
  · rw [UInt32.le_iff_toNat_le, next, show kernBase.toNat = 2 ^ 31 from rfl]
    omega
  · have lo := UInt32.le_iff_toNat_le.mp lo
    have hi := UInt32.lt_iff_toNat_lt.mp hi
    rw [next] at hi
    apply UInt32.toNat_inj.mp
    rw [pdx_toNat, pdx_toNat]
    have : c.toNat / 2 ^ 22 = a.toNat / 2 ^ 22 := by omega
    rw [this]

/-! ## Well-formed page directories -/

/-- A page directory whose entries for the pages `ps` can be freed one page after another:
the directory and each page table are pages below `PHYSTOP`, two directory entries name
two tables, and each frame is a page of physical memory past the kernel's image that is
neither the directory nor a table. -/
structure Wf (s : Vm) (pgdir : UInt32) (ps : List UInt32) : Prop where
  dir_page : (v2p pgdir).toNat % 4096 = 0
  dir_below : v2p pgdir < physTop
  table_below : ∀ a ∈ ps, pdeAt s.mem pgdir a &&& pteP ≠ 0 → pteAddr (pdeAt s.mem pgdir a) < physTop
  table_ne_dir : ∀ a ∈ ps, pdeAt s.mem pgdir a &&& pteP ≠ 0 → pteAddr (pdeAt s.mem pgdir a) ≠ v2p pgdir
  table_inj : ∀ a ∈ ps, ∀ b ∈ ps, pdeAt s.mem pgdir a &&& pteP ≠ 0 → pdeAt s.mem pgdir b &&& pteP ≠ 0 →
    pteAddr (pdeAt s.mem pgdir a) = pteAddr (pdeAt s.mem pgdir b) → pdx a = pdx b
  frame_ne_zero : ∀ a ∈ ps, Present s.mem pgdir a → frameAt s.mem pgdir a ≠ 0
  frame_below : ∀ a ∈ ps, Present s.mem pgdir a → frameAt s.mem pgdir a < physTop
  frame_past_kernel : ∀ a ∈ ps, Present s.mem pgdir a → s.kend ≤ p2v (frameAt s.mem pgdir a)
  frame_ne_dir : ∀ a ∈ ps, Present s.mem pgdir a → frameAt s.mem pgdir a ≠ v2p pgdir
  frame_ne_table : ∀ a ∈ ps, Present s.mem pgdir a → ∀ b ∈ ps, pdeAt s.mem pgdir b &&& pteP ≠ 0 →
    frameAt s.mem pgdir a ≠ pteAddr (pdeAt s.mem pgdir b)

/-- `mem` still holds, for each page of `ps`, the directory entry `mem0` has, and where that
entry is present, the table entry it points to. -/
def Agrees (pgdir : UInt32) (mem0 mem : PhysMem) (ps : List UInt32) : Prop :=
  ∀ c ∈ ps, pdeAt mem pgdir c = pdeAt mem0 pgdir c ∧
    (pdeAt mem0 pgdir c &&& pteP ≠ 0 → readWord mem (pteWord mem0 pgdir c) = pteAt mem0 pgdir c)

theorem Agrees.mono {pgdir : UInt32} {mem0 mem : PhysMem} {ps qs : List UInt32}
    (h : Agrees pgdir mem0 mem ps) (sub : qs ⊆ ps) : Agrees pgdir mem0 mem qs :=
  fun c hc => h c (sub hc)

theorem Agrees.refl (pgdir : UInt32) (mem : PhysMem) (ps : List UInt32) : Agrees pgdir mem mem ps :=
  fun _ _ => ⟨rfl, fun _ => rfl⟩

/-- The table entry the current memory reads is the one the starting memory had. -/
theorem Agrees.pteAt {pgdir c : UInt32} {mem0 mem : PhysMem} {ps : List UInt32}
    (h : Agrees pgdir mem0 mem ps) (hc : c ∈ ps) (pde : pdeAt mem0 pgdir c &&& pteP ≠ 0) :
    pteWord mem pgdir c = pteWord mem0 pgdir c ∧ Xv6.pteAt mem pgdir c = Xv6.pteAt mem0 pgdir c := by
  have word : pteWord mem pgdir c = pteWord mem0 pgdir c := by
    rw [pteWord, pteWord, (h c hc).1]
  exact ⟨word, by rw [Xv6.pteAt, word]; exact (h c hc).2 pde⟩

section Wf

variable {s : Vm} {pgdir : UInt32} {ps : List UInt32}

/-- The directory entry of a page: a word of the directory's page. -/
theorem Wf.pdeWord_toNat (wf : Wf s pgdir ps) (c : UInt32) :
    (pdeWord pgdir c).toNat = (v2p pgdir).toNat + 4 * (pdx c).toNat := by
  have := pdx_toNat c
  exact toNat_word wf.dir_below (by omega)

/-- The table entry of a page with a present directory entry: a word of the table's page. -/
theorem Wf.pteWord_toNat (wf : Wf s pgdir ps) {c : UInt32} (hc : c ∈ ps)
    (pde : pdeAt s.mem pgdir c &&& pteP ≠ 0) :
    (pteWord s.mem pgdir c).toNat = (pteAddr (pdeAt s.mem pgdir c)).toNat + 4 * (ptx c).toNat := by
  have := ptx_toNat c
  exact toNat_word (wf.table_below c hc pde) (by omega)

/-- A table entry's kernel address is not null. -/
theorem Wf.pteWord_lt (wf : Wf s pgdir ps) {c : UInt32} (hc : c ∈ ps)
    (pde : pdeAt s.mem pgdir c &&& pteP ≠ 0) : (pteWord s.mem pgdir c).toNat < 2 ^ 31 := by
  have wc := wf.pteWord_toNat hc pde
  have table : (pteAddr (pdeAt s.mem pgdir c)).toNat < 0xE000000 := wf.table_below c hc pde
  have := ptx_toNat c
  omega

end Wf

/-- A word outside a freed frame's page, other than the entry cleared, reads as before. -/
theorem readWord_unmapped {mem : PhysMem} {f w b fl : UInt32} (hf : f.toNat % 4096 = 0)
    (hw : w.toNat % 4 = 0) (hb : b.toNat % 4 = 0) (page : b.toNat / 4096 ≠ f.toNat / 4096)
    (ne : w ≠ b) : readWord (writeWord (writeWord (memset mem (p2v f) 1 4096) f fl) w 0) b = readWord mem b := by
  have fb : f ≠ b := fun h => page (by rw [h])
  rw [readWord_writeWord_of_ne hw hb ne, readWord_writeWord_of_ne (by omega) hb fb,
    readWord_memset_of_ne hf hb page]

/-- Two different aligned pages have different page numbers. -/
theorem page_ne {x y : UInt32} (hx : x.toNat % 4096 = 0) (hy : y.toNat % 4096 = 0) (h : x ≠ y) :
    x.toNat / 4096 ≠ y.toNat / 4096 := by
  intro heq
  exact h (UInt32.toNat_inj.mp (by omega))

/-- Two different pages with one directory entry have different table entries. -/
theorem ptx_ne_of_pdx_eq {a c : UInt32} (ha : a.toNat % 4096 = 0) (hc : c.toNat % 4096 = 0)
    (ne : a ≠ c) (same : pdx a = pdx c) : ptx a ≠ ptx c := by
  intro heq
  have d := congrArg UInt32.toNat same
  have t := congrArg UInt32.toNat heq
  rw [pdx_toNat, pdx_toNat] at d
  rw [ptx_toNat, ptx_toNat] at t
  have := a.toNat_lt
  have := c.toNat_lt
  exact ne (UInt32.toNat_inj.mp (by omega))

section Unmap

variable {s0 : Vm} {pgdir : UInt32} {R : List UInt32}

theorem pteAddr_aligned (e : UInt32) : (pteAddr e).toNat % 4096 = 0 := by
  rw [pteAddr_toNat]
  omega

theorem frameAt_aligned (mem : PhysMem) (pgdir a : UInt32) : (frameAt mem pgdir a).toNat % 4096 = 0 :=
  pteAddr_aligned _

/-- The writes that free the frame of a present page `a` and clear its table entry miss
every directory entry. -/
theorem Wf.pdeWord_unmapped (wf : Wf s0 pgdir R) {a : UInt32} (ha : a ∈ R)
    (pa : Present s0.mem pgdir a) (c : UInt32) (mem : PhysMem) (fl : UInt32) :
    readWord (writeWord (writeWord (memset mem (p2v (frameAt s0.mem pgdir a)) 1 4096)
      (frameAt s0.mem pgdir a) fl) (pteWord s0.mem pgdir a) 0) (pdeWord pgdir c) =
      readWord mem (pdeWord pgdir c) := by
  have hf := frameAt_aligned s0.mem pgdir a
  have hD := wf.dir_page
  have hTa := pteAddr_aligned (pdeAt s0.mem pgdir a)
  have wa := wf.pteWord_toNat ha pa.1
  have wc := wf.pdeWord_toNat c
  have := ptx_toNat a
  have := pdx_toNat c
  -- the directory's page is neither the frame's nor `a`'s table's
  have page : (pdeWord pgdir c).toNat / 4096 ≠ (frameAt s0.mem pgdir a).toNat / 4096 := by
    have := page_ne hD hf (wf.frame_ne_dir a ha pa).symm
    omega
  have other : pteWord s0.mem pgdir a ≠ pdeWord pgdir c := by
    intro h
    have := congrArg UInt32.toNat h
    have := page_ne hTa hD (wf.table_ne_dir a ha pa.1)
    omega
  exact readWord_unmapped hf (by omega) (by omega) page other

/-- They miss the table entry of every other page with a present directory entry. -/
theorem Wf.pteWord_unmapped (wf : Wf s0 pgdir R) (aligned : ∀ c ∈ R, c.toNat % 4096 = 0)
    {a c : UInt32} (ha : a ∈ R) (pa : Present s0.mem pgdir a) (hc : c ∈ R) (ne : a ≠ c)
    (pde : pdeAt s0.mem pgdir c &&& pteP ≠ 0) (mem : PhysMem) (fl : UInt32) :
    readWord (writeWord (writeWord (memset mem (p2v (frameAt s0.mem pgdir a)) 1 4096)
      (frameAt s0.mem pgdir a) fl) (pteWord s0.mem pgdir a) 0) (pteWord s0.mem pgdir c) =
      readWord mem (pteWord s0.mem pgdir c) := by
  have hf := frameAt_aligned s0.mem pgdir a
  have hTa := pteAddr_aligned (pdeAt s0.mem pgdir a)
  have hTc := pteAddr_aligned (pdeAt s0.mem pgdir c)
  have wa := wf.pteWord_toNat ha pa.1
  have wc := wf.pteWord_toNat hc pde
  have := ptx_toNat a
  have := ptx_toNat c
  have page : (pteWord s0.mem pgdir c).toNat / 4096 ≠ (frameAt s0.mem pgdir a).toNat / 4096 := by
    have := page_ne hTc hf (wf.frame_ne_table a ha pa c hc pde).symm
    omega
  -- one table: two slots of it; two tables: two pages
  have other : pteWord s0.mem pgdir a ≠ pteWord s0.mem pgdir c := by
    intro h
    have := congrArg UInt32.toNat h
    by_cases same : pteAddr (pdeAt s0.mem pgdir a) = pteAddr (pdeAt s0.mem pgdir c)
    · have slot := ptx_ne_of_pdx_eq (aligned a ha) (aligned c hc) ne
        (wf.table_inj a ha c hc pa.1 pde same)
      have := congrArg UInt32.toNat same
      exact slot (UInt32.toNat_inj.mp (by omega))
    · have := page_ne hTa hTc same
      omega
  exact readWord_unmapped hf (by omega) (by omega) page other

/-- And the cleared entry reads `0`. -/
theorem Wf.pteWord_cleared (wf : Wf s0 pgdir R) {a : UInt32} (ha : a ∈ R)
    (pa : Present s0.mem pgdir a) (mem : PhysMem) (fl : UInt32) :
    readWord (writeWord (writeWord (memset mem (p2v (frameAt s0.mem pgdir a)) 1 4096)
      (frameAt s0.mem pgdir a) fl) (pteWord s0.mem pgdir a) 0) (pteWord s0.mem pgdir a) = 0 := by
  have hTa := pteAddr_aligned (pdeAt s0.mem pgdir a)
  have wa := wf.pteWord_toNat ha pa.1
  exact readWord_writeWord_self _ (by omega) 0

/-- Freeing the frame of a present page `a` and clearing its table entry keeps the entries
of every other page of the range. -/
theorem Wf.agrees_unmap (wf : Wf s0 pgdir R) (aligned : ∀ c ∈ R, c.toNat % 4096 = 0) {a : UInt32}
    (ha : a ∈ R) (pa : Present s0.mem pgdir a) {ps : List UInt32} (sub : ps ⊆ R) (notin : a ∉ ps)
    {mem : PhysMem} (ag : Agrees pgdir s0.mem mem ps) (fl : UInt32) :
    Agrees pgdir s0.mem (writeWord (writeWord (memset mem (p2v (frameAt s0.mem pgdir a)) 1 4096)
      (frameAt s0.mem pgdir a) fl) (pteWord s0.mem pgdir a) 0) ps := by
  intro c hc
  have ne : a ≠ c := fun h => notin (h ▸ hc)
  refine ⟨(wf.pdeWord_unmapped ha pa c mem fl).trans (ag c hc).1, fun pde => ?_⟩
  exact (wf.pteWord_unmapped aligned ha pa (sub hc) ne pde mem fl).trans ((ag c hc).2 pde)

end Unmap

/-! ## The loop -/

section Loop

variable {s0 : Vm} {pgdir lo oldsz : UInt32}

/-- From an aligned page `a` of the range, with fuel for each page left and the entries of
the pages left as they were at the start, the loop does what `unmapAll` does over the
present pages left. -/
theorem deallocuvmLoop_eq_unmapAll (wf : Wf s0 pgdir (pages lo oldsz)) (hlo : lo.toNat % 4096 = 0)
    (hold : oldsz ≤ kernBase) (k : Nat) :
    ∀ (a : UInt32) (s : Vm), a.toNat % 4096 = 0 → (oldsz.toNat - a.toNat + 4095) / 4096 ≤ k →
      pages a oldsz ⊆ pages lo oldsz → s.kend = s0.kend → Agrees pgdir s0.mem s.mem (pages a oldsz) →
      Vm.deallocuvmLoop pgdir oldsz k a s =
        unmapAll s0.mem pgdir ((pages a oldsz).filter fun c => decide (Present s0.mem pgdir c)) s := by
  have aligned : ∀ c ∈ pages lo oldsz, c.toNat % 4096 = 0 := fun c hc => aligned_of_mem_pages hold hlo hc
  have top : oldsz.toNat ≤ 2 ^ 31 := UInt32.le_iff_toNat_le.mp hold
  -- induction on the fuel; the jump spends one unit for a whole directory entry
  induction k with
  | zero =>
    intro a s _ fuel _ _ _
    rw [pages_of_le (UInt32.le_iff_toNat_le.mpr (by omega))]
    rfl
  | succ k ih =>
    intro a s ha fuel sub kend ag
    by_cases inside : a < oldsz
    · have lt := UInt32.lt_iff_toNat_lt.mp inside
      have cons := pages_cons inside hold
      have self : a ∈ pages a oldsz := by
        rw [cons]
        exact List.mem_cons_self
      have haR : a ∈ pages lo oldsz := sub self
      have tail : pages (a + pgSize) oldsz ⊆ pages a oldsz := by
        rw [cons]
        exact List.subset_cons_self _ _
      have next : (a + pgSize).toNat = a.toNat + 4096 := toNat_add_pgSize (by omega)
      rw [Vm.deallocuvmLoop, if_pos inside, Vm.walkpgdir_false s a wf.dir_below, except_ok_bind,
        (ag a self).1]
      dsimp only
      by_cases pde : pdeAt s0.mem pgdir a &&& pteP ≠ 0
      · -- a page table: `a`'s entry is read where, and as, it was at the start
        obtain ⟨word, pte_eq⟩ := ag.pteAt self pde
        have wa := wf.pteWord_toNat haR pde
        have ptx_lt := ptx_toNat a
        have table := wf.table_below a haR pde
        have table' : (pteAddr (pdeAt s0.mem pgdir a)).toNat < 0xE000000 := table
        have low : (pteWord s0.mem pgdir a).toNat < 2 ^ 31 := by omega
        have ptr := p2v_ne_zero low
        rw [word, if_pos pde, if_neg ptr, load, if_neg ptr, v2p_p2v, except_ok_bind]
        rw [show readWord s.mem (pteWord s0.mem pgdir a) = pteAt s0.mem pgdir a by
          rw [← pte_eq, Xv6.pteAt, word]]
        by_cases pte : pteAt s0.mem pgdir a &&& pteP ≠ 0
        · -- present: both sides free the frame and clear the entry
          have pr : Present s0.mem pgdir a := ⟨pde, pte⟩
          have free := Vm.kfree_p2v s (frameAt_aligned _ _ _) (wf.frame_below a haR pr)
            (kend ▸ wf.frame_past_kernel a haR pr)
          rw [if_pos pte, show pteAddr (pteAt s0.mem pgdir a) = frameAt s0.mem pgdir a from rfl,
            if_neg (wf.frame_ne_zero a haR pr), free, except_ok_bind, store_p2v _ low, except_ok_bind,
            cons, List.filter_cons_of_pos (by simpa using pr), unmapAll, free, except_ok_bind,
            store_p2v _ low, except_ok_bind]
          have notin : a ∉ pages (a + pgSize) oldsz := fun h => by
            obtain ⟨j, hj, -⟩ := mem_pages hold h
            omega
          exact ih (a + pgSize) _ (by omega) (by omega) (List.Subset.trans tail sub) kend
            (wf.agrees_unmap aligned haR pr (List.Subset.trans tail sub) notin (ag.mono tail) s.freelist)
        · -- an absent entry: nothing to free
          rw [if_neg pte, cons, List.filter_cons_of_neg
            (by rw [decide_eq_true_iff]; exact fun h => pte h.2)]
          exact ih (a + pgSize) s (by omega) (by omega) (List.Subset.trans tail sub) kend (ag.mono tail)
      · -- no page table: the jump to the next directory entry skips only pages of this one
        rw [if_neg pde, if_pos rfl]
        have kb : kernBase.toNat = 2 ^ 31 := rfl
        obtain ⟨boundary, past, below, same⟩ :=
          skip_boundary (UInt32.lt_iff_toNat_lt.mpr (by omega) : a < kernBase)
        generalize pgAddr (pdx a + 1) 0 0 - pgSize + pgSize = b at boundary past below same ⊢
        have past' := UInt32.lt_iff_toNat_lt.mp past
        have below' := UInt32.le_iff_toNat_le.mp below
        have hb : a + UInt32.ofNat (4096 * ((b.toNat - a.toNat) / 4096)) = b := by
          apply UInt32.toNat_inj.mp
          rw [toNat_add_ofNat (by omega)]
          omega
        have absent : ∀ j < (b.toNat - a.toNat) / 4096, ¬ Present s0.mem pgdir (a + UInt32.ofNat (4096 * j)) := by
          intro j hj pr
          have c_lt : (a + UInt32.ofNat (4096 * j)).toNat = a.toNat + 4096 * j := toNat_add_ofNat (by omega)
          have dir : pdx (a + UInt32.ofNat (4096 * j)) = pdx a :=
            same _ (UInt32.le_iff_toNat_le.mpr (by omega)) (UInt32.lt_iff_toNat_lt.mpr (by omega))
          have entry : pdeAt s0.mem pgdir (a + UInt32.ofNat (4096 * j)) = pdeAt s0.mem pgdir a := by
            rw [pdeAt, pdeAt, pdeWord, pdeWord, dir]
          exact pde (entry ▸ pr.1)
        have drop := pages_drop hold ((b.toNat - a.toNat) / 4096) a (by omega)
        rw [hb] at drop
        rw [filter_pages_skip hold _ _ a (by omega) absent, hb]
        have skipped : pages b oldsz ⊆ pages a oldsz := by
          rw [drop]
          exact List.drop_subset _ _
        exact ih b s (by omega) (by omega) (List.Subset.trans skipped sub) kend (ag.mono skipped)
    · rw [Vm.deallocuvmLoop, if_neg inside, pages_of_le (UInt32.not_lt.mp inside)]
      rfl

end Loop

/-! ## `unmapAll` -/

theorem mem_filter_present {mem : PhysMem} {pgdir a : UInt32} {ps : List UInt32} :
    a ∈ ps.filter (fun c => decide (Present mem pgdir c)) ↔ a ∈ ps ∧ Present mem pgdir a := by
  simp

section UnmapAll

variable {s0 : Vm} {pgdir : UInt32} {R : List UInt32}

/-- Over present pages of a well-formed range, `unmapAll` does not fault. -/
theorem Wf.unmapAll_ok (wf : Wf s0 pgdir R) {ps : List UInt32}
    (sub : ∀ a ∈ ps, a ∈ R ∧ Present s0.mem pgdir a) :
    ∀ s : Vm, s.kend = s0.kend → ∃ s', unmapAll s0.mem pgdir ps s = .ok s' := by
  induction ps with
  | nil => exact fun s _ => ⟨s, rfl⟩
  | cons a ps ih =>
    intro s kend
    obtain ⟨ha, pa⟩ := sub a List.mem_cons_self
    rw [unmapAll, Vm.kfree_p2v s (frameAt_aligned _ _ _) (wf.frame_below a ha pa)
      (kend ▸ wf.frame_past_kernel a ha pa), except_ok_bind, store_p2v _ (wf.pteWord_lt ha pa.1),
      except_ok_bind]
    exact ih (fun b hb => sub b (List.mem_cons_of_mem _ hb)) _ kend

/-- After `unmapAll` over present pages of a well-formed range, every directory entry reads
as before, and the table entry of a page of the range reads `0` if the page was in the list
and as before if not. -/
theorem Wf.unmapAll_entries (wf : Wf s0 pgdir R) (aligned : ∀ c ∈ R, c.toNat % 4096 = 0)
    {ps : List UInt32} (sub : ∀ a ∈ ps, a ∈ R ∧ Present s0.mem pgdir a) :
    ∀ s s' : Vm, unmapAll s0.mem pgdir ps s = .ok s' → s.kend = s0.kend →
      (∀ c, pdeAt s'.mem pgdir c = pdeAt s.mem pgdir c) ∧
      ∀ c ∈ R, pdeAt s0.mem pgdir c &&& pteP ≠ 0 → readWord s'.mem (pteWord s0.mem pgdir c) =
        if c ∈ ps then 0 else readWord s.mem (pteWord s0.mem pgdir c) := by
  induction ps with
  | nil =>
    intro s s' h _
    cases h
    exact ⟨fun _ => rfl, fun _ _ _ => rfl⟩
  | cons a ps ih =>
    intro s s' h kend
    obtain ⟨ha, pa⟩ := sub a List.mem_cons_self
    rw [unmapAll, Vm.kfree_p2v s (frameAt_aligned _ _ _) (wf.frame_below a ha pa)
      (kend ▸ wf.frame_past_kernel a ha pa), except_ok_bind, store_p2v _ (wf.pteWord_lt ha pa.1),
      except_ok_bind] at h
    dsimp only at h
    obtain ⟨dir, table⟩ := ih (fun b hb => sub b (List.mem_cons_of_mem _ hb)) _ s' h kend
    refine ⟨fun c => (dir c).trans (wf.pdeWord_unmapped ha pa c s.mem s.freelist), fun c hc pde => ?_⟩
    rw [table c hc pde]
    -- `c` freed later, freed now, or never
    by_cases later : c ∈ ps
    · rw [if_pos later, if_pos (List.mem_cons_of_mem _ later)]
    · by_cases now : c = a
      · subst now
        rw [if_neg later, if_pos List.mem_cons_self]
        exact wf.pteWord_cleared ha pa s.mem s.freelist
      · rw [if_neg later, if_neg (by simp [now, later])]
        exact wf.pteWord_unmapped aligned ha pa hc (Ne.symm now) pde s.mem s.freelist

end UnmapAll

/-! ## `deallocuvm` -/

/-- Below `KERNBASE`, `PGROUNDUP` does not wrap. -/
theorem pgRoundUp_toNat {sz : UInt32} (h : sz < kernBase) :
    (pgRoundUp sz).toNat = (sz.toNat + 4095) / 4096 * 4096 := by
  have lt : sz.toNat < 2 ^ 31 := UInt32.lt_iff_toNat_lt.mp h
  have sum : (sz + pgSize - 1).toNat = sz.toNat + 4095 := by
    rw [show sz + pgSize - 1 = sz + UInt32.ofNat 4095 by
      simp only [pgSize]
      grind]
    exact toNat_add_ofNat (by omega)
  rw [pgRoundUp, show pgSize - 1 = 4095 from rfl, Align.uint32_and_not_toNat, sum]

/-- The pages of a range below `KERNBASE` are pairwise different. -/
theorem pages_nodup {lo hi : UInt32} (hhi : hi ≤ kernBase) : (pages lo hi).Nodup := by
  have le : hi.toNat ≤ 2 ^ 31 := UInt32.le_iff_toNat_le.mp hhi
  apply List.Nodup.map_on _ List.nodup_range
  intro x hx y hy heq
  have hx := List.mem_range.mp hx
  have hy := List.mem_range.mp hy
  have := congrArg UInt32.toNat heq
  rw [toNat_add_ofNat (by omega), toNat_add_ofNat (by omega)] at this
  omega

/-- On a well-formed directory, `deallocuvm` runs `unmapAll` over the present pages of
`[PGROUNDUP(newsz), oldsz)`, which does not fault, and returns `newsz`. -/
theorem deallocuvm_eq_unmapAll {s : Vm} {pgdir oldsz newsz : UInt32} (hlt : newsz < oldsz)
    (hold : oldsz ≤ kernBase) (wf : Wf s pgdir (pages (pgRoundUp newsz) oldsz)) :
    ∃ s', unmapAll s.mem pgdir ((pages (pgRoundUp newsz) oldsz).filter fun c => decide (Present s.mem pgdir c)) s =
      .ok s' ∧ s.deallocuvm pgdir oldsz newsz = .ok (newsz, s') := by
  have hnew : newsz < kernBase := UInt32.lt_iff_toNat_lt.mpr (by
    have := UInt32.lt_iff_toNat_lt.mp hlt
    have := UInt32.le_iff_toNat_le.mp hold
    omega)
  have up := pgRoundUp_toNat hnew
  have top : oldsz.toNat ≤ 2 ^ 31 := UInt32.le_iff_toNat_le.mp hold
  have aligned : (pgRoundUp newsz).toNat % 4096 = 0 := by
    rw [up]
    omega
  obtain ⟨s', ok⟩ := wf.unmapAll_ok (fun _ => mem_filter_present.mp) s rfl
  have loop := deallocuvmLoop_eq_unmapAll wf aligned hold pageCount (pgRoundUp newsz) s aligned
    (by rw [pageCount]; omega) (List.Subset.refl _) rfl (Agrees.refl _ _ _)
  refine ⟨s', ok, ?_⟩
  rw [Vm.deallocuvm, if_neg (by rw [ge_iff_le, UInt32.not_le]; exact hlt), loop, ok]
  rfl

/-- `deallocuvm(pgdir, oldsz, newsz)` for `newsz < oldsz ≤ KERNBASE` on a well-formed
directory: its jump lands on the next 4 MB boundary below `KERNBASE` past only pages of the
absent table; it `kfree`s the frame of each present page of `[PGROUNDUP(newsz), oldsz)`,
once and in order, clears exactly their table entries, keeps every directory entry, and
returns `newsz`. -/
theorem deallocuvm_frees_present :
    (∀ a : UInt32, a < kernBase →
      (pgAddr (pdx a + 1) 0 0 - pgSize + pgSize).toNat = (a.toNat / 2 ^ 22 + 1) * 2 ^ 22 ∧
      a < pgAddr (pdx a + 1) 0 0 - pgSize + pgSize ∧ pgAddr (pdx a + 1) 0 0 - pgSize + pgSize ≤ kernBase ∧
      ∀ c, a ≤ c → c < pgAddr (pdx a + 1) 0 0 - pgSize + pgSize → pdx c = pdx a) ∧
    ∀ (s : Vm) (pgdir oldsz newsz : UInt32), newsz < oldsz → oldsz ≤ kernBase →
      Wf s pgdir (pages (pgRoundUp newsz) oldsz) →
      ((pages (pgRoundUp newsz) oldsz).filter fun c => decide (Present s.mem pgdir c)).Nodup ∧
      ∃ s', unmapAll s.mem pgdir ((pages (pgRoundUp newsz) oldsz).filter fun c => decide (Present s.mem pgdir c)) s =
          .ok s' ∧ s.deallocuvm pgdir oldsz newsz = .ok (newsz, s') ∧
        (∀ c, pdeAt s'.mem pgdir c = pdeAt s.mem pgdir c) ∧
        ∀ c ∈ pages (pgRoundUp newsz) oldsz, pdeAt s.mem pgdir c &&& pteP ≠ 0 →
          pteAt s'.mem pgdir c = if Present s.mem pgdir c then 0 else pteAt s.mem pgdir c := by
  refine ⟨fun a ha => skip_boundary ha, fun s pgdir oldsz newsz hlt hold wf => ?_⟩
  have hnew : newsz < kernBase := UInt32.lt_iff_toNat_lt.mpr (by
    have := UInt32.lt_iff_toNat_lt.mp hlt
    have := UInt32.le_iff_toNat_le.mp hold
    omega)
  have up := pgRoundUp_toNat hnew
  have aligned : ∀ c ∈ pages (pgRoundUp newsz) oldsz, c.toNat % 4096 = 0 :=
    fun c hc => aligned_of_mem_pages hold (by rw [up]; omega) hc
  obtain ⟨s', ok, dealloc⟩ := deallocuvm_eq_unmapAll hlt hold wf
  obtain ⟨dir, table⟩ := wf.unmapAll_entries aligned (fun _ => mem_filter_present.mp) s s' ok rfl
  refine ⟨(pages_nodup hold).filter _, s', ok, dealloc, dir, fun c hc pde => ?_⟩
  -- the entry is read where it was, since the directory entry is kept
  have word : pteWord s'.mem pgdir c = pteWord s.mem pgdir c := by rw [pteWord, pteWord, dir c]
  rw [pteAt, word, table c hc pde]
  by_cases pr : Present s.mem pgdir c
  · rw [if_pos (mem_filter_present.mpr ⟨hc, pr⟩), if_pos pr]
  · rw [if_neg (fun h => pr (mem_filter_present.mp h).2), if_neg pr]
    rfl

/-- A directory whose slot `1` has a table mapping user address `0x400000`, its slot `0` none,
and no free page. -/
def slotOneMapped : Vm where
  mem := writeWord (writeWord (fun _ => 0) 0x200004 (0x201000 ||| 7)) 0x201000 (0x202000 ||| 7)
  freelist := 0
  kend := 0x80100000

/-- Its directory entries: the table in slot `1`, nothing elsewhere. -/
theorem slotOneMapped_pdeAt (c : UInt32) :
    pdeAt slotOneMapped.mem onePgdir c = if pdx c = 1 then 0x201000 ||| 7 else 0 := by
  have slot := pdx_toNat c
  have lt : (pdx c).toNat < 1024 := by omega
  -- the entry is a word of the directory's page, below the table's
  have word : (pdeWord onePgdir c).toNat = 0x200000 + 4 * (pdx c).toNat := by
    simp only [pdeWord, UInt32.toNat_add, UInt32.toNat_mul, show (v2p onePgdir).toNat = 0x200000 by decide,
      show (4 : UInt32).toNat = 4 from rfl]
    omega
  have table : readWord slotOneMapped.mem (pdeWord onePgdir c) =
      readWord (writeWord (fun _ => 0) 0x200004 (0x201000 ||| 7)) (pdeWord onePgdir c) :=
    readWord_writeWord_of_ne (by decide) (by omega) fun h => by
      have := congrArg UInt32.toNat h
      rw [word, show (0x201000 : UInt32).toNat = 0x201000 from rfl] at this
      omega
  rw [pdeAt, table]
  by_cases one : pdx c = 1
  · have at1 : pdeWord onePgdir c = 0x200004 := by rw [pdeWord, one]; decide
    rw [if_pos one, at1, readWord_writeWord_self _ (by decide)]
  · have ne : (0x200004 : UInt32) ≠ pdeWord onePgdir c := fun h => one (by
      have := congrArg UInt32.toNat h
      rw [word, show (0x200004 : UInt32).toNat = 0x200004 from rfl] at this
      exact UInt32.toNat_inj.mp (by rw [show (1 : UInt32).toNat = 1 from rfl]; omega))
    have zero : readWord (writeWord (fun _ => 0) 0x200004 (0x201000 ||| 7)) (pdeWord onePgdir c) = 0 :=
      (readWord_writeWord_of_ne (by decide) (by omega) ne).trans LittleEndian.word32_zero
    rw [if_neg one, zero]

/-- Of the pages below `0x401000`, only `0x400000` lies in slot `1`. -/
theorem eq_of_pdx_eq_one {c : UInt32} (hc : c ∈ pages (pgRoundUp 0) 0x401000) (one : pdx c = 1) :
    c = 0x400000 := by
  obtain ⟨k, hk, lt⟩ := mem_pages (by decide) hc
  have slot := pdx_toNat c
  rw [one] at slot
  rw [show (pgRoundUp 0).toNat = 0 by decide] at hk
  exact UInt32.toNat_inj.mp (by
    rw [show (0x401000 : UInt32).toNat = 0x401000 from rfl] at lt
    rw [show (0x400000 : UInt32).toNat = 0x400000 from rfl]
    rw [show (1 : UInt32).toNat = 1 from rfl] at slot
    omega)

theorem slotOneMapped_present {c : UInt32} (hc : c ∈ pages (pgRoundUp 0) 0x401000)
    (pc : pdeAt slotOneMapped.mem onePgdir c &&& pteP ≠ 0) : c = 0x400000 ∧ pdx c = 1 := by
  rw [slotOneMapped_pdeAt] at pc
  by_cases one : pdx c = 1
  · exact ⟨eq_of_pdx_eq_one hc one, one⟩
  · rw [if_neg one, UInt32.zero_and] at pc
    exact absurd rfl pc

/-- The pages of `slotOneMapped`'s shrink to `0` are well formed: one page table, for the one
present page. -/
theorem slotOneMapped_wf : Wf slotOneMapped onePgdir (pages (pgRoundUp 0) 0x401000) where
  dir_page := by decide
  dir_below := by decide
  table_below a ha pa := by
    rw [slotOneMapped_pdeAt, if_pos (slotOneMapped_present ha pa).2]
    decide
  table_ne_dir a ha pa := by
    rw [slotOneMapped_pdeAt, if_pos (slotOneMapped_present ha pa).2]
    decide
  table_inj a ha b hb pa pb _ := by rw [(slotOneMapped_present ha pa).2, (slotOneMapped_present hb pb).2]
  frame_ne_zero a ha pa := by rw [(slotOneMapped_present ha pa.1).1]; decide
  frame_below a ha pa := by rw [(slotOneMapped_present ha pa.1).1]; decide
  frame_past_kernel a ha pa := by rw [(slotOneMapped_present ha pa.1).1]; decide
  frame_ne_dir a ha pa := by rw [(slotOneMapped_present ha pa.1).1]; decide
  frame_ne_table a ha pa b hb pb := by
    rw [(slotOneMapped_present ha pa.1).1, slotOneMapped_pdeAt b, if_pos (slotOneMapped_present hb pb).2]
    decide

/-- Shrinking `slotOneMapped` from `0x401000` to `0`: page `0`'s slot has no table, so the loop
jumps from it to `0x400000`, the next 4 MB boundary, and frees the one present page there. -/
theorem deallocuvm_frees_present_skip :
    (pgAddr (pdx 0 + 1) 0 0 - pgSize + pgSize).toNat = 0x400000 ∧
      Wf slotOneMapped onePgdir (pages (pgRoundUp 0) 0x401000) ∧ Present slotOneMapped.mem onePgdir 0x400000 ∧
      ∃ s', slotOneMapped.deallocuvm onePgdir 0x401000 0 = .ok (0, s') ∧ ¬ Present s'.mem onePgdir 0x400000 := by
  have jump := deallocuvm_frees_present.1 0 (by decide)
  obtain ⟨-, s', -, dealloc, -, table⟩ :=
    deallocuvm_frees_present.2 slotOneMapped onePgdir 0x401000 0 (by decide) (by decide) slotOneMapped_wf
  have present : Present slotOneMapped.mem onePgdir 0x400000 := by decide
  have mem : (0x400000 : UInt32) ∈ pages (pgRoundUp 0) 0x401000 :=
    List.mem_map.mpr ⟨1024, List.mem_range.mpr (by decide), by decide⟩
  refine ⟨jump.1, slotOneMapped_wf, present, s', dealloc, fun pc => pc.2 ?_⟩
  rw [table _ mem present.1, if_pos present]
  exact UInt32.zero_and

/-! ## A present entry with frame `0` -/

/-- `onePage`, but the table entry of user address `0` is present and names frame `0`. -/
def zeroFrame : Vm where
  mem := writeWord (writeWord (fun _ => 0) 0x200000 (0x201000 ||| 7)) 0x201000 (0 ||| 7)
  freelist := 0
  kend := 0x80100000

/-- `deallocuvm` panics `kfree`. -/
def frameZeroCheck : Except Fault (UInt32 × Vm) → Bool
  | .error f => f == .panic "kfree"
  | .ok _ => false

/-- Shrinking `zeroFrame` to size `0`: the page at `0` is present, its frame `0`, and
`deallocuvm` panics `kfree` instead of returning `0`. -/
theorem deallocuvm_frame_zero :
    Present zeroFrame.mem onePgdir 0 ∧ frameAt zeroFrame.mem onePgdir 0 = 0 ∧
      zeroFrame.deallocuvm onePgdir 4096 0 = .error (.panic "kfree") := by
  refine ⟨by decide, by decide, ?_⟩
  have run : frameZeroCheck (zeroFrame.deallocuvm onePgdir 4096 0) = true := by
    decide +kernel
  generalize zeroFrame.deallocuvm onePgdir 4096 0 = r at run ⊢
  cases r with
  | error f => exact congrArg Except.error (beq_iff_eq.mp run)
  | ok _ => cases run

end Xv6
