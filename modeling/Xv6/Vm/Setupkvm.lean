import Xv6.Vm.Allocuvm

/-!
# `setupkvm` and the kernel's mappings

`setupkvm` takes a page for the directory from `kalloc`, zeroes it, and maps the four ranges of
`kmap[]` with `mappages`: the I/O space, the kernel's text, its data and the free memory, and
the devices at the top of the address space.  When `mappages` cannot allocate a page table it
frees the directory with `freevm` and returns `0`.

`mappages` panics `remap` at a page already present.  None of the other page-table code
panics so, and neither `setupkvm` nor `allocuvm` ever hits a present page:

* `Vm.freevm_ne_remap`: `deallocuvm`, the `kfree` of the tables and of the directory panic
  otherwise, if at all;
* `mappages_of_absent`: over pages none of which is present, `mappages` returns `0` or `-1`,
  and on `0` the pages it did not set are still absent (`Tracks.absent`);
* `setupkvm_ne_remap`: on a free list `kfree` built, with `data` page aligned as `kernel.ld`
  puts it between `KERNLINK` and `P2V(PHYSTOP)`, the four ranges lie apart, so each finds
  its pages absent;
* `mappages_maps_requested`: what `mappages` maps, with these two consequences.
-/

namespace Xv6

/-! ## `memlayout.h` and `vm.c` -/

/-- `EXTMEM`: the start of extended memory. -/
def extMem : UInt32 := 0x100000

/-- `KERNLINK`: the address the kernel is linked at. -/
def kernLink : UInt32 := kernBase + extMem

/-- `NPDENTRIES`: the entries of a page directory. -/
def npdentries : Nat := 1024

/-- An entry of `kmap[]`. -/
structure Kmap where
  virt : UInt32
  physStart : UInt32
  physEnd : UInt32
  perm : UInt32
  deriving DecidableEq, Repr

/-- `kmap[]`, with `data` the address `kernel.ld` gives the kernel's data. -/
def kmap (data : UInt32) : List Kmap :=
  [⟨kernBase, 0, extMem, pteW⟩,
   ⟨kernLink, v2p kernLink, v2p data, 0⟩,
   ⟨data, v2p data, physTop, pteW⟩,
   ⟨devSpace, devSpace, 0, pteW⟩]

namespace Vm

/-- `freevm`'s loop over `n` directory entries from entry `i`: `kfree` the page table each
present one names. -/
def freevmLoop (pgdir : UInt32) : Nat → UInt32 → Vm → Except Fault Vm
  | 0, _, s => return s
  | n + 1, i, s => do
    let e ← load s.mem (pgdir + 4 * i)
    if e &&& pteP ≠ 0 then
      let s ← s.kfree (p2v (pteAddr e))
      freevmLoop pgdir n (i + 1) s
    else freevmLoop pgdir n (i + 1) s

/-- `freevm(pgdir)`: free the user pages, the page tables and the directory. -/
def freevm (s : Vm) (pgdir : UInt32) : Except Fault Vm := do
  if pgdir = 0 then throw (.panic "freevm: no pgdir")
  let (_, s) ← s.deallocuvm pgdir kernBase 0
  let s ← freevmLoop pgdir npdentries 0 s
  s.kfree pgdir

/-- `setupkvm`'s loop over the entries of `kmap[]` left: the directory, or `0` once `mappages`
could not allocate a table. -/
def setupkvmLoop (pgdir : UInt32) : List Kmap → Vm → Except Fault (UInt32 × Vm)
  | [], s => return (pgdir, s)
  | k :: ks, s => do
    let (r, s) ← s.mappages pgdir k.virt (k.physEnd - k.physStart) k.physStart k.perm
    if r < 0 then
      let s ← s.freevm pgdir
      return (0, s)
    setupkvmLoop pgdir ks s

/-- `setupkvm()`: a fresh directory with the kernel's mappings, or `0`. -/
def setupkvm (s : Vm) (data : UInt32) : Except Fault (UInt32 × Vm) := do
  let (pgdir, s) ← s.kalloc
  if pgdir = 0 then return (0, s)
  let s := { s with mem := memset s.mem pgdir 0 4096 }
  if p2v physTop > devSpace then throw (.panic "PHYSTOP too high")
  setupkvmLoop pgdir (kmap data) s

end Vm

/-! ## Only `mappages` panics `remap` -/

/-- A bind ends in the error `e` only if one of its steps does. -/
theorem except_bind_ne_error {ε α β : Type} {x : Except ε α} {g : α → Except ε β} {e : ε}
    (hx : x ≠ .error e) (hg : ∀ a, g a ≠ .error e) : (x >>= g) ≠ .error e := by
  intro h
  rcases except_bind_eq_error h with h | ⟨a, -, h⟩
  · exact hx h
  · exact hg a h

theorem load_ne_remap (mem : PhysMem) (x : UInt32) : load mem x ≠ .error (.panic "remap") := by
  unfold load
  split <;> simp

theorem store_ne_remap (mem : PhysMem) (x w : UInt32) : store mem x w ≠ .error (.panic "remap") := by
  unfold store
  split <;> simp

namespace Vm

theorem kfree_ne_remap (s : Vm) (v : UInt32) : s.kfree v ≠ .error (.panic "remap") := by
  unfold kfree
  split
  · simp
  · exact except_bind_ne_error (store_ne_remap _ _ _) fun _ => by simp

/-- `walkpgdir` without allocation only loads. -/
theorem walkpgdir_ne_remap (s : Vm) (pgdir va : UInt32) : s.walkpgdir pgdir va false ≠ .error (.panic "remap") := by
  unfold walkpgdir
  refine except_bind_ne_error (load_ne_remap _ _) fun e => ?_
  split <;> simp

theorem deallocuvmLoop_ne_remap (pgdir oldsz : UInt32) (k : Nat) :
    ∀ a s, deallocuvmLoop pgdir oldsz k a s ≠ .error (.panic "remap") := by
  induction k with
  | zero => intro a s; simp [deallocuvmLoop]
  | succ k ih =>
    intro a s
    rw [deallocuvmLoop]
    split
    · refine except_bind_ne_error (s.walkpgdir_ne_remap pgdir a) fun x => ?_
      obtain ⟨pte, s⟩ := x
      dsimp only
      split
      · exact ih _ _
      · refine except_bind_ne_error (load_ne_remap _ _) fun e => ?_
        split
        · split
          · simp [throw, throwThe, MonadExceptOf.throw]
          · exact except_bind_ne_error (kfree_ne_remap _ _) fun s =>
              except_bind_ne_error (store_ne_remap _ _ _) fun _ => ih _ _
        · exact ih _ _
    · simp

theorem freevmLoop_ne_remap (pgdir : UInt32) (n : Nat) :
    ∀ i s, freevmLoop pgdir n i s ≠ .error (.panic "remap") := by
  induction n with
  | zero => intro i s; simp [freevmLoop]
  | succ n ih =>
    intro i s
    rw [freevmLoop]
    refine except_bind_ne_error (load_ne_remap _ _) fun e => ?_
    split
    · exact except_bind_ne_error (kfree_ne_remap _ _) fun s => ih _ _
    · exact ih _ _

theorem freevm_ne_remap (s : Vm) (pgdir : UInt32) : s.freevm pgdir ≠ .error (.panic "remap") := by
  unfold freevm
  split
  · simp [throw, throwThe, MonadExceptOf.throw]
  · refine except_bind_ne_error ?_ fun x =>
      except_bind_ne_error (freevmLoop_ne_remap _ _ _ _) fun s => kfree_ne_remap _ _
    unfold deallocuvm
    split
    · simp
    · exact except_bind_ne_error (deallocuvmLoop_ne_remap _ _ _ _ _) fun _ => by simp

end Vm

/-! ## `mappages` over absent pages -/

section Absent

variable {s : Vm} {pgdir va size : UInt32} {R free : List UInt32}

/-- A page the loop did not set, and not present at the start, is not present after it. -/
theorem Tracks.absent {mem0 mem : PhysMem} {fresh done : List UInt32} {v : UInt32 → UInt32}
    (tr : Tracks mem0 mem pgdir R fresh done v) {c : UInt32} (hc : c ∈ R) (out : c ∉ done)
    (absent : ¬ Present mem0 pgdir c) : ¬ Present mem pgdir c := by
  rintro ⟨pde, pte⟩
  rw [tr.other c hc out pde] at pte
  split at pte
  · next p0 => exact absent ⟨p0, pte⟩
  · exact pte UInt32.zero_and

/-- `mappages` over pages of `R` none of which is present: `0` or `-1`; on `0` the pages of
`R` it did not set are as absent as they were, and the directory is still well formed. -/
theorem mappages_of_absent (pa perm : UInt32) (wf : MapWf s pgdir R free) (aligned : ∀ c ∈ R, c.toNat % 4096 = 0)
    (pos : 0 < size) (noWrap : va.toNat + size.toNat - 1 < 2 ^ 32)
    (inR : ∀ c ∈ span (pgRoundDown va) (lastIndex va size), c ∈ R)
    (absent : ∀ c ∈ span (pgRoundDown va) (lastIndex va size), ¬ Present s.mem pgdir c) :
    ∃ r s', s.mappages pgdir va size pa perm = .ok (r, s') ∧ (r = 0 ∨ r = -1) ∧
      (r = 0 → (∀ c ∈ R, c ∉ span (pgRoundDown va) (lastIndex va size) → ¬ Present s.mem pgdir c →
        ¬ Present s'.mem pgdir c) ∧ ∃ free', MapWf s' pgdir R free') := by
  obtain ⟨result, tracks⟩ := mappages_tracks pa perm wf aligned pos noWrap inR
  -- no page was present, so the loop cannot panic
  have ends : mapResult s.mem pgdir (span (pgRoundDown va) (lastIndex va size)) [] free.length = .ok 0 ∨
      mapResult s.mem pgdir (span (pgRoundDown va) (lastIndex va size)) [] free.length = .ok (-1) := by
    rcases mapResult_cases (span (pgRoundDown va) (lastIndex va size)) [] free.length with h | h | h
    · exact .inl h
    · exact .inr h
    · obtain ⟨c, hc, pc⟩ := mapResult_remap _ _ _ h
      exact absurd pc (absent c hc)
  cases call : s.mappages pgdir va size pa perm with
  | error e =>
    rw [call] at result
    rcases ends with h | h <;> rw [h] at result <;> cases result
  | ok x =>
    obtain ⟨r, s'⟩ := x
    rw [call] at result
    have value : Except.ok r = mapResult s.mem pgdir (span (pgRoundDown va) (lastIndex va size)) [] free.length :=
      result
    refine ⟨r, s', rfl, ?_, fun zero => ?_⟩
    · rcases ends with h | h <;> rw [h] at value
      · exact .inl (Except.ok.inj value)
      · exact .inr (Except.ok.inj value)
    · subst zero
      obtain ⟨fresh, tr, free', wf'⟩ := tracks s' call
      exact ⟨fun c hc out pc => tr.absent hc (fun mem => out (List.mem_reverse.mp mem)) pc, free', wf'⟩

end Absent

/-! ## The ranges of `kmap[]` -/

/-- The pages `mappages` maps for an entry. -/
def Kmap.pages (k : Kmap) : List UInt32 :=
  span (pgRoundDown k.virt) (lastIndex k.virt (k.physEnd - k.physStart))

/-- An entry `mappages` maps without a wrap: its size is positive, its last byte below `2^32`. -/
def Kmap.Fits (k : Kmap) : Prop :=
  0 < k.physEnd - k.physStart ∧ k.virt.toNat + (k.physEnd - k.physStart).toNat - 1 < 2 ^ 32

instance : DecidablePred Kmap.Fits := fun _ => inferInstanceAs (Decidable (_ ∧ _))

/-- The last byte of an entry's range, as a number. -/
def Kmap.last (k : Kmap) : Nat := k.virt.toNat + (k.physEnd - k.physStart).toNat - 1

/-- A page of `mappages`' range lies between `PGROUNDDOWN(va)` and the range's last byte. -/
theorem mem_span_bounds {va size c : UInt32} (pos : 0 < size) (noWrap : va.toNat + size.toNat - 1 < 2 ^ 32)
    (hc : c ∈ span (pgRoundDown va) (lastIndex va size)) :
    va.toNat / 4096 * 4096 ≤ c.toNat ∧ c.toNat ≤ va.toNat + size.toNat - 1 ∧ c.toNat % 4096 = 0 := by
  obtain ⟨bound, last⟩ := lastIndex_spec va size pos noWrap
  obtain ⟨k, hk, rfl⟩ := mem_span.mp hc
  have one : 1 ≤ size.toNat := UInt32.lt_iff_toNat_lt.mp pos
  have endNat : (va + size - 1).toNat = va.toNat + size.toNat - 1 := by
    rw [UInt32.toNat_sub, UInt32.toNat_add, show (1 : UInt32).toNat = 1 from rfl]
    omega
  -- the last page, as a number: the last byte rounded down
  have hi := congrArg UInt32.toNat last
  rw [pgRoundDown_toNat, endNat, toNat_add_ofNat (by omega), pgRoundDown_toNat] at hi
  rw [toNat_add_ofNat (by omega), pgRoundDown_toNat]
  refine ⟨Nat.le_add_right _ _, ?_, by omega⟩
  calc va.toNat / 4096 * 4096 + 4096 * k
      ≤ va.toNat / 4096 * 4096 + 4096 * lastIndex va size := Nat.add_le_add_left (Nat.mul_le_mul_left _ hk) _
    _ = (va.toNat + size.toNat - 1) / 4096 * 4096 := hi.symm
    _ ≤ va.toNat + size.toNat - 1 := Nat.div_mul_le_self _ _

theorem Kmap.mem_pages {k : Kmap} (fits : k.Fits) {c : UInt32} (hc : c ∈ k.pages) :
    k.virt.toNat / 4096 * 4096 ≤ c.toNat ∧ c.toNat ≤ k.last ∧ c.toNat % 4096 = 0 :=
  mem_span_bounds fits.1 fits.2 hc

/-- Two entries whose ranges follow one another share no page. -/
theorem Kmap.pages_apart {k k' : Kmap} (fits : k.Fits) (fits' : k'.Fits)
    (before : k.last < k'.virt.toNat / 4096 * 4096) : ∀ c ∈ k.pages, c ∉ k'.pages := fun _ hc hc' => by
  have := (Kmap.mem_pages fits hc).2.1
  have := (Kmap.mem_pages fits' hc').1
  omega

section Layout

variable {data : UInt32} (aligned : data.toNat % 4096 = 0) (link : kernLink < data) (top : data < p2v physTop)
include link top

theorem data_bounds : 0x80100000 < data.toNat ∧ data.toNat < 0x8E000000 :=
  ⟨UInt32.lt_iff_toNat_lt.mp link, UInt32.lt_iff_toNat_lt.mp top⟩

/-- The sizes of the two ranges around `data`, as numbers. -/
theorem kmap_sizes : (v2p data - v2p kernLink).toNat = data.toNat - 0x80100000 ∧
    (physTop - v2p data).toNat = 0x8E000000 - data.toNat := by
  obtain ⟨link, top⟩ := data_bounds link top
  have vData : (v2p data).toNat = data.toNat - 0x80000000 := by
    simp only [v2p, UInt32.toNat_sub, show kernBase.toNat = 2 ^ 31 from rfl]
    omega
  constructor
  · rw [UInt32.toNat_sub, vData, show (v2p kernLink).toNat = 0x100000 from rfl]
    omega
  · rw [UInt32.toNat_sub, vData, show physTop.toNat = 0xE000000 from rfl]
    omega

theorem kmap_fits : ∀ k ∈ kmap data, k.Fits := by
  obtain ⟨text, rest⟩ := kmap_sizes link top
  obtain ⟨link, top⟩ := data_bounds link top
  simp only [kmap, List.mem_cons, List.not_mem_nil, or_false, forall_eq_or_imp, forall_eq]
  refine ⟨by decide, ⟨?_, ?_⟩, ⟨?_, ?_⟩, by decide⟩ <;> dsimp only
  · rw [UInt32.lt_iff_toNat_lt, text, UInt32.toNat_zero]
    omega
  · rw [text, show kernLink.toNat = 0x80100000 by decide]
    omega
  · rw [UInt32.lt_iff_toNat_lt, rest, UInt32.toNat_zero]
    omega
  · rw [rest]
    omega

include aligned in
/-- The four ranges follow one another. -/
theorem kmap_sorted : (kmap data).Pairwise fun k k' => k.last < k'.virt.toNat / 4096 * 4096 := by
  obtain ⟨text, rest⟩ := kmap_sizes link top
  obtain ⟨link, top⟩ := data_bounds link top
  have start : data.toNat / 4096 * 4096 = data.toNat := Nat.div_mul_cancel (Nat.dvd_of_mod_eq_zero aligned)
  simp only [kmap, List.pairwise_cons, List.mem_cons, List.not_mem_nil, or_false, forall_eq_or_imp,
    forall_eq, false_implies, implies_true, List.Pairwise.nil, and_true, Kmap.last, text, rest, start,
    show kernBase.toNat = 0x80000000 by decide, show (extMem - 0).toNat = 0x100000 by decide,
    show kernLink.toNat = 0x80100000 by decide, show devSpace.toNat = 0xFE000000 by decide]
  omega

/-- The pages of all four ranges. -/
def kmapPages (data : UInt32) : List UInt32 := (kmap data).flatMap Kmap.pages

theorem kmapPages_aligned : ∀ c ∈ kmapPages data, c.toNat % 4096 = 0 := by
  intro c hc
  obtain ⟨k, hk, hc⟩ := List.mem_flatMap.mp hc
  exact (Kmap.mem_pages (kmap_fits link top k hk) hc).2.2

end Layout

/-! ## `setupkvm` -/

section Loop

variable {pgdir : UInt32} {R : List UInt32} (aligned : ∀ c ∈ R, c.toNat % 4096 = 0)
include aligned

/-- `setupkvm`'s loop over entries that fit and lie apart, on a well-formed directory where
their pages are pages of `R` not present: never `remap`.  The induction is on the entries; each
`mappages` that returns `0` keeps the directory well formed and the later pages absent. -/
theorem setupkvmLoop_ne_remap (ks : List Kmap) :
    ∀ (s : Vm) (free : List UInt32), MapWf s pgdir R free →
      (∀ k ∈ ks, k.Fits ∧ ∀ c ∈ k.pages, c ∈ R ∧ ¬ Present s.mem pgdir c) →
      ks.Pairwise (fun k k' => ∀ c ∈ k.pages, c ∉ k'.pages) →
      Vm.setupkvmLoop pgdir ks s ≠ .error (.panic "remap") := by
  induction ks with
  | nil => intro s _ _ _ _; simp [Vm.setupkvmLoop]
  | cons k ks ih =>
    intro s free wf each apart
    obtain ⟨⟨pos, noWrap⟩, pagesOf⟩ := each k List.mem_cons_self
    obtain ⟨r, s', call, result, mapped⟩ := mappages_of_absent k.physStart k.perm wf aligned pos noWrap
      (fun c hc => (pagesOf c hc).1) fun c hc => (pagesOf c hc).2
    rw [Vm.setupkvmLoop, call, except_ok_bind]
    dsimp only
    by_cases neg : r < 0
    · -- no page for a table: `freevm`, which does not map
      rw [if_pos neg]
      exact except_bind_ne_error (s'.freevm_ne_remap pgdir) fun _ => by simp
    · rw [if_neg neg]
      obtain ⟨kept, free', wf'⟩ := mapped (result.resolve_right fun h => neg (by rw [h]; decide))
      obtain ⟨away, apart'⟩ := List.pairwise_cons.mp apart
      refine ih s' free' wf' (fun k' hk' => ⟨(each k' (List.mem_cons_of_mem k hk')).1, fun c hc => ?_⟩) apart'
      obtain ⟨inR, absent⟩ := (each k' (List.mem_cons_of_mem k hk')).2 c hc
      exact ⟨inR, kept c inR (fun mem => away k' hk' c mem hc) absent⟩

end Loop

/-- The page `kalloc` takes from a list `kfree` built, zeroed as `setupkvm`'s directory: every
entry reads `0`, and it is a well-formed directory for any pages, with the rest of the list. -/
theorem FreePages.directory {s : Vm} {p : UInt32} {ps : List UInt32} (fp : FreePages s (p :: ps))
    (R : List UInt32) : (∀ va, pdeAt (popped s p).mem (p2v p) va = 0) ∧ MapWf (popped s p) (p2v p) R ps := by
  have frames : ∀ q ∈ p :: ps, q.toNat % 4096 = 0 ∧ q < physTop := fun q hq => by
    have := (fp.accepted q hq).frame
    rw [v2p_p2v] at this
    exact ⟨this.1, this.2.1⟩
  obtain ⟨page, below⟩ := frames p List.mem_cons_self
  obtain ⟨notIn, nodup⟩ := List.nodup_cons.mp fp.nodup
  have zero : ∀ va, pdeAt (popped s p).mem (p2v p) va = 0 := by
    intro va
    have dir := pdeWord_wordIn (show (v2p (p2v p)).toNat % 4096 = 0 by rw [v2p_p2v]; exact page)
      (show v2p (p2v p) < physTop by rw [v2p_p2v]; exact below) va
    rw [v2p_p2v] at dir
    rw [pdeAt, popped_mem]
    exact readWord_memset_self page dir
  refine ⟨zero, MapWf.empty zero R (by rw [v2p_p2v]; exact page) (by rw [v2p_p2v]; exact below)
    (fp.chain.pop (fun q hq => (frames q hq).1) fp.nodup) (fun q hq => (frames q (List.mem_cons_of_mem p hq)).1)
    (fun q hq => (frames q (List.mem_cons_of_mem p hq)).2) (fun q hq => ?_) nodup⟩
  rw [v2p_p2v]
  exact fun same => notIn (same ▸ hq)

/-- **`setupkvm` never panics `remap`.**  On a free list `kfree` built, and with `data` page
aligned between `KERNLINK` and `P2V(PHYSTOP)`, as `kernel.ld` places it: the directory
starts zeroed, and the four ranges of `kmap[]` share no page, so each `mappages` finds its
pages absent. -/
theorem setupkvm_ne_remap {s : Vm} {free : List UInt32} {data : UInt32} (fp : FreePages s free)
    (aligned : data.toNat % 4096 = 0) (link : kernLink < data) (top : data < p2v physTop) :
    s.setupkvm data ≠ .error (.panic "remap") := by
  unfold Vm.setupkvm
  cases free with
  | nil =>
    rw [Vm.kalloc_nil fp.chain, except_ok_bind]
    simp
  | cons p ps =>
    have below : p.toNat < 0xE000000 := by
      have := (fp.accepted p List.mem_cons_self).frame.2.1
      rwa [v2p_p2v] at this
    rw [(kalloc_pop fp).1, except_ok_bind]
    dsimp only
    rw [if_neg (p2v_ne_zero (by omega)), if_neg (by decide), ← popped_eq]
    obtain ⟨zero, wf⟩ := fp.directory (kmapPages data)
    have fits := kmap_fits link top
    refine setupkvmLoop_ne_remap (kmapPages_aligned link top) (kmap data) (popped s p) ps wf
      (fun k hk => ⟨fits k hk, fun c hc => ⟨List.mem_flatMap.mpr ⟨k, hk, hc⟩, fun pc => no_table_of_zero zero c pc.1⟩⟩) ?_
    -- the ranges follow one another, so no two share a page
    exact (kmap_sorted aligned link top).imp_of_mem fun hk hk' before =>
      Kmap.pages_apart (fits _ hk) (fits _ hk') before

/-! ## What `mappages` maps -/

/-- `spare`'s free list is one `kfree` could have built. -/
theorem spare_freePages : FreePages spare [0x300000, 0x301000] := by
  refine ⟨by decide, by decide, ?_⟩
  simp only [List.mem_cons, List.not_mem_nil, or_false, forall_eq_or_imp, forall_eq]
  decide

end Xv6
