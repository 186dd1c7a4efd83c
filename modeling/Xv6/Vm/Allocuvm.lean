import Xv6.Vm.Kalloc

/-!
# `allocuvm` on pages that are not mapped

`allocuvm(pgdir, oldsz, newsz)` takes a page from `kalloc` for each page from `PGROUNDUP(oldsz)`
below `newsz`, zeroes it and maps it with `mappages`.  When `kalloc` finds the list empty, or
`mappages` cannot allocate a page table, it frees what it mapped with `deallocuvm`, and the page
it holds with `kfree`, and returns `0`.

On a well-formed directory and free list (`MapWf`) whose pages of the range are not present,
every free page past the kernel's image and none of them page `0`, each of those steps goes
through:

* `Grows`: what the loop keeps from page `a` on: the directory and free list well formed, the
  pages mapped so far freeable by `deallocuvm` (`Wf`) with frames off the free list, and the
  pages from `a` on still not present;
* `Grows.pop`, `Grows.pop_fresh`: `kalloc` and the `memset` of its page keep it, with the rest
  of the list, and the page is none of the directory, the tables and the frames;
* `Grows.map_page`: `mappages` of page `a` to that frame returns `-1` only on an empty list and
  a slot without a table, and otherwise `0`, keeping `Grows` with `a` done;
* `allocuvm_ok`: `allocuvm` returns `newsz`, `0` or `oldsz`, and so never panics.
-/

namespace Xv6

/-! ## The pages of a range -/

/-- An aligned address from an aligned start up to the end of a range below `KERNBASE` is one of
its pages. -/
theorem mem_pages_of_aligned {lo hi a : UInt32} (hhi : hi ≤ kernBase) (hlo : lo.toNat % 4096 = 0)
    (ha : a.toNat % 4096 = 0) (le : lo ≤ a) (lt : a < hi) : a ∈ pages lo hi := by
  have le := UInt32.le_iff_toNat_le.mp le
  have lt := UInt32.lt_iff_toNat_lt.mp lt
  have top : hi.toNat ≤ 2 ^ 31 := UInt32.le_iff_toNat_le.mp hhi
  refine List.mem_map.mpr ⟨(a.toNat - lo.toNat) / 4096, List.mem_range.mpr (by omega), ?_⟩
  apply UInt32.toNat_inj.mp
  rw [toNat_add_ofNat (by omega)]
  omega

/-- A range is part of every longer one from the same start. -/
theorem pages_subset {lo hi hi' : UInt32} (le : hi ≤ hi') : pages lo hi ⊆ pages lo hi' := by
  have le := UInt32.le_iff_toNat_le.mp le
  intro c hc
  obtain ⟨k, hk, rfl⟩ := List.mem_map.mp hc
  exact List.mem_map.mpr ⟨k, List.mem_range.mpr (by have := List.mem_range.mp hk; omega), rfl⟩

/-- The entry `allocuvm`'s `mappages` writes names the page it maps. -/
theorem pteAddr_or_perm {p : UInt32} (hp : p.toNat % 4096 = 0) :
    pteAddr (p ||| (pteW ||| pteU) ||| pteP) = p := by
  have same : p ||| (pteW ||| pteU) ||| pteP = p ||| pteP ||| pteW ||| pteU := by ac_rfl
  rw [same, pteAddr_or_flags hp]

/-- `mappages` of one aligned page is its loop body, run once. -/
theorem Vm.mappages_page (s : Vm) {pgdir a : UInt32} (pa perm : UInt32) (ha : a.toNat % 4096 = 0)
    (room : a.toNat + 4096 < 2 ^ 32) : s.mappages pgdir a pgSize pa perm = Vm.mapList pgdir perm [a] pa s := by
  have down : pgRoundDown a = a := UInt32.toNat_inj.mp (by rw [pgRoundDown_toNat]; omega)
  have last : pgRoundDown (a + pgSize - 1) = a := by
    apply UInt32.toNat_inj.mp
    rw [pgRoundDown_toNat, show a + pgSize - 1 = a + UInt32.ofNat 4095 by
      simp only [pgSize]
      grind, toNat_add_ofNat (by omega)]
    omega
  rw [mappages_eq_mapList s pgdir a pgSize pa perm (by decide) (by rw [show pgSize.toNat = 4096 from rfl]; omega), down, last,
    UInt32.sub_self, UInt32.zero_div]
  rfl

/-! ## Memory that keeps the entries -/

section Agree

variable {pgdir c : UInt32} {R : List UInt32} {mem0 mem : PhysMem}

theorem Agrees.present_iff (ag : Agrees pgdir mem0 mem R) (hc : c ∈ R) :
    Present mem pgdir c ↔ Present mem0 pgdir c := by
  unfold Present
  rw [(ag c hc).1]
  constructor
  · rintro ⟨pde, pte⟩
    exact ⟨pde, by rwa [(ag.pteAt hc pde).2] at pte⟩
  · rintro ⟨pde, pte⟩
    exact ⟨pde, by rwa [(ag.pteAt hc pde).2]⟩

theorem Agrees.frameAt (ag : Agrees pgdir mem0 mem R) (hc : c ∈ R) (pde : pdeAt mem0 pgdir c &&& pteP ≠ 0) :
    frameAt mem pgdir c = frameAt mem0 pgdir c := by
  rw [Xv6.frameAt, Xv6.frameAt, (ag.pteAt hc pde).2]

variable {s s' : Vm} {free free' : List UInt32}

/-- A machine whose memory agrees with a well-formed one on the entries of `R`, with the same
`end`, is well formed for `deallocuvm`. -/
theorem Wf.agrees (wf : Wf s pgdir R) (ag : Agrees pgdir s.mem s'.mem R) (kend : s'.kend = s.kend) :
    Wf s' pgdir R where
  dir_page := wf.dir_page
  dir_below := wf.dir_below
  table_below a ha pde := by
    rw [(ag a ha).1] at pde ⊢
    exact wf.table_below a ha pde
  table_ne_dir a ha pde := by
    rw [(ag a ha).1] at pde ⊢
    exact wf.table_ne_dir a ha pde
  table_inj a ha b hb pa pb same := by
    rw [(ag a ha).1] at pa same
    rw [(ag b hb).1] at pb same
    exact wf.table_inj a ha b hb pa pb same
  frame_ne_zero a ha pa := by
    have pa := (ag.present_iff ha).mp pa
    rw [ag.frameAt ha pa.1]
    exact wf.frame_ne_zero a ha pa
  frame_below a ha pa := by
    have pa := (ag.present_iff ha).mp pa
    rw [ag.frameAt ha pa.1]
    exact wf.frame_below a ha pa
  frame_past_kernel a ha pa := by
    have pa := (ag.present_iff ha).mp pa
    rw [ag.frameAt ha pa.1, kend]
    exact wf.frame_past_kernel a ha pa
  frame_ne_dir a ha pa := by
    have pa := (ag.present_iff ha).mp pa
    rw [ag.frameAt ha pa.1]
    exact wf.frame_ne_dir a ha pa
  frame_ne_table a ha pa b hb pb := by
    have pa := (ag.present_iff ha).mp pa
    rw [(ag b hb).1] at pb ⊢
    rw [ag.frameAt ha pa.1]
    exact wf.frame_ne_table a ha pa b hb pb

/-- A directory well formed for `deallocuvm` on some pages is so on fewer. -/
theorem Wf.mono {ps : List UInt32} (wf : Wf s pgdir R) (sub : ps ⊆ R) : Wf s pgdir ps where
  dir_page := wf.dir_page
  dir_below := wf.dir_below
  table_below a ha := wf.table_below a (sub ha)
  table_ne_dir a ha := wf.table_ne_dir a (sub ha)
  table_inj a ha b hb := wf.table_inj a (sub ha) b (sub hb)
  frame_ne_zero a ha := wf.frame_ne_zero a (sub ha)
  frame_below a ha := wf.frame_below a (sub ha)
  frame_past_kernel a ha := wf.frame_past_kernel a (sub ha)
  frame_ne_dir a ha := wf.frame_ne_dir a (sub ha)
  frame_ne_table a ha pa b hb := wf.frame_ne_table a (sub ha) pa b (sub hb)

/-- And for `mappages`, with a free list that runs through part of the old one. -/
theorem MapWf.agrees (mw : MapWf s pgdir R free) (ag : Agrees pgdir s.mem s'.mem R)
    (chain : FreeList s'.mem s'.freelist free') (sub : free' ⊆ free) (nodup : free'.Nodup) :
    MapWf s' pgdir R free' where
  dir_page := mw.dir_page
  dir_below := mw.dir_below
  table_below a ha pde := by
    rw [(ag a ha).1] at pde ⊢
    exact mw.table_below a ha pde
  table_ne_dir a ha pde := by
    rw [(ag a ha).1] at pde ⊢
    exact mw.table_ne_dir a ha pde
  table_inj a ha b hb pa pb same := by
    rw [(ag a ha).1] at pa same
    rw [(ag b hb).1] at pb same
    exact mw.table_inj a ha b hb pa pb same
  chain := chain
  free_page p hp := mw.free_page p (sub hp)
  free_below p hp := mw.free_below p (sub hp)
  free_ne_dir p hp := mw.free_ne_dir p (sub hp)
  free_ne_table p hp a ha pde := by
    rw [(ag a ha).1] at pde ⊢
    exact mw.free_ne_table p (sub hp) a ha pde
  free_nodup := nodup

end Agree

/-! ## What the loop keeps -/

/-- The machine after `kalloc` pops the free page `p` and `allocuvm` zeroes it. -/
def popped (s : Vm) (p : UInt32) : Vm :=
  { s with mem := memset s.mem (p2v p) 0 4096, freelist := readWord s.mem p }

-- Stated as rewrites: checking `(popped s p).kend` against `s.kend` by unfolding would compare
-- the zeroed memory with the old one byte by byte.
theorem popped_eq (s : Vm) (p : UInt32) :
    popped s p = { mem := memset s.mem (p2v p) 0 4096, freelist := readWord s.mem p, kend := s.kend } := by
  unfold popped
  rfl

theorem popped_mem (s : Vm) (p : UInt32) : (popped s p).mem = memset s.mem (p2v p) 0 4096 := by
  unfold popped
  rfl

theorem popped_freelist (s : Vm) (p : UInt32) : (popped s p).freelist = readWord s.mem p := by
  unfold popped
  rfl

theorem popped_kend (s : Vm) (p : UInt32) : (popped s p).kend = s.kend := by
  unfold popped
  rfl

/-- Zeroing the first page of a free list of distinct pages keeps the links of the others. -/
theorem FreeList.pop {s : Vm} {p : UInt32} {ps : List UInt32} (chain : FreeList s.mem s.freelist (p :: ps))
    (page : ∀ q ∈ p :: ps, q.toNat % 4096 = 0) (nodup : (p :: ps).Nodup) :
    FreeList (popped s p).mem (popped s p).freelist ps := by
  obtain ⟨notIn, -⟩ := List.nodup_cons.mp nodup
  rw [popped_mem, popped_freelist]
  refine chain.2.congr fun q hq => ?_
  have hq' := List.mem_cons_of_mem p hq
  exact readWord_memset_of_wordIn (page p List.mem_cons_self) (page q hq') (wordIn_self (page q hq'))
    fun same => notIn (same ▸ hq)

/-- `allocuvm`'s loop at page `a` of the range `R`: the directory and the free list well formed;
the pages mapped so far freeable, with frames off the free list; every free page past the kernel's
image and not page `0`; the pages from `a` on not present. -/
structure Grows (s : Vm) (pgdir : UInt32) (R free : List UInt32) (a : UInt32) : Prop where
  map : MapWf s pgdir R free
  wf : Wf s pgdir R
  past : ∀ p ∈ free, s.kend ≤ p2v p ∧ p ≠ 0
  off : ∀ c ∈ R, Present s.mem pgdir c → frameAt s.mem pgdir c ∉ free
  ahead : ∀ c ∈ R, a ≤ c → ¬ Present s.mem pgdir c

/-- A page just taken from the free list: aligned, below `PHYSTOP`, past the kernel's image, not
`0`, off the list, and none of the directory, the tables and the frames of `R`. -/
structure Fresh (s : Vm) (pgdir : UInt32) (R free : List UInt32) (p : UInt32) : Prop where
  page : p.toNat % 4096 = 0
  below : p < physTop
  past : s.kend ≤ p2v p
  ne_zero : p ≠ 0
  off : p ∉ free
  ne_dir : p ≠ v2p pgdir
  ne_table : ∀ b ∈ R, pdeAt s.mem pgdir b &&& pteP ≠ 0 → p ≠ pteAddr (pdeAt s.mem pgdir b)
  ne_frame : ∀ c ∈ R, Present s.mem pgdir c → frameAt s.mem pgdir c ≠ p

section Grows

variable {s : Vm} {pgdir a p : UInt32} {R free ps : List UInt32}

/-- Before the first page: nothing of the range is present. -/
theorem Grows.start (map : MapWf s pgdir R free) (past : ∀ p ∈ free, s.kend ≤ p2v p ∧ p ≠ 0)
    (absent : ∀ c ∈ R, ¬ Present s.mem pgdir c) (a : UInt32) : Grows s pgdir R free a where
  map := map
  wf :=
    { dir_page := map.dir_page
      dir_below := map.dir_below
      table_below := map.table_below
      table_ne_dir := map.table_ne_dir
      table_inj := map.table_inj
      frame_ne_zero := fun c hc pc => absurd pc (absent c hc)
      frame_below := fun c hc pc => absurd pc (absent c hc)
      frame_past_kernel := fun c hc pc => absurd pc (absent c hc)
      frame_ne_dir := fun c hc pc => absurd pc (absent c hc)
      frame_ne_table := fun c hc pc => absurd pc (absent c hc) }
  past := past
  off c hc pc := absurd pc (absent c hc)
  ahead c hc _ := absent c hc

/-- Zeroing the first free page misses every directory entry and every table of `R`. -/
theorem MapWf.agrees_popped (mw : MapWf s pgdir R (p :: ps)) : Agrees pgdir s.mem (popped s p).mem R := by
  have page := mw.free_page p List.mem_cons_self
  intro c hc
  refine ⟨readWord_memset_of_wordIn page mw.dir_page (mw.pdeWord_in c)
    (mw.free_ne_dir p List.mem_cons_self).symm, fun pde => ?_⟩
  exact readWord_memset_of_wordIn page (pteAddr_aligned _) (mw.pteWord_in hc pde)
    (mw.free_ne_table p List.mem_cons_self c hc pde).symm

/-- `kalloc` and the `memset` of the page it returns keep the loop's invariant, with the rest of
the list. -/
theorem Grows.pop (g : Grows s pgdir R (p :: ps) a) : Grows (popped s p) pgdir R ps a := by
  have ag := g.map.agrees_popped
  have chain := g.map.chain.pop g.map.free_page g.map.free_nodup
  have nodup := (List.nodup_cons.mp g.map.free_nodup).2
  have past : ∀ q ∈ ps, (popped s p).kend ≤ p2v q ∧ q ≠ 0 := by
    rw [popped_kend]
    exact fun q hq => g.past q (List.mem_cons_of_mem p hq)
  refine ⟨g.map.agrees ag chain (List.subset_cons_self p ps) nodup, g.wf.agrees ag (popped_kend s p), past,
    fun c hc pc => ?_, fun c hc le pc => ?_⟩
  · have pc := (ag.present_iff hc).mp pc
    rw [ag.frameAt hc pc.1]
    exact fun mem => g.off c hc pc (List.mem_cons_of_mem p mem)
  · exact g.ahead c hc le ((ag.present_iff hc).mp pc)

/-- The page `kalloc` returned is none of the directory, the tables and the frames. -/
theorem Grows.pop_fresh (g : Grows s pgdir R (p :: ps) a) : Fresh (popped s p) pgdir R ps p := by
  have ag := g.map.agrees_popped
  refine ⟨g.map.free_page p List.mem_cons_self, g.map.free_below p List.mem_cons_self,
    by rw [popped_kend]; exact (g.past p List.mem_cons_self).1, (g.past p List.mem_cons_self).2,
    (List.nodup_cons.mp g.map.free_nodup).1, g.map.free_ne_dir p List.mem_cons_self,
    fun b hb pde => ?_, fun c hc pc => ?_⟩
  · rw [(ag b hb).1] at pde ⊢
    exact g.map.free_ne_table p List.mem_cons_self b hb pde
  · have pc := (ag.present_iff hc).mp pc
    rw [ag.frameAt hc pc.1]
    exact fun same => g.off c hc pc (same ▸ List.mem_cons_self)

/-- After one page is mapped, a page of `R` present is that page, with the new frame, or was
present before, with its frame. -/
theorem Tracks.present_one {mem0 mem : PhysMem} {fresh : List UInt32} {w : UInt32}
    (tr : Tracks mem0 mem pgdir R fresh [a] fun _ => w) {c : UInt32} (hc : c ∈ R)
    (pc : Present mem pgdir c) :
    (c = a ∧ pteAt mem pgdir c = w) ∨ (c ≠ a ∧ Present mem0 pgdir c ∧ frameAt mem pgdir c = frameAt mem0 pgdir c) := by
  by_cases same : c = a
  · subst same
    exact .inl ⟨rfl, (tr.set c List.mem_cons_self).2⟩
  · have other := tr.other c hc (by simpa using same) pc.1
    by_cases pde : pdeAt mem0 pgdir c &&& pteP ≠ 0
    · rw [if_pos pde] at other
      refine .inr ⟨same, ⟨pde, by rw [← other]; exact pc.2⟩, ?_⟩
      rw [Xv6.frameAt, Xv6.frameAt, other]
    · -- no table at the start: the entry reads `0`
      rw [if_neg pde] at other
      have := pc.2
      rw [other, UInt32.zero_and] at this
      exact absurd rfl this

/-- After `mappages` of page `a` to the fresh frame `p`, pictured by `Tracks` with a well-formed
directory and part of the free list, every table being an old one or from the list: the loop's
invariant holds from the next page on. -/
theorem Grows.after (g : Grows s pgdir R free a) (fresh : Fresh s pgdir R free p)
    (room : a.toNat + 4096 < 2 ^ 32) {s' : Vm} {free' fresh' : List UInt32}
    (tr : Tracks s.mem s'.mem pgdir R fresh' [a] fun _ => p ||| (pteW ||| pteU) ||| pteP)
    (map : MapWf s' pgdir R free') (sub : free' ⊆ free) (kend : s'.kend = s.kend)
    (tables : ∀ b ∈ R, pdeAt s'.mem pgdir b &&& pteP ≠ 0 →
      pdeAt s'.mem pgdir b = pdeAt s.mem pgdir b ∨ pteAddr (pdeAt s'.mem pgdir b) ∈ free) :
    Grows s' pgdir R free' (a + pgSize) := by
  -- the frame of a present page: `p` for `a`, the old one for the others
  have frames : ∀ c ∈ R, Present s'.mem pgdir c →
      (frameAt s'.mem pgdir c = p) ∨ (Present s.mem pgdir c ∧ frameAt s'.mem pgdir c = frameAt s.mem pgdir c) := by
    intro c hc pc
    rcases tr.present_one hc pc with ⟨-, pte⟩ | ⟨-, old, frame⟩
    · exact .inl (by rw [Xv6.frameAt, pte, pteAddr_or_perm fresh.page])
    · exact .inr ⟨old, frame⟩
  -- a table is an old one, or a free page, so neither `p` nor an old frame
  have notTable : ∀ x, (x = p ∨ ∃ c ∈ R, Present s.mem pgdir c ∧ x = frameAt s.mem pgdir c) →
      ∀ b ∈ R, pdeAt s'.mem pgdir b &&& pteP ≠ 0 → x ≠ pteAddr (pdeAt s'.mem pgdir b) := by
    intro x hx b hb pb
    rcases tables b hb pb with old | new
    · rw [old] at pb ⊢
      rcases hx with rfl | ⟨c, hc, pc, rfl⟩
      · exact fresh.ne_table b hb pb
      · exact g.wf.frame_ne_table c hc pc b hb pb
    · rcases hx with rfl | ⟨c, hc, pc, rfl⟩
      · exact fun same => fresh.off (same ▸ new)
      · exact fun same => g.off c hc pc (same ▸ new)
  have wf : Wf s' pgdir R :=
    { dir_page := map.dir_page
      dir_below := map.dir_below
      table_below := map.table_below
      table_ne_dir := map.table_ne_dir
      table_inj := map.table_inj
      frame_ne_zero := fun c hc pc => by
        rcases frames c hc pc with f | ⟨old, f⟩ <;> rw [f]
        · exact fresh.ne_zero
        · exact g.wf.frame_ne_zero c hc old
      frame_below := fun c hc pc => by
        rcases frames c hc pc with f | ⟨old, f⟩ <;> rw [f]
        · exact fresh.below
        · exact g.wf.frame_below c hc old
      frame_past_kernel := fun c hc pc => by
        rw [kend]
        rcases frames c hc pc with f | ⟨old, f⟩ <;> rw [f]
        · exact fresh.past
        · exact g.wf.frame_past_kernel c hc old
      frame_ne_dir := fun c hc pc => by
        rcases frames c hc pc with f | ⟨old, f⟩ <;> rw [f]
        · exact fresh.ne_dir
        · exact g.wf.frame_ne_dir c hc old
      frame_ne_table := fun c hc pc b hb pb => by
        rcases frames c hc pc with f | ⟨old, f⟩ <;> rw [f]
        · exact notTable p (.inl rfl) b hb pb
        · exact notTable _ (.inr ⟨c, hc, old, rfl⟩) b hb pb }
  refine ⟨map, wf, fun q hq => by rw [kend]; exact g.past q (sub hq), fun c hc pc => ?_, fun c hc le pc => ?_⟩
  · rcases frames c hc pc with f | ⟨old, f⟩ <;> rw [f]
    · exact fun mem => fresh.off (sub mem)
    · exact fun mem => g.off c hc old (sub mem)
  · -- a page past `a` was not present, and `a` is the only page set
    have lt : a < c := by
      rw [UInt32.le_iff_toNat_le, toNat_add_pgSize room] at le
      exact UInt32.lt_iff_toNat_lt.mpr (by omega)
    rcases tr.present_one hc pc with ⟨same, -⟩ | ⟨-, old, -⟩
    · exact absurd (same ▸ lt) (UInt32.lt_irrefl a)
    · exact g.ahead c hc (UInt32.le_of_lt lt) old

variable (aligned : ∀ c ∈ R, c.toNat % 4096 = 0)
include aligned

/-- `mappages` of page `a` to the fresh frame `p`: `-1`, with nothing changed, only when the list
is empty; otherwise `0`, and the loop's invariant holds from the next page on. -/
theorem Grows.map_page (g : Grows s pgdir R free a) (fresh : Fresh s pgdir R free p) (ha : a ∈ R)
    (room : a.toNat + 4096 < 2 ^ 32) :
    (free = [] ∧ s.mappages pgdir a pgSize p (pteW ||| pteU) = .ok (-1, s)) ∨
      ∃ s' free', s.mappages pgdir a pgSize p (pteW ||| pteU) = .ok (0, s') ∧
        Grows s' pgdir R free' (a + pgSize) ∧ s'.kend = s.kend := by
  have absent := g.ahead a ha (UInt32.le_refl a)
  rw [Vm.mappages_page s p (pteW ||| pteU) (aligned a ha) room]
  by_cases pde : pdeAt s.mem pgdir a &&& pteP ≠ 0
  · -- a table: the entry is set
    have pte : ¬ pteAt s.mem pgdir a &&& pteP ≠ 0 := fun pte => absent ⟨pde, pte⟩
    rw [mapList_cons_mapped g.map ha pde pte]
    have tr := Tracks.mapped (Tracks.start s.mem pgdir R fun _ => p ||| (pteW ||| pteU) ||| pteP) g.map
      aligned (fun _ h => nomatch h) ha List.not_mem_nil pde
    exact .inr ⟨_, free, rfl, g.after fresh room tr (g.map.store ha pde _) (List.Subset.refl _) rfl
      fun b _ _ => .inl (g.map.pdeAt_store ha pde _ b), rfl⟩
  · cases free with
    | nil => exact .inl ⟨rfl, mapList_cons_nil g.map pde⟩
    | cons q qs =>
      -- no table: the first free page becomes one
      rw [mapList_cons_alloc g.map pde]
      have tr := Tracks.allocated (Tracks.start s.mem pgdir R fun _ => p ||| (pteW ||| pteU) ||| pteP) g.map
        aligned (fun _ h => nomatch h) ha List.not_mem_nil pde rfl
      refine .inr ⟨_, qs, rfl, g.after fresh room tr g.map.allocated (List.subset_cons_self q qs) rfl
        fun b _ _ => ?_, rfl⟩
      rw [allocated_pdeAt g.map]
      split
      · exact .inr (by rw [pteAddr_or_flags (g.map.free_page q List.mem_cons_self)]; exact List.mem_cons_self)
      · exact .inl rfl

end Grows

/-! ## The loop -/

/-- `deallocuvm` keeps `end`. -/
theorem unmapAll_kend {mem : PhysMem} {pgdir : UInt32} (ps : List UInt32) :
    ∀ {s s' : Vm}, unmapAll mem pgdir ps s = .ok s' → s'.kend = s.kend := by
  induction ps with
  | nil =>
    intro s s' h
    cases h
    rfl
  | cons a ps ih =>
    intro s s' h
    obtain ⟨s₁, freed, h⟩ := except_bind_eq_ok h
    obtain ⟨mem', -, h⟩ := except_bind_eq_ok h
    have kept : s₁.kend = s.kend := Vm.kfree_kend freed
    rw [ih h]
    exact kept

/-- From an aligned page `a` of the range with the loop's invariant, `allocuvm`'s loop returns
`newsz`, or `0` after freeing what it mapped, whatever its fuel. -/
theorem allocuvmLoop_ok {pgdir oldsz newsz : UInt32} (top : newsz < kernBase) (le : oldsz ≤ newsz) (k : Nat) :
    ∀ (a : UInt32) (s : Vm) (free : List UInt32), a.toNat % 4096 = 0 → pgRoundUp oldsz ≤ a →
      Grows s pgdir (pages (pgRoundUp oldsz) kernBase) free a →
      ∃ r s', Vm.allocuvmLoop pgdir oldsz newsz k a s = .ok (r, s') ∧ (r = newsz ∨ r = 0) := by
  have topNat : newsz.toNat < 2 ^ 31 := UInt32.lt_iff_toNat_lt.mp top
  have up := pgRoundUp_toNat (UInt32.lt_of_le_of_lt le top)
  have oldNat := UInt32.le_iff_toNat_le.mp le
  have upAligned : (pgRoundUp oldsz).toNat % 4096 = 0 := by rw [up]; omega
  have aligned : ∀ c ∈ pages (pgRoundUp oldsz) kernBase, c.toNat % 4096 = 0 :=
    fun c hc => aligned_of_mem_pages (UInt32.le_refl _) upAligned hc
  -- the pages a failure frees are among those the invariant speaks of
  have freed : pages (pgRoundUp oldsz) newsz ⊆ pages (pgRoundUp oldsz) kernBase :=
    pages_subset (UInt32.le_of_lt top)
  induction k with
  | zero => exact fun a s free _ _ _ => ⟨newsz, s, rfl, .inl rfl⟩
  | succ k ih =>
    intro a s free ha lo g
    rw [Vm.allocuvmLoop]
    by_cases lt : a < newsz
    swap
    · rw [if_neg lt]
      exact ⟨newsz, s, rfl, .inl rfl⟩
    rw [if_pos lt]
    have ltNat := UInt32.lt_iff_toNat_lt.mp lt
    have loNat := UInt32.le_iff_toNat_le.mp lo
    -- below `newsz` the old size was passed, so a failure frees the pages mapped so far
    have hlt : oldsz < newsz := UInt32.lt_iff_toNat_lt.mpr (by omega)
    have ha' : a ∈ pages (pgRoundUp oldsz) kernBase :=
      mem_pages_of_aligned (UInt32.le_refl _) upAligned ha lo (UInt32.lt_trans lt top)
    cases free with
    | nil =>
      rw [Vm.kalloc_nil g.map.chain, except_ok_bind]
      dsimp only
      rw [if_pos rfl]
      obtain ⟨s', -, dealloc⟩ := deallocuvm_eq_unmapAll hlt (UInt32.le_of_lt top) (g.wf.mono freed)
      rw [dealloc, except_ok_bind]
      exact ⟨0, s', rfl, .inr rfl⟩
    | cons p ps =>
      have below := g.map.free_below p List.mem_cons_self
      have hp : p.toNat < 2 ^ 31 := by
        have : p.toNat < 0xE000000 := below
        omega
      rw [Vm.kalloc_cons g.map.chain hp, except_ok_bind]
      dsimp only
      rw [if_neg (p2v_ne_zero hp), v2p_p2v]
      rw [← popped_eq]
      have fresh := g.pop_fresh
      rcases g.pop.map_page aligned fresh ha' (by omega) with ⟨rfl, call⟩ | ⟨s₃, free₃, call, g₃, -⟩
      · -- `mappages` found no page for a table: free what was mapped, and the page
        rw [call, except_ok_bind]
        dsimp only
        rw [if_pos (by decide)]
        obtain ⟨s₄, unmap, dealloc⟩ := deallocuvm_eq_unmapAll hlt (UInt32.le_of_lt top) (g.pop.wf.mono freed)
        rw [dealloc, except_ok_bind]
        dsimp only
        have kend : s₄.kend ≤ p2v p := by
          rw [unmapAll_kend _ unmap]
          exact fresh.past
        rw [Vm.kfree_p2v s₄ fresh.page below kend, except_ok_bind]
        exact ⟨0, _, rfl, .inr rfl⟩
      · rw [call, except_ok_bind]
        dsimp only
        rw [if_neg (by decide)]
        have next : (a + pgSize).toNat = a.toNat + 4096 := toNat_add_pgSize (by omega)
        exact ih (a + pgSize) s₃ free₃ (by rw [next]; omega)
          (UInt32.le_iff_toNat_le.mpr (by rw [next]; omega)) g₃

/-- **`allocuvm` on pages that are not mapped.**  On a directory and free list well formed for
the pages from `PGROUNDUP(oldsz)` below `newsz`, none of those pages present, and every free page
past the kernel's image and not page `0`: `allocuvm` returns, with `newsz`, `0` or `oldsz`. -/
theorem allocuvm_ok {s : Vm} {pgdir oldsz newsz : UInt32} {free : List UInt32}
    (map : MapWf s pgdir (pages (pgRoundUp oldsz) kernBase) free)
    (past : ∀ p ∈ free, s.kend ≤ p2v p ∧ p ≠ 0)
    (absent : ∀ c ∈ pages (pgRoundUp oldsz) kernBase, ¬ Present s.mem pgdir c) :
    ∃ r s', s.allocuvm pgdir oldsz newsz = .ok (r, s') ∧ (r = newsz ∨ r = 0 ∨ r = oldsz) := by
  unfold Vm.allocuvm
  by_cases big : newsz ≥ kernBase
  · rw [if_pos big]
    exact ⟨0, s, rfl, .inr (.inl rfl)⟩
  rw [if_neg big]
  by_cases shrink : newsz < oldsz
  · rw [if_pos shrink]
    exact ⟨oldsz, s, rfl, .inr (.inr rfl)⟩
  rw [if_neg shrink]
  have top : newsz < kernBase := UInt32.not_le.mp big
  have le : oldsz ≤ newsz := UInt32.not_lt.mp shrink
  have up := pgRoundUp_toNat (UInt32.lt_of_le_of_lt le top)
  obtain ⟨r, s', run, result⟩ := allocuvmLoop_ok top le pageCount (pgRoundUp oldsz) s free
    (by rw [up]; omega) (UInt32.le_refl _) (Grows.start map past absent _)
  exact ⟨r, s', run, result.imp_right .inl⟩

/-! ## A directory with no tables -/

section Empty

variable {s : Vm} {pgdir : UInt32} (zero : ∀ va, pdeAt s.mem pgdir va = 0)
include zero

theorem no_table_of_zero (a : UInt32) : ¬ pdeAt s.mem pgdir a &&& pteP ≠ 0 :=
  fun h => h (by rw [zero]; exact UInt32.zero_and)

/-- A directory whose entries all read `0` names no table, so it is well formed for any pages
once the free list is. -/
theorem MapWf.empty {free : List UInt32} (R : List UInt32) (page : (v2p pgdir).toNat % 4096 = 0)
    (below : v2p pgdir < physTop) (chain : FreeList s.mem s.freelist free)
    (freePage : ∀ p ∈ free, p.toNat % 4096 = 0) (freeBelow : ∀ p ∈ free, p < physTop)
    (freeNeDir : ∀ p ∈ free, p ≠ v2p pgdir) (nodup : free.Nodup) : MapWf s pgdir R free where
  dir_page := page
  dir_below := below
  table_below a _ pa := absurd pa (no_table_of_zero zero a)
  table_ne_dir a _ pa := absurd pa (no_table_of_zero zero a)
  table_inj a _ _ _ pa := absurd pa (no_table_of_zero zero a)
  chain := chain
  free_page := freePage
  free_below := freeBelow
  free_ne_dir := freeNeDir
  free_ne_table _ _ a _ pa := absurd pa (no_table_of_zero zero a)
  free_nodup := nodup

end Empty

/-! ## A machine to grow -/

/-- A zeroed directory at `0x200000`, and the pages `0x300000` and `0x301000` free. -/
def spare : Vm where
  mem := writeWord (fun _ => 0) 0x300000 (p2v 0x301000)
  freelist := p2v 0x300000
  kend := 0x80100000

theorem spare_pdeAt (va : UInt32) : pdeAt spare.mem (p2v 0x200000) va = 0 := by
  have dir := pdeWord_wordIn (show (v2p (p2v 0x200000)).toNat % 4096 = 0 by decide) (by decide) va
  show readWord (writeWord (fun _ => 0) 0x300000 (p2v 0x301000)) (pdeWord (p2v 0x200000) va) = 0
  rw [readWord_writeWord_of_wordIn (wordIn_self (by decide)) dir (by decide) (by decide) (by decide)]
  exact LittleEndian.word32_zero

/-- `spare` is well formed for any pages. -/
theorem spare_mapWf (R : List UInt32) : MapWf spare (p2v 0x200000) R [0x300000, 0x301000] := by
  refine MapWf.empty spare_pdeAt R (by decide) (by decide) (by decide) ?_ ?_ ?_ (by decide) <;>
    simp only [List.mem_cons, List.not_mem_nil, or_false, forall_eq_or_imp, forall_eq] <;> decide

theorem spare_absent (R : List UInt32) : ∀ c ∈ R, ¬ Present spare.mem (p2v 0x200000) c :=
  fun c _ pc => no_table_of_zero spare_pdeAt c pc.1

/-- Its free pages lie past the kernel's image. -/
theorem spare_past : ∀ p ∈ [0x300000, 0x301000], spare.kend ≤ p2v p ∧ p ≠ 0 := by
  simp only [List.mem_cons, List.not_mem_nil, or_false, forall_eq_or_imp, forall_eq]
  decide

end Xv6
