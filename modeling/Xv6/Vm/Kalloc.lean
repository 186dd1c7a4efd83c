import Xv6.Vm.Mappages

/-!
# The page allocator

`kalloc.c` keeps the free pages on a list threaded through the pages themselves: the first word
of a free page, `r->next`, holds the kernel address of the next free page, and `kmem.freelist`
the first.  `kfree` fills a page with junk and pushes it, `kalloc` pops one, and at boot
`freerange` pushes every whole page of a range, `kinit1` and `kinit2` calling it on the memory
above the kernel's image.  The locks are left out.

`FreePages s ps`: `kmem.freelist` runs through the frames `ps` (`FreeList`), none twice, each the
frame of a page `kfree` accepts.

* `kfree_push`, `kalloc_pop`: `kfree` and `kalloc` are a push and a pop;
* `FreePages.store`: the list survives any store outside its pages;
* `freerange_push`: `freerange` pushes the pages it frees, in order;
* `kalloc_run_holds`: over any run of `freerange`, `kalloc`, `kfree` of a page held, and stores
  into memory the kernel holds, the free pages and the pages held are the pages given to the
  allocator, each once; the list is empty only when every page given is held.
-/

namespace Xv6

/-! ## Pages `kfree` accepts -/

/-- A page that passes `kfree`'s test `(uint)v % PGSIZE || v < end || V2P(v) >= PHYSTOP`. -/
def Accepts (kend v : UInt32) : Prop := ¬(v % pgSize ≠ 0 ∨ v < kend ∨ v2p v ≥ physTop)

instance (kend v : UInt32) : Decidable (Accepts kend v) :=
  inferInstanceAs (Decidable ¬(v % pgSize ≠ 0 ∨ v < kend ∨ v2p v ≥ physTop))

theorem p2v_v2p (a : UInt32) : p2v (v2p a) = a := by
  rw [v2p, p2v, UInt32.sub_add_cancel]

theorem map_p2v_v2p (l : List UInt32) : (l.map v2p).map p2v = l := by
  simp [Function.comp_def, p2v_v2p]

/-- An accepted page is the kernel address of an aligned frame below `PHYSTOP`. -/
theorem Accepts.frame {kend v : UInt32} (acc : Accepts kend v) :
    (v2p v).toNat % 4096 = 0 ∧ v2p v < physTop ∧ kend ≤ v := by
  simp only [Accepts, not_or, not_not, ge_iff_le] at acc
  obtain ⟨al, hend, top⟩ := acc
  refine ⟨?_, UInt32.not_le.mp top, UInt32.not_lt.mp hend⟩
  have al := congrArg UInt32.toNat al
  simp only [UInt32.toNat_mod, show pgSize.toNat = 4096 from rfl, UInt32.toNat_zero] at al
  simp only [v2p, UInt32.toNat_sub, show kernBase.toNat = 2 ^ 31 from rfl]
  omega

theorem Accepts.ne_zero {kend v : UInt32} (acc : Accepts kend v) : v ≠ 0 := by
  rintro rfl
  exact absurd acc.frame.2.1 (by decide)

/-- Different accepted pages lie in different frames. -/
theorem Accepts.page_ne {kend u v : UInt32} (hu : Accepts kend u) (hv : Accepts kend v) (ne : u ≠ v) :
    (v2p u).toNat / 4096 ≠ (v2p v).toNat / 4096 :=
  Xv6.page_ne hu.frame.1 hv.frame.1 fun same => ne (by rw [← p2v_v2p u, same, p2v_v2p])

/-- The next page after an accepted one, as a number: no wrap below `P2V(PHYSTOP)`. -/
theorem Accepts.toNat_add_pgSize {kend v : UInt32} (acc : Accepts kend v) :
    (v + pgSize).toNat = v.toNat + 4096 := by
  have top := UInt32.lt_iff_toNat_lt.mp acc.frame.2.1
  simp only [v2p, UInt32.toNat_sub, show kernBase.toNat = 2 ^ 31 from rfl,
    show physTop.toNat = 0xE000000 from rfl] at top
  have := v.toNat_lt
  apply Xv6.toNat_add_pgSize
  omega

/-! ## `kfree` and `kalloc` -/

/-- The free list of `kalloc.c`: `kmem.freelist` runs through the frames `ps`, none twice, each
the frame of a page `kfree` accepts. -/
structure FreePages (s : Vm) (ps : List UInt32) : Prop where
  chain : FreeList s.mem s.freelist ps
  nodup : ps.Nodup
  accepted : ∀ p ∈ ps, Accepts s.kend (p2v p)

section freePages

variable {s s' : Vm} {ps : List UInt32} {v : UInt32}

/-- `kfree` returns only on a page it accepts. -/
theorem Vm.kfree_accepts (run : s.kfree v = .ok s') : Accepts s.kend v := by
  unfold Vm.kfree at run
  split at run
  · cases run
  · assumption

/-- `kfree` of an accepted page: filled with junk, its first word the old head, and the head. -/
theorem Vm.kfree_eq (acc : Accepts s.kend v) :
    s.kfree v = .ok { s with mem := writeWord (memset s.mem v 1 4096) (v2p v) s.freelist, freelist := v } := by
  obtain ⟨al, top, hend⟩ := acc.frame
  have := s.kfree_p2v al top (by rw [p2v_v2p]; exact hend)
  rw [p2v_v2p] at this
  exact this

theorem Vm.kfree_kend (run : s.kfree v = .ok s') : s'.kend = s.kend := by
  rw [Vm.kfree_eq (Vm.kfree_accepts run)] at run
  cases run
  rfl

/-- `kfree` of a page whose frame is not on the list pushes it. -/
theorem kfree_push (inv : FreePages s ps) (fresh : v2p v ∉ ps) (run : s.kfree v = .ok s') :
    FreePages s' (v2p v :: ps) := by
  have acc := Vm.kfree_accepts run
  obtain ⟨al, -, -⟩ := acc.frame
  rw [Vm.kfree_eq acc] at run
  cases run
  refine ⟨⟨(p2v_v2p v).symm, ?_⟩, List.nodup_cons.mpr ⟨fresh, inv.nodup⟩, ?_⟩
  · -- the new first word links the old list; the junk misses the first words of its pages
    rw [readWord_writeWord_self _ (by omega)]
    refine inv.chain.congr fun p hp => ?_
    have al_p := (inv.accepted p hp).frame.1
    rw [v2p_p2v] at al_p
    have ne : p ≠ v2p v := fun same => fresh (same ▸ hp)
    have page := Xv6.page_ne al_p al ne
    rw [readWord_writeWord_of_ne (by omega) (by omega) (Ne.symm ne)]
    conv_lhs => rw [← p2v_v2p v]
    exact readWord_memset_of_ne al (by omega) (Ne.symm page).symm
  · intro p hp
    rcases List.mem_cons.mp hp with rfl | hp
    · rw [p2v_v2p]
      exact acc
    · exact inv.accepted p hp

/-- `kalloc` on a nonempty list pops its first page. -/
theorem kalloc_pop {p : UInt32} (inv : FreePages s (p :: ps)) :
    s.kalloc = .ok (p2v p, { s with freelist := readWord s.mem p }) ∧
      FreePages { s with freelist := readWord s.mem p } ps := by
  have top := (inv.accepted p List.mem_cons_self).frame.2.1
  rw [v2p_p2v] at top
  have lt : p.toNat < 0xE000000 := top
  exact ⟨Vm.kalloc_cons inv.chain (by omega), ⟨inv.chain.2, (List.nodup_cons.mp inv.nodup).2,
    fun q hq => inv.accepted q (List.mem_cons_of_mem p hq)⟩⟩

/-- A store of a byte outside the list's pages leaves the list. -/
theorem FreePages.store (inv : FreePages s ps) {a : UInt32} {b : UInt8}
    (off : ∀ p ∈ ps, a.toNat / 4096 ≠ p.toNat / 4096) :
    FreePages { s with mem := Function.update s.mem a b } ps := by
  refine ⟨inv.chain.congr fun p hp => ?_, inv.nodup, inv.accepted⟩
  obtain ⟨al, top, -⟩ := (inv.accepted p hp).frame
  rw [v2p_p2v] at al top
  have top : p.toNat < 0xE000000 := top
  apply readWord_congr
  intro j hj
  apply Function.update_of_ne
  intro same
  have := congrArg UInt32.toNat same
  rw [toNat_add_ofNat (by omega)] at this
  exact off p hp (by omega)

end freePages

/-! ## `freerange` -/

namespace Vm

/-- `freerange`'s loop from the page `p`: `kfree` it while it ends by `vend`. -/
def freerangeLoop (vend : UInt32) : Nat → UInt32 → Vm → Except Fault Vm
  | 0, _, s => return s
  | k + 1, p, s =>
    if p + pgSize ≤ vend then do
      let s ← s.kfree p
      freerangeLoop vend k (p + pgSize) s
    else return s

/-- `freerange(vstart, vend)`: `kfree` each whole page from `PGROUNDUP(vstart)` up to `vend`. -/
def freerange (s : Vm) (vstart vend : UInt32) : Except Fault Vm :=
  freerangeLoop vend pageCount (pgRoundUp vstart) s

end Vm

/-- The pages `freerange`'s loop from `p` frees, in order. -/
def rangePages (vend : UInt32) : Nat → UInt32 → List UInt32
  | 0, _ => []
  | k + 1, p => if p + pgSize ≤ vend then p :: rangePages vend k (p + pgSize) else []

section freerange

variable {vend : UInt32}

/-- When `freerange`'s loop returns, every page it freed was accepted, they ascend from `p`, and
`end` is as it was. -/
theorem freerangeLoop_accepts (k : Nat) :
    ∀ (p : UInt32) (s s' : Vm), Vm.freerangeLoop vend k p s = .ok s' →
      s'.kend = s.kend ∧ (rangePages vend k p).Pairwise (fun u v => u.toNat < v.toNat) ∧
        ∀ v ∈ rangePages vend k p, Accepts s.kend v ∧ p.toNat ≤ v.toNat := by
  induction k with
  | zero =>
    intro p s s' run
    cases run
    exact ⟨rfl, .nil, fun v hv => nomatch hv⟩
  | succ k ih =>
    intro p s s' run
    simp only [Vm.freerangeLoop, rangePages] at run ⊢
    by_cases fits : p + pgSize ≤ vend
    · rw [if_pos fits] at run ⊢
      obtain ⟨s₁, freed, rest⟩ := except_bind_eq_ok run
      have acc := Vm.kfree_accepts freed
      have kend := Vm.kfree_kend freed
      obtain ⟨kend', ascend, later⟩ := ih _ s₁ s' rest
      rw [kend] at later
      have step := acc.toNat_add_pgSize
      refine ⟨kend'.trans kend, List.pairwise_cons.mpr ⟨fun v hv => ?_, ascend⟩, fun v hv => ?_⟩
      · have := (later v hv).2
        omega
      · rcases List.mem_cons.mp hv with rfl | hv
        · exact ⟨acc, le_refl _⟩
        · obtain ⟨acc', above⟩ := later v hv
          exact ⟨acc', by omega⟩
    · rw [if_neg fits] at run ⊢
      cases run
      exact ⟨rfl, .nil, fun v hv => nomatch hv⟩

/-- `freerange`'s loop pushes the pages it frees, the last on top, when none is on the list. -/
theorem freerange_push (k : Nat) :
    ∀ (p : UInt32) (s s' : Vm) (ps : List UInt32), FreePages s ps → (∀ v ∈ rangePages vend k p, v2p v ∉ ps) →
      Vm.freerangeLoop vend k p s = .ok s' → FreePages s' ((rangePages vend k p).reverse.map v2p ++ ps) := by
  induction k with
  | zero =>
    intro p s s' ps inv _ run
    cases run
    exact inv
  | succ k ih =>
    intro p s s' ps inv fresh run
    simp only [Vm.freerangeLoop, rangePages] at run fresh ⊢
    by_cases fits : p + pgSize ≤ vend
    · rw [if_pos fits] at run fresh ⊢
      obtain ⟨s₁, freed, rest⟩ := except_bind_eq_ok run
      have pushed := kfree_push inv (fresh p List.mem_cons_self) freed
      -- the pages after `p` lie above it, so none of them is `p`
      have above := (freerangeLoop_accepts k _ s₁ s' rest).2.2
      have acc := Vm.kfree_accepts freed
      have step := acc.toNat_add_pgSize
      have fresh' : ∀ v ∈ rangePages vend k (p + pgSize), v2p v ∉ v2p p :: ps := by
        intro v hv mem
        rcases List.mem_cons.mp mem with same | mem
        · have := (above v hv).2
          rw [← p2v_v2p v, same, p2v_v2p] at this
          omega
        · exact fresh v (List.mem_cons_of_mem p hv) mem
      rw [List.reverse_cons, List.map_append, List.append_assoc, List.map_singleton, List.singleton_append]
      exact ih _ s₁ s' (v2p p :: ps) pushed fresh' rest
    · rw [if_neg fits] at run ⊢
      cases run
      exact inv

end freerange

/-! ## The allocator over a run -/

/-- The allocator as the kernel uses it: the machine, the pages `kalloc` returned that are not
freed since, and the pages `freerange` gave it. -/
structure Kmem where
  vm : Vm
  held : List UInt32
  given : List UInt32

/-- A byte the kernel may store to: in a page `kalloc` gave it, or outside every page given to
the allocator. -/
def Kmem.Owns (k : Kmem) (a : UInt32) : Prop :=
  (∃ v ∈ k.held, a.toNat / 4096 = (v2p v).toNat / 4096) ∨ ∀ v ∈ k.given, a.toNat / 4096 ≠ (v2p v).toNat / 4096

/-- One step of the kernel on the allocator: `freerange` of pages never given before, `kalloc`,
its page held unless it is `0`, `kfree` of a page held, or a store of a byte the kernel owns. -/
inductive Kmem.Call : Kmem → Kmem → Prop
  | freerange {k : Kmem} {vm : Vm} (vstart vend : UInt32)
      (fresh : ∀ v ∈ rangePages vend pageCount (pgRoundUp vstart), v ∉ k.given)
      (run : k.vm.freerange vstart vend = .ok vm) :
      Kmem.Call k ⟨vm, k.held, k.given ++ rangePages vend pageCount (pgRoundUp vstart)⟩
  | kalloc {k : Kmem} {r : UInt32} {vm : Vm} (run : k.vm.kalloc = .ok (r, vm)) :
      Kmem.Call k ⟨vm, if r = 0 then k.held else r :: k.held, k.given⟩
  | kfree {k : Kmem} {vm : Vm} (v : UInt32) (held : v ∈ k.held) (run : k.vm.kfree v = .ok vm) :
      Kmem.Call k ⟨vm, k.held.erase v, k.given⟩
  | store {k : Kmem} (a : UInt32) (b : UInt8) (owned : k.Owns a) :
      Kmem.Call k ⟨{ k.vm with mem := Function.update k.vm.mem a b }, k.held, k.given⟩

/-- The free pages and the pages held are the pages given, each once, all accepted by `kfree`. -/
def Kmem.Holds (k : Kmem) : Prop :=
  ∃ ps, FreePages k.vm ps ∧ (ps.map p2v ++ k.held).Perm k.given ∧ k.given.Nodup ∧
    ∀ v ∈ k.given, Accepts k.vm.kend v

section run

variable {k k' : Kmem}

/-- No page is both free and held. -/
theorem free_not_held {free held given : List UInt32} (perm : (free ++ held).Perm given) (distinct : given.Nodup)
    {v : UInt32} (hv : v ∈ held) : v ∉ free := fun mem =>
  List.disjoint_of_nodup_append (perm.nodup_iff.mpr distinct) mem hv

/-- A page held has its frame off the list. -/
theorem frame_not_free {ps held given : List UInt32} (perm : (ps.map p2v ++ held).Perm given)
    (distinct : given.Nodup) {v : UInt32} (hv : v ∈ held) : v2p v ∉ ps := fun mem =>
  free_not_held perm distinct hv (by rw [← p2v_v2p v]; exact List.mem_map_of_mem mem)

/-- One step keeps the invariant. -/
theorem Kmem.Holds.call (inv : k.Holds) (call : Kmem.Call k k') : k'.Holds := by
  obtain ⟨ps, list, perm, distinct, accepted⟩ := inv
  cases call with
  | freerange vstart vend fresh run =>
    have pages := freerangeLoop_accepts _ _ _ _ run
    have pushed := freerange_push _ _ _ _ ps list (fun v hv free => fresh v hv (perm.subset
      (List.mem_append_left _ (by rw [← p2v_v2p v]; exact List.mem_map_of_mem free)))) run
    refine ⟨_, pushed, ?_, ?_, ?_⟩
    · -- the kernel addresses of the new frames are the pages of the range
      rw [List.map_append, map_p2v_v2p, List.append_assoc]
      exact ((List.reverse_perm _).append perm).trans List.perm_append_comm
    · exact List.nodup_append.mpr ⟨distinct, pages.2.1.imp (fun lt => Nat.ne_of_lt lt ∘ congrArg UInt32.toNat),
        fun u hu v hv same => fresh v hv (same ▸ hu)⟩
    · intro v hv
      rw [pages.1]
      rcases List.mem_append.mp hv with hv | hv
      · exact accepted v hv
      · exact (pages.2.2 v hv).1
  | kalloc run =>
    cases ps with
    | nil =>
      rw [Vm.kalloc_nil list.chain] at run
      obtain ⟨rfl, rfl⟩ := Prod.mk.inj (Except.ok.inj run)
      exact ⟨[], list, by simpa using perm, distinct, accepted⟩
    | cons p ps =>
      obtain ⟨popped, rest⟩ := kalloc_pop list
      rw [popped] at run
      obtain ⟨rfl, rfl⟩ := Prod.mk.inj (Except.ok.inj run)
      rw [if_neg (list.accepted p List.mem_cons_self).ne_zero]
      exact ⟨ps, rest, List.perm_middle.trans perm, distinct, accepted⟩
  | kfree v held run =>
    have pushed := kfree_push list (frame_not_free perm distinct held) run
    refine ⟨v2p v :: ps, pushed, ?_, distinct, by rw [Vm.kfree_kend run]; exact accepted⟩
    rw [List.map_cons, p2v_v2p]
    exact (List.perm_middle.symm.trans ((List.perm_cons_erase held).symm.append_left _)).trans perm
  | store a b owned =>
    refine ⟨ps, list.store fun p hp => ?_, perm, distinct, accepted⟩
    have given_p : p2v p ∈ k.given := perm.subset (List.mem_append_left _ (List.mem_map_of_mem hp))
    rcases owned with ⟨v, hv, same⟩ | outside
    · -- `a` is in a page held, and no page held is free
      have ne : p2v p ≠ v := fun eq => free_not_held perm distinct hv (eq ▸ List.mem_map_of_mem hp)
      rw [same]
      have := (Accepts.page_ne (accepted _ given_p) (accepted v (perm.subset (List.mem_append_right _ hv))) ne).symm
      rwa [v2p_p2v] at this
    · have := outside _ given_p
      rwa [v2p_p2v] at this

/-- Every run keeps the invariant. -/
theorem Kmem.Holds.run (inv : k.Holds) (run : Relation.ReflTransGen Kmem.Call k k') : k'.Holds := by
  induction run with
  | refl => exact inv
  | tail _ call ih => exact ih.call call

/-- From a machine whose free list is empty, before anything is given to the allocator, over any
run of `freerange` of pages not given before, `kalloc`, `kfree` of a page held, and stores into
memory the kernel owns: `kmem.freelist` runs through distinct frames of accepted pages to the
null pointer; no page is held twice or both held and free; the free pages and the pages held are
all the pages given; and the list is empty exactly when every page given is held. -/
theorem kalloc_run_holds {vm₀ : Vm} (empty : vm₀.freelist = 0) {k : Kmem}
    (run : Relation.ReflTransGen Kmem.Call ⟨vm₀, [], []⟩ k) :
    ∃ ps, FreePages k.vm ps ∧ (ps.map p2v ++ k.held).Nodup ∧ (ps.map p2v ++ k.held).Perm k.given ∧
      (k.vm.freelist = 0 ↔ k.held.Perm k.given) := by
  have start : Kmem.Holds ⟨vm₀, [], []⟩ :=
    ⟨[], ⟨empty, List.nodup_nil, fun v hv => nomatch hv⟩, List.Perm.nil, List.nodup_nil, fun v hv => nomatch hv⟩
  obtain ⟨ps, list, perm, distinct, -⟩ := start.run run
  refine ⟨ps, list, perm.nodup_iff.mpr distinct, perm, ?_⟩
  constructor
  · intro zero
    cases ps with
    | nil => simpa using perm
    | cons p ps => exact absurd (list.chain.1 ▸ zero) (list.accepted p List.mem_cons_self).ne_zero
  · intro all
    cases ps with
    | nil => exact list.chain
    | cons p ps =>
      have := (perm.trans all.symm).length_eq
      simp only [List.map_cons, List.cons_append, List.length_cons, List.length_append, List.length_map] at this
      omega

/-- Two pages from `0x80400000` given by `freerange`, both taken by `kalloc`, a byte stored into
the first, and the second freed: one page held, one free. -/
theorem kalloc_run_holds_two : ∃ k : Kmem,
    Relation.ReflTransGen Kmem.Call ⟨⟨fun _ => 0, 0, 0x80400000⟩, [], []⟩ k ∧ k.held.length = 1 ∧
      ∃ ps, FreePages k.vm ps ∧ (ps.map p2v ++ k.held).Nodup ∧ (ps.map p2v ++ k.held).Perm k.given ∧
        (k.vm.freelist = 0 ↔ k.held.Perm k.given) := by
  obtain ⟨k, run, one⟩ : ∃ k : Kmem,
      Relation.ReflTransGen Kmem.Call ⟨⟨fun _ => 0, 0, 0x80400000⟩, [], []⟩ k ∧ k.held.length = 1 :=
    ⟨_, .tail (.tail (.tail (.tail (.tail .refl
      (Kmem.Call.freerange 0x80400000 0x80402000 (fun _ _ h => nomatch h) rfl))
      (Kmem.Call.kalloc rfl)) (Kmem.Call.kalloc rfl))
      (Kmem.Call.store 0x401004 7 (by unfold Kmem.Owns; decide)))
      (Kmem.Call.kfree 0x80400000 (by decide) rfl), by decide⟩
  exact ⟨k, run, one, kalloc_run_holds rfl run⟩

end run

end Xv6
