import Xv6.Ulib.UmallocHeap
import Xv6.Lib.Cycle

/-!
# `free` and `malloc` keep the heap

`Shows base brk h lo bs` says that the headers of `h` hold the blocks `bs` of `UmallocHeap`:
they tile the heap from `lo` to the break `brk h.kernel`, below `KERNBASE`; every block's header
has its size; the free list runs from `base`, of size `0`, through the free blocks in address
order and back to `base`; and `freep` is on it.

* `freeSearch_finds`: `free`'s loop, from wherever `freep` is, stops at the free block (or
  `base`) right below the block freed;
* `free_shows`: `free` of a block in use is `release` of it, as its two halves
  (`joinUpper_spec`, `joinLower_spec`) join it to a free block after it and to one before it;
* `take_shows`, `mallocLoop_shows`, `morecore_shows`: `malloc` takes a free block whole, or
  cuts its end off (`carve`); `morecore` puts a block at the break and frees it.
-/

namespace Xv6

namespace Umalloc

open Cycle

variable {σ : Type}

/-- `p->s.ptr`, the pointer field read as the free list's link. -/
def Heap.next (h : Heap σ) (p : UInt32) : UInt32 := (h.hdr p).ptr

/-- The first half of `free` at `bp`, after `p`: `bp` joined to the next free block when it
ends where that one starts, and linked to it otherwise. -/
def Heap.joinUpper (h : Heap σ) (bp p : UInt32) : Heap σ :=
  if bp + (h.hdr bp).size * headerSize = (h.hdr p).ptr then
    let h := h.setSize bp ((h.hdr bp).size + (h.hdr (h.hdr p).ptr).size)
    h.setPtr bp (h.hdr (h.hdr p).ptr).ptr
  else h.setPtr bp (h.hdr p).ptr

/-- The second half: `bp` joined into `p` when `p` ends where it starts, and linked after `p`
otherwise. -/
def Heap.joinLower (h : Heap σ) (bp p : UInt32) : Heap σ :=
  if p + (h.hdr p).size * headerSize = bp then
    let h := h.setSize p ((h.hdr p).size + (h.hdr bp).size)
    h.setPtr p (h.hdr bp).ptr
  else h.setPtr p bp

/-- `free` is its search, then its two halves. -/
theorem free_eq {fuel : Nat} {h : Heap σ} {ap : UInt32} :
    free fuel h ap = (freeSearch h (ap - headerSize) fuel h.freep).map
      fun p => { (h.joinUpper (ap - headerSize) p).joinLower (ap - headerSize) p with freep := p } := by
  unfold free
  dsimp only
  cases freeSearch h (ap - headerSize) fuel h.freep <;> rfl

/-! ## Header writes -/

namespace Heap

variable {h : Heap σ} {p q v : UInt32}

theorem setPtr_hdr_of_ne (ne : q ≠ p) : (h.setPtr p v).hdr q = h.hdr q := by
  simp [setPtr, Function.update_of_ne ne]

theorem setSize_hdr_of_ne (ne : q ≠ p) : (h.setSize p v).hdr q = h.hdr q := by
  simp [setSize, Function.update_of_ne ne]

@[simp] theorem setPtr_next_self : (h.setPtr p v).next p = v := by
  simp [setPtr, next]

@[simp] theorem setSize_next : (h.setSize p v).next q = h.next q := by
  by_cases same : q = p
  · subst same
    simp [setSize, next]
  · simp [next, setSize_hdr_of_ne same]

theorem setPtr_next_of_ne (ne : q ≠ p) : (h.setPtr p v).next q = h.next q := by
  simp [next, setPtr_hdr_of_ne ne]

@[simp] theorem setPtr_kernel : (h.setPtr p v).kernel = h.kernel := rfl

@[simp] theorem setSize_kernel : (h.setSize p v).kernel = h.kernel := rfl

end Heap

/-! ## The invariant -/

/-- The headers of `h` hold the blocks `bs`, from `lo` to the break, with the free list through
`base` and the free blocks in address order. -/
structure Shows (base : UInt32) (brk : σ → Nat) (h : Heap σ) (lo : Nat) (bs : List Block) : Prop where
  tiles : Tiles lo bs (brk h.kernel)
  below : base.toNat < lo
  top : brk h.kernel ≤ 2 ^ 31
  sizes : ∀ b ∈ bs, (h.hdr b.addr).size = b.size
  base_size : (h.hdr base).size = 0
  ring : Walk h.next (base :: freeAddrs bs) base
  freep : h.freep ∈ base :: freeAddrs bs
  coalesced : Coalesced bs

section shows

variable {base : UInt32} {brk : σ → Nat} {h : Heap σ} {lo : Nat} {bs pre post : List Block} {b : Block}

theorem Shows.sorted (inv : Shows base brk h lo bs) :
    (base :: freeAddrs bs).Pairwise fun a b => a.toNat < b.toNat :=
  inv.tiles.sorted inv.below

theorem Shows.nodup (inv : Shows base brk h lo bs) : (base :: freeAddrs bs).Nodup :=
  inv.sorted.imp fun lt same => (Nat.ne_of_lt lt) (congrArg UInt32.toNat same)

/-- A block's end as the allocator computes it: `bp + bp->s.size`, which does not wrap below
`KERNBASE`. -/
theorem Shows.stop_eq (inv : Shows base brk h lo bs) (hb : b ∈ bs) :
    (b.addr + (h.hdr b.addr).size * headerSize).toNat = b.stop := by
  rw [inv.sizes b hb]
  exact Block.stop_eq (by have := (inv.tiles.bounds b hb).2.1; have := inv.top; omega)

/-- A block in use is not on the free list. -/
theorem Shows.used_not_mem (inv : Shows base brk h lo bs) (hb : b ∈ bs) (used : b.free = false) :
    b.addr ∉ base :: freeAddrs bs := by
  intro mem
  rcases List.mem_cons.mp mem with same | mem
  · have := (inv.tiles.bounds b hb).1
    have := inv.below
    rw [same] at *
    omega
  · obtain ⟨d, hd, free, same⟩ := mem_freeAddrs.mp mem
    rw [inv.tiles.addr_inj hd hb same, used] at free
    cases free

/-- The free list is `base`, the free blocks before `b`, then those after it. -/
theorem ring_split (used : b.free = false) :
    base :: freeAddrs (pre ++ b :: post) = base :: freeAddrs pre ++ freeAddrs post := by
  simp [freeAddrs_cons, used]

/-- The free list before a block lies below it, and the rest above it. -/
theorem Shows.ring_around (inv : Shows base brk h lo (pre ++ b :: post)) :
    (∀ c ∈ base :: freeAddrs pre, c.toNat < b.addr.toNat) ∧ ∀ c ∈ freeAddrs post, b.addr.toNat < c.toNat := by
  obtain ⟨before, after⟩ := inv.tiles.around
  have hb := inv.tiles.bounds b (by simp)
  unfold Block.stop at hb
  refine ⟨fun c hc => ?_, fun c hc => ?_⟩
  · rcases List.mem_cons.mp hc with rfl | hc
    · have := inv.below
      omega
    · obtain ⟨d, hd, -, rfl⟩ := mem_freeAddrs.mp hc
      have := before d hd
      have := (inv.tiles.bounds d (by simp [hd])).2.2
      unfold Block.stop at *
      omega
  · obtain ⟨d, hd, -, rfl⟩ := mem_freeAddrs.mp hc
    have := after d hd
    unfold Block.stop at this
    omega

end shows

/-! ## `free`'s loop -/

/-- The test of `free`'s loop at `p`: `bp` between `p` and the next free block, or, at the
highest free block, beyond either end of the list. -/
def freeStop (h : Heap σ) (bp p : UInt32) : Bool :=
  decide (bp > p ∧ bp < h.next p) || decide (p ≥ h.next p ∧ (bp > p ∨ bp < h.next p))

theorem freeSearch_eq_search {h : Heap σ} {bp : UInt32} (k : Nat) (p : UInt32) :
    freeSearch h bp k p = search h.next (freeStop h bp) k p := by
  induction k generalizing p with
  | zero => rfl
  | succ k ih =>
    rw [freeSearch, search, ← ih]
    by_cases inside : bp > p ∧ bp < (h.hdr p).ptr
    · rw [if_pos inside, if_pos (by simp [freeStop, Heap.next, inside])]
    · by_cases wraps : p ≥ (h.hdr p).ptr ∧ (bp > p ∨ bp < (h.hdr p).ptr)
      · rw [if_neg inside, if_pos wraps, if_pos (by simp [freeStop, Heap.next, wraps])]
      · rw [if_neg inside, if_neg wraps, if_neg (by simp only [freeStop, Heap.next, inside, wraps]; decide)]
        rfl

/-- The free block `free` links a block after: the last free block before it, or `base`. -/
def lastFree (base : UInt32) (pre : List Block) : UInt32 := (base :: freeAddrs pre).getLast (List.cons_ne_nil _ _)

theorem freeStop_iff {h : Heap σ} {bp p : UInt32} :
    freeStop h bp p = true ↔ p.toNat < bp.toNat ∧ bp.toNat < (h.next p).toNat ∨
      (h.next p).toNat ≤ p.toNat ∧ (p.toNat < bp.toNat ∨ bp.toNat < (h.next p).toNat) := by
  simp [freeStop, UInt32.lt_iff_toNat_lt, UInt32.le_iff_toNat_le]

section free

variable {base : UInt32} {brk : σ → Nat} {h : Heap σ} {lo : Nat} {pre post : List Block} {b : Block}

theorem lastFree_split : base :: freeAddrs pre = (base :: freeAddrs pre).dropLast ++ [lastFree base pre] :=
  (List.dropLast_append_getLast _).symm

theorem lastFree_mem (base : UInt32) (pre : List Block) : lastFree base pre ∈ base :: freeAddrs pre :=
  List.getLast_mem _

/-- After the last free block before `b`, the list goes on to the first free block after `b`,
or back to `base`. -/
theorem Shows.next_lastFree (inv : Shows base brk h lo (pre ++ b :: post)) (used : b.free = false) :
    h.next (lastFree base pre) = (freeAddrs post).headD base := by
  have ring := inv.ring
  rw [ring_split used, lastFree_split, List.append_assoc, List.singleton_append] at ring
  exact ring.next

theorem Shows.lastFree_lt (inv : Shows base brk h lo (pre ++ b :: post)) :
    (lastFree base pre).toNat < b.addr.toNat :=
  inv.ring_around.1 _ (lastFree_mem base pre)

/-- The first half of `free`: `b`'s header gets the size of `b` joined to a free block right
after it, and the link to the free block after those; no other header changes. -/
theorem joinUpper_spec (inv : Shows base brk h lo (pre ++ b :: post)) (used : b.free = false) :
    ((h.joinUpper b.addr (lastFree base pre)).hdr b.addr).size = (joinNext b post).1.size ∧
      (h.joinUpper b.addr (lastFree base pre)).next b.addr = (freeAddrs (joinNext b post).2).headD base ∧
      ∀ q ≠ b.addr, (h.joinUpper b.addr (lastFree base pre)).hdr q = h.hdr q := by
  have frame : ∀ q ≠ b.addr, (h.joinUpper b.addr (lastFree base pre)).hdr q = h.hdr q := by
    intro q ne
    unfold Heap.joinUpper
    split <;> simp [Heap.setPtr_hdr_of_ne ne, Heap.setSize_hdr_of_ne ne]
  have size := inv.sizes b (by simp)
  -- the test `bp + bp->s.size == p->s.ptr` compares `b`'s end with the next free block
  have test : b.addr + (h.hdr b.addr).size * headerSize = (h.hdr (lastFree base pre)).ptr ↔
      b.stop = ((freeAddrs post).headD base).toNat := by
    rw [← inv.stop_eq (by simp), UInt32.toNat_inj]
    exact Iff.of_eq (congrArg _ (inv.next_lastFree used))
  have hb := inv.tiles.bounds b (by simp)
  unfold Block.stop at hb
  -- apart from a free block right after `b`, the list goes on to `base` or beyond `b`'s end
  have linked : ¬ b.stop = ((freeAddrs post).headD base).toNat →
      (h.joinUpper b.addr (lastFree base pre)).next b.addr = (freeAddrs post).headD base := by
    intro apart
    rw [Heap.joinUpper, if_neg (apart ∘ test.mp), Heap.setPtr_next_self]
    exact inv.next_lastFree used
  cases post with
  | nil =>
    have apart : ¬ b.stop = ((freeAddrs []).headD base).toNat := by
      have := inv.below
      simp only [freeAddrs_nil, List.headD_nil, Block.stop]
      omega
    refine ⟨?_, linked apart, frame⟩
    rw [Heap.joinUpper, if_neg (apart ∘ test.mp), Heap.setPtr_size, size]
    rfl
  | cons c post =>
    have at_c : c.addr.toNat = b.stop := inv.tiles.adjacent
    cases free : c.free
    · -- `c` is in use: the next free block lies beyond it
      have apart : ¬ b.stop = ((freeAddrs (c :: post)).headD base).toNat := by
        have after := (Tiles.around (by simpa using inv.tiles : Tiles lo ((pre ++ [b]) ++ c :: post) (brk h.kernel))).2
        have hc := (inv.tiles.bounds c (by simp)).2.2
        rw [freeAddrs_cons, if_neg (by simp [free])]
        unfold Block.stop at at_c after
        cases first : freeAddrs post with
        | nil =>
          have := inv.below
          simp only [List.headD_nil, Block.stop]
          omega
        | cons x rest =>
          obtain ⟨d, hd, -, rfl⟩ := mem_freeAddrs.mp (first ▸ List.mem_cons_self : x ∈ freeAddrs post)
          have := after d hd
          simp only [List.headD_cons, Block.stop]
          omega
      have joined : joinNext b (c :: post) = (⟨b.addr, b.size, true⟩, c :: post) := by
        simp [joinNext, free]
      refine ⟨?_, by rw [joined]; exact linked apart, frame⟩
      rw [Heap.joinUpper, if_neg (apart ∘ test.mp), Heap.setPtr_size, size, joined]
    · -- `c` is free and starts at `b`'s end: the two are joined
      have first : (freeAddrs (c :: post)).headD base = c.addr := by simp [freeAddrs_cons, free]
      have join : b.addr + (h.hdr b.addr).size * headerSize = (h.hdr (lastFree base pre)).ptr :=
        test.mpr (by rw [first, at_c])
      have ptr : (h.hdr (lastFree base pre)).ptr = c.addr := (inv.next_lastFree used).trans first
      have ne : c.addr ≠ b.addr := fun same => by
        rw [same] at at_c
        unfold Block.stop at at_c
        omega
      have after_c : h.next c.addr = (freeAddrs post).headD base := by
        have ring := inv.ring
        rw [ring_split used, freeAddrs_cons, if_pos free] at ring
        exact ring.next
      have joined : joinNext b (c :: post) = (⟨b.addr, b.size + c.size, true⟩, post) := by
        simp [joinNext, free]
      refine ⟨?_, ?_, frame⟩ <;> rw [Heap.joinUpper, if_pos join] <;> dsimp only <;> rw [ptr]
      · rw [Heap.setPtr_size, Heap.setSize_size_self, size, inv.sizes c (by simp), joined]
      · have below : lastFree base pre ≠ b.addr := fun same => by
          have := inv.lastFree_lt
          rw [same] at this
          omega
        rw [Heap.setPtr_next_self, Heap.setSize_hdr_of_ne below, ptr, Heap.setSize_hdr_of_ne ne, joined]
        exact after_c

/-- `free`'s test holds, on the list, at the last free block before `b` alone. -/
theorem Shows.freeStop_only (inv : Shows base brk h lo (pre ++ b :: post)) (used : b.free = false) :
    ∀ a ∈ base :: freeAddrs (pre ++ b :: post), freeStop h b.addr a = true ↔ a = lastFree base pre := by
  obtain ⟨below, above⟩ := inv.ring_around
  have last := List.dropLast_append_getLast (List.cons_ne_nil base (freeAddrs pre))
  have cut : base :: freeAddrs (pre ++ b :: post) =
      (base :: freeAddrs pre).dropLast ++ (base :: freeAddrs pre).getLast (List.cons_ne_nil _ _) :: freeAddrs post := by
    rw [ring_split used]
    conv_lhs => rw [← last]
    simp
  rw [← last] at below
  intro a ha
  exact freeStop_iff.trans (inv.ring.gap_iff inv.sorted cut below above ha)

/-- `free`'s loop, from wherever `freep` is on the list, stops at the last free block below the
block freed, or at `base`. -/
theorem freeSearch_finds (inv : Shows base brk h lo (pre ++ b :: post)) (used : b.free = false) {k : Nat}
    {p : UInt32} (found : freeSearch h b.addr k h.freep = some p) : p = lastFree base pre := by
  rw [freeSearch_eq_search] at found
  obtain ⟨mem, stop⟩ := search_mem (fun a ha => inv.ring.closed ha) inv.freep found
  exact (inv.freeStop_only used p mem).mp stop

/-- With fuel for one turn of the list, `free`'s loop finds that block. -/
theorem freeSearch_some (inv : Shows base brk h lo (pre ++ b :: post)) (used : b.free = false) {k : Nat}
    (fuel : (freeAddrs (pre ++ b :: post)).length + 1 ≤ k) : freeSearch h b.addr k h.freep = some (lastFree base pre) := by
  have last : lastFree base pre ∈ base :: freeAddrs (pre ++ b :: post) := by
    rw [ring_split used]
    exact List.mem_append_left _ (lastFree_mem base pre)
  rw [freeSearch_eq_search]
  exact search_cycle inv.ring inv.nodup inv.freep last (inv.freeStop_only used) fuel

/-- The second half of `free`, when the block before `b` is free: it ends where `b` starts, and
`b` is joined into it. -/
theorem joinLower_of_free {pre' : List Block} {a : Block} {h₁ : Heap σ}
    (inv : Shows base brk h lo (pre' ++ [a] ++ b :: post)) (free : a.free = true)
    (frame : ∀ q ≠ b.addr, h₁.hdr q = h.hdr q) :
    lastFree base (pre' ++ [a]) = a.addr ∧
      h₁.joinLower b.addr a.addr =
        (h₁.setSize a.addr (a.size + (h₁.hdr b.addr).size)).setPtr a.addr (h₁.hdr b.addr).ptr := by
  have last : lastFree base (pre' ++ [a]) = a.addr := by
    simp [lastFree, freeAddrs_append, freeAddrs_cons, free]
  have tiles : Tiles lo (pre' ++ a :: b :: post) (brk h.kernel) := by simpa using inv.tiles
  have at_b : b.addr.toNat = a.stop := tiles.adjacent
  have ne : b.addr ≠ a.addr := fun same => by
    have := (tiles.bounds a (by simp)).2.2
    rw [same] at at_b
    unfold Block.stop at at_b
    omega
  have join : a.addr + (h₁.hdr a.addr).size * headerSize = b.addr := by
    rw [frame _ (Ne.symm ne)]
    apply UInt32.toNat_inj.mp
    rw [inv.stop_eq (by simp), at_b]
  refine ⟨last, ?_⟩
  rw [Heap.joinLower, if_pos join]
  dsimp only
  rw [Heap.setSize_hdr_of_ne ne, frame _ (Ne.symm ne), inv.sizes a (by simp)]

/-- The second half of `free`, when the block before `b` is in use: the last free block before
`b`, or `base`, ends before it, and is linked to it. -/
theorem joinLower_of_used {h₁ : Heap σ} (inv : Shows base brk h lo (pre ++ b :: post))
    (used : ∀ a ∈ pre.getLast?, a.free = false) (frame : ∀ q ≠ b.addr, h₁.hdr q = h.hdr q) :
    h₁.joinLower b.addr (lastFree base pre) = h₁.setPtr (lastFree base pre) b.addr := by
  have ne : lastFree base pre ≠ b.addr := fun same => by
    have := inv.lastFree_lt
    rw [same] at this
    omega
  rw [Heap.joinLower, if_neg]
  intro join
  have ends := congrArg UInt32.toNat join
  rcases List.mem_cons.mp (lastFree_mem base pre) with same | mem
  · -- `base`, of size `0`, lies below the heap
    rw [frame _ ne, same, inv.base_size] at ends
    have := (inv.tiles.bounds b (by simp)).1
    have := inv.below
    simp only [UInt32.zero_mul, UInt32.add_zero] at ends
    omega
  · -- a free block before `b` is not the last block before it, which is in use
    obtain ⟨d, hd, free, same⟩ := mem_freeAddrs.mp mem
    rw [frame _ ne, ← same, inv.stop_eq (by simp [hd])] at ends
    obtain ⟨pre, l, rfl⟩ : ∃ pre' l, pre = pre' ++ [l] := by
      rcases List.eq_nil_or_concat pre with rfl | ⟨pre', l, rfl⟩
      · cases hd
      · exact ⟨pre', l, List.concat_eq_append⟩
    have d_before : d ∈ pre := by
      rcases List.mem_append.mp hd with hd | hd
      · exact hd
      · rw [List.mem_singleton.mp hd, used l (by simp)] at free
        cases free
    have tiles : Tiles lo (pre ++ l :: b :: post) (brk h.kernel) := by simpa using inv.tiles
    have := tiles.adjacent
    have := (Tiles.around (by simpa using inv.tiles : Tiles lo (pre ++ l :: ([b] ++ post)) (brk h.kernel))).1 d d_before
    have := (inv.tiles.bounds l (by simp)).2.2
    unfold Block.stop at *
    omega

theorem Heap.joinUpper_kernel {h : Heap σ} {bp p : UInt32} : (h.joinUpper bp p).kernel = h.kernel := by
  unfold Heap.joinUpper
  split <;> rfl

/-- Where a list has no repeats, the nodes around `p` are not `p`. -/
theorem ne_of_nodup_middle {P Q : List UInt32} {p x : UInt32} (distinct : (P ++ p :: Q).Nodup) (hx : x ∈ P ++ Q) :
    x ≠ p := fun same => (List.nodup_cons.mp (List.nodup_middle.mp distinct)).1 (same ▸ hx)

theorem lastFree_of_free {pre' : List Block} {a : Block} (free : a.free = true) :
    lastFree base (pre' ++ [a]) = a.addr := by
  simp [lastFree, freeAddrs_append, freeAddrs_cons, free]

/-- `free` of `b` after a free block `a` that ends where `b` starts: `a` takes `b` in. -/
theorem free_shows_joined {pre' : List Block} {a : Block} (inv : Shows base brk h lo (pre' ++ [a] ++ b :: post))
    (used : b.free = false) (free : a.free = true) :
    Shows base brk { (h.joinUpper b.addr a.addr).joinLower b.addr a.addr with freep := a.addr } lo
      (release (pre' ++ [a]) b post) := by
  obtain ⟨size₁, next₁, frame₁⟩ := joinUpper_spec inv used
  rw [lastFree_of_free free] at size₁ next₁ frame₁
  rw [(joinLower_of_free inv free frame₁).2]
  -- `free` writes the headers of `a` and `b` only, and `a` lies below `b`
  have a_lt := inv.lastFree_lt
  rw [lastFree_of_free free] at a_lt
  have unchanged : ∀ q, q.toNat ≠ a.addr.toNat → q ≠ b.addr →
      (((h.joinUpper b.addr a.addr).setSize a.addr (a.size + ((h.joinUpper b.addr a.addr).hdr b.addr).size)).setPtr
        a.addr ((h.joinUpper b.addr a.addr).hdr b.addr).ptr).hdr q = h.hdr q := by
    intro q na nb
    have na : q ≠ a.addr := fun same => na (congrArg UInt32.toNat same)
    rw [Heap.setPtr_hdr_of_ne na, Heap.setSize_hdr_of_ne na, frame₁ q nb]
  have kernel : (h.joinUpper b.addr a.addr).kernel = h.kernel := Heap.joinUpper_kernel
  obtain ⟨S, hS⟩ := freeAddrs_joinNext b post
  have ring_eq : base :: freeAddrs (pre' ++ [a] ++ b :: post) =
      (base :: freeAddrs pre') ++ a.addr :: (S ++ freeAddrs (joinNext b post).2) := by
    rw [ring_split used, hS]
    simp [freeAddrs_append, freeAddrs_cons, free]
  have old := inv.ring
  have distinct := inv.nodup
  have off := inv.used_not_mem (b := b) (by simp) used
  rw [ring_eq] at old distinct off
  refine ⟨?_, inv.below, by simpa [kernel] using inv.top, fun d hd => ?_, ?_, ?_, ?_, release_coalesced inv.coalesced⟩
  · simpa [kernel] using release_tiles inv.tiles (by have := inv.top; omega)
  · -- the blocks before `a` and after `b` keep their headers
    obtain ⟨before_b, after_b⟩ := inv.tiles.around
    obtain ⟨before_a, -⟩ := Tiles.around (by simpa using inv.tiles : Tiles lo (pre' ++ a :: ([b] ++ post)) (brk h.kernel))
    rw [release_of_free free] at hd
    rcases List.mem_append.mp hd with hd | hd
    · have := before_a d hd
      have := (inv.tiles.bounds d (by simp [hd])).2.2
      unfold Block.stop at *
      exact (unchanged d.addr (by omega) (UInt32.ne_of_lt (UInt32.lt_iff_toNat_lt.mpr (by omega)))).symm ▸
        inv.sizes d (by simp [hd])
    rcases List.mem_cons.mp hd with rfl | hd
    · simp only [Heap.setPtr_size, Heap.setSize_size_self, size₁]
    · have hd := mem_joinNext hd
      have := after_b d hd
      have := (inv.tiles.bounds b (by simp)).2.2
      unfold Block.stop at *
      have nb : d.addr ≠ b.addr := Ne.symm (UInt32.ne_of_lt (UInt32.lt_iff_toNat_lt.mpr (by omega)))
      exact (unchanged d.addr (by omega) nb).symm ▸ inv.sizes d (by simp [hd])
  · -- `base` lies below the heap
    have := inv.below
    have := (inv.tiles.bounds a (by simp)).1
    exact (congrArg Header.size (unchanged base (by omega)
      (UInt32.ne_of_lt (UInt32.lt_iff_toNat_lt.mpr (by omega))))).trans inv.base_size
  · -- the block after `b`, if it was free, leaves the list, and `a` links past it
    have new_eq : base :: freeAddrs (release (pre' ++ [a]) b post) =
        (base :: freeAddrs pre') ++ a.addr :: [] ++ freeAddrs (joinNext b post).2 := by
      rw [release_of_free free]
      simp [freeAddrs_append, freeAddrs_cons]
    rw [new_eq]
    refine (show Walk h.next ((base :: freeAddrs pre') ++ a.addr :: S ++ freeAddrs (joinNext b post).2) base by
      simpa using old).splice ⟨?_, trivial⟩ fun x hx => ?_
    · show (((h.joinUpper b.addr a.addr).setSize _ _).setPtr a.addr _).next a.addr = _
      rw [Heap.setPtr_next_self]
      exact next₁
    · have in_ring : x ∈ (base :: freeAddrs pre') ++ a.addr :: (S ++ freeAddrs (joinNext b post).2) := by
        simp only [List.mem_append, List.mem_cons] at hx ⊢
        tauto
      have na := ne_of_nodup_middle distinct (by simp only [List.mem_append] at hx ⊢; tauto)
      have nb : x ≠ b.addr := fun same => off (same ▸ in_ring)
      show (((h.joinUpper b.addr a.addr).setSize _ _).setPtr a.addr _).next x = h.next x
      simp only [Heap.next, unchanged x (fun e => na (UInt32.toNat_inj.mp e)) nb]
  · rw [release_of_free free]
    simp [freeAddrs_append, freeAddrs_cons]

/-- `free` of `b` when the block before it is in use, or there is none: `b` goes on the list
after the last free block before it. -/
theorem free_shows_linked (inv : Shows base brk h lo (pre ++ b :: post)) (used : b.free = false)
    (used_last : ∀ a ∈ pre.getLast?, a.free = false) :
    Shows base brk { (h.joinUpper b.addr (lastFree base pre)).joinLower b.addr (lastFree base pre) with
      freep := lastFree base pre } lo (release pre b post) := by
  obtain ⟨size₁, next₁, frame₁⟩ := joinUpper_spec inv used
  rw [joinLower_of_used inv used_last frame₁]
  have p_lt := inv.lastFree_lt
  have np : b.addr ≠ lastFree base pre := Ne.symm (UInt32.ne_of_lt (UInt32.lt_iff_toNat_lt.mpr p_lt))
  have kernel : (h.joinUpper b.addr (lastFree base pre)).kernel = h.kernel := Heap.joinUpper_kernel
  obtain ⟨S, hS⟩ := freeAddrs_joinNext b post
  have ring_eq : base :: freeAddrs (pre ++ b :: post) =
      (base :: freeAddrs pre).dropLast ++ lastFree base pre :: (S ++ freeAddrs (joinNext b post).2) := by
    rw [ring_split used, hS]
    conv_lhs => rw [lastFree_split]
    simp
  have old := inv.ring
  have distinct := inv.nodup
  have off := inv.used_not_mem (b := b) (by simp) used
  rw [ring_eq] at old distinct off
  -- sizes are those of `h`, but at `b`
  have sizes : ∀ q ≠ b.addr, (((h.joinUpper b.addr (lastFree base pre)).setPtr (lastFree base pre) b.addr).hdr q).size =
      (h.hdr q).size := by
    intro q nb
    rw [Heap.setPtr_size, frame₁ q nb]
  refine ⟨?_, inv.below, by simpa [kernel] using inv.top, fun d hd => ?_, ?_, ?_, ?_, release_coalesced inv.coalesced⟩
  · simpa [kernel] using release_tiles inv.tiles (by have := inv.top; omega)
  · obtain ⟨before_b, after_b⟩ := inv.tiles.around
    have hb := (inv.tiles.bounds b (by simp)).2.2
    rw [release_of_used used_last] at hd
    rcases List.mem_append.mp hd with hd | hd
    · have := before_b d hd
      have := (inv.tiles.bounds d (by simp [hd])).2.2
      unfold Block.stop at *
      exact (sizes _ (UInt32.ne_of_lt (UInt32.lt_iff_toNat_lt.mpr (by omega)))).trans (inv.sizes d (by simp [hd]))
    rcases List.mem_cons.mp hd with rfl | hd
    · simp only [Heap.setPtr_size, joinNext_addr, size₁]
    · have hd := mem_joinNext hd
      have := after_b d hd
      unfold Block.stop at *
      exact (sizes _ (Ne.symm (UInt32.ne_of_lt (UInt32.lt_iff_toNat_lt.mpr (by omega))))).trans
        (inv.sizes d (by simp [hd]))
  · have := inv.below
    have := (inv.tiles.bounds b (by simp)).1
    exact (sizes _ (UInt32.ne_of_lt (UInt32.lt_iff_toNat_lt.mpr (by omega)))).trans inv.base_size
  · -- `b` goes between the last free block before it and the first after the joined block
    have new_eq : base :: freeAddrs (release pre b post) =
        (base :: freeAddrs pre).dropLast ++ lastFree base pre :: [b.addr] ++ freeAddrs (joinNext b post).2 := by
      rw [release_of_used used_last, freeAddrs_append, freeAddrs_cons, if_pos joinNext_free, joinNext_addr]
      conv_lhs => rw [← List.cons_append, lastFree_split]
      simp
    rw [new_eq]
    refine (show Walk h.next ((base :: freeAddrs pre).dropLast ++ lastFree base pre :: S ++
        freeAddrs (joinNext b post).2) base by simpa using old).splice ⟨?_, ?_, trivial⟩ fun x hx => ?_
    · exact Heap.setPtr_next_self
    · show ((h.joinUpper b.addr (lastFree base pre)).setPtr (lastFree base pre) b.addr).next b.addr = _
      rw [Heap.setPtr_next_of_ne np]
      exact next₁
    · have in_ring : x ∈ (base :: freeAddrs pre).dropLast ++ lastFree base pre :: (S ++ freeAddrs (joinNext b post).2) := by
        simp only [List.mem_append, List.mem_cons] at hx ⊢
        tauto
      have na := ne_of_nodup_middle distinct (by simp only [List.mem_append] at hx ⊢; tauto)
      have nb : x ≠ b.addr := fun same => off (same ▸ in_ring)
      show ((h.joinUpper b.addr (lastFree base pre)).setPtr (lastFree base pre) b.addr).next x = h.next x
      rw [Heap.setPtr_next_of_ne na]
      simp only [Heap.next, frame₁ x nb]
  · rw [release_of_used used_last]
    have := lastFree_mem base pre
    simp only [freeAddrs_append, List.mem_cons, List.mem_append] at this ⊢
    tauto

/-- `free` of a block in use: the blocks are `release`d, and `freep` is left at the last free
block before it. -/
theorem free_shows {k : Nat} {h' : Heap σ} (inv : Shows base brk h lo (pre ++ b :: post)) (used : b.free = false)
    (run : free k h (b.addr + headerSize) = some h') :
    Shows base brk h' lo (release pre b post) ∧ h'.freep = lastFree base pre := by
  rw [free_eq, add_headerSize_sub] at run
  obtain ⟨p, found, rfl⟩ := Option.map_eq_some_iff.mp run
  obtain rfl := freeSearch_finds inv used found
  refine ⟨?_, rfl⟩
  rcases last_cases pre with ⟨pre', a, rfl, free⟩ | used_last
  · rw [lastFree_of_free free]
    exact free_shows_joined inv used free
  · exact free_shows_linked inv used used_last

/-- `free` of a block in use returns, with fuel for one turn of the list. -/
theorem free_some {k : Nat} (inv : Shows base brk h lo (pre ++ b :: post)) (used : b.free = false)
    (fuel : (freeAddrs (pre ++ b :: post)).length + 1 ≤ k) : free k h (b.addr + headerSize) ≠ none := by
  rw [free_eq, add_headerSize_sub, freeSearch_some inv used fuel]
  simp

end free

/-! ## `malloc` taking a block -/

section take

variable {base : UInt32} {brk : σ → Nat} {h : Heap σ} {lo : Nat} {pre post : List Block} {c : Block}

/-- With `c` free, the list runs through the last free block before `c` to `c`. -/
theorem ring_split_free (free : c.free = true) :
    base :: freeAddrs (pre ++ c :: post) =
      (base :: freeAddrs pre).dropLast ++ lastFree base pre :: [c.addr] ++ freeAddrs post := by
  simp only [freeAddrs_append, freeAddrs_cons, if_pos free]
  conv_lhs => rw [← List.cons_append, lastFree_split]
  simp

/-- The last free block before `c` links to `c`. -/
theorem Shows.next_lastFree_free (inv : Shows base brk h lo (pre ++ c :: post)) (free : c.free = true) :
    h.next (lastFree base pre) = c.addr := by
  have ring := inv.ring
  rw [ring_split_free free, List.append_assoc] at ring
  exact ring.next

/-- On the list, only the last free block before `c` links to it. -/
theorem Shows.prev_eq (inv : Shows base brk h lo (pre ++ c :: post)) (free : c.free = true) {prevp : UInt32}
    (prev : prevp ∈ base :: freeAddrs (pre ++ c :: post)) (link : h.next prevp = c.addr) :
    prevp = lastFree base pre := by
  have last : lastFree base pre ∈ base :: freeAddrs (pre ++ c :: post) := by
    rw [ring_split_free free]
    simp
  exact inv.ring.injOn inv.nodup prev last (link.trans (inv.next_lastFree_free free).symm)

/-- `malloc` taking the free block `c` whole: the block before it on the list links past it. -/
theorem take_whole_shows (inv : Shows base brk h lo (pre ++ c :: post)) (free : c.free = true) :
    Shows base brk { h.setPtr (lastFree base pre) (h.hdr c.addr).ptr with freep := lastFree base pre } lo
      (carve pre c post c.size) := by
  have whole : carve pre c post c.size = pre ++ ⟨c.addr, c.size, false⟩ :: post := if_pos rfl
  have hc := inv.tiles.bounds c (by simp)
  have old := inv.ring
  have distinct := inv.nodup
  rw [ring_split_free free] at old distinct
  refine ⟨?_, inv.below, inv.top, fun d hd => ?_, ?_, ?_, ?_, carve_coalesced inv.coalesced free⟩
  · show Tiles lo (carve pre c post c.size) (brk h.kernel)
    exact carve_tiles inv.tiles (by have := inv.top; omega) (UInt32.le_refl _) hc.2.2
  · -- the blocks keep their addresses and sizes
    rw [whole] at hd
    show ((h.setPtr _ _).hdr d.addr).size = d.size
    rw [Heap.setPtr_size]
    rcases List.mem_append.mp hd with hd | hd
    · exact inv.sizes d (by simp [hd])
    rcases List.mem_cons.mp hd with rfl | hd
    · exact inv.sizes c (by simp)
    · exact inv.sizes d (by simp [hd])
  · exact (Heap.setPtr_size _ _ _ _).trans inv.base_size
  · -- `c` leaves the list
    have new_eq : base :: freeAddrs (carve pre c post c.size) =
        (base :: freeAddrs pre).dropLast ++ lastFree base pre :: [] ++ freeAddrs post := by
      rw [freeAddrs_carve, if_pos rfl]
      conv_lhs => rw [List.append_nil, ← List.cons_append, lastFree_split]
    rw [new_eq]
    refine old.splice ⟨?_, trivial⟩ fun x hx => ?_
    · show (h.setPtr _ _).next _ = _
      rw [Heap.setPtr_next_self]
      exact (show Walk h.next ((base :: freeAddrs pre).dropLast ++ [lastFree base pre] ++ c.addr :: freeAddrs post) base by
        simpa using old).next
    · have na := ne_of_nodup_middle (by simpa using distinct) (by simp only [List.mem_append] at hx ⊢; tauto)
      exact Heap.setPtr_next_of_ne na
  · rw [freeAddrs_carve, if_pos rfl]
    have := lastFree_mem base pre
    simp only [List.append_nil, List.mem_cons, List.mem_append] at this ⊢
    tauto

/-- `malloc` cutting `n` headers off the end of the free block `c`: `c` keeps the rest, and the
list is as it was. -/
theorem take_cut_shows (inv : Shows base brk h lo (pre ++ c :: post)) (free : c.free = true) {n : UInt32}
    (fit : n < c.size) (pos : 0 < n.toNat) {prevp : UInt32} (prev : prevp ∈ base :: freeAddrs (pre ++ c :: post)) :
    Shows base brk { (h.setSize c.addr (c.size - n)).setSize (c.addr + (c.size - n) * headerSize) n with freep := prevp }
      lo (carve pre c post n) := by
  have hc := inv.tiles.bounds c (by simp)
  have top := inv.top
  unfold Block.stop at hc
  have lt := UInt32.lt_iff_toNat_lt.mp fit
  have sub : (c.size - n).toNat = c.size.toNat - n.toNat := UInt32.toNat_sub_of_le _ _ (UInt32.le_of_lt fit)
  -- the cut lies strictly inside `c`
  have cut : (c.addr + (c.size - n) * headerSize).toNat = c.addr.toNat + 8 * (c.size.toNat - n.toNat) := by
    rw [UInt32.toNat_add, UInt32.toNat_mul, sub]
    simp only [headerSize, UInt32.reduceToNat]
    omega
  have outside : ∀ d ∈ pre ++ post, d.addr.toNat < c.addr.toNat ∨ c.stop ≤ d.addr.toNat := by
    obtain ⟨before, after⟩ := inv.tiles.around
    intro d hd
    rcases List.mem_append.mp hd with hd | hd
    · have := before d hd
      have := (inv.tiles.bounds d (by simp [hd])).2.2
      unfold Block.stop at *
      exact .inl (by omega)
    · exact .inr (after d hd)
  have untouched : ∀ q : UInt32, (q.toNat < c.addr.toNat ∨ c.stop ≤ q.toNat) →
      (((h.setSize c.addr (c.size - n)).setSize (c.addr + (c.size - n) * headerSize) n).hdr q) = h.hdr q := by
    intro q away
    unfold Block.stop at away
    have n₁ : q ≠ c.addr := fun same => by rw [same] at away; omega
    have n₂ : q ≠ c.addr + (c.size - n) * headerSize := fun same => by rw [same, cut] at away; omega
    rw [Heap.setSize_hdr_of_ne n₂, Heap.setSize_hdr_of_ne n₁]
  have same_next : ((h.setSize c.addr (c.size - n)).setSize (c.addr + (c.size - n) * headerSize) n).next = h.next := by
    funext x
    simp
  refine ⟨?_, inv.below, top, fun d hd => ?_, ?_, ?_, ?_, carve_coalesced inv.coalesced free⟩
  · show Tiles lo (carve pre c post n) (brk h.kernel)
    exact carve_tiles inv.tiles (by omega) (UInt32.le_of_lt fit) pos
  · unfold carve at hd
    rw [if_neg (fun e => by rw [e] at lt; omega)] at hd
    rcases List.mem_append.mp hd with hd | hd
    · exact (congrArg Header.size (untouched d.addr (outside d (by simp [hd])))).trans (inv.sizes d (by simp [hd]))
    rcases List.mem_cons.mp hd with rfl | hd
    · have ne : c.addr ≠ c.addr + (c.size - n) * headerSize := fun same => by
        have := congrArg UInt32.toNat same
        rw [cut] at this
        omega
      show (((h.setSize _ _).setSize _ _).hdr c.addr).size = _
      rw [Heap.setSize_hdr_of_ne ne, Heap.setSize_size_self]
    rcases List.mem_cons.mp hd with rfl | hd
    · exact Heap.setSize_size_self _ _ _
    · exact (congrArg Header.size (untouched d.addr (outside d (by simp [hd])))).trans (inv.sizes d (by simp [hd]))
  · have := inv.below
    exact (congrArg Header.size (untouched base (by omega))).trans inv.base_size
  · show Walk (Heap.next ((h.setSize _ _).setSize _ _)) _ _
    rw [same_next, freeAddrs_carve, if_neg (fun e => by rw [e] at lt; omega)]
    simpa [freeAddrs_cons, free] using inv.ring
  · rw [freeAddrs_carve, if_neg (fun e => by rw [e] at lt; omega)]
    simpa [freeAddrs_cons, free] using prev

end take

/-! ## `morecore` and `malloc`'s loop -/

/-- What `malloc` needs of `sbrk(n)` for `n ≥ 0`, from a break at most `KERNBASE`: it returns
`(char*)-1` and keeps the break, or returns the break and moves it `n` bytes up, to at most
`KERNBASE` (past it `growproc` fails). -/
def SbrkSpec (sbrk : σ → Int32 → Option (UInt32 × σ)) (brk : σ → Nat) : Prop :=
  ∀ k n p k', brk k ≤ 2 ^ 31 → 0 ≤ n.toInt → sbrk k n = some (p, k') →
    (p = 0xFFFFFFFF ∧ brk k' = brk k) ∨ (p.toNat = brk k ∧ brk k' = brk k + n.toInt.toNat ∧ brk k' ≤ 2 ^ 31)

/-- `nu * sizeof(Header)` as the `int` that `sbrk` gets, for `nu` below `2^28`. -/
theorem toInt_amount {nu : UInt32} (small : nu.toNat < 2 ^ 28) :
    (nu * headerSize).toInt32.toInt = ((nu.toNat * 8 : Nat) : Int) := by
  have mul : (nu * headerSize).toNat = nu.toNat * 8 := by
    rw [UInt32.toNat_mul]
    simp only [headerSize, UInt32.reduceToNat]
    omega
  rw [← Int32.toInt_toBitVec, UInt32.toBitVec_toInt32,
    BitVec.toInt_eq_toNat_of_lt (by rw [UInt32.toNat_toBitVec, mul]; omega), UInt32.toNat_toBitVec, mul]

section more

variable {base : UInt32} {brk : σ → Nat} {h : Heap σ} {lo : Nat} {bs : List Block}

/-- The kernel's state enters the invariant through the break alone. -/
theorem Shows.kernel (inv : Shows base brk h lo bs) {k : σ} (same : brk k = brk h.kernel) :
    Shows base brk { h with kernel := k } lo bs :=
  ⟨by rw [show ({ h with kernel := k } : Heap σ).kernel = k from rfl, same]; exact inv.tiles, inv.below,
    by rw [show ({ h with kernel := k } : Heap σ).kernel = k from rfl, same]; exact inv.top,
    inv.sizes, inv.base_size, inv.ring, inv.freep, inv.coalesced⟩

/-- `morecore` after `sbrk` moved the break: a block in use from the old break to the new. -/
theorem extend_shows (inv : Shows base brk h lo bs) {k : σ} {p nu : UInt32} (at_ : p.toNat = brk h.kernel)
    (grown : brk k = brk h.kernel + 8 * nu.toNat) (top : brk k ≤ 2 ^ 31) (pos : 0 < nu.toNat) :
    Shows base brk ({ h with kernel := k }.setSize p nu) lo (bs ++ [⟨p, nu, false⟩]) := by
  -- every header so far lies below the old break, where the new block starts
  have fresh : ∀ q : UInt32, q.toNat < brk h.kernel → ({ h with kernel := k }.setSize p nu).hdr q = h.hdr q := by
    intro q lt
    exact Heap.setSize_hdr_of_ne fun same => by rw [same] at lt; omega
  have same_next : ({ h with kernel := k }.setSize p nu).next = h.next := by
    funext x
    simp only [Heap.setSize_next]
    rfl
  refine ⟨?_, inv.below, top, fun d hd => ?_, ?_, ?_, ?_, coalesced_extend inv.coalesced⟩
  · show Tiles lo _ (brk k)
    rw [grown]
    exact tiles_extend inv.tiles at_ pos false
  · rcases List.mem_append.mp hd with hd | hd
    · have := inv.tiles.bounds d hd
      unfold Block.stop at this
      exact (congrArg Header.size (fresh d.addr (by omega))).trans (inv.sizes d hd)
    · rw [List.mem_singleton.mp hd]
      exact Heap.setSize_size_self _ _ _
  · have := inv.below
    have := inv.tiles.le
    exact (congrArg Header.size (fresh base (by omega))).trans inv.base_size
  · rw [same_next]
    simpa [freeAddrs_cons] using inv.ring
  · simpa [freeAddrs_cons] using inv.freep

variable {sbrk : σ → Int32 → Option (UInt32 × σ)}

/-- The headers `morecore` asks for: at least as many as the request, and fewer than `2^28`. -/
theorem morecore_units {n : UInt32} (pos : 0 < n.toNat) (small : n.toNat < 2 ^ 28) :
    n ≤ (if n < 4096 then 4096 else n) ∧ 0 < (if n < 4096 then 4096 else n).toNat ∧
      (if n < 4096 then 4096 else n).toNat < 2 ^ 28 := by
  split
  · rename_i lt
    exact ⟨UInt32.le_of_lt lt, by decide, by decide⟩
  · exact ⟨UInt32.le_refl n, pos, small⟩

/-- A break at most `2^31` is not `sbrk`'s `-1`. -/
theorem break_ne {p : UInt32} {m : Nat} (at_ : p.toNat = m) (top : m ≤ 2 ^ 31) : p ≠ 0xFFFFFFFF := by
  intro same
  rw [same] at at_
  simp only [UInt32.reduceToNat] at at_
  omega

/-- `morecore` once `sbrk` has answered: `0` when it failed, else the new block freed. -/
theorem morecore_eq {fuel : Nat} {n p : UInt32} {k : σ}
    (grant : sbrk h.kernel ((if n < 4096 then 4096 else n) * headerSize).toInt32 = some (p, k)) :
    morecore sbrk fuel h n =
      if p = 0xFFFFFFFF then some (0, { h with kernel := k })
      else (free fuel ({ h with kernel := k }.setSize p (if n < 4096 then 4096 else n)) (p + headerSize)).bind
        fun h => some (h.freep, h) := by
  unfold morecore
  simp only [grant]
  rfl

/-- Without an answer from `sbrk`, no result. -/
theorem morecore_of_none {fuel : Nat} {n : UInt32}
    (refused : sbrk h.kernel ((if n < 4096 then 4096 else n) * headerSize).toInt32 = none) :
    morecore sbrk fuel h n = none := by
  unfold morecore
  simp only [refused]
  rfl

/-- `morecore` keeps the heap and the blocks in use; it returns `0`, or `freep`, on the list. -/
theorem morecore_shows (spec : SbrkSpec sbrk brk) {fuel : Nat} {n q : UInt32} {h' : Heap σ}
    (inv : Shows base brk h lo bs) (pos : 0 < n.toNat) (small : n.toNat < 2 ^ 28)
    (run : morecore sbrk fuel h n = some (q, h')) :
    ∃ bs', Shows base brk h' lo bs' ∧ inUse bs' = inUse bs ∧ (q = 0 ∨ q = h'.freep) := by
  obtain ⟨-, nu_pos, nu_small⟩ := morecore_units pos small
  cases grant : sbrk h.kernel ((if n < 4096 then 4096 else n) * headerSize).toInt32 with
  | none => rw [morecore_of_none grant] at run; cases run
  | some x =>
    obtain ⟨p, kernel⟩ := x
    rw [morecore_eq grant] at run
    have amount := toInt_amount nu_small
    rcases spec h.kernel _ p kernel inv.top (by rw [amount]; omega) grant with ⟨fail, same⟩ | ⟨at_, grown, top⟩
    · -- `sbrk` failed: `0`, and the heap as it was
      rw [if_pos fail] at run
      obtain ⟨rfl, rfl⟩ := Prod.mk.inj (Option.some.inj run)
      exact ⟨bs, inv.kernel same, rfl, .inl rfl⟩
    · rw [if_neg (break_ne at_ inv.top)] at run
      obtain ⟨h₂, freed, run⟩ := Option.bind_eq_some_iff.mp run
      obtain ⟨rfl, rfl⟩ := Prod.mk.inj (Option.some.inj run)
      rw [amount, Int.toNat_natCast] at grown
      obtain ⟨inv₂, -⟩ := free_shows (extend_shows inv at_ (by omega) top nu_pos) rfl freed
      exact ⟨_, inv₂, by rw [inUse_release]; simp, .inr rfl⟩

/-- `malloc`'s loop, from a block `prevp` of the list and its successor `p`, keeps the heap; the
blocks in use are those before and, unless it returns `0`, the block of the pointer returned. -/
theorem mallocLoop_shows (spec : SbrkSpec sbrk brk) {n : UInt32} (pos : 0 < n.toNat) (small : n.toNat < 2 ^ 28) :
    ∀ (k : Nat) (prevp p : UInt32) (h h' : Heap σ) (bs : List Block) (r : UInt32),
      Shows base brk h lo bs → prevp ∈ base :: freeAddrs bs → h.next prevp = p →
      mallocLoop sbrk n k prevp p h = some (r, h') →
      ∃ bs', Shows base brk h' lo bs' ∧
        (r = 0 ∧ inUse bs' = inUse bs ∨ r ≠ 0 ∧ (inUse bs').Perm ((r - headerSize) :: inUse bs)) := by
  intro k
  induction k with
  | zero => intro prevp p h h' bs r _ _ _ run; cases run
  | succ k ih =>
    intro prevp p h h' bs r inv prev link run
    have hp : p ∈ base :: freeAddrs bs := link ▸ inv.ring.closed prev
    simp only [mallocLoop] at run
    split at run
    · -- a block large enough: a free block, since `base` has size `0`
      rename_i fits
      obtain ⟨pre, c, post, rfl, free, rfl⟩ : ∃ pre c post, bs = pre ++ c :: post ∧ c.free = true ∧ c.addr = p := by
        rcases List.mem_cons.mp hp with rfl | hp
        · rw [inv.base_size] at fits
          have := UInt32.le_iff_toNat_le.mp fits
          simp only [UInt32.reduceToNat] at this
          omega
        · obtain ⟨c, hc, free, rfl⟩ := mem_freeAddrs.mp hp
          obtain ⟨pre, post, rfl⟩ := List.append_of_mem hc
          exact ⟨pre, c, post, rfl, free, rfl⟩
      have size := inv.sizes c (by simp)
      have hc := inv.tiles.bounds c (by simp)
      have top := inv.top
      unfold Block.stop at hc
      rw [size] at fits run
      have used : inUse (pre ++ c :: post) = inUse pre ++ inUse post := by simp [inUse_cons, free]
      split at run
      · -- taken whole, by the block before it on the list
        rename_i whole
        obtain ⟨rfl, rfl⟩ := Prod.mk.inj (Option.some.inj run)
        obtain rfl := inv.prev_eq free prev link
        refine ⟨_, whole ▸ take_whole_shows inv free, .inr ⟨fun zero => ?_, ?_⟩⟩
        · have := congrArg UInt32.toNat zero
          rw [UInt32.toNat_add] at this
          simp only [headerSize, UInt32.reduceToNat] at this
          omega
        · rw [add_headerSize_sub, inUse_carve, used, ← whole, UInt32.sub_self, UInt32.zero_mul, UInt32.add_zero]
          exact List.perm_middle
      · -- its last `n` headers cut off
        rename_i cut
        have fit : n < c.size := UInt32.lt_of_le_of_ne fits (Ne.symm cut)
        obtain ⟨rfl, rfl⟩ := Prod.mk.inj (Option.some.inj run)
        simp only [Heap.setSize_size_self]
        have at_cut : (c.addr + (c.size - n) * headerSize).toNat = c.addr.toNat + 8 * (c.size.toNat - n.toNat) := by
          have lt := UInt32.lt_iff_toNat_lt.mp fit
          rw [UInt32.toNat_add, UInt32.toNat_mul, UInt32.toNat_sub_of_le _ _ fits]
          simp only [headerSize, UInt32.reduceToNat]
          omega
        refine ⟨_, take_cut_shows inv free fit pos prev, .inr ⟨fun zero => ?_, ?_⟩⟩
        · have := congrArg UInt32.toNat zero
          rw [UInt32.toNat_add, at_cut] at this
          simp only [headerSize, UInt32.reduceToNat] at this
          omega
        · rw [add_headerSize_sub, inUse_carve, used]
          exact List.perm_middle
    · split at run
      · -- round the list to `freep`: more memory, and on from where `morecore` left `freep`
        obtain ⟨⟨q, h₂⟩, grown, run⟩ := Option.bind_eq_some_iff.mp run
        obtain ⟨bs₂, inv₂, same, at_freep⟩ := morecore_shows spec inv pos small grown
        split at run
        · obtain ⟨rfl, rfl⟩ := Prod.mk.inj (Option.some.inj run)
          exact ⟨bs₂, inv₂, .inl ⟨rfl, same⟩⟩
        · rename_i nonzero
          rw [at_freep.resolve_left nonzero] at run
          obtain ⟨bs', inv', result⟩ := ih _ _ h₂ h' bs₂ r inv₂ inv₂.freep rfl run
          rw [same] at result
          exact ⟨bs', inv', result⟩
      · exact ih p _ h h' bs r inv hp rfl run

/-- `freep` is never null again once the list exists: `base` and the heap are not at `0`. -/
theorem Shows.freep_ne_zero (inv : Shows base brk h lo bs) (base_pos : 0 < base.toNat) : h.freep ≠ 0 := by
  intro zero
  have mem := inv.freep
  rw [zero] at mem
  rcases List.mem_cons.mp mem with same | mem
  · rw [← same] at base_pos
    simp at base_pos
  · obtain ⟨d, hd, -, same⟩ := mem_freeAddrs.mp mem
    have lo_le := (inv.tiles.bounds d hd).1
    have := inv.below
    rw [same] at lo_le
    simp only [UInt32.reduceToNat] at lo_le
    omega

/-- The first `malloc` makes the list `base` alone, of size `0`, with the heap empty at the break. -/
theorem init_shows (below : base.toNat < brk h.kernel) (top : brk h.kernel ≤ 2 ^ 31) :
    Shows base brk { (h.setPtr base base).setSize base 0 with freep := base } (brk h.kernel) [] :=
  ⟨rfl, below, top, by simp, Heap.setSize_size_self _ _ _, ⟨by simp [Heap.next, Heap.setSize, Heap.setPtr], trivial⟩,
    List.mem_cons_self, List.isChain_nil⟩

/-- A request below `2^31 - 16` bytes is between `1` and `2^28` headers. -/
theorem nunits_bounds {nbytes : UInt32} (small : nbytes.toNat + 16 ≤ 2 ^ 31) :
    0 < (nunits nbytes).toNat ∧ (nunits nbytes).toNat < 2 ^ 28 := by
  rw [toNat_nunits, Nat.mod_eq_of_lt (by omega)]
  omega

/-- `malloc` on a heap that has its list. -/
theorem malloc_shows (spec : SbrkSpec sbrk brk) (base_pos : 0 < base.toNat) {fuel : Nat} {nbytes r : UInt32}
    {h' : Heap σ} (small : nbytes.toNat + 16 ≤ 2 ^ 31) (inv : Shows base brk h lo bs)
    (run : malloc sbrk base fuel h nbytes = some (r, h')) :
    ∃ bs', Shows base brk h' lo bs' ∧
      (r = 0 ∧ inUse bs' = inUse bs ∨ r ≠ 0 ∧ (inUse bs').Perm ((r - headerSize) :: inUse bs)) := by
  unfold malloc at run
  rw [if_neg (inv.freep_ne_zero base_pos)] at run
  obtain ⟨pos, bound⟩ := nunits_bounds small
  exact mallocLoop_shows spec pos bound fuel _ _ h h' bs r inv inv.freep rfl run

/-- The first `malloc`: the heap starts at the break. -/
theorem malloc_shows_fresh (spec : SbrkSpec sbrk brk) {fuel : Nat} {nbytes r : UInt32} {h' : Heap σ}
    (small : nbytes.toNat + 16 ≤ 2 ^ 31) (fresh : h.freep = 0) (below : base.toNat < brk h.kernel)
    (top : brk h.kernel ≤ 2 ^ 31) (run : malloc sbrk base fuel h nbytes = some (r, h')) :
    ∃ bs', Shows base brk h' (brk h.kernel) bs' ∧
      (r = 0 ∧ inUse bs' = [] ∨ r ≠ 0 ∧ (inUse bs').Perm [r - headerSize]) := by
  unfold malloc at run
  rw [if_pos fresh] at run
  obtain ⟨pos, bound⟩ := nunits_bounds small
  exact mallocLoop_shows spec pos bound fuel _ _ _ h' [] r (init_shows below top) List.mem_cons_self rfl run

end more

end Umalloc

end Xv6
