import Xv6.Ulib.UmallocReturns

/-!
# A program's calls of `malloc` and `free`

A program calls `malloc` for fewer than `2^31 - 16` bytes at a time, and `free` only on a
pointer that `malloc` returned and that it has not freed since; `sbrk` keeps to `SbrkSpec`.
`Alloc` is the heap with the pointers the program holds, and `Call` one call.

* `Holds.call`, `Holds.run`: the invariant of `UmallocInv`, with the pointers held being the
  blocks in use, holds after every call and so after every run;
* `umalloc_run_shows`: after any run, the heap tiles from the first break, the free list runs
  from `base` through the free blocks in address order, no two free blocks are neighbours, and
  the blocks in use are those the program holds;
* `umalloc_live_apart`: the blocks the program holds lie in the heap and never overlap;
* `umalloc_calls_return`: with `sbrk` always answering, every call returns, on fuel for twice
  the heap's headers.
-/

namespace Xv6

namespace Umalloc

variable {σ : Type}

/-- The allocator as a program uses it: the heap, and the pointers `malloc` returned that the
program has not freed. -/
structure Alloc (σ : Type) where
  heap : Heap σ
  live : List UInt32

/-- One call: `malloc` of fewer than `2^31 - 16` bytes, its result kept unless it is `0`; or
`free` of a pointer the program holds. -/
inductive Call (sbrk : σ → Int32 → Option (UInt32 × σ)) (base : UInt32) : Alloc σ → Alloc σ → Prop
  | malloc {s : Alloc σ} {r : UInt32} {h : Heap σ} (fuel : Nat) (nbytes : UInt32)
      (small : nbytes.toNat + 16 ≤ 2 ^ 31) (run : Umalloc.malloc sbrk base fuel s.heap nbytes = some (r, h)) :
      Call sbrk base s ⟨h, if r = 0 then s.live else r :: s.live⟩
  | free {s : Alloc σ} {h : Heap σ} (fuel : Nat) (ap : UInt32) (held : ap ∈ s.live)
      (run : Umalloc.free fuel s.heap ap = some h) : Call sbrk base s ⟨h, s.live.erase ap⟩

/-- Before the first `malloc`, no list and nothing held, the break where the heap will start;
after it, the heap holds blocks from `lo`, and the pointers held are the blocks in use. -/
def Holds (base : UInt32) (brk : σ → Nat) (lo : Nat) (s : Alloc σ) : Prop :=
  (s.heap.freep = 0 ∧ s.live = [] ∧ brk s.heap.kernel = lo) ∨
    ∃ bs, Shows base brk s.heap lo bs ∧ s.live.Perm ((inUse bs).map (· + headerSize))

section run

variable {sbrk : σ → Int32 → Option (UInt32 × σ)} {base : UInt32} {brk : σ → Nat} {lo : Nat}
  {bs : List Block} {s s' : Alloc σ}

/-- A pointer held is `8` past the header of a block in use. -/
theorem held_block {ap : UInt32} {live : List UInt32} (perm : live.Perm ((inUse bs).map (· + headerSize)))
    (held : ap ∈ live) : ∃ pre b post, bs = pre ++ b :: post ∧ b.free = false ∧ ap = b.addr + headerSize := by
  obtain ⟨a, ha, rfl⟩ := List.mem_map.mp (perm.subset held)
  obtain ⟨b, hb, rfl⟩ := List.mem_map.mp ha
  obtain ⟨hb, used⟩ := List.mem_filter.mp hb
  obtain ⟨pre, post, rfl⟩ := List.append_of_mem hb
  exact ⟨pre, b, post, rfl, by simpa using used, rfl⟩

/-- What `malloc` returns, added to what the program holds. -/
theorem held_malloc (bs : List Block) {r : UInt32} {live : List UInt32} {bs' : List Block}
    (perm : live.Perm ((inUse bs).map (· + headerSize)))
    (result : r = 0 ∧ inUse bs' = inUse bs ∨ r ≠ 0 ∧ (inUse bs').Perm ((r - headerSize) :: inUse bs)) :
    (if r = 0 then live else r :: live).Perm ((inUse bs').map (· + headerSize)) := by
  rcases result with ⟨rfl, same⟩ | ⟨nonzero, grown⟩
  · rw [if_pos rfl, same]
    exact perm
  · rw [if_neg nonzero]
    refine List.Perm.trans ?_ (grown.map _).symm
    rw [List.map_cons, UInt32.sub_add_cancel]
    exact perm.cons r

/-- `free` of a pointer held: the block leaves the blocks in use, and the pointer the ones held. -/
theorem held_free {pre post : List Block} {b : Block} {live : List UInt32}
    (tiles : Tiles lo (pre ++ b :: post) hi) (perm : live.Perm ((inUse (pre ++ b :: post)).map (· + headerSize)))
    (used : b.free = false) :
    (live.erase (b.addr + headerSize)).Perm ((inUse (release pre b post)).map (· + headerSize)) := by
  have before : b.addr + headerSize ∉ (inUse pre).map (· + headerSize) := by
    intro mem
    obtain ⟨a, ha, same⟩ := List.mem_map.mp mem
    obtain ⟨d, hd, rfl⟩ := List.mem_map.mp ha
    have below_b := (tiles.around).1 d (List.mem_filter.mp hd).1
    have := (tiles.bounds d (by simp [(List.mem_filter.mp hd).1])).2.2
    rw [← add_right_cancel same] at below_b
    unfold Block.stop at *
    omega
  refine (perm.erase _).trans ?_
  rw [inUse_release, inUse_append, inUse_cons, if_neg (by simp [used]), List.map_append, List.map_cons,
    List.erase_append_right _ before, List.erase_cons_head, List.map_append]

/-- One call keeps the invariant. -/
theorem Holds.call (spec : SbrkSpec sbrk brk) (base_pos : 0 < base.toNat) (below : base.toNat < lo)
    (top : lo ≤ 2 ^ 31) (inv : Holds base brk lo s) (call : Call sbrk base s s') : Holds base brk lo s' := by
  cases call with
  | malloc fuel nbytes small run =>
    rcases inv with ⟨fresh, empty, start⟩ | ⟨bs, inv, perm⟩
    · -- the first `malloc` starts the heap at the break
      subst start
      obtain ⟨bs', inv', result⟩ := malloc_shows_fresh spec small fresh below top run
      refine .inr ⟨bs', inv', ?_⟩
      rw [empty]
      exact held_malloc [] List.Perm.nil (by simpa using result)
    · obtain ⟨bs', inv', result⟩ := malloc_shows spec base_pos small inv run
      exact .inr ⟨bs', inv', held_malloc bs perm result⟩
  | free fuel ap held run =>
    rcases inv with ⟨-, empty, -⟩ | ⟨bs, inv, perm⟩
    · rw [empty] at held
      cases held
    · obtain ⟨pre, b, post, rfl, used, rfl⟩ := held_block perm held
      exact .inr ⟨_, (free_shows inv used run).1, held_free inv.tiles perm used⟩

/-- Every run keeps the invariant. -/
theorem Holds.run (spec : SbrkSpec sbrk brk) (base_pos : 0 < base.toNat) (below : base.toNat < lo)
    (top : lo ≤ 2 ^ 31) (inv : Holds base brk lo s) (run : Relation.ReflTransGen (Call sbrk base) s s') :
    Holds base brk lo s' := by
  induction run with
  | refl => exact inv
  | tail _ call ih => exact ih.call spec base_pos below top call

/-- After any run from the heap before the first `malloc`: either no `malloc` yet, or the heap
holds blocks tiling it from the first break, its free list runs sorted from `base` through the
free blocks and back, no two free blocks are neighbours, and the pointers the program holds are
exactly the blocks in use. -/
theorem umalloc_run_shows (spec : SbrkSpec sbrk brk) (base_pos : 0 < base.toNat) {h₀ : Heap σ}
    (unset : h₀.freep = 0) (below : base.toNat < brk h₀.kernel) (top : brk h₀.kernel ≤ 2 ^ 31)
    (run : Relation.ReflTransGen (Call sbrk base) ⟨h₀, []⟩ s) :
    (s.heap.freep = 0 ∧ s.live = []) ∨
      ∃ bs, Shows base brk s.heap (brk h₀.kernel) bs ∧ s.live.Perm ((inUse bs).map (· + headerSize)) := by
  rcases Holds.run spec base_pos below top (.inl ⟨unset, rfl, rfl⟩) run with ⟨zero, empty, -⟩ | shows
  · exact .inl ⟨zero, empty⟩
  · exact .inr shows

/-- After any run, with `sbrk` always answering, every call the program may make returns, on fuel
for twice the headers of the heap and three more steps: `malloc` of any request below
`2^31 - 16` bytes, and `free` of any pointer it holds. -/
theorem umalloc_calls_return (spec : SbrkSpec sbrk brk) (total : ∀ k m, sbrk k m ≠ none)
    (base_pos : 0 < base.toNat) {h₀ : Heap σ} (unset : h₀.freep = 0) (below : base.toNat < brk h₀.kernel)
    (top : brk h₀.kernel ≤ 2 ^ 31) (run : Relation.ReflTransGen (Call sbrk base) ⟨h₀, []⟩ s) {k : Nat}
    (fuel : (brk s.heap.kernel - brk h₀.kernel) / 4 + 3 ≤ k) :
    (∀ nbytes : UInt32, nbytes.toNat + 16 ≤ 2 ^ 31 → malloc sbrk base k s.heap nbytes ≠ none) ∧
      ∀ ap ∈ s.live, free k s.heap ap ≠ none := by
  rcases Holds.run spec base_pos below top (.inl ⟨unset, rfl, rfl⟩) run with ⟨zero, empty, start⟩ | ⟨bs, inv, perm⟩
  · -- before the first `malloc`: nothing held, and the heap starts at the break
    refine ⟨fun nbytes small => malloc_some_fresh spec total small zero (start ▸ below) (start ▸ top) (by omega), ?_⟩
    rw [empty]
    intro ap held
    cases held
  · -- a free block on the list for at most every header of the heap
    have len : brk h₀.kernel + 8 * bs.length ≤ brk s.heap.kernel := inv.tiles.length_le
    have few : (freeAddrs bs).length ≤ bs.length := freeAddrs_length_le
    refine ⟨fun nbytes small => malloc_some spec total base_pos small inv (by omega), fun ap held => ?_⟩
    obtain ⟨pre, b, post, rfl, used, rfl⟩ := held_block perm held
    exact free_some inv used (by omega)

end run

/-- `sbrk` of a process whose memory grows whenever the new break stays below `KERNBASE`. -/
def kernbaseSbrk (sz : UInt32) (n : Int32) : Option (UInt32 × UInt32) :=
  if sz.toNat + n.toInt.toNat < 2 ^ 31 then some (sz, sz + UInt32.ofNat n.toInt.toNat) else some (0xFFFFFFFF, sz)

theorem kernbaseSbrk_spec : SbrkSpec kernbaseSbrk UInt32.toNat := by
  intro k n p k' _ _ run
  unfold kernbaseSbrk at run
  split at run
  · rename_i fits
    obtain ⟨rfl, rfl⟩ := Prod.mk.inj (Option.some.inj run)
    have grown : (k + UInt32.ofNat n.toInt.toNat).toNat = k.toNat + n.toInt.toNat := by
      rw [UInt32.toNat_add, UInt32.toNat_ofNat']
      omega
    exact .inr ⟨rfl, grown, by omega⟩
  · obtain ⟨rfl, rfl⟩ := Prod.mk.inj (Option.some.inj run)
    exact .inl ⟨rfl, rfl⟩

theorem kernbaseSbrk_total (k : UInt32) (n : Int32) : kernbaseSbrk k n ≠ none := by
  unfold kernbaseSbrk
  split <;> simp

/-- Three calls from the heap before the first `malloc`: `malloc(16)`, `malloc(100)`, and `free` of
the first, at `0xBFF0`; one pointer is held, so the heap has its list. -/
theorem umalloc_run_shows_calls : ∃ s : Alloc UInt32,
    Relation.ReflTransGen (Call kernbaseSbrk 0x1000) ⟨fresh, []⟩ s ∧ s.live.length = 1 ∧
      ((s.heap.freep = 0 ∧ s.live = []) ∨
        ∃ bs, Shows 0x1000 UInt32.toNat s.heap (UInt32.toNat fresh.kernel) bs ∧
          s.live.Perm ((inUse bs).map (· + headerSize))) := by
  obtain ⟨s, run, one⟩ : ∃ s : Alloc UInt32,
      Relation.ReflTransGen (Call kernbaseSbrk 0x1000) ⟨fresh, []⟩ s ∧ s.live.length = 1 :=
    ⟨_, .tail (.tail (.tail .refl (Call.malloc 4 16 (by decide) rfl)) (Call.malloc 4 100 (by decide) rfl))
      (Call.free 4 0xBFF0 (by decide) rfl), by decide⟩
  exact ⟨s, run, one, umalloc_run_shows kernbaseSbrk_spec (by decide) rfl (by decide) (by decide) run⟩

/-- The block of a pointer `malloc` returned, as its header says: from the header at `r - 8`,
`size` headers long. -/
def Heap.span {σ : Type} (h : Heap σ) (r : UInt32) : Nat × Nat :=
  ((r - headerSize).toNat, (r - headerSize).toNat + 8 * (h.hdr (r - headerSize)).size.toNat)

section apart

variable {base : UInt32} {brk : σ → Nat} {lo : Nat} {bs : List Block} {h : Heap σ} {live : List UInt32}

/-- A pointer held spans its block. -/
theorem Shows.span_held (inv : Shows base brk h lo bs) (perm : live.Perm ((inUse bs).map (· + headerSize)))
    {r : UInt32} (held : r ∈ live) : ∃ b ∈ bs, r = b.addr + headerSize ∧ h.span r = (b.addr.toNat, b.stop) := by
  obtain ⟨pre, b, post, rfl, -, rfl⟩ := held_block perm held
  refine ⟨b, by simp, rfl, ?_⟩
  rw [Heap.span, add_headerSize_sub, inv.sizes b (by simp)]
  rfl

/-- The pointers held are distinct, their blocks lie in the heap, and no two overlap. -/
theorem Shows.held_apart (inv : Shows base brk h lo bs) (perm : live.Perm ((inUse bs).map (· + headerSize))) :
    live.Nodup ∧ ∀ r ∈ live, lo ≤ (h.span r).1 ∧ (h.span r).2 ≤ brk h.kernel ∧
      ∀ r' ∈ live, r ≠ r' → (h.span r).2 ≤ (h.span r').1 ∨ (h.span r').2 ≤ (h.span r).1 := by
  refine ⟨perm.nodup_iff.mpr ?_, fun r held => ?_⟩
  · -- the blocks' addresses are distinct, and so are those `8` past them
    have distinct : (bs.map (·.addr)).Nodup :=
      List.pairwise_map.mpr (inv.tiles.ascending.imp fun lt e => (Nat.ne_of_lt lt) (congrArg UInt32.toNat e))
    have used : (inUse bs).Nodup := by
      unfold inUse
      exact distinct.sublist (List.filter_sublist.map _)
    exact used.map (add_left_injective headerSize)
  obtain ⟨b, hb, rfl, span⟩ := inv.span_held perm held
  have bounds := inv.tiles.bounds b hb
  refine ⟨by rw [span]; exact bounds.1, by rw [span]; exact bounds.2.1, fun r' held' ne => ?_⟩
  obtain ⟨b', hb', rfl, span'⟩ := inv.span_held perm held'
  rw [span, span']
  exact inv.tiles.apart hb hb' fun same => ne (by rw [same])

end apart

section live

variable {sbrk : σ → Int32 → Option (UInt32 × σ)} {base : UInt32} {brk : σ → Nat} {s : Alloc σ}

/-- After any run, the pointers the program holds are distinct, each one's block, as its header
says, lies between the first break and the break, and no two of those blocks overlap. -/
theorem umalloc_live_apart (spec : SbrkSpec sbrk brk) (base_pos : 0 < base.toNat) {h₀ : Heap σ}
    (unset : h₀.freep = 0) (below : base.toNat < brk h₀.kernel) (top : brk h₀.kernel ≤ 2 ^ 31)
    (run : Relation.ReflTransGen (Call sbrk base) ⟨h₀, []⟩ s) :
    s.live.Nodup ∧ ∀ r ∈ s.live, brk h₀.kernel ≤ (s.heap.span r).1 ∧ (s.heap.span r).2 ≤ brk s.heap.kernel ∧
      ∀ r' ∈ s.live, r ≠ r' → (s.heap.span r).2 ≤ (s.heap.span r').1 ∨ (s.heap.span r').2 ≤ (s.heap.span r).1 := by
  rcases Holds.run spec base_pos below top (.inl ⟨unset, rfl, rfl⟩) run with ⟨-, empty, -⟩ | ⟨bs, inv, perm⟩
  · rw [empty]
    exact ⟨List.nodup_nil, fun r held => by cases held⟩
  · exact inv.held_apart perm

/-- Two `malloc`s from the heap before the first: two pointers held, in blocks apart. -/
theorem umalloc_live_apart_two : ∃ s : Alloc UInt32,
    Relation.ReflTransGen (Call kernbaseSbrk 0x1000) ⟨fresh, []⟩ s ∧ s.live.length = 2 ∧
      s.live.Nodup ∧ ∀ r ∈ s.live, UInt32.toNat fresh.kernel ≤ (s.heap.span r).1 ∧
        (s.heap.span r).2 ≤ UInt32.toNat s.heap.kernel ∧ ∀ r' ∈ s.live, r ≠ r' →
          (s.heap.span r).2 ≤ (s.heap.span r').1 ∨ (s.heap.span r').2 ≤ (s.heap.span r).1 := by
  obtain ⟨s, run, two⟩ : ∃ s : Alloc UInt32,
      Relation.ReflTransGen (Call kernbaseSbrk 0x1000) ⟨fresh, []⟩ s ∧ s.live.length = 2 :=
    ⟨_, .tail (.tail .refl (Call.malloc 4 16 (by decide) rfl)) (Call.malloc 4 100 (by decide) rfl), by decide⟩
  exact ⟨s, run, two, umalloc_live_apart kernbaseSbrk_spec (by decide) rfl (by decide) (by decide) run⟩

end live

/-- `malloc(16)`, then `malloc(40000)`, which needs more than `morecore`'s 4096 headers, then
`free` of the first: 72776 bytes of heap, so 18197 steps of fuel are enough for any call. -/
theorem umalloc_calls_return_grown : ∃ s : Alloc UInt32,
    Relation.ReflTransGen (Call kernbaseSbrk 0x1000) ⟨fresh, []⟩ s ∧ s.live.length = 1 ∧
      (∀ nbytes : UInt32, nbytes.toNat + 16 ≤ 2 ^ 31 → malloc kernbaseSbrk 0x1000 18197 s.heap nbytes ≠ none) ∧
        ∀ ap ∈ s.live, free 18197 s.heap ap ≠ none := by
  obtain ⟨s, run, one, fuel⟩ : ∃ s : Alloc UInt32,
      Relation.ReflTransGen (Call kernbaseSbrk 0x1000) ⟨fresh, []⟩ s ∧ s.live.length = 1 ∧
        (UInt32.toNat s.heap.kernel - UInt32.toNat fresh.kernel) / 4 + 3 ≤ 18197 :=
    ⟨_, .tail (.tail (.tail .refl (Call.malloc 4 16 (by decide) rfl)) (Call.malloc 4 40000 (by decide) rfl))
      (Call.free 4 0xBFF0 (by decide) rfl), by decide, by decide⟩
  exact ⟨s, run, one, umalloc_calls_return kernbaseSbrk_spec kernbaseSbrk_total (by decide) rfl (by decide)
    (by decide) run fuel⟩

end Umalloc

end Xv6
