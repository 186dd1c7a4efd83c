import Xv6.Param

/-!
# umalloc: the allocator of Kernighan and Ritchie

`umalloc.c` keeps a circular list of free blocks, each a `Header` followed by its space,
sizes counted in headers.  `malloc(nbytes)` asks for `nunits` headers, one of them the
block's own, takes the first free block that is large enough (whole, or cut from its end),
and calls `morecore` for at least 4096 headers from `sbrk` when it has gone round the list.

The headers are kept as a function from addresses, and the loops of `malloc` and `free` run
on fuel, `none` when it is spent.  `sbrk` is the kernel's: a function of a state `σ` that
returns the old break, or `(char*)-1`, with the kernel's next state.

* `mallocLoop_size`: every block `malloc` returns has exactly `nunits` headers;
* `nunits_covers` and `malloc_covers`: so it holds `nbytes` whenever `nbytes + 7` does not
  wrap;
* `nunits_wraps` and `malloc_all_ones`: for `nbytes ≥ 2^32 - 7` the sum wraps, `nunits` is
  `1`, and `malloc` returns a block with no space at all.
-/

namespace Xv6

namespace Umalloc

/-- `sizeof(Header)`: a pointer and a `uint`, aligned as a `long`. -/
def headerSize : UInt32 := 8

/-- `union header`: the next free block and the size of this one, in headers. -/
structure Header where
  ptr : UInt32
  size : UInt32
  deriving DecidableEq, Repr

/-- The allocator's memory: the header at each address, `freep` (`0` for null), and the state
of the kernel behind `sbrk`. -/
structure Heap (σ : Type) where
  hdr : UInt32 → Header
  freep : UInt32
  kernel : σ

variable {σ : Type}

namespace Heap

/-- `p->s.ptr = v`. -/
def setPtr (h : Heap σ) (p v : UInt32) : Heap σ :=
  { h with hdr := Function.update h.hdr p { h.hdr p with ptr := v } }

/-- `p->s.size = v`. -/
def setSize (h : Heap σ) (p v : UInt32) : Heap σ :=
  { h with hdr := Function.update h.hdr p { h.hdr p with size := v } }

@[simp] theorem setPtr_size (h : Heap σ) (p v q : UInt32) :
    ((h.setPtr p v).hdr q).size = (h.hdr q).size := by
  by_cases same : q = p
  · subst same; simp [setPtr]
  · simp [setPtr, Function.update_of_ne same]

@[simp] theorem setSize_size_self (h : Heap σ) (p v : UInt32) : ((h.setSize p v).hdr p).size = v := by
  simp [setSize]

@[simp] theorem setPtr_freep (h : Heap σ) (p v : UInt32) : (h.setPtr p v).freep = h.freep := rfl

@[simp] theorem setSize_freep (h : Heap σ) (p v : UInt32) : (h.setSize p v).freep = h.freep := rfl

end Heap

/-- `free`'s loop from `p`: the block after which `bp` goes, between `p` and the next free
block or, past the highest block, before the lowest. -/
def freeSearch (h : Heap σ) (bp : UInt32) : Nat → UInt32 → Option UInt32
  | 0, _ => none
  | k + 1, p =>
    if bp > p ∧ bp < (h.hdr p).ptr then some p
    else if p ≥ (h.hdr p).ptr ∧ (bp > p ∨ bp < (h.hdr p).ptr) then some p
    else freeSearch h bp k (h.hdr p).ptr

/-- `free(ap)`: put the block before `ap` on the list after `p`, joined to the next block when
it ends where that one starts, and to `p` when `p` ends where it starts. -/
def free (fuel : Nat) (h : Heap σ) (ap : UInt32) : Option (Heap σ) := do
  let bp := ap - headerSize
  let p ← freeSearch h bp fuel h.freep
  let h :=
    if bp + (h.hdr bp).size * headerSize = (h.hdr p).ptr then
      let h := h.setSize bp ((h.hdr bp).size + (h.hdr (h.hdr p).ptr).size)
      h.setPtr bp (h.hdr (h.hdr p).ptr).ptr
    else h.setPtr bp (h.hdr p).ptr
  let h :=
    if p + (h.hdr p).size * headerSize = bp then
      let h := h.setSize p ((h.hdr p).size + (h.hdr bp).size)
      h.setPtr p (h.hdr bp).ptr
    else h.setPtr p bp
  return { h with freep := p }

/-- `morecore(nu)`: at least 4096 headers from `sbrk`, freed into the list; `freep`, or `0`
when `sbrk` fails. -/
def morecore (sbrk : σ → Int32 → Option (UInt32 × σ)) (fuel : Nat) (h : Heap σ) (nu : UInt32) :
    Option (UInt32 × Heap σ) := do
  let nu := if nu < 4096 then 4096 else nu
  -- `nu * sizeof(Header)` is a `uint`, passed to `sbrk(int n)`
  let (p, kernel) ← sbrk h.kernel (nu * headerSize).toInt32
  let h := { h with kernel }
  if p = 0xFFFFFFFF then return (0, h)
  let h := h.setSize p nu
  let h ← free fuel h (p + headerSize)
  return (h.freep, h)

/-- `malloc`'s loop from `p`, `prevp` before it: the first block of at least `nunits` headers is
taken whole, or its last `nunits` headers are cut off; back at `freep`, `morecore`. -/
def mallocLoop (sbrk : σ → Int32 → Option (UInt32 × σ)) (nunits : UInt32) :
    Nat → UInt32 → UInt32 → Heap σ → Option (UInt32 × Heap σ)
  | 0, _, _, _ => none
  | k + 1, prevp, p, h =>
    if (h.hdr p).size ≥ nunits then
      if (h.hdr p).size = nunits then
        some (p + headerSize, { h.setPtr prevp (h.hdr p).ptr with freep := prevp })
      else
        let h := h.setSize p ((h.hdr p).size - nunits)
        let p := p + (h.hdr p).size * headerSize
        some (p + headerSize, { h.setSize p nunits with freep := prevp })
    else if p = h.freep then do
      let (p, h) ← morecore sbrk k h nunits
      if p = 0 then return (0, h)
      mallocLoop sbrk nunits k p (h.hdr p).ptr h
    else mallocLoop sbrk nunits k p (h.hdr p).ptr h

/-- `nunits = (nbytes + sizeof(Header) - 1)/sizeof(Header) + 1`, in `uint`. -/
def nunits (nbytes : UInt32) : UInt32 := (nbytes + headerSize - 1) / headerSize + 1

/-- `malloc(nbytes)`, `base` the address of the static `base`; on the first call the list is
`base` alone, of size `0`. -/
def malloc (sbrk : σ → Int32 → Option (UInt32 × σ)) (base : UInt32) (fuel : Nat) (h : Heap σ)
    (nbytes : UInt32) : Option (UInt32 × Heap σ) :=
  let h := if h.freep = 0 then { (h.setPtr base base).setSize base 0 with freep := base } else h
  mallocLoop sbrk (nunits nbytes) fuel h.freep (h.hdr h.freep).ptr h

/-! ## The size of the block returned -/

theorem add_headerSize_sub (p : UInt32) : p + headerSize - headerSize = p := by
  rw [UInt32.add_sub_cancel]

/-- Every block `malloc`'s loop returns has exactly `nunits` headers: whole blocks are taken
only at that size, and a cut sets it. -/
theorem mallocLoop_size (sbrk : σ → Int32 → Option (UInt32 × σ)) (nunits : UInt32) (k : Nat) :
    ∀ (prevp p : UInt32) (h h' : Heap σ) (r : UInt32),
      mallocLoop sbrk nunits k prevp p h = some (r, h') → r ≠ 0 →
        (h'.hdr (r - headerSize)).size = nunits := by
  induction k with
  | zero => intro prevp p h h' r run; cases run
  | succ k ih =>
    intro prevp p h h' r run returned
    simp only [mallocLoop] at run
    split at run
    · split at run
      · -- the block fits exactly and leaves the list whole
        rename_i exact
        obtain ⟨rfl, rfl⟩ := Prod.mk.inj (Option.some.inj run)
        simpa [add_headerSize_sub] using exact
      · -- the last `nunits` headers of the block
        obtain ⟨rfl, rfl⟩ := Prod.mk.inj (Option.some.inj run)
        simp
    · split at run
      · obtain ⟨⟨p', h''⟩, grown, run⟩ := Option.bind_eq_some_iff.mp run
        split at run
        · obtain ⟨rfl, -⟩ := Prod.mk.inj (Option.some.inj run)
          exact absurd rfl returned
        · exact ih _ _ _ _ _ run returned
      · exact ih _ _ _ _ _ run returned

theorem malloc_size {sbrk : σ → Int32 → Option (UInt32 × σ)} {base : UInt32} {fuel : Nat}
    {h h' : Heap σ} {nbytes r : UInt32} (run : malloc sbrk base fuel h nbytes = some (r, h'))
    (returned : r ≠ 0) : (h'.hdr (r - headerSize)).size = nunits nbytes :=
  mallocLoop_size sbrk _ fuel _ _ _ _ _ run returned

/-- `nunits` in numbers: the sum `nbytes + 7` taken modulo `2^32`. -/
theorem toNat_nunits (nbytes : UInt32) :
    (nunits nbytes).toNat = (nbytes.toNat + 7) % 2 ^ 32 / 8 + 1 := by
  have seven : nbytes + headerSize - 1 = nbytes + 7 := by simp only [headerSize]; grind
  have sum : (nbytes + headerSize - 1).toNat = (nbytes.toNat + 7) % 2 ^ 32 := by
    rw [seven, UInt32.toNat_add]
    rfl
  have small : (nbytes.toNat + 7) % 2 ^ 32 / 8 + 1 < 2 ^ 32 := by omega
  rw [nunits, UInt32.toNat_add, UInt32.toNat_div, sum]
  simpa [headerSize] using Nat.mod_eq_of_lt small

/-- Without the wrap, `nunits - 1` headers hold `nbytes`. -/
theorem nunits_covers {nbytes : UInt32} (noWrap : nbytes.toNat + 7 < 2 ^ 32) :
    nbytes.toNat ≤ ((nunits nbytes).toNat - 1) * 8 := by
  rw [toNat_nunits, Nat.mod_eq_of_lt noWrap]
  omega

/-- For `nbytes ≥ 2^32 - 7` the sum `nbytes + 7` wraps below 8, and `nunits` is `1`. -/
theorem nunits_wraps {nbytes : UInt32} (wraps : 2 ^ 32 - 7 ≤ nbytes.toNat) : nunits nbytes = 1 := by
  have lt := nbytes.toNat_lt
  apply UInt32.toNat_inj.mp
  rw [toNat_nunits]
  have below : (nbytes.toNat + 7) % 2 ^ 32 = nbytes.toNat + 7 - 2 ^ 32 := by omega
  rw [below]
  simp only [UInt32.reduceToNat]
  omega

/-- What `malloc` promises, where `nbytes + 7` does not wrap: a block whose `size - 1`
headers hold `nbytes` bytes. -/
theorem malloc_covers {sbrk : σ → Int32 → Option (UInt32 × σ)} {base : UInt32} {fuel : Nat}
    {h h' : Heap σ} {nbytes r : UInt32} (noWrap : nbytes.toNat + 7 < 2 ^ 32)
    (run : malloc sbrk base fuel h nbytes = some (r, h')) (returned : r ≠ 0) :
    nbytes.toNat ≤ ((h'.hdr (r - headerSize)).size.toNat - 1) * 8 := by
  rw [malloc_size run returned]
  exact nunits_covers noWrap

/-! ## The largest requests -/

/-- `sbrk(n)` of a process that always has the memory: the old break, and the break `n` bytes
on. -/
def growingSbrk (sz : UInt32) (n : Int32) : Option (UInt32 × UInt32) := some (sz, sz + n.toUInt32)

/-- Before the first `malloc`: no header written, `freep` null, the break at `0x4000`. -/
def fresh : Heap UInt32 where
  hdr := fun _ => ⟨0, 0⟩
  freep := 0
  kernel := 0x4000

/-- `malloc(0xFFFFFFFF)` as the first call, `base` at `0x1000`: `nunits` is `1`, `morecore`
gets 32768 bytes at `0x4000`, and `malloc` returns `0xC000`, the end of them, in a block of
size `1`, whose `(1 - 1) * 8 = 0` bytes do not hold the `2^32 - 1` asked for. -/
theorem malloc_all_ones :
    (malloc growingSbrk 0x1000 2 fresh 0xFFFFFFFF).map
        (fun (r, h) => (r, (h.hdr (r - headerSize)).size, h.kernel)) = some (0xC000, 1, 0xC000) := by
  decide

end Umalloc

end Xv6
