import Xv6.Ulib.Umalloc

/-!
# The heap `umalloc.c` keeps

What the allocator is for.  The heap, from where it starts to the break, is cut into blocks,
each a header and its space, in address order and with nothing between them (`Tiles`); a
block is free or in use, and no two free blocks are next to each other (`Coalesced`).
`malloc` takes a free block whole or cuts its last headers off (`carve`); `free` marks a
block free and joins it to free neighbours (`release`); `morecore` puts a block at the break,
in use, and frees it.

* `tiles_append`, `Tiles.bounds`, `Tiles.ordered`: a tiling splits, lies in its interval, and
  ascends;
* `Tiles.sorted`: below the heap's start, the static `base` and the free blocks ascend;
* `release_tiles`, `release_coalesced`, `carve_tiles`, `carve_coalesced`: the operations keep
  the tiling and keep free blocks apart; `inUse_release`, `inUse_carve` say which blocks are
  in use after them.
-/

namespace Xv6

namespace Umalloc

/-- A block of the heap: its header's address, its size in headers, the header included, and
whether it is on the free list. -/
structure Block where
  addr : UInt32
  size : UInt32
  free : Bool
  deriving DecidableEq

/-- The address just past the block. -/
def Block.stop (b : Block) : Nat := b.addr.toNat + 8 * b.size.toNat

/-- `bs` tiles the addresses from `lo` to `hi`: each block starts where the one before it
ends, and none is empty. -/
def Tiles : Nat → List Block → Nat → Prop
  | lo, [], hi => lo = hi
  | lo, b :: bs, hi => b.addr.toNat = lo ∧ 0 < b.size.toNat ∧ Tiles b.stop bs hi

/-- The free blocks' addresses, in the heap's order. -/
def freeAddrs (bs : List Block) : List UInt32 := (bs.filter (·.free)).map (·.addr)

/-- The addresses of the blocks in use. -/
def inUse (bs : List Block) : List UInt32 := (bs.filter (!·.free)).map (·.addr)

/-- No two free blocks are next to each other. -/
def Coalesced (bs : List Block) : Prop := bs.IsChain fun a b => ¬(a.free = true ∧ b.free = true)

/-- The block `b`, freed, joined to the block after it when that one is free. -/
def joinNext (b : Block) : List Block → Block × List Block
  | c :: post => if c.free then (⟨b.addr, b.size + c.size, true⟩, post) else (⟨b.addr, b.size, true⟩, c :: post)
  | [] => (⟨b.addr, b.size, true⟩, [])

/-- The heap after `free` of the block `b` between `pre` and `post`: `b` joined to a free
block after it, and into a free block before it. -/
def release (pre : List Block) (b : Block) (post : List Block) : List Block :=
  match pre.getLast? with
  | some a =>
    if a.free then pre.dropLast ++ ⟨a.addr, a.size + (joinNext b post).1.size, true⟩ :: (joinNext b post).2
    else pre ++ (joinNext b post).1 :: (joinNext b post).2
  | none => (joinNext b post).1 :: (joinNext b post).2

/-- The heap after `malloc` takes `n` headers from the free block `c` between `pre` and
`post`: all of it, or its last `n` headers, at `c + (c.size - n)`. -/
def carve (pre : List Block) (c : Block) (post : List Block) (n : UInt32) : List Block :=
  if c.size = n then pre ++ ⟨c.addr, c.size, false⟩ :: post
  else pre ++ ⟨c.addr, c.size - n, true⟩ :: ⟨c.addr + (c.size - n) * headerSize, n, false⟩ :: post

/-! ## Tilings -/

variable {lo mid hi : Nat} {bs pre post : List Block} {b c : Block}

@[simp] theorem tiles_nil : Tiles lo [] hi ↔ lo = hi := Iff.rfl

@[simp] theorem tiles_cons :
    Tiles lo (b :: bs) hi ↔ b.addr.toNat = lo ∧ 0 < b.size.toNat ∧ Tiles b.stop bs hi := Iff.rfl

theorem tiles_append {bs₁ bs₂ : List Block} :
    Tiles lo (bs₁ ++ bs₂) hi ↔ ∃ mid, Tiles lo bs₁ mid ∧ Tiles mid bs₂ hi := by
  induction bs₁ generalizing lo with
  | nil => simp
  | cons b bs₁ ih =>
    simp only [List.cons_append, tiles_cons, ih]
    constructor
    · rintro ⟨at_, pos, mid, first, rest⟩
      exact ⟨mid, ⟨at_, pos, first⟩, rest⟩
    · rintro ⟨mid, ⟨at_, pos, first⟩, rest⟩
      exact ⟨at_, pos, mid, first, rest⟩

/-- A tiling spans at least a header for each of its blocks. -/
theorem Tiles.length_le (h : Tiles lo bs hi) : lo + 8 * bs.length ≤ hi := by
  induction bs generalizing lo with
  | nil => simpa using le_of_eq h
  | cons b bs ih =>
    have := ih h.2.2
    obtain ⟨at_, pos, -⟩ := h
    unfold Block.stop at this
    simp only [List.length_cons]
    omega

theorem Tiles.le (h : Tiles lo bs hi) : lo ≤ hi := by
  have := h.length_le
  omega

/-- Every block of a tiling lies in its interval. -/
theorem Tiles.bounds (h : Tiles lo bs hi) : ∀ b ∈ bs, lo ≤ b.addr.toNat ∧ b.stop ≤ hi ∧ 0 < b.size.toNat := by
  induction bs generalizing lo with
  | nil => intro b hb; cases hb
  | cons c bs ih =>
    intro b hb
    obtain ⟨at_, pos, rest⟩ := h
    rcases List.mem_cons.mp hb with rfl | hb
    · exact ⟨at_.ge, rest.le, pos⟩
    · obtain ⟨lo', hi', pos'⟩ := ih rest b hb
      unfold Block.stop at lo'
      exact ⟨by omega, hi', pos'⟩

/-- The blocks of a tiling ascend: each ends where or before the next begins. -/
theorem Tiles.ordered (h : Tiles lo bs hi) : bs.Pairwise fun a b => a.stop ≤ b.addr.toNat := by
  induction bs generalizing lo with
  | nil => exact .nil
  | cons b bs ih => exact .cons (fun c hc => (h.2.2.bounds c hc).1) (ih h.2.2)

/-- A block of a tiling that ends below `2^32`: its end as a 32-bit address. -/
theorem Block.stop_eq {b : Block} (fits : b.stop < 2 ^ 32) :
    (b.addr + b.size * headerSize).toNat = b.stop := by
  have := b.size.toNat_lt
  rw [UInt32.toNat_add, UInt32.toNat_mul, Block.stop]
  simp only [headerSize, UInt32.reduceToNat]
  unfold Block.stop at fits
  rw [Nat.mod_eq_of_lt (a := b.size.toNat * 8) (by omega)]
  omega

/-! ## Free and used blocks -/

@[simp] theorem freeAddrs_nil : freeAddrs [] = [] := rfl

theorem freeAddrs_cons : freeAddrs (b :: bs) = if b.free then b.addr :: freeAddrs bs else freeAddrs bs := by
  unfold freeAddrs
  cases hb : b.free <;> simp [hb]

@[simp] theorem freeAddrs_append {bs₁ bs₂ : List Block} :
    freeAddrs (bs₁ ++ bs₂) = freeAddrs bs₁ ++ freeAddrs bs₂ := by
  simp [freeAddrs, List.filter_append]

theorem mem_freeAddrs {a : UInt32} : a ∈ freeAddrs bs ↔ ∃ b ∈ bs, b.free = true ∧ b.addr = a := by
  simp [freeAddrs, and_assoc]

theorem freeAddrs_length_le : (freeAddrs bs).length ≤ bs.length := by
  simpa [freeAddrs] using List.length_filter_le _ bs

@[simp] theorem inUse_nil : inUse [] = [] := rfl

theorem inUse_cons : inUse (b :: bs) = if b.free then inUse bs else b.addr :: inUse bs := by
  unfold inUse
  cases hb : b.free <;> simp [hb]

@[simp] theorem inUse_append {bs₁ bs₂ : List Block} : inUse (bs₁ ++ bs₂) = inUse bs₁ ++ inUse bs₂ := by
  simp [inUse, List.filter_append]

/-- The blocks' addresses ascend. -/
theorem Tiles.ascending (h : Tiles lo bs hi) : bs.Pairwise fun a b => a.addr.toNat < b.addr.toNat :=
  h.ordered.imp_of_mem fun {a _} ha _ le => by
    have := (h.bounds a ha).2.2
    unfold Block.stop at le
    omega

/-- Two blocks of a tiling at one address are one block. -/
theorem Tiles.addr_inj (h : Tiles lo bs hi) {a d : Block} (ha : a ∈ bs) (hd : d ∈ bs) (same : a.addr = d.addr) :
    a = d := by
  have distinct : (bs.map (·.addr)).Nodup :=
    List.pairwise_map.mpr (h.ascending.imp fun lt e => (Nat.ne_of_lt lt) (congrArg UInt32.toNat e))
  exact List.inj_on_of_nodup_map distinct ha hd same

/-- Two blocks of a tiling do not overlap. -/
theorem Tiles.apart (h : Tiles lo bs hi) {a d : Block} (ha : a ∈ bs) (hd : d ∈ bs) (ne : a ≠ d) :
    a.stop ≤ d.addr.toNat ∨ d.stop ≤ a.addr.toNat := by
  have ordered := h.ordered
  obtain ⟨l₁, l₂, rfl⟩ := List.append_of_mem ha
  obtain ⟨-, from_a, before⟩ := List.pairwise_append.mp ordered
  rcases List.mem_append.mp hd with hd | hd
  · exact .inr (before d hd a List.mem_cons_self)
  · rcases List.mem_cons.mp hd with rfl | hd
    · exact absurd rfl ne
    · exact .inl ((List.pairwise_cons.mp from_a).1 d hd)

/-- The blocks before `b` end where or before it starts, and those after it start where or
after it ends. -/
theorem Tiles.around (h : Tiles lo (pre ++ b :: post) hi) :
    (∀ d ∈ pre, d.stop ≤ b.addr.toNat) ∧ ∀ d ∈ post, b.stop ≤ d.addr.toNat := by
  obtain ⟨-, from_b, before⟩ := List.pairwise_append.mp h.ordered
  exact ⟨fun d hd => before d hd b List.mem_cons_self, (List.pairwise_cons.mp from_b).1⟩

/-- Neighbours in a tiling: the second starts where the first ends. -/
theorem Tiles.adjacent {a : Block} (h : Tiles lo (pre ++ a :: c :: post) hi) : c.addr.toNat = a.stop := by
  obtain ⟨_, -, rest⟩ := tiles_append.mp h
  exact rest.2.2.1

/-- The static `base` below the heap, then the free blocks, ascend. -/
theorem Tiles.sorted {base : UInt32} (h : Tiles lo bs hi) (below : base.toNat < lo) :
    (base :: freeAddrs bs).Pairwise fun a b => a.toNat < b.toNat := by
  refine .cons (fun a ha => ?_) ?_
  · obtain ⟨b, hb, -, rfl⟩ := mem_freeAddrs.mp ha
    have := (h.bounds b hb).1
    omega
  · unfold freeAddrs
    rw [List.pairwise_map]
    exact h.ascending.sublist List.filter_sublist

/-! ## Joining blocks -/

/-- Two neighbouring blocks joined into one. -/
theorem tiles_join {a : Block} (f : Bool) (h : Tiles lo (a :: c :: bs) hi) (fits : hi < 2 ^ 32) :
    Tiles lo (⟨a.addr, a.size + c.size, f⟩ :: bs) hi := by
  obtain ⟨at_, pos, next, -, rest⟩ := h
  have le := rest.le
  unfold Block.stop at next le
  have sum : (a.size + c.size).toNat = a.size.toNat + c.size.toNat := by
    rw [UInt32.toNat_add]
    exact Nat.mod_eq_of_lt (by omega)
  have stop : Block.stop ⟨a.addr, a.size + c.size, f⟩ = c.stop := by
    unfold Block.stop
    simp only [sum]
    omega
  refine ⟨at_, by simp only [sum]; omega, ?_⟩
  rw [stop]
  exact rest

@[simp] theorem joinNext_addr : (joinNext b post).1.addr = b.addr := by
  unfold joinNext
  split
  · split <;> rfl
  · rfl

@[simp] theorem joinNext_free : (joinNext b post).1.free = true := by
  unfold joinNext
  split
  · split <;> rfl
  · rfl

theorem mem_joinNext {d : Block} (hd : d ∈ (joinNext b post).2) : d ∈ post := by
  unfold joinNext at hd
  split at hd
  · split at hd
    · exact List.mem_cons_of_mem _ hd
    · exact hd
  · cases hd

theorem joinNext_tiles (h : Tiles lo (b :: post) hi) (fits : hi < 2 ^ 32) :
    Tiles lo ((joinNext b post).1 :: (joinNext b post).2) hi := by
  unfold joinNext
  split
  · split
    · exact tiles_join true h fits
    · exact h
  · exact h

/-- `joinNext` takes a free block after `b` into it: the free addresses after `b` are the
taken one, if any, and those after the joined block. -/
theorem freeAddrs_joinNext (b : Block) (post : List Block) : ∃ S, freeAddrs post = S ++ freeAddrs (joinNext b post).2 := by
  unfold joinNext
  split
  · rename_i c post
    split
    · exact ⟨[c.addr], by simp [freeAddrs_cons, *]⟩
    · exact ⟨[], rfl⟩
  · exact ⟨[], rfl⟩

/-- After `joinNext`, no free block follows the joined one. -/
theorem joinNext_coalesced (h : Coalesced post) : Coalesced ((joinNext b post).1 :: (joinNext b post).2) := by
  unfold joinNext Coalesced at *
  split
  · rename_i c post
    split
    · rename_i free
      cases post with
      | nil => exact List.isChain_singleton _
      | cons d post =>
        obtain ⟨apart, rest⟩ := List.isChain_cons_cons.mp h
        exact List.isChain_cons_cons.mpr ⟨fun both => apart ⟨free, both.2⟩, rest⟩
    · rename_i used
      exact List.isChain_cons_cons.mpr ⟨fun both => used both.2, h⟩
  · exact List.isChain_singleton _

theorem inUse_joinNext : inUse ((joinNext b post).1 :: (joinNext b post).2) = inUse post := by
  unfold joinNext
  split
  · rename_i c post
    split <;> simp [inUse_cons, *]
  · rfl

/-- The block before `b` is free, or there is none in use before it. -/
theorem last_cases (pre : List Block) :
    (∃ pre' a, pre = pre' ++ [a] ∧ a.free = true) ∨ ∀ a ∈ pre.getLast?, a.free = false := by
  rcases List.eq_nil_or_concat pre with rfl | ⟨pre', a, rfl⟩
  · exact .inr (by simp)
  · cases free : a.free
    · exact .inr (by simp [free])
    · exact .inl ⟨pre', a, List.concat_eq_append, free⟩

/-- `release` after a free block: `b` joined into it. -/
theorem release_of_free {a : Block} (free : a.free = true) :
    release (pre ++ [a]) b post = pre ++ ⟨a.addr, a.size + (joinNext b post).1.size, true⟩ :: (joinNext b post).2 := by
  simp [release, free]

/-- `release` after a block in use, or at the heap's start: `b` stays a block of its own. -/
theorem release_of_used (used : ∀ a ∈ pre.getLast?, a.free = false) :
    release pre b post = pre ++ (joinNext b post).1 :: (joinNext b post).2 := by
  unfold release
  cases last : pre.getLast? with
  | none => simp [List.getLast?_eq_none_iff.mp last]
  | some a => simp [used a last]

theorem release_tiles (h : Tiles lo (pre ++ b :: post) hi) (fits : hi < 2 ^ 32) :
    Tiles lo (release pre b post) hi := by
  obtain ⟨mid, first, second⟩ := tiles_append.mp h
  have joined := joinNext_tiles second fits
  rcases last_cases pre with ⟨pre', a, rfl, free⟩ | used
  · rw [release_of_free free]
    obtain ⟨m, before, last⟩ := tiles_append.mp first
    exact tiles_append.mpr ⟨m, before, tiles_join true (tiles_append.mpr ⟨mid, last, joined⟩) fits⟩
  · rw [release_of_used used]
    exact tiles_append.mpr ⟨mid, first, joined⟩

theorem release_coalesced (h : Coalesced (pre ++ b :: post)) : Coalesced (release pre b post) := by
  unfold Coalesced at h
  obtain ⟨before, after, -⟩ := List.isChain_append.mp h
  have joined : Coalesced ((joinNext b post).1 :: (joinNext b post).2) := joinNext_coalesced after.tail
  unfold Coalesced at joined
  rcases last_cases pre with ⟨pre', a, rfl, free⟩ | used
  · -- the block before `a` is in use, and so is the one after the joined block
    rw [release_of_free free]
    obtain ⟨first, -, link⟩ := List.isChain_append.mp before
    refine List.isChain_append.mpr ⟨first, ?_, fun d hd e he both => ?_⟩
    · cases rest : (joinNext b post).2 with
      | nil => exact List.isChain_singleton _
      | cons d rest' =>
        rw [rest] at joined
        obtain ⟨apart, tail⟩ := List.isChain_cons_cons.mp joined
        exact List.isChain_cons_cons.mpr ⟨fun both => apart ⟨joinNext_free, both.2⟩, tail⟩
    · simp only [List.head?_cons, Option.mem_def, Option.some.injEq] at he
      subst he
      exact link d hd a (by simp) ⟨both.1, free⟩
  · rw [release_of_used used]
    refine List.isChain_append.mpr ⟨before, joined, fun d hd e he both => ?_⟩
    exact absurd both.1 (by simp [used d hd])

theorem inUse_release : inUse (release pre b post) = inUse pre ++ inUse post := by
  rcases last_cases pre with ⟨pre', a, rfl, free⟩ | used
  · have tail : inUse ((joinNext b post).1 :: (joinNext b post).2) = inUse post := inUse_joinNext
    rw [inUse_cons, if_pos joinNext_free] at tail
    rw [release_of_free free, inUse_append, inUse_append, ← tail]
    simp [inUse_cons, free]
  · rw [release_of_used used, inUse_append, inUse_joinNext]

/-! ## Cutting blocks -/

theorem carve_tiles {n : UInt32} (h : Tiles lo (pre ++ c :: post) hi) (top : hi < 2 ^ 32) (fit : n ≤ c.size)
    (pos : 0 < n.toNat) : Tiles lo (carve pre c post n) hi := by
  obtain ⟨mid, first, at_, size_pos, rest⟩ := tiles_append.mp h
  unfold carve
  split
  · exact tiles_append.mpr ⟨mid, first, at_, size_pos, rest⟩
  · rename_i cut
    have lt : n.toNat < c.size.toNat := by
      have := UInt32.le_iff_toNat_le.mp fit
      have : n.toNat ≠ c.size.toNat := fun e => cut (UInt32.toNat_inj.mp e).symm
      omega
    have sub : (c.size - n).toNat = c.size.toNat - n.toNat := UInt32.toNat_sub_of_le _ _ fit
    have room := rest.le
    unfold Block.stop at room rest
    -- the cut lies inside `c`, so its address does not wrap
    have start : (c.addr + (c.size - n) * headerSize).toNat = c.addr.toNat + 8 * (c.size.toNat - n.toNat) := by
      rw [UInt32.toNat_add, UInt32.toNat_mul, sub]
      simp only [headerSize, UInt32.reduceToNat]
      rw [Nat.mod_eq_of_lt (a := (c.size.toNat - n.toNat) * 8) (by omega)]
      omega
    have ends : c.addr.toNat + 8 * (c.size.toNat - n.toNat) + 8 * n.toNat = c.addr.toNat + 8 * c.size.toNat := by
      omega
    refine tiles_append.mpr ⟨mid, first, at_, by rw [sub]; omega, ?_, pos, ?_⟩
    · unfold Block.stop
      rw [start, sub]
    · unfold Block.stop
      rw [start, ends]
      exact rest

theorem carve_coalesced {n : UInt32} (h : Coalesced (pre ++ c :: post)) (free : c.free = true) :
    Coalesced (carve pre c post n) := by
  unfold Coalesced at *
  obtain ⟨before, after, link⟩ := List.isChain_append.mp h
  unfold carve
  split
  · refine List.isChain_append.mpr ⟨before, ?_, fun d hd e he both => ?_⟩
    · cases post with
      | nil => exact List.isChain_singleton _
      | cons d post => exact List.isChain_cons_cons.mpr ⟨fun both => Bool.false_ne_true both.1,
          (List.isChain_cons_cons.mp after).2⟩
    · simp only [List.head?_cons, Option.mem_def, Option.some.injEq] at he
      subst he
      exact Bool.false_ne_true both.2
  · refine List.isChain_append.mpr ⟨before, ?_, fun d hd e he both => ?_⟩
    · refine List.isChain_cons_cons.mpr ⟨fun both => Bool.false_ne_true both.2, ?_⟩
      cases post with
      | nil => exact List.isChain_singleton _
      | cons d post => exact List.isChain_cons_cons.mpr ⟨fun both => Bool.false_ne_true both.1,
          (List.isChain_cons_cons.mp after).2⟩
    · simp only [List.head?_cons, Option.mem_def, Option.some.injEq] at he
      subst he
      exact link d hd c (by simp) ⟨both.1, free⟩

/-- `malloc` hands out the last `n` headers of the free block `c`: at `c + (c.size - n)`, which
is `c` itself when it is taken whole. -/
theorem inUse_carve {n : UInt32} :
    inUse (carve pre c post n) = inUse pre ++ (c.addr + (c.size - n) * headerSize) :: inUse post := by
  unfold carve
  split
  · rename_i whole
    simp [inUse_cons, ← whole]
  · simp [inUse_cons]

theorem freeAddrs_carve {n : UInt32} :
    freeAddrs (carve pre c post n) = freeAddrs pre ++ (if c.size = n then [] else [c.addr]) ++ freeAddrs post := by
  unfold carve
  split <;> simp [freeAddrs_cons]

/-! ## A block at the break -/

theorem coalesced_extend {p nu : UInt32} (h : Coalesced bs) : Coalesced (bs ++ [⟨p, nu, false⟩]) :=
  List.isChain_append.mpr ⟨h, List.isChain_singleton _, fun _ _ e he both => by
    simp only [List.head?_cons, Option.mem_def, Option.some.injEq] at he
    subst he
    exact Bool.false_ne_true both.2⟩

theorem tiles_extend {p nu : UInt32} (h : Tiles lo bs hi) (at_ : p.toNat = hi) (pos : 0 < nu.toNat) (f : Bool) :
    Tiles lo (bs ++ [⟨p, nu, f⟩]) (hi + 8 * nu.toNat) :=
  tiles_append.mpr ⟨hi, h, at_, pos, by simp [Block.stop, at_]⟩

end Umalloc

end Xv6
