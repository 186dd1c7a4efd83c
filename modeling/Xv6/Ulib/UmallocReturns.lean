import Xv6.Ulib.UmallocInv

/-!
# `malloc` and `free` return

`malloc`'s loop is a `for(;;)`: it stops at a block large enough, or when `morecore` fails, and
the model runs it on fuel.  On a heap that `Shows` its blocks the loop goes round the free list
at most twice: once to `freep`, where `morecore` frees fresh memory next to `freep`, and once
more.  `free`'s loop goes round at most once (`free_some`).

* `mallocLoop_scan`: along a stretch of the list to `freep`, the loop returns or reaches
  `freep` with the fuel not spent;
* `morecore_fits`: after `morecore`, the block at `freep` or the one after it is large enough;
* `malloc_some`: with fuel for two turns of the list and three more steps, `malloc` returns,
  provided `sbrk` always answers.
-/

namespace Xv6

namespace Umalloc

open Cycle

variable {σ : Type} {sbrk : σ → Int32 → Option (UInt32 × σ)} {n : UInt32} {h : Heap σ}

/-! ## One step of the loop -/

/-- A block large enough ends the loop. -/
theorem mallocLoop_fits {k : Nat} {prevp p : UInt32} (fits : (h.hdr p).size ≥ n) :
    mallocLoop sbrk n (k + 1) prevp p h ≠ none := by
  simp only [mallocLoop, if_pos fits]
  split <;> simp

/-- A block too small, not `freep`: on to the next. -/
theorem mallocLoop_skip {k : Nat} {prevp p : UInt32} (small : ¬(h.hdr p).size ≥ n) (away : p ≠ h.freep) :
    mallocLoop sbrk n (k + 1) prevp p h = mallocLoop sbrk n k p (h.next p) h := by
  simp only [mallocLoop, if_neg small, if_neg away]
  rfl

/-- At `freep`, too small: `morecore`, and on from the `freep` it leaves. -/
theorem mallocLoop_grow {k : Nat} {prevp q : UInt32} {h₂ : Heap σ} (small : ¬(h.hdr h.freep).size ≥ n)
    (grown : morecore sbrk k h n = some (q, h₂)) :
    mallocLoop sbrk n (k + 1) prevp h.freep h =
      if q = 0 then some (0, h₂) else mallocLoop sbrk n k q (h₂.next q) h₂ := by
  simp only [mallocLoop, if_neg small, grown]
  rfl

/-- Along a stretch `p :: l` of the list up to `freep`, the loop returns, or comes to `freep`
with the fuel it had beyond the stretch. -/
theorem mallocLoop_scan (k : Nat) :
    ∀ (l : List UInt32) (prevp p : UInt32), Walk h.next (p :: l) h.freep → (∀ a ∈ p :: l, a ≠ h.freep) →
      mallocLoop sbrk n (l.length + 1 + k) prevp p h ≠ none ∨
        ∃ q, mallocLoop sbrk n (l.length + 1 + k) prevp p h = mallocLoop sbrk n k q h.freep h := by
  intro l
  induction l with
  | nil =>
    intro prevp p walk away
    rw [show [].length + 1 + k = k + 1 by simp [Nat.add_comm]]
    by_cases fits : (h.hdr p).size ≥ n
    · exact .inl (mallocLoop_fits fits)
    · rw [mallocLoop_skip fits (away p List.mem_cons_self), walk.1]
      exact .inr ⟨p, rfl⟩
  | cons a l ih =>
    intro prevp p walk away
    rw [show (a :: l).length + 1 + k = l.length + 1 + k + 1 by simp; omega]
    by_cases fits : (h.hdr p).size ≥ n
    · exact .inl (mallocLoop_fits fits)
    · rw [mallocLoop_skip fits (away p List.mem_cons_self), walk.1]
      exact ih p a walk.2 fun x hx => away x (List.mem_cons_of_mem p hx)

/-! ## Round the list -/

section round

variable {base : UInt32} {brk : σ → Nat} {lo : Nat} {bs : List Block}

/-- From `freep`, the list goes once through the other free blocks and back. -/
theorem Shows.round (inv : Shows base brk h lo bs) :
    ∃ m, Walk h.next (h.freep :: m) h.freep ∧ m.length = (freeAddrs bs).length ∧ ∀ a ∈ m, a ≠ h.freep := by
  obtain ⟨m, walk, perm⟩ := inv.ring.from inv.freep
  have distinct : (h.freep :: m).Nodup := perm.nodup_iff.mpr inv.nodup
  refine ⟨m, walk, by simpa using perm.length_eq, fun a ha same => ?_⟩
  exact (List.nodup_cons.mp distinct).1 (same ▸ ha)

/-- The loop from `freep`'s successor returns before it is back at `freep`, or it is back
there with `j + 1` steps of fuel left. -/
theorem mallocLoop_round (inv : Shows base brk h lo bs) (j : Nat) :
    mallocLoop sbrk n ((freeAddrs bs).length + (j + 1)) h.freep (h.next h.freep) h ≠ none ∨
      ∃ q, mallocLoop sbrk n ((freeAddrs bs).length + (j + 1)) h.freep (h.next h.freep) h =
        mallocLoop sbrk n (j + 1) q h.freep h := by
  obtain ⟨m, walk, len, away⟩ := inv.round
  rw [← len]
  cases m with
  | nil =>
    -- `freep` alone on the list: its successor is itself
    rw [show h.next h.freep = h.freep from walk.1]
    exact .inr ⟨h.freep, by simp⟩
  | cons a m =>
    rw [show h.next h.freep = a from walk.1, show (a :: m).length + (j + 1) = m.length + 1 + (j + 1) by simp]
    exact mallocLoop_scan (j + 1) m h.freep a walk.2 away

/-- After `morecore`, with a block large enough at `freep` or right after it, the loop from
`freep` returns within one turn of the list. -/
theorem mallocLoop_after (inv : Shows base brk h lo bs) {k : Nat}
    (fit : n ≤ (h.hdr h.freep).size ∨ n ≤ (h.hdr (h.next h.freep)).size)
    (fuel : (freeAddrs bs).length + 1 ≤ k) : mallocLoop sbrk n k h.freep (h.next h.freep) h ≠ none := by
  obtain ⟨j, rfl⟩ : ∃ j, k = (freeAddrs bs).length + (j + 1) := ⟨k - (freeAddrs bs).length - 1, by omega⟩
  rcases fit with here | next
  · rcases mallocLoop_round inv j with done | ⟨q, back⟩
    · exact done
    · rw [back]
      exact mallocLoop_fits here
  · rw [show (freeAddrs bs).length + (j + 1) = (freeAddrs bs).length + j + 1 by omega]
    exact mallocLoop_fits next

end round

/-! ## `morecore` -/

section more

variable {base : UInt32} {brk : σ → Nat} {lo : Nat} {bs : List Block}

/-- With `sbrk` answering, `morecore` returns, given fuel for `free` to go round the list. -/
theorem morecore_some (spec : SbrkSpec sbrk brk) (total : ∀ k m, sbrk k m ≠ none)
    (inv : Shows base brk h lo bs) (pos : 0 < n.toNat) (small : n.toNat < 2 ^ 28) {k : Nat}
    (fuel : (freeAddrs bs).length + 1 ≤ k) : morecore sbrk k h n ≠ none := by
  obtain ⟨-, nu_pos, nu_small⟩ := morecore_units pos small
  obtain ⟨⟨p, kernel⟩, grant⟩ :=
    Option.ne_none_iff_exists'.mp (total h.kernel ((if n < 4096 then 4096 else n) * headerSize).toInt32)
  rw [morecore_eq grant]
  have amount := toInt_amount nu_small
  rcases spec h.kernel _ p kernel inv.top (by rw [amount]; omega) grant with ⟨fail, -⟩ | ⟨at_, grown, top⟩
  · rw [if_pos fail]
    simp
  · rw [if_neg (break_ne at_ inv.top)]
    rw [amount, Int.toNat_natCast] at grown
    -- the new block is in use until `free` puts it on the list, which goes round once
    have inv₁ := extend_shows inv at_ (by omega) top nu_pos
    obtain ⟨h₂, freed⟩ := Option.ne_none_iff_exists'.mp (free_some inv₁ rfl (by simpa [freeAddrs_cons] using fuel))
    rw [freed]
    simp

/-- When `morecore` got memory, `freep` is the block it returns, and that block or the one after
it is large enough: the new block was joined to the free block below it, or linked after it.
The list has at most one block more. -/
theorem morecore_fits (spec : SbrkSpec sbrk brk) (inv : Shows base brk h lo bs) (pos : 0 < n.toNat)
    (small : n.toNat < 2 ^ 28) {k : Nat} {q : UInt32} {h₂ : Heap σ} (grown : morecore sbrk k h n = some (q, h₂))
    (nonzero : q ≠ 0) :
    ∃ bs₂, Shows base brk h₂ lo bs₂ ∧ q = h₂.freep ∧
      (n ≤ (h₂.hdr h₂.freep).size ∨ n ≤ (h₂.hdr (h₂.next h₂.freep)).size) ∧
      (freeAddrs bs₂).length ≤ (freeAddrs bs).length + 1 := by
  obtain ⟨le, nu_pos, nu_small⟩ := morecore_units pos small
  cases grant : sbrk h.kernel ((if n < 4096 then 4096 else n) * headerSize).toInt32 with
  | none => rw [morecore_of_none grant] at grown; cases grown
  | some x =>
    obtain ⟨p, kernel⟩ := x
    rw [morecore_eq grant] at grown
    generalize (if n < 4096 then 4096 else n) = nu at grown grant le nu_pos nu_small
    have amount := toInt_amount nu_small
    rcases spec h.kernel _ p kernel inv.top (by rw [amount]; omega) grant with ⟨fail, -⟩ | ⟨at_, more, top⟩
    · rw [if_pos fail] at grown
      exact absurd (Prod.mk.inj (Option.some.inj grown)).1.symm nonzero
    · rw [if_neg (break_ne at_ inv.top)] at grown
      obtain ⟨h₃, freed, run⟩ := Option.bind_eq_some_iff.mp grown
      obtain ⟨rfl, rfl⟩ := Prod.mk.inj (Option.some.inj run)
      rw [amount, Int.toNat_natCast] at more
      obtain ⟨inv₂, at_last⟩ := free_shows (extend_shows inv at_ (by omega) top nu_pos) rfl freed
      have new : joinNext ⟨p, nu, false⟩ [] = (⟨p, nu, true⟩, []) := rfl
      refine ⟨_, inv₂, rfl, ?_, ?_⟩
      · rcases last_cases bs with ⟨pre, a, rfl, free⟩ | used_last
        · -- joined into the free block `a` below: `freep` is `a`, now `nu` headers larger
          rw [release_of_free free, new] at inv₂
          rw [at_last, lastFree_of_free free, inv₂.sizes ⟨a.addr, a.size + nu, true⟩ (by simp)]
          have ha := inv.tiles.bounds a (by simp)
          have := inv.top
          unfold Block.stop at ha
          have le' := UInt32.le_iff_toNat_le.mp le
          refine .inl (UInt32.le_iff_toNat_le.mpr ?_)
          rw [UInt32.toNat_add, Nat.mod_eq_of_lt (by omega)]
          omega
        · -- linked after the last free block: the new block follows `freep`
          rw [release_of_used used_last, new] at inv₂
          rw [at_last, inv₂.next_lastFree_free rfl, inv₂.sizes ⟨p, nu, true⟩ (by simp)]
          exact .inr le
      · rcases last_cases bs with ⟨pre, a, rfl, free⟩ | used_last
        · rw [release_of_free free, new]
          simp [freeAddrs_cons, free]
        · rw [release_of_used used_last, new]
          simp [freeAddrs_cons]

end more

/-! ## `malloc` -/

section malloc

variable {base : UInt32} {brk : σ → Nat} {lo : Nat} {bs : List Block}

/-- At `freep` with fuel for `morecore` and one more turn, the loop returns. -/
theorem mallocLoop_at_freep (spec : SbrkSpec sbrk brk) (total : ∀ k m, sbrk k m ≠ none)
    (pos : 0 < n.toNat) (small : n.toNat < 2 ^ 28) (inv : Shows base brk h lo bs) {k : Nat} {prevp : UInt32}
    (fuel : (freeAddrs bs).length + 2 ≤ k) : mallocLoop sbrk n (k + 1) prevp h.freep h ≠ none := by
  by_cases fits : (h.hdr h.freep).size ≥ n
  · exact mallocLoop_fits fits
  · obtain ⟨⟨q, h₂⟩, grown⟩ := Option.ne_none_iff_exists'.mp (morecore_some (k := k) spec total inv pos small (by omega))
    rw [mallocLoop_grow fits grown]
    split
    · simp
    · rename_i nonzero
      obtain ⟨bs₂, inv₂, rfl, fit, len⟩ := morecore_fits spec inv pos small grown nonzero
      exact mallocLoop_after inv₂ fit (by omega)

/-- `malloc`'s loop from `freep` returns within two turns of the list and three more steps. -/
theorem mallocLoop_some (spec : SbrkSpec sbrk brk) (total : ∀ k m, sbrk k m ≠ none)
    (pos : 0 < n.toNat) (small : n.toNat < 2 ^ 28) (inv : Shows base brk h lo bs) {k : Nat}
    (fuel : 2 * (freeAddrs bs).length + 3 ≤ k) : mallocLoop sbrk n k h.freep (h.next h.freep) h ≠ none := by
  obtain ⟨j, rfl⟩ : ∃ j, k = (freeAddrs bs).length + (j + 1) := ⟨k - (freeAddrs bs).length - 1, by omega⟩
  rcases mallocLoop_round inv j with done | ⟨q, back⟩
  · exact done
  · rw [back]
    obtain ⟨i, rfl⟩ : ∃ i, j = i + 1 := ⟨j - 1, by omega⟩
    exact mallocLoop_at_freep spec total pos small inv (by omega)

/-- `malloc` on a heap that has its list returns, with fuel for two turns of the list. -/
theorem malloc_some (spec : SbrkSpec sbrk brk) (total : ∀ k m, sbrk k m ≠ none) (base_pos : 0 < base.toNat)
    {k : Nat} {nbytes : UInt32} (small : nbytes.toNat + 16 ≤ 2 ^ 31) (inv : Shows base brk h lo bs)
    (fuel : 2 * (freeAddrs bs).length + 3 ≤ k) : malloc sbrk base k h nbytes ≠ none := by
  unfold malloc
  rw [if_neg (inv.freep_ne_zero base_pos)]
  obtain ⟨pos, bound⟩ := nunits_bounds small
  exact mallocLoop_some spec total pos bound inv fuel

/-- The first `malloc` returns with three steps of fuel. -/
theorem malloc_some_fresh (spec : SbrkSpec sbrk brk) (total : ∀ k m, sbrk k m ≠ none) {k : Nat}
    {nbytes : UInt32} (small : nbytes.toNat + 16 ≤ 2 ^ 31) (fresh : h.freep = 0)
    (below : base.toNat < brk h.kernel) (top : brk h.kernel ≤ 2 ^ 31) (fuel : 3 ≤ k) :
    malloc sbrk base k h nbytes ≠ none := by
  unfold malloc
  rw [if_pos fresh]
  obtain ⟨pos, bound⟩ := nunits_bounds small
  exact mallocLoop_some spec total pos bound (init_shows below top) (by simpa using fuel)

end malloc

end Umalloc

end Xv6
