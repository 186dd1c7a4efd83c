import Xv6.Fs.Block

/-!
# Allocating a block

`balloc` scans the bitmap for the first clear bit below `sb.size`, sets it and zeroes the
block.  On a disk whose bitmap blocks lie below `sb.size` and are marked in use
(`BitmapOk`), with a free block somewhere below `sb.size`, `balloc` returns a free block
`b` and leaves `allocated s b` (`balloc_eq`): the bitmap marks `b` and nothing else changes
(`inUse_allocated`), so the free blocks lose exactly `b` (`freeBlocks_allocated`), and of
the blocks in use only the bitmap's are written (`disk_allocated_of_inUse`).
-/

namespace Xv6

namespace Fs

/-- `bp->data[bi/8] |= m`: bit `bi` of a bitmap block set. -/
def markBit (blk : Block) (bi : Fin bpb) : Block :=
  Function.update blk (bitByte bi) (blk (bitByte bi) ||| bitMask bi)

/-- The blocks below `sb.size` that the bitmap marks free. -/
def freeBlocks (s : Fs) : Finset Nat :=
  (Finset.range s.sb.size).filter fun b => s.inUse b = false

/-- What `balloc` leaves when it takes block `b`: `b`'s bit set, and `b` zeroed. -/
def allocated (s : Fs) (b : Nat) : Fs :=
  (s.logWrite (bblock b s.sb) (markBit (s.disk (bblock b s.sb)) (bitOf b))).logWrite b zeroBlock

/-- The bitmap lies below `sb.size`, on blocks it marks in use, it marks block `0` in use
(a block number `0` means "none" to `bmap`), and the disk holds every block below
`sb.size`. -/
structure BitmapOk (s : Fs) : Prop where
  pos : 0 < s.sb.size
  fits : s.sb.size ≤ fsSize
  bitmap_lt : ∀ b < s.sb.size, bblock b s.sb < s.sb.size
  bitmap_used : ∀ b < s.sb.size, s.inUse (bblock b s.sb) = true
  zero_used : s.inUse 0 = true

@[simp] theorem allocated_sb (s : Fs) (b : Nat) : (s.allocated b).sb = s.sb := rfl

@[simp] theorem allocated_icache (s : Fs) (b : Nat) : (s.allocated b).icache = s.icache := rfl

@[simp] theorem allocated_disk_self (s : Fs) (b : Nat) : (s.allocated b).disk b = zeroBlock := by
  simp [allocated, logWrite]

/-! ## Bits of the bitmap -/

theorem bitMask_and_bitMask {i j : Nat} (h : i % 8 ≠ j % 8) : bitMask i &&& bitMask j = 0 := by
  have masks : ∀ a b : Fin 8, a ≠ b →
      (1 : UInt8) <<< UInt8.ofNat a.val &&& (1 : UInt8) <<< UInt8.ofNat b.val = 0 := by decide
  exact masks ⟨i % 8, Nat.mod_lt _ (by decide)⟩ ⟨j % 8, Nat.mod_lt _ (by decide)⟩
    (fun e => h (Fin.mk.inj_iff.mp e))

theorem uint8_or_and_of_and_eq_zero (x m m' : UInt8) (h : m &&& m' = 0) :
    (x ||| m) &&& m' = x &&& m' := by
  apply UInt8.toBitVec_inj.mp
  have hb := congrArg UInt8.toBitVec h
  simp only [UInt8.toBitVec_and, UInt8.toBitVec_or, UInt8.toBitVec_zero] at hb ⊢
  ext k hk
  have bit := congrArg (fun v => v.getLsbD k) hb
  simp only [BitVec.getLsbD_and, BitVec.getLsbD_zero] at bit
  simp only [BitVec.getElem_and, BitVec.getElem_or]
  grind

/-- Setting one bit leaves every other bit as it was. -/
theorem bitFree_markBit_of_ne (blk : Block) {bi bi' : Fin bpb} (h : bi' ≠ bi) :
    bitFree (markBit blk bi) bi' = bitFree blk bi' := by
  unfold bitFree markBit
  by_cases same : bitByte bi' = bitByte bi
  · -- the same byte: the bits differ within it
    have hmod : bi'.val % 8 ≠ bi.val % 8 := by
      intro e
      apply h
      have := congrArg Fin.val same
      simp only [bitByte] at this
      omega
    rw [same, Function.update_self,
      uint8_or_and_of_and_eq_zero _ _ _ (bitMask_and_bitMask hmod.symm)]
  · rw [Function.update_of_ne same]

/-! ## The scan -/

theorem mem_ballocBits {sb : Superblock} {b : Nat} {bi : Fin bpb} :
    bi ∈ ballocBits sb b ↔ b + bi.val < sb.size := by
  constructor
  · intro mem
    simpa using List.mem_takeWhile_imp mem
  · intro below
    -- the bits are tested in increasing order, and the test only fails from some bit on
    rw [ballocBits, List.takeWhile_eq_take_findIdx_not, List.mem_take_iff_getElem]
    have lt : bi.val < (List.finRange bpb).length := by simp
    refine ⟨bi.val, ?_, by simp⟩
    have found : bi.val < (List.finRange bpb).findIdx fun j => !decide (b + j.val < sb.size) := by
      apply List.lt_findIdx_of_not lt
      intro j hj
      simp only [List.getElem_finRange, Fin.val_cast, Bool.not_eq_true', decide_eq_false_iff_not,
        not_not]
      omega
    exact lt_min found lt

theorem mem_ballocBases {sb : Superblock} {b : Nat} (h : b ∈ ballocBases sb) :
    b % bpb = 0 ∧ b < sb.size := by
  obtain ⟨k, hk, rfl⟩ := List.mem_map.mp h
  have hk : k < (sb.size + bpb - 1) / bpb := List.mem_range.mp hk
  refine ⟨Nat.mul_mod_left k bpb, ?_⟩
  unfold bpb bsize at *
  omega

theorem base_mem_ballocBases {sb : Superblock} {b : Nat} (h : b < sb.size) :
    b / bpb * bpb ∈ ballocBases sb := by
  refine List.mem_map.mpr ⟨b / bpb, List.mem_range.mpr ?_, rfl⟩
  unfold bpb bsize
  omega

section

variable {s : Fs}

-- The unfolding compares the scan's result with itself under two matchers, which makes
-- Lean walk the list of the `BPB` bits it tests.
set_option maxRecDepth 8000 in
theorem ballocFrom_cons (b : Nat) (bs : List Nat) :
    s.ballocFrom (b :: bs) = (do
      let bp ← s.bread (bblock b s.sb)
      match (ballocBits s.sb b).find? (bitFree bp) with
      | some bi =>
          let s := s.logWrite (bblock b s.sb) (markBit bp bi)
          let s ← s.bzero (b + bi.val)
          return (s, b + bi.val)
      | none => s.ballocFrom bs) := rfl

/-- `balloc`'s outer loop, over bases one of which has a clear bit it tests. -/
theorem ballocFrom_eq (ok : s.BitmapOk) (bases : List Nat)
    (bounded : ∀ b0 ∈ bases, b0 ∈ ballocBases s.sb)
    (clear : ∃ b0 ∈ bases, ∃ bi ∈ ballocBits s.sb b0, bitFree (s.disk (bblock b0 s.sb)) bi = true) :
    ∃ b, s.inUse b = false ∧ b < s.sb.size ∧ s.ballocFrom bases = .ok (s.allocated b, b) := by
  induction bases with
  | nil =>
    obtain ⟨_, mem, _⟩ := clear
    exact absurd mem List.not_mem_nil
  | cons b0 bases ih =>
    obtain ⟨b1, mem1, bi1, tested1, free1⟩ := clear
    obtain ⟨aligned, lt⟩ := mem_ballocBases (bounded b0 List.mem_cons_self)
    have readable : bblock b0 s.sb < fsSize := lt_of_lt_of_le (ok.bitmap_lt b0 lt) ok.fits
    rw [ballocFrom_cons, bread_of_lt s readable, except_ok_bind]
    cases found : (ballocBits s.sb b0).find? (bitFree (s.disk (bblock b0 s.sb))) with
    | some bi =>
      have free : bitFree (s.disk (bblock b0 s.sb)) bi = true := List.find?_some found
      have below : b0 + bi.val < s.sb.size := mem_ballocBits.mp (List.mem_of_find?_eq_some found)
      obtain ⟨sameBlock, sameBit⟩ := balloc_bit aligned bi s.sb
      refine ⟨b0 + bi.val, ?_, below, ?_⟩
      · simp only [inUse, sameBlock, sameBit, free, Bool.not_true]
      · dsimp only
        rw [bzero, bread_of_lt _ (lt_of_lt_of_le below ok.fits), except_ok_bind, allocated,
          sameBlock, sameBit]
        rfl
    | none =>
      -- every bit tested here is taken, so the clear bit is further on
      have taken := List.find?_eq_none.mp found
      have further : b1 ∈ bases := by
        rcases List.mem_cons.mp mem1 with rfl | mem
        · exact absurd free1 (taken bi1 tested1)
        · exact mem
      exact ih (fun b hb => bounded b (List.mem_cons_of_mem _ hb)) ⟨b1, further, bi1, tested1, free1⟩

/-- `balloc` on a disk with a free block: it returns one, and leaves `allocated`. -/
theorem balloc_eq (ok : s.BitmapOk) (free : ∃ b < s.sb.size, s.inUse b = false) :
    ∃ b, s.inUse b = false ∧ b < s.sb.size ∧ s.balloc = .ok (s.allocated b, b) := by
  obtain ⟨b, lt, unused⟩ := free
  obtain ⟨sameBlock, sameBit⟩ := balloc_bit (Nat.mul_mod_left (b / bpb) bpb)
    (bitOf b) s.sb
  have split : b / bpb * bpb + (bitOf b).val = b := by
    simp only [bitOf]
    rw [Nat.mul_comm]
    exact Nat.div_add_mod b bpb
  rw [split] at sameBlock
  have tested : b / bpb * bpb + (bitOf b).val < s.sb.size := by
    rw [split]
    exact lt
  apply ballocFrom_eq ok _ (fun _ => id)
  refine ⟨b / bpb * bpb, base_mem_ballocBases lt, bitOf b, mem_ballocBits.mpr tested, ?_⟩
  simpa [inUse, ← sameBlock] using unused

/-! ## After `balloc` -/

theorem inUse_logWrite {a b : Nat} (h : bblock b s.sb ≠ a) (blk : Block) :
    (s.logWrite a blk).inUse b = s.inUse b := by
  simp [inUse, logWrite, Function.update_of_ne h]

/-- The bitmap after `balloc` took the free block `b`: it marks `b`, and every other block
as before. -/
theorem inUse_allocated (ok : s.BitmapOk) {b b' : Nat} (hb : s.inUse b = false)
    (hb' : b' < s.sb.size) : (s.allocated b).inUse b' = (b' == b || s.inUse b') := by
  -- zeroing `b` leaves the bitmap alone: the bitmap's blocks are in use and `b` is not
  have notBitmap : bblock b' s.sb ≠ b := by
    intro e
    have := ok.bitmap_used b' hb'
    rw [e, hb] at this
    cases this
  rw [allocated, inUse_logWrite (by simpa using notBitmap)]
  unfold inUse
  simp only [logWrite_disk, logWrite_sb]
  by_cases sameBlock : bblock b' s.sb = bblock b s.sb
  · rw [sameBlock, Function.update_self]
    by_cases same : b' = b
    · subst same
      simpa [markBit] using bitFree_set (s.disk (bblock b' s.sb)) (bitOf b')
    · -- another bit of the same bitmap block
      have hbit : bitOf b' ≠ bitOf b := by
        intro e
        apply same
        have hdiv : b' / bpb = b / bpb := by
          simpa [bblock] using sameBlock
        have hmod : b' % bpb = b % bpb := congrArg Fin.val e
        rw [← Nat.div_add_mod b' bpb, ← Nat.div_add_mod b bpb, hdiv, hmod]
      rw [bitFree_markBit_of_ne _ hbit]
      simp [same]
  · rw [Function.update_of_ne sameBlock]
    have same : b' ≠ b := fun e => sameBlock (by rw [e])
    simp [same]

theorem bitmapOk_allocated (ok : s.BitmapOk) {b : Nat} (hb : s.inUse b = false) :
    (s.allocated b).BitmapOk where
  pos := ok.pos
  fits := ok.fits
  bitmap_lt := ok.bitmap_lt
  bitmap_used b' hb' := by
    rw [allocated_sb] at hb' ⊢
    rw [inUse_allocated ok hb (ok.bitmap_lt b' hb'), ok.bitmap_used b' hb', Bool.or_true]
  zero_used := by
    rw [inUse_allocated ok hb ok.pos, ok.zero_used, Bool.or_true]

/-- `balloc` never returns block `0`. -/
theorem ne_zero_of_free (ok : s.BitmapOk) {b : Nat} (hb : s.inUse b = false) : b ≠ 0 := by
  rintro rfl
  rw [ok.zero_used] at hb
  cases hb

theorem freeBlocks_allocated (ok : s.BitmapOk) {b : Nat} (hb : s.inUse b = false) :
    (s.allocated b).freeBlocks = s.freeBlocks.erase b := by
  ext b'
  simp only [freeBlocks, allocated_sb, Finset.mem_filter, Finset.mem_range, Finset.mem_erase]
  constructor
  · rintro ⟨lt, free⟩
    rw [inUse_allocated ok hb lt] at free
    simp only [Bool.or_eq_false_iff, beq_eq_false_iff_ne] at free
    exact ⟨free.1, lt, free.2⟩
  · rintro ⟨ne, lt, free⟩
    refine ⟨lt, ?_⟩
    rw [inUse_allocated ok hb lt]
    simp [ne, free]

/-- Of the blocks in use, `balloc` writes only the bitmap's. -/
theorem disk_allocated_of_inUse {b b' : Nat} (hb : s.inUse b = false)
    (lt : b < s.sb.size) (used : s.inUse b' = true) (notBitmap : ∀ x < s.sb.size, bblock x s.sb ≠ b') :
    (s.allocated b).disk b' = s.disk b' := by
  have ne : b' ≠ b := fun e => by rw [e, hb] at used; cases used
  simp [allocated, logWrite, Function.update_of_ne ne,
    Function.update_of_ne (notBitmap b lt).symm]

end

end Fs

end Xv6
