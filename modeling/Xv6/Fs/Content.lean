import Xv6.Lib.Image
import Xv6.Fs.Balloc
import Xv6.Fs.Tree

/-!
# A file's bytes through `readi` and `writei`

The bytes of the file an inode-cache entry holds are where `bmap`, without allocating,
finds them (`fileByte`).  `FileImage s ip bytes` says that entry `ip` holds a file, not a
device, whose bytes are `bytes`, laid out as `writei` leaves files: the blocks below
`ceil(size / BSIZE)` mapped and no other, the indirect block there exactly when a block
needs it, all of them different, marked in use in the bitmap, and neither bitmap blocks
nor the block of the inode itself.

* `writei_image`: with room in the bitmap for the blocks it adds, `writei(ip, src, off, n)`
  at `off <= size`, `off + n <= MAXFILE*BSIZE` returns `n` and leaves the image
  `writeAt bytes off src[0..n)`;
* `readi_image`: `readi(ip, dst, off, n)` at `off <= size`, `off + n < 2^32` returns the
  bytes from `off` on, at most `n` of them, and changes nothing;
* `readi_refuses`, `writei_refuses`: past the size, or with `off + n` past `2^32` (and for
  `writei` past `MAXFILE*BSIZE`), both return `-1` and change nothing;
* `FileImage.empty`: the inode `ialloc` leaves holds the empty file;
* `aliased_write`: on an inode two of whose direct entries name one block, a write to the
  first block is also a write to the second.
-/

namespace Xv6

namespace Fs

/-- Byte `k` of the file with disk inode `d`: where `bmap`, without allocating, finds it. -/
def fileByte (s : Fs) (d : DInode) (k : Nat) : UInt8 :=
  Block.byte (s.disk (s.fileBlock d (k / bsize))) (k % bsize)

/-- `ceil(size / BSIZE)`: the blocks a file of `size` bytes has bytes in. -/
def blockCount (size : Nat) : Nat := (size + bsize - 1) / bsize

/-- `ip->addrs[NDIRECT]`, the indirect block. -/
def indirectOf (d : DInode) : Nat := (d.addrs (Fin.last ndirect)).toNat

/-- The blocks `balloc` takes when a file's mapped blocks grow from `e` to `e'`: one a block,
and the indirect block when the blocks first pass `NDIRECT`. -/
def allocations (e e' : Nat) : Nat := e' - e + if e ≤ ndirect ∧ ndirect < e' then 1 else 0

/-- The blocks of a file with disk inode `d` and `e` mapped blocks: those mapped, and the
indirect block once it is needed. -/
def Owns (s : Fs) (d : DInode) (e : Nat) (b : Nat) : Prop :=
  (∃ bn < e, s.fileBlock d bn = b) ∨ (ndirect < e ∧ b = indirectOf d)

/-- A block a file of entry `ip` may hold: on the disk `balloc` sees, marked in use, neither a
bitmap block nor the block of the inode. -/
structure Good (s : Fs) (ip : Fin ninode) (b : Nat) : Prop where
  lt : b < s.sb.size
  used : s.inUse b = true
  notBitmap : ∀ x < s.sb.size, bblock x s.sb ≠ b
  notInode : b ≠ iblock (s.icache ip).inum s.sb

/-- The inode block of entry `ip` is on the disk, marked in use, and not a bitmap block. -/
structure InodeOk (s : Fs) (ip : Fin ninode) : Prop where
  lt : iblock (s.icache ip).inum s.sb < s.sb.size
  used : s.inUse (iblock (s.icache ip).inum s.sb) = true
  notBitmap : ∀ x < s.sb.size, bblock x s.sb ≠ iblock (s.icache ip).inum s.sb

/-- The file of entry `ip` has exactly blocks `0 .. e-1` mapped, the indirect block exactly
when one of them needs it, all different and each `Good`. -/
structure Mapped (s : Fs) (ip : Fin ninode) (e : Nat) : Prop where
  le : e ≤ maxFile
  mapped : ∀ bn < maxFile, s.fileBlock (s.icache ip).din bn ≠ 0 ↔ bn < e
  indirect : indirectOf (s.icache ip).din ≠ 0 ↔ ndirect < e
  injective : ∀ bn < e, ∀ bn' < e,
    s.fileBlock (s.icache ip).din bn = s.fileBlock (s.icache ip).din bn' → bn = bn'
  indirect_ne : ∀ bn < e, s.fileBlock (s.icache ip).din bn ≠ indirectOf (s.icache ip).din
  good : ∀ b, s.Owns (s.icache ip).din e b → s.Good ip b

/-- What `writei`'s loop keeps: the first `lim` bytes of the file of entry `ip` read as
`img`, its blocks laid out for `lim` bytes, on a sound bitmap. -/
structure Extent (s : Fs) (ip : Fin ninode) (lim : Nat) (img : List UInt8) : Prop where
  length : img.length = lim
  le : lim ≤ maxFile * bsize
  mapped : s.Mapped ip (blockCount lim)
  reads : ∀ k (h : k < img.length), s.fileByte (s.icache ip).din k = img[k]
  bitmap : s.BitmapOk
  inode : s.InodeOk ip

/-- Entry `ip` holds a file, not a device, whose bytes are `bytes`. -/
structure FileImage (s : Fs) (ip : Fin ninode) (bytes : List UInt8) : Prop
    extends s.Extent ip (s.icache ip).din.size.toNat bytes where
  notDev : (s.icache ip).din.type ≠ tDev

@[simp] theorem setDin_icache_self (s : Fs) (ip : Fin ninode) (d : DInode) :
    (s.setDin ip d).icache ip = { s.icache ip with din := d } := by
  simp [setDin]

@[simp] theorem setAddr_icache_self (s : Fs) (ip : Fin ninode) (k : Fin (ndirect + 1)) (a : UInt32) :
    (s.setAddr ip k a).icache ip = { s.icache ip with
      din := { (s.icache ip).din with addrs := Function.update (s.icache ip).din.addrs k a } } := by
  simp [setAddr]

/-! ## Where the blocks are -/

theorem fileBlock_direct (s : Fs) (d : DInode) {bn : Nat} (h : bn < ndirect) :
    s.fileBlock d bn = (d.addrs ⟨bn, Nat.lt_succ_of_lt h⟩).toNat := by
  simp [fileBlock, h]

theorem fileBlock_indirect (s : Fs) (d : DInode) {bn : Nat} (h : ndirect ≤ bn) (h' : bn < maxFile)
    (ind : indirectOf d ≠ 0) :
    s.fileBlock d bn = ((s.disk (indirectOf d)).word ⟨bn - ndirect, by
      unfold maxFile nindirect bsize ndirect at *; omega⟩).toNat := by
  have hlt : bn - ndirect < nindirect := by unfold maxFile at h'; omega
  simp only [indirectOf] at ind ⊢
  simp [fileBlock, Nat.not_lt.mpr h, hlt, ind]

theorem fileBlock_of_indirect_zero (s : Fs) (d : DInode) {bn : Nat} (h : ndirect ≤ bn)
    (ind : indirectOf d = 0) : s.fileBlock d bn = 0 := by
  simp only [indirectOf] at ind
  simp [fileBlock, Nat.not_lt.mpr h, ind]

/-- Only the indirect block's contents decide where a file's blocks are. -/
theorem fileBlock_congr {s s' : Fs} {d : DInode}
    (h : indirectOf d ≠ 0 → s'.disk (indirectOf d) = s.disk (indirectOf d)) :
    s'.fileBlock d = s.fileBlock d := by
  funext bn
  by_cases ind : indirectOf d = 0
  · unfold fileBlock
    simp only [indirectOf] at ind
    simp [ind]
  · have same := h ind
    simp only [indirectOf] at ind same
    simp [fileBlock, ind, same]

theorem zeroBlock_word (w : Fin 128) : zeroBlock.word w = 0 := LittleEndian.word32_zero

theorem toNat_ofNat_block {b : Nat} (h : b < fsSize) : (UInt32.ofNat b).toNat = b :=
  UInt32.toNat_ofNat_of_lt' (lt_trans h (by decide))

/-- A direct entry set: the block at `e` is the new one, and every other where it was. -/
theorem fileBlock_setDirect {s s' : Fs} {d : DInode} {e : Nat} (he : e < ndirect) (a : UInt32)
    (h : indirectOf d ≠ 0 → s'.disk (indirectOf d) = s.disk (indirectOf d)) (bn : Nat) :
    s'.fileBlock { d with addrs := Function.update d.addrs ⟨e, Nat.lt_succ_of_lt he⟩ a } bn =
      if bn = e then a.toNat else s.fileBlock d bn := by
  by_cases direct : bn < ndirect
  · rw [fileBlock_direct _ _ direct, fileBlock_direct _ _ direct]
    by_cases same : bn = e
    · subst same
      simp
    · have ne : (⟨bn, Nat.lt_succ_of_lt direct⟩ : Fin (ndirect + 1)) ≠ ⟨e, Nat.lt_succ_of_lt he⟩ := by
        simp [same]
      simp [if_neg same, Function.update_of_ne ne]
  · have ne : bn ≠ e := by omega
    have last : Fin.last ndirect ≠ ⟨e, Nat.lt_succ_of_lt he⟩ := by
      simp only [ne_eq, Fin.ext_iff, Fin.val_last]
      omega
    rw [if_neg ne, ← fileBlock_congr h]
    simp [fileBlock, direct, Function.update_of_ne last]

/-- An entry of the indirect block set: the block at `e` is the new one, and every other
where it was. -/
theorem fileBlock_setWord (s s' : Fs) {d : DInode} {e : Nat} (past : ndirect ≤ e)
    (lt : e - ndirect < nindirect) (ind : indirectOf d ≠ 0) (a : UInt32)
    (hdisk : s'.disk (indirectOf d) = (s.disk (indirectOf d)).setWord ⟨e - ndirect, indirect_lt lt⟩ a)
    {bn : Nat} (hbn : bn < maxFile) :
    s'.fileBlock d bn = if bn = e then a.toNat else s.fileBlock d bn := by
  by_cases direct : bn < ndirect
  · rw [fileBlock_direct _ _ direct, fileBlock_direct _ _ direct, if_neg (by omega)]
  · have past' : ndirect ≤ bn := Nat.not_lt.mp direct
    rw [fileBlock_indirect _ _ past' hbn ind, fileBlock_indirect _ _ past' hbn ind, hdisk]
    by_cases same : bn = e
    · subst same
      rw [if_pos rfl, Block.setWord_word_self]
    · rw [if_neg same, Block.setWord_word_of_ne]
      simp only [ne_eq, Fin.mk.injEq]
      omega

/-- A new indirect block `c` holding one entry, for block `NDIRECT`: that block is the new one,
the direct ones where they were, and no other. -/
theorem fileBlock_newIndirect (s s' : Fs) {d : DInode} (ind : indirectOf d = 0) {c : Nat}
    (hc : c ≠ 0) (hc' : c < fsSize) (a : UInt32)
    (hdisk : s'.disk c = zeroBlock.setWord ⟨0, by decide⟩ a) {bn : Nat} (hbn : bn < maxFile) :
    s'.fileBlock { d with addrs := Function.update d.addrs (Fin.last ndirect) (UInt32.ofNat c) } bn =
      if bn = ndirect then a.toNat else s.fileBlock d bn := by
  by_cases direct : bn < ndirect
  · have ne : (⟨bn, Nat.lt_succ_of_lt direct⟩ : Fin (ndirect + 1)) ≠ Fin.last ndirect := by
      simp only [ne_eq, Fin.ext_iff, Fin.val_last]
      omega
    rw [fileBlock_direct _ _ direct, fileBlock_direct _ _ direct, if_neg (by omega)]
    simp [Function.update_of_ne ne]
  · have past : ndirect ≤ bn := Nat.not_lt.mp direct
    have newInd : indirectOf { d with
        addrs := Function.update d.addrs (Fin.last ndirect) (UInt32.ofNat c) } = c := by
      simp [indirectOf, toNat_ofNat_block hc']
    rw [fileBlock_indirect _ _ past hbn (by rw [newInd]; exact hc), newInd, hdisk,
      fileBlock_of_indirect_zero _ _ past ind]
    by_cases same : bn = ndirect
    · have first : (⟨bn - ndirect, by unfold maxFile nindirect bsize ndirect at *; omega⟩ : Fin 128) =
          ⟨0, by decide⟩ := Fin.ext (by simp only; omega)
      rw [if_pos same, first, Block.setWord_word_self]
    · rw [if_neg same, Block.setWord_word_of_ne _ _ (by simp only [ne_eq, Fin.mk.injEq]; omega),
        zeroBlock_word]
      rfl

/-! ## Good blocks across writes -/

theorem Good.transfer {s s' : Fs} {ip : Fin ninode} {x : Nat} (g : s.Good ip x)
    (sb : s'.sb = s.sb) (inum : (s'.icache ip).inum = (s.icache ip).inum)
    (used : s'.inUse x = true) : s'.Good ip x where
  lt := sb ▸ g.lt
  used := used
  notBitmap := sb ▸ g.notBitmap
  notInode := by rw [sb, inum]; exact g.notInode

theorem InodeOk.transfer {s s' : Fs} {ip : Fin ninode} (i : s.InodeOk ip) (sb : s'.sb = s.sb)
    (inum : (s'.icache ip).inum = (s.icache ip).inum)
    (used : s'.inUse (iblock (s.icache ip).inum s.sb) = true) : s'.InodeOk ip where
  lt := by rw [sb, inum]; exact i.lt
  used := by rw [sb, inum]; exact used
  notBitmap := by rw [sb, inum]; exact i.notBitmap

theorem BitmapOk.transfer {s s' : Fs} (ok : s.BitmapOk) (sb : s'.sb = s.sb)
    (used : ∀ b < s.sb.size, s'.inUse b = s.inUse b) : s'.BitmapOk where
  pos := sb ▸ ok.pos
  fits := sb ▸ ok.fits
  bitmap_lt := sb ▸ ok.bitmap_lt
  bitmap_used b hb := by
    rw [sb] at hb ⊢
    rw [used _ (ok.bitmap_lt b hb), ok.bitmap_used b hb]
  zero_used := by rw [used 0 ok.pos, ok.zero_used]

/-- A block in use stays `Good` when `balloc` takes a free one. -/
theorem Good.allocated {s : Fs} {ip : Fin ninode} {x b : Nat} (ok : s.BitmapOk)
    (g : s.Good ip x) (hb : s.inUse b = false) : (s.allocated b).Good ip x :=
  g.transfer rfl rfl (by rw [inUse_allocated ok hb g.lt, g.used, Bool.or_true])

/-- The block `balloc` took is `Good`. -/
theorem Good.of_allocated {s : Fs} {ip : Fin ninode} {b : Nat} (ok : s.BitmapOk)
    (inode : s.InodeOk ip) (hb : s.inUse b = false) (lt : b < s.sb.size) :
    (s.allocated b).Good ip b where
  lt := lt
  used := by simp [inUse_allocated ok hb lt]
  notBitmap x hx e := by
    simp only [allocated_sb] at hx e
    have := ok.bitmap_used x hx
    rw [e, hb] at this
    cases this
  notInode e := by
    simp only [allocated_sb, allocated_icache] at e
    have := inode.used
    rw [← e, hb] at this
    cases this

/-- An owned block is in use, so it is not the free block `balloc` takes. -/
theorem Good.ne_of_free {s : Fs} {ip : Fin ninode} {x b : Nat} (g : s.Good ip x)
    (hb : s.inUse b = false) : x ≠ b := by
  rintro rfl
  rw [g.used] at hb
  cases hb

theorem InodeOk.allocated {s : Fs} {ip : Fin ninode} {b : Nat} (ok : s.BitmapOk)
    (i : s.InodeOk ip) (hb : s.inUse b = false) : (s.allocated b).InodeOk ip :=
  i.transfer rfl rfl (by rw [inUse_allocated ok hb i.lt, i.used, Bool.or_true])

/-! ### Writes to blocks that are not the bitmap's, and new addresses -/

section Frames

variable {s : Fs} {ip : Fin ninode} {a : Nat}

theorem inUse_logWrite_of_notBitmap (notBitmap : ∀ y < s.sb.size, bblock y s.sb ≠ a)
    (blk : Block) {b : Nat} (hb : b < s.sb.size) : (s.logWrite a blk).inUse b = s.inUse b :=
  inUse_logWrite (notBitmap b hb) blk

theorem Good.logWrite {x : Nat} (g : s.Good ip x) (notBitmap : ∀ y < s.sb.size, bblock y s.sb ≠ a)
    (blk : Block) : (s.logWrite a blk).Good ip x :=
  g.transfer rfl rfl (by rw [inUse_logWrite_of_notBitmap notBitmap blk g.lt, g.used])

theorem BitmapOk.logWrite (ok : s.BitmapOk) (notBitmap : ∀ y < s.sb.size, bblock y s.sb ≠ a)
    (blk : Block) : (s.logWrite a blk).BitmapOk :=
  ok.transfer rfl (fun _ hb => inUse_logWrite_of_notBitmap notBitmap blk hb)

theorem InodeOk.logWrite (i : s.InodeOk ip) (notBitmap : ∀ y < s.sb.size, bblock y s.sb ≠ a)
    (blk : Block) : (s.logWrite a blk).InodeOk ip :=
  i.transfer rfl rfl (by rw [inUse_logWrite_of_notBitmap notBitmap blk i.lt, i.used])

theorem freeBlocks_logWrite (notBitmap : ∀ y < s.sb.size, bblock y s.sb ≠ a) (blk : Block) :
    (s.logWrite a blk).freeBlocks = s.freeBlocks := by
  ext b
  simp only [freeBlocks, logWrite_sb, Finset.mem_filter, Finset.mem_range]
  constructor
  · rintro ⟨lt, free⟩
    exact ⟨lt, by rwa [inUse_logWrite_of_notBitmap notBitmap blk lt] at free⟩
  · rintro ⟨lt, free⟩
    exact ⟨lt, by rwa [inUse_logWrite_of_notBitmap notBitmap blk lt]⟩

theorem Good.setAddr {x : Nat} (g : s.Good ip x) (k : Fin (ndirect + 1)) (v : UInt32) :
    (s.setAddr ip k v).Good ip x :=
  g.transfer rfl (by simp) g.used

theorem BitmapOk.setAddr (ok : s.BitmapOk) (k : Fin (ndirect + 1)) (v : UInt32) :
    (s.setAddr ip k v).BitmapOk :=
  ok.transfer rfl (fun _ _ => rfl)

theorem InodeOk.setAddr (i : s.InodeOk ip) (k : Fin (ndirect + 1)) (v : UInt32) :
    (s.setAddr ip k v).InodeOk ip :=
  i.transfer rfl (by simp) i.used

end Frames

/-! ## Growing a file by a block -/

theorem Mapped.good_block {s : Fs} {ip : Fin ninode} {e : Nat} (m : s.Mapped ip e) {bn : Nat}
    (h : bn < e) : s.Good ip (s.fileBlock (s.icache ip).din bn) :=
  m.good _ (.inl ⟨bn, h, rfl⟩)

theorem Mapped.good_indirect {s : Fs} {ip : Fin ninode} {e : Nat} (m : s.Mapped ip e)
    (h : ndirect < e) : s.Good ip (indirectOf (s.icache ip).din) :=
  m.good _ (.inr ⟨h, rfl⟩)


/-- The layout for `e + 1` blocks, from the layout for `e` and a block `b` that is new: the
blocks below `e` where they were, `b` at `e`, and the indirect block the old one or new. -/
theorem Mapped.extend {s s' : Fs} {ip : Fin ninode} {e b : Nat} (m : s.Mapped ip e)
    (lt : e < maxFile)
    (blocks : ∀ bn < maxFile, s'.fileBlock (s'.icache ip).din bn =
      if bn = e then b else s.fileBlock (s.icache ip).din bn)
    (nonzero : b ≠ 0) (fresh : ∀ x, s.Owns (s.icache ip).din e x → x ≠ b)
    (indirect : indirectOf (s'.icache ip).din ≠ 0 ↔ ndirect < e + 1)
    (indirectNew : ndirect < e + 1 → indirectOf (s'.icache ip).din ≠ b)
    (indirectOld : ∀ bn < e, s.fileBlock (s.icache ip).din bn ≠ indirectOf (s'.icache ip).din)
    (goodOld : ∀ x, s.Owns (s.icache ip).din e x → s'.Good ip x) (goodNew : s'.Good ip b)
    (goodInd : ndirect < e + 1 → s'.Good ip (indirectOf (s'.icache ip).din)) :
    s'.Mapped ip (e + 1) where
  le := lt
  mapped bn hbn := by
    rw [blocks bn hbn]
    by_cases same : bn = e
    · simp [same, nonzero]
    · rw [if_neg same, m.mapped bn hbn]
      omega
  indirect := indirect
  injective bn hbn bn' hbn' eq := by
    rw [blocks bn (by omega), blocks bn' (by omega)] at eq
    by_cases same : bn = e
    · by_cases same' : bn' = e
      · rw [same, same']
      · rw [if_pos same, if_neg same'] at eq
        exact absurd eq.symm (fresh _ (.inl ⟨bn', by omega, rfl⟩))
    · by_cases same' : bn' = e
      · rw [if_neg same, if_pos same'] at eq
        exact absurd eq (fresh _ (.inl ⟨bn, by omega, rfl⟩))
      · rw [if_neg same, if_neg same'] at eq
        exact m.injective bn (by omega) bn' (by omega) eq
  indirect_ne bn hbn := by
    rw [blocks bn (by omega)]
    by_cases same : bn = e
    · rw [if_pos same]
      exact fun h => indirectNew (indirect.mp (h ▸ nonzero)) h.symm
    · rw [if_neg same]
      exact indirectOld bn (by omega)
  good x owns := by
    rcases owns with ⟨bn, hbn, rfl⟩ | ⟨past, rfl⟩
    · rw [blocks bn (by omega)]
      by_cases same : bn = e
      · rw [if_pos same]
        exact goodNew
      · rw [if_neg same]
        exact goodOld _ (.inl ⟨bn, by omega, rfl⟩)
    · exact goodInd past

/-! ## `bmap` of the first unmapped block -/

@[simp] theorem inUse_setAddr (s : Fs) (ip : Fin ninode) (k : Fin (ndirect + 1)) (a : UInt32) :
    (s.setAddr ip k a).inUse = s.inUse := rfl

@[simp] theorem freeBlocks_setAddr (s : Fs) (ip : Fin ninode) (k : Fin (ndirect + 1)) (a : UInt32) :
    (s.setAddr ip k a).freeBlocks = s.freeBlocks := rfl

@[simp] theorem setAddr_sb' (s : Fs) (ip : Fin ninode) (k : Fin (ndirect + 1)) (a : UInt32) :
    (s.setAddr ip k a).sb = s.sb := rfl

theorem exists_free_of_card_pos {s : Fs} (h : 0 < s.freeBlocks.card) :
    ∃ b < s.sb.size, s.inUse b = false := by
  obtain ⟨b, mem⟩ := Finset.card_pos.mp h
  simp only [freeBlocks, Finset.mem_filter, Finset.mem_range] at mem
  exact ⟨b, mem⟩

theorem card_allocated {s : Fs} (ok : s.BitmapOk) {b : Nat} (hb : s.inUse b = false)
    (lt : b < s.sb.size) : (s.allocated b).freeBlocks.card + 1 = s.freeBlocks.card := by
  rw [freeBlocks_allocated ok hb, Finset.card_erase_add_one]
  simp [freeBlocks, lt, hb]

/-- `s'` keeps, of entry `ip`, what `writei`'s loop does not change: the superblock, the
inode's number, its size and its type. -/
structure Keeps (s s' : Fs) (ip : Fin ninode) : Prop where
  sb : s'.sb = s.sb
  inum : (s'.icache ip).inum = (s.icache ip).inum
  size : (s'.icache ip).din.size = (s.icache ip).din.size
  type : (s'.icache ip).din.type = (s.icache ip).din.type

theorem Keeps.refl (s : Fs) (ip : Fin ninode) : s.Keeps s ip := ⟨rfl, rfl, rfl, rfl⟩

theorem Keeps.trans {s s' s'' : Fs} {ip : Fin ninode} (h : s.Keeps s' ip) (h' : s'.Keeps s'' ip) :
    s.Keeps s'' ip :=
  ⟨h'.sb.trans h.sb, h'.inum.trans h.inum, h'.size.trans h.size, h'.type.trans h.type⟩

/-- What `bmap` of the first unmapped block `e` leaves, returning `a`: the layout for `e + 1`
blocks with `a` at `e`, the blocks below `e` where and as they were, and one free block
fewer, two when it also took the indirect block. -/
structure Grown (s s' : Fs) (ip : Fin ninode) (e : Nat) (a : UInt32) : Prop where
  mapped : s'.Mapped ip (e + 1)
  at_e : s'.fileBlock (s'.icache ip).din e = a.toNat
  blocks : ∀ bn < e, s'.fileBlock (s'.icache ip).din bn = s.fileBlock (s.icache ip).din bn
  contents : ∀ bn < e,
    s'.disk (s.fileBlock (s.icache ip).din bn) = s.disk (s.fileBlock (s.icache ip).din bn)
  bitmap : s'.BitmapOk
  inode : s'.InodeOk ip
  free : s'.freeBlocks.card + allocations e (e + 1) = s.freeBlocks.card
  keeps : s.Keeps s' ip

section Grow

variable {s : Fs} {ip : Fin ninode} {e : Nat}

/-- The first unmapped block is unmapped: its entry is `0`. -/
theorem Mapped.fileBlock_eq_zero (m : s.Mapped ip e) (lt : e < maxFile) :
    s.fileBlock (s.icache ip).din e = 0 := by
  by_contra ne
  exact absurd ((m.mapped e lt).mp ne) (Nat.lt_irrefl e)

/-- A direct block: `balloc` one block and store it in `ip->addrs[e]`. -/
theorem bmap_grow_direct (m : s.Mapped ip e) (ok : s.BitmapOk) (inode : s.InodeOk ip)
    (he : e < ndirect) (room : 0 < s.freeBlocks.card) :
    ∃ s' a, s.bmap ip e = .ok (s', a) ∧ Grown s s' ip e a := by
  obtain ⟨b, free, lt, hb⟩ := balloc_eq ok (exists_free_of_card_pos room)
  have inFile : e < maxFile := by unfold maxFile; omega
  have zero : (s.icache ip).din.addrs ⟨e, Nat.lt_succ_of_lt he⟩ = 0 := by
    have := m.fileBlock_eq_zero inFile
    rw [fileBlock_direct _ _ he] at this
    exact UInt32.toNat_inj.mp (by simpa using this)
  have noInd : indirectOf (s.icache ip).din = 0 := by
    by_contra ne
    exact absurd (m.indirect.mp ne) (by omega)
  have blockNat : (UInt32.ofNat b).toNat = b := toNat_ofNat_block (lt_of_lt_of_le lt ok.fits)
  let s' := (s.allocated b).setAddr ip ⟨e, Nat.lt_succ_of_lt he⟩ (UInt32.ofNat b)
  have blocks : ∀ bn, s'.fileBlock (s'.icache ip).din bn =
      if bn = e then b else s.fileBlock (s.icache ip).din bn := by
    intro bn
    simp only [s', setAddr_icache_self, allocated_icache]
    rw [fileBlock_setDirect he _ (fun ne => absurd noInd ne), blockNat]
  have indirect : indirectOf (s'.icache ip).din = 0 := by
    simp only [s', setAddr_icache_self, allocated_icache, indirectOf]
    rw [Function.update_of_ne (by simp only [ne_eq, Fin.ext_iff, Fin.val_last]; omega)]
    exact noInd
  have goodOld : ∀ x, s.Good ip x → s'.Good ip x := fun x g =>
    (g.allocated ok free).transfer rfl (by simp [s']) (g.allocated ok free).used
  refine ⟨s', UInt32.ofNat b, ?_, ?_⟩
  · unfold bmap
    simp only [dif_pos he, if_pos zero, hb, except_ok_bind]
    rfl
  refine ⟨m.extend inFile (fun bn _ => blocks bn) (ne_zero_of_free ok free)
      (fun x owns => (m.good x owns).ne_of_free free) ?_ (by omega) ?_
      (fun x owns => goodOld x (m.good x owns)) ?_ (by omega),
    by rw [blocks, if_pos rfl, blockNat], fun bn hbn => by rw [blocks, if_neg (by omega)],
    fun bn hbn => ?_, ?_, ?_, ?_, ⟨rfl, by simp [s'], by simp [s'], by simp [s']⟩⟩
  · rw [indirect]
    omega
  · intro bn hbn
    rw [indirect]
    exact (m.mapped bn (by omega)).mpr hbn
  · exact ((Good.of_allocated ok inode free lt).transfer rfl (by simp [s'])
      (Good.of_allocated ok inode free lt).used)
  · have g := m.good_block hbn
    exact disk_allocated_of_inUse free lt g.used g.notBitmap
  · exact (bitmapOk_allocated ok free).transfer rfl (fun _ _ => rfl)
  · exact (inode.allocated ok free).transfer rfl (by simp [s']) (inode.allocated ok free).used
  · have := card_allocated ok free lt
    simp only [s', freeBlocks_setAddr, allocations]
    rw [if_neg (by omega)]
    omega

/-- A block past `NDIRECT` with the indirect block there: `balloc` one block and store it in
the indirect block's entry. -/
theorem bmap_grow_indirect (m : s.Mapped ip e) (ok : s.BitmapOk) (inode : s.InodeOk ip)
    (past : ndirect < e) (inFile : e < maxFile) (room : 0 < s.freeBlocks.card) :
    ∃ s' a, s.bmap ip e = .ok (s', a) ∧ Grown s s' ip e a := by
  obtain ⟨b, free, lt, hb⟩ := balloc_eq ok (exists_free_of_card_pos room)
  have hlt : e - ndirect < nindirect := by unfold maxFile at inFile; omega
  have hind := m.indirect.mpr past
  have indGood := m.good_indirect past
  have blockNat : (UInt32.ofNat b).toNat = b := toNat_ofNat_block (lt_of_lt_of_le lt ok.fits)
  have readable : indirectOf (s.icache ip).din < fsSize := lt_of_lt_of_le indGood.lt ok.fits
  have ne : (s.icache ip).din.addrs (Fin.last ndirect) ≠ 0 := by
    intro zero
    simp [indirectOf, zero] at hind
  -- the entry of block `e` in the indirect block is `0`
  have zero : (s.disk (indirectOf (s.icache ip).din)).word ⟨e - ndirect, indirect_lt hlt⟩ = 0 := by
    have := m.fileBlock_eq_zero inFile
    rw [fileBlock_indirect _ _ (Nat.le_of_lt past) inFile hind] at this
    exact UInt32.toNat_inj.mp (by simpa using this)
  let ind := indirectOf (s.icache ip).din
  let s' := (s.allocated b).logWrite ind
    ((s.disk ind).setWord ⟨e - ndirect, indirect_lt hlt⟩ (UInt32.ofNat b))
  have notBitmap : ∀ y < (s.allocated b).sb.size, bblock y (s.allocated b).sb ≠ ind :=
    indGood.notBitmap
  have blocks : ∀ bn < maxFile, s'.fileBlock (s'.icache ip).din bn =
      if bn = e then b else s.fileBlock (s.icache ip).din bn := by
    intro bn hbn
    have h := fileBlock_setWord s s' (Nat.le_of_lt past) hlt hind (UInt32.ofNat b)
      (by simp [s', ind, logWrite]) hbn
    rw [blockNat] at h
    simpa [s'] using h
  have goodOld : ∀ x, s.Good ip x → s'.Good ip x := fun x g =>
    (g.allocated ok free).logWrite notBitmap _
  refine ⟨s', UInt32.ofNat b, ?_, ?_⟩
  · unfold bmap
    have readable' : ((s.icache ip).din.addrs (Fin.last ndirect)).toNat < fsSize := readable
    simp only [indirectOf] at zero
    simp only [dif_neg (Nat.not_lt.mpr (Nat.le_of_lt past)), dif_pos hlt, if_neg ne, pure_bind,
      bread_of_lt s readable', except_ok_bind, if_pos zero, hb]
    rfl
  refine ⟨m.extend inFile blocks (ne_zero_of_free ok free)
      (fun x owns => (m.good x owns).ne_of_free free) ?_ (fun _ => indGood.ne_of_free free)
      (fun bn hbn => by simpa [s'] using m.indirect_ne bn hbn)
      (fun x owns => goodOld x (m.good x owns)) ?_ (fun _ => by simpa [s'] using goodOld _ indGood),
    by rw [blocks e inFile, if_pos rfl, blockNat],
    fun bn hbn => by rw [blocks bn (by omega), if_neg (by omega)],
    fun bn hbn => ?_, ?_, ?_, ?_, ⟨rfl, by simp [s'], by simp [s'], by simp [s']⟩⟩
  · simp only [s', logWrite_icache, allocated_icache]
    constructor
    · intro _
      omega
    · intro _
      exact hind
  · exact (Good.of_allocated ok inode free lt).logWrite notBitmap _
  · -- a data block is neither the indirect block nor a block the bitmap or `b` is
    have g := m.good_block hbn
    have other : s.fileBlock (s.icache ip).din bn ≠ ind := m.indirect_ne bn hbn
    simp only [s', logWrite]
    rw [Function.update_of_ne other]
    exact disk_allocated_of_inUse free lt g.used g.notBitmap
  · exact (bitmapOk_allocated ok free).logWrite notBitmap _
  · exact (inode.allocated ok free).logWrite notBitmap _
  · have := card_allocated ok free lt
    simp only [s', freeBlocks_logWrite notBitmap, allocations]
    rw [if_neg (by omega)]
    omega

/-- Block `NDIRECT`, the first past the direct ones: `balloc` the indirect block, store it in
`ip->addrs[NDIRECT]`, then `balloc` the block and store it in the indirect block's first
entry. -/
theorem bmap_grow_first_indirect (m : s.Mapped ip e) (ok : s.BitmapOk) (inode : s.InodeOk ip)
    (he : e = ndirect) (room : 2 ≤ s.freeBlocks.card) :
    ∃ s' a, s.bmap ip e = .ok (s', a) ∧ Grown s s' ip e a := by
  subst he
  have inFile : ndirect < maxFile := by decide
  have noInd : indirectOf (s.icache ip).din = 0 := by
    by_contra ne
    exact absurd (m.indirect.mp ne) (Nat.lt_irrefl _)
  have zeroAddr : (s.icache ip).din.addrs (Fin.last ndirect) = 0 :=
    UInt32.toNat_inj.mp (by simpa [indirectOf] using noInd)
  -- the indirect block `c`
  obtain ⟨c, freeC, ltC, hc⟩ := balloc_eq ok (exists_free_of_card_pos (by omega))
  have cNat : (UInt32.ofNat c).toNat = c := toNat_ofNat_block (lt_of_lt_of_le ltC ok.fits)
  let s1 := (s.allocated c).setAddr ip (Fin.last ndirect) (UInt32.ofNat c)
  have ok1 : s1.BitmapOk := (bitmapOk_allocated ok freeC).setAddr _ _
  have inode1 : s1.InodeOk ip := (inode.allocated ok freeC).setAddr _ _
  have card1 : s1.freeBlocks.card + 1 = s.freeBlocks.card := card_allocated ok freeC ltC
  have goodC : s1.Good ip c := (Good.of_allocated ok inode freeC ltC).setAddr _ _
  -- the data block `b`
  obtain ⟨b, freeB, ltB, hb⟩ := balloc_eq ok1 (exists_free_of_card_pos (by omega))
  have bNat : (UInt32.ofNat b).toNat = b := toNat_ofNat_block (lt_of_lt_of_le ltB ok1.fits)
  have bc : b ≠ c := (goodC.ne_of_free freeB).symm
  have notBitmap : ∀ y < (s1.allocated b).sb.size, bblock y (s1.allocated b).sb ≠ c :=
    goodC.notBitmap
  let s' := (s1.allocated b).logWrite c (zeroBlock.setWord ⟨0, by decide⟩ (UInt32.ofNat b))
  have lift : ∀ x, s.Good ip x → s'.Good ip x := fun x g =>
    ((((g.allocated ok freeC).setAddr _ _).allocated ok1 freeB).logWrite notBitmap _)
  have blocks : ∀ bn < maxFile, s'.fileBlock (s'.icache ip).din bn =
      if bn = ndirect then b else s.fileBlock (s.icache ip).din bn := by
    intro bn hbn
    have h := fileBlock_newIndirect s s' noInd (ne_zero_of_free ok freeC)
      (lt_of_lt_of_le ltC ok.fits) (UInt32.ofNat b) (by simp [s', logWrite]) hbn
    rw [bNat] at h
    simpa [s', s1] using h
  have indirect : indirectOf (s'.icache ip).din = c := by
    simp [s', s1, indirectOf, cNat]
  refine ⟨s', UInt32.ofNat b, ?_, ?_⟩
  · have zeroWord : (s1.disk c).word ⟨ndirect - ndirect, by decide⟩ = 0 := by
      simp [s1, zeroBlock_word]
    have readable : (UInt32.ofNat c).toNat < fsSize := by
      rw [cNat]
      exact lt_of_lt_of_le ltC ok.fits
    unfold bmap
    rw [cNat] at readable
    simp only [dif_neg (Nat.lt_irrefl ndirect), dif_pos (show ndirect - ndirect < nindirect by
      decide), if_pos zeroAddr, hc, except_ok_bind, pure_bind]
    rw [cNat, bread_of_lt _ readable, except_ok_bind, if_pos zeroWord, hb, except_ok_bind]
    simp only [setAddr_disk, allocated_disk_self]
    rfl
  refine ⟨m.extend inFile blocks (ne_zero_of_free ok1 freeB)
      (fun x owns => ((((m.good x owns).allocated ok freeC).setAddr _ _)).ne_of_free freeB)
      ?_ (fun _ => by rw [indirect]; exact bc.symm)
      (fun bn hbn => by rw [indirect]; exact (m.good_block hbn).ne_of_free freeC)
      (fun x owns => lift x (m.good x owns)) ?_ (fun _ => ?_),
    by rw [blocks ndirect inFile, if_pos rfl, bNat],
    fun bn hbn => by rw [blocks bn (by omega), if_neg (by omega)],
    fun bn hbn => ?_, ?_, ?_, ?_, ⟨rfl, by simp [s', s1], by simp [s', s1], by simp [s', s1]⟩⟩
  · rw [indirect]
    exact ⟨fun _ => Nat.lt_succ_self _, fun _ => ne_zero_of_free ok freeC⟩
  · exact (Good.of_allocated ok1 inode1 freeB ltB).logWrite notBitmap _
  · rw [indirect]
    exact (goodC.allocated ok1 freeB).logWrite notBitmap _
  · -- a data block is neither of the two new blocks, nor a bitmap block
    have g := m.good_block hbn
    have other : s.fileBlock (s.icache ip).din bn ≠ c := g.ne_of_free freeC
    have g1 : s1.Good ip (s.fileBlock (s.icache ip).din bn) := (g.allocated ok freeC).setAddr _ _
    simp only [s', logWrite]
    rw [Function.update_of_ne other, disk_allocated_of_inUse freeB ltB g1.used g1.notBitmap]
    exact disk_allocated_of_inUse freeC ltC g.used g.notBitmap
  · exact (bitmapOk_allocated ok1 freeB).logWrite notBitmap _
  · exact (inode1.allocated ok1 freeB).logWrite notBitmap _
  · have := card_allocated ok1 freeB ltB
    simp only [s', freeBlocks_logWrite notBitmap, allocations]
    rw [if_pos (by omega)]
    omega

/-- `bmap` of the first unmapped block, whichever of the three ways it takes. -/
theorem bmap_grow (m : s.Mapped ip e) (ok : s.BitmapOk) (inode : s.InodeOk ip)
    (inFile : e < maxFile) (room : allocations e (e + 1) ≤ s.freeBlocks.card) :
    ∃ s' a, s.bmap ip e = .ok (s', a) ∧ Grown s s' ip e a := by
  unfold allocations at room
  rcases lt_trichotomy e ndirect with lt | rfl | gt
  · rw [if_neg (by omega)] at room
    exact bmap_grow_direct m ok inode lt (by omega)
  · rw [if_pos (by omega)] at room
    exact bmap_grow_first_indirect m ok inode rfl (by omega)
  · rw [if_neg (by omega)] at room
    exact bmap_grow_indirect m ok inode gt inFile (by omega)

end Grow

/-! ## `bmap` in `writei`'s loop -/

/-- `bmap` of a mapped block finds it, and allocates nothing. -/
theorem bmap_mapped {s : Fs} {ip : Fin ninode} {e bn : Nat} (m : s.Mapped ip e)
    (fits : s.sb.size ≤ fsSize) (h : bn < e) :
    ∃ a : UInt32, s.bmap ip bn = .ok (s, a) ∧ a.toNat = s.fileBlock (s.icache ip).din bn := by
  have inFile : bn < maxFile := lt_of_lt_of_le h m.le
  have nonzero := (m.mapped bn inFile).mpr h
  unfold bmap
  by_cases direct : bn < ndirect
  · rw [fileBlock_direct s _ direct] at nonzero
    have ne : (s.icache ip).din.addrs ⟨bn, Nat.lt_succ_of_lt direct⟩ ≠ 0 := by
      intro zero
      simp [zero] at nonzero
    simp only [dif_pos direct, if_neg ne]
    exact ⟨_, rfl, (fileBlock_direct s _ direct).symm⟩
  · -- through the indirect block, which a block past `NDIRECT` needs
    have past : ndirect ≤ bn := Nat.not_lt.mp direct
    have hind := m.indirect.mpr (lt_of_le_of_lt past h)
    have indGood := m.good_indirect (lt_of_le_of_lt past h)
    have hlt : bn - ndirect < nindirect := by unfold maxFile at inFile; omega
    have ne : (s.icache ip).din.addrs (Fin.last ndirect) ≠ 0 := by
      intro zero
      simp [indirectOf, zero] at hind
    have word := fileBlock_indirect s _ past inFile hind
    rw [word] at nonzero
    have wordNe : (s.disk (indirectOf (s.icache ip).din)).word
        ⟨bn - ndirect, indirect_lt hlt⟩ ≠ 0 := by
      intro zero
      simp [zero] at nonzero
    have readable : ((s.icache ip).din.addrs (Fin.last ndirect)).toNat < fsSize :=
      lt_of_lt_of_le indGood.lt fits
    rw [indirectOf] at wordNe word
    simp only [dif_neg direct, dif_pos hlt, if_neg ne, pure_bind, bread_of_lt s readable,
      except_ok_bind, if_neg wordNe]
    exact ⟨_, rfl, word.symm⟩

/-- A write to a block that is neither the file's indirect block nor a bitmap block keeps the
layout. -/
theorem Mapped.logWrite {s : Fs} {ip : Fin ninode} {e a : Nat} (m : s.Mapped ip e)
    (notInd : ndirect < e → a ≠ indirectOf (s.icache ip).din)
    (notBitmap : ∀ y < s.sb.size, bblock y s.sb ≠ a) (blk : Block) :
    (s.logWrite a blk).Mapped ip e := by
  have same : (s.logWrite a blk).fileBlock (s.icache ip).din = s.fileBlock (s.icache ip).din :=
    fileBlock_congr fun ind => by
      have ne := notInd (m.indirect.mp ind)
      simp [Function.update_of_ne ne.symm]
  have owns : (s.logWrite a blk).Owns (s.icache ip).din e = s.Owns (s.icache ip).din e := by
    funext x
    simp only [Owns, same]
  refine ⟨m.le, ?_, m.indirect, ?_, ?_, ?_⟩
  · simpa only [logWrite_icache, same] using m.mapped
  · simpa only [logWrite_icache, same] using m.injective
  · simpa only [logWrite_icache, same] using m.indirect_ne
  · intro x hx
    simp only [logWrite_icache, owns] at hx
    exact (m.good x hx).logWrite notBitmap blk

/-- What `bmap` of block `bn` gives a turn of `writei`'s loop: the layout for `e'` blocks with
`a` at `bn`, the blocks below `e` where and as they were. -/
structure Found (s s' : Fs) (ip : Fin ninode) (e e' bn : Nat) (a : UInt32) : Prop where
  mapped : s'.Mapped ip e'
  at_bn : s'.fileBlock (s'.icache ip).din bn = a.toNat
  lt : bn < e'
  blocks : ∀ j < e, s'.fileBlock (s'.icache ip).din j = s.fileBlock (s.icache ip).din j
  contents : ∀ j < e,
    s'.disk (s.fileBlock (s.icache ip).din j) = s.disk (s.fileBlock (s.icache ip).din j)
  bitmap : s'.BitmapOk
  inode : s'.InodeOk ip
  free : s'.freeBlocks.card + allocations e e' = s.freeBlocks.card
  keeps : s.Keeps s' ip

/-- `bmap` of a block at most one past the mapped ones: found, or the next one allocated. -/
theorem bmap_found {s : Fs} {ip : Fin ninode} {e bn : Nat} (m : s.Mapped ip e)
    (ok : s.BitmapOk) (inode : s.InodeOk ip) (hbn : bn ≤ e) (inFile : bn < maxFile)
    (room : allocations e (max e (bn + 1)) ≤ s.freeBlocks.card) :
    ∃ s' a, s.bmap ip bn = .ok (s', a) ∧ Found s s' ip e (max e (bn + 1)) bn a := by
  rcases Nat.lt_or_eq_of_le hbn with lt | rfl
  · obtain ⟨a, hbmap, ha⟩ := bmap_mapped m ok.fits lt
    have same : max e (bn + 1) = e := by omega
    refine ⟨s, a, hbmap, ?_⟩
    rw [same]
    exact ⟨m, ha.symm, lt, fun _ _ => rfl, fun _ _ => rfl, ok, inode,
      by simp [allocations], Keeps.refl s ip⟩
  · have same : max bn (bn + 1) = bn + 1 := by omega
    rw [same] at room ⊢
    obtain ⟨s', a, hbmap, g⟩ := bmap_grow m ok inode inFile room
    exact ⟨s', a, hbmap, g.mapped, g.at_e, Nat.lt_succ_self bn, g.blocks, g.contents, g.bitmap,
      g.inode, g.free, g.keeps⟩

/-! ## One turn of `writei`'s loop -/

theorem allocations_add {e e' e'' : Nat} (h : e ≤ e') (h' : e' ≤ e'') :
    allocations e e' + allocations e' e'' = allocations e e'' := by
  unfold allocations
  split_ifs <;> omega

theorem allocations_mono {e e' e'' : Nat} (h : e' ≤ e'') : allocations e e' ≤ allocations e e'' := by
  unfold allocations
  split_ifs <;> omega

theorem blockCount_mono {a b : Nat} (h : a ≤ b) : blockCount a ≤ blockCount b :=
  Nat.div_le_div_right (by omega)

theorem byte_storeChunk (blk : Block) (start : Nat) (src : List UInt8) (m : Nat) {j : Nat}
    (hj : j < bsize) : Block.byte (storeChunk blk start src m) j =
      if start ≤ j ∧ j < start + m then src.getD (j - start) 0 else Block.byte blk j := by
  simp [Block.byte, storeChunk, hj]

/-- The blocks a turn of the copy loop needs: the one holding `off` is at most one past the
mapped ones, and afterwards the file has its bytes in `max` of the two. -/
theorem blockCount_store {lim off m : Nat} (hoff : off ≤ lim) (hm : 0 < m)
    (hblock : off % bsize + m ≤ bsize) :
    blockCount (max lim (off + m)) = max (blockCount lim) (off / bsize + 1) ∧
      off / bsize ≤ blockCount lim := by
  unfold blockCount bsize at *
  omega

/-- One turn of `writei`'s loop: `bmap` of the block holding `off`, its `bread`, and `m` bytes
of `src` stored into it from `off % BSIZE` grow the image to `max lim (off + m)`. -/
theorem Extent.store {s : Fs} {ip : Fin ninode} {lim off m : Nat} {img : List UInt8}
    (x : s.Extent ip lim img) (hoff : off ≤ lim) (hm : 0 < m) (hblock : off % bsize + m ≤ bsize)
    (hend : off + m ≤ maxFile * bsize)
    (room : allocations (blockCount lim) (blockCount (max lim (off + m))) ≤ s.freeBlocks.card)
    (src : List UInt8) :
    ∃ s1 a, s.bmap ip (off / bsize) = .ok (s1, a) ∧ s1.bread a.toNat = .ok (s1.disk a.toNat) ∧
      (s1.logWrite a.toNat (storeChunk (s1.disk a.toNat) (off % bsize) src m)).Extent ip
        (max lim (off + m)) (Image.writeAt img off ((List.range m).map (src.getD · 0))) ∧
      (s1.logWrite a.toNat (storeChunk (s1.disk a.toNat) (off % bsize) src m)).freeBlocks.card +
        allocations (blockCount lim) (blockCount (max lim (off + m))) = s.freeBlocks.card ∧
      s.Keeps (s1.logWrite a.toNat (storeChunk (s1.disk a.toNat) (off % bsize) src m)) ip := by
  obtain ⟨count, below⟩ := blockCount_store hoff hm hblock
  have inFile : off / bsize < maxFile := by
    unfold maxFile nindirect bsize ndirect at *
    omega
  rw [count] at room ⊢
  obtain ⟨s1, a, hbmap, f⟩ := bmap_found x.mapped x.bitmap x.inode below inFile room
  have aGood : s1.Good ip a.toNat := f.at_bn ▸ f.mapped.good_block f.lt
  have readable : a.toNat < fsSize := lt_of_lt_of_le aGood.lt f.bitmap.fits
  have notInd : ndirect < max (blockCount lim) (off / bsize + 1) →
      a.toNat ≠ indirectOf (s1.icache ip).din := fun _ => f.at_bn ▸ f.mapped.indirect_ne _ f.lt
  let s' := s1.logWrite a.toNat (storeChunk (s1.disk a.toNat) (off % bsize) src m)
  have mapped' : s'.Mapped ip (max (blockCount lim) (off / bsize + 1)) :=
    f.mapped.logWrite notInd aGood.notBitmap _
  have sameBlocks : s'.fileBlock (s'.icache ip).din = s1.fileBlock (s1.icache ip).din :=
    fileBlock_congr fun ind => by
      have ne := notInd (f.mapped.indirect.mp ind)
      simp [s', logWrite, Function.update_of_ne ne.symm]
  have length : (Image.writeAt img off ((List.range m).map (src.getD · 0))).length =
      max lim (off + m) := by
    rw [Image.length_writeAt (x.length ▸ hoff), x.length, List.length_map, List.length_range]
  refine ⟨s1, a, hbmap, bread_of_lt s1 readable, ⟨length, max_le x.le hend, by rw [count]; exact mapped',
    ?_, f.bitmap.logWrite aGood.notBitmap _, f.inode.logWrite aGood.notBitmap _⟩, ?_,
    f.keeps.trans ⟨rfl, rfl, rfl, rfl⟩⟩
  · intro k hk
    have hk' : k < max lim (off + m) := length ▸ hk
    have written := Image.getElem?_writeAt (x.length ▸ hoff) ((List.range m).map (src.getD · 0)) k
    rw [List.getElem?_eq_getElem hk] at written
    have hmod : k % bsize < bsize := Nat.mod_lt _ (by decide)
    rw [fileByte, sameBlocks]
    by_cases inside : off ≤ k ∧ k < off + (List.map (src.getD · 0) (List.range m)).length
    · -- a byte of the chunk, in the block holding `off`
      rw [if_pos inside] at written
      rw [List.length_map, List.length_range] at inside
      have sameBlock : k / bsize = off / bsize := by
        unfold bsize at *
        omega
      rw [sameBlock, f.at_bn]
      simp only [logWrite_disk, Function.update_self]
      rw [byte_storeChunk _ _ _ _ hmod, if_pos (by unfold bsize at *; omega)]
      rw [List.getElem?_map, List.getElem?_range (by omega)] at written
      have chunkByte := Option.some.inj written
      simp only at chunkByte
      rw [chunkByte]
      congr 1
      unfold bsize at *
      omega
    · -- a byte the chunk leaves alone: below `lim`, in a block mapped before
      rw [List.length_map, List.length_range] at inside
      have before : k < lim := by omega
      rw [if_neg (by rw [List.length_map, List.length_range]; exact inside),
        List.getElem?_eq_getElem (by rw [x.length]; exact before)] at written
      have blockBefore : k / bsize < blockCount lim := by
        unfold blockCount bsize at *
        omega
      rw [Option.some.inj written, ← x.reads k (by rw [x.length]; exact before), fileByte,
        ← f.blocks _ blockBefore]
      by_cases sameBlock : k / bsize = off / bsize
      · rw [sameBlock, f.at_bn]
        simp only [logWrite_disk, Function.update_self]
        rw [byte_storeChunk _ _ _ _ hmod, if_neg (by unfold bsize at *; omega), ← f.at_bn,
          ← sameBlock, f.blocks _ blockBefore, f.contents _ blockBefore]
      · have other : s1.fileBlock (s1.icache ip).din (k / bsize) ≠ a.toNat := by
          rw [← f.at_bn]
          intro eq
          exact sameBlock (f.mapped.injective _ (by omega) _ f.lt eq)
        simp only [logWrite_disk]
        rw [Function.update_of_ne other, f.blocks _ blockBefore, f.contents _ blockBefore]
  · simp only [freeBlocks_logWrite aGood.notBitmap]
    exact f.free

/-! ## `writei`'s loop -/

/-- `writei`'s loop from `tot` of `n` bytes written, at `off`: the rest of the `n` bytes of
`src` stored from `off` on, when the bitmap has room for the blocks they add.  The
induction is on the fuel; each turn is `Extent.store`. -/
theorem writeiLoop_spec (ip : Fin ninode) (src : List UInt8) (n : Nat) :
    ∀ (fuel tot off : Nat) (s : Fs) (lim : Nat) (img : List UInt8), n - tot ≤ fuel →
      s.Extent ip lim img → off ≤ lim → off + (n - tot) ≤ maxFile * bsize →
      allocations (blockCount lim) (blockCount (max lim (off + (n - tot)))) ≤ s.freeBlocks.card →
      ∃ s', s.writeiLoop ip src fuel tot off n = .ok s' ∧
        s'.Extent ip (max lim (off + (n - tot)))
          (Image.writeAt img off ((List.range (n - tot)).map ((src.drop tot).getD · 0))) ∧
        s'.freeBlocks.card + allocations (blockCount lim) (blockCount (max lim (off + (n - tot)))) =
          s.freeBlocks.card ∧
        s.Keeps s' ip := by
  intro fuel
  induction fuel with
  | zero =>
    intro tot off s lim img hfuel x hoff _ _
    have done : n - tot = 0 := by omega
    refine ⟨s, rfl, ?_, ?_, Keeps.refl s ip⟩
    · rw [done, List.range_zero, List.map_nil, Image.writeAt_nil, Nat.add_zero,
        max_eq_left hoff]
      exact x
    · simp [done, max_eq_left hoff, allocations]
  | succ fuel ih =>
    intro tot off s lim img hfuel x hoff hend room
    by_cases more : tot < n
    · -- one chunk, to the end of `n` or of the block holding `off`
      have hblock : off % bsize < bsize := Nat.mod_lt _ (by decide)
      let m := min (n - tot) (bsize - off % bsize)
      have hm : 0 < m := by omega
      have hfit : off % bsize + m ≤ bsize := by omega
      have roomStep : allocations (blockCount lim) (blockCount (max lim (off + m))) ≤
          s.freeBlocks.card :=
        le_trans (allocations_mono (blockCount_mono (by omega))) room
      obtain ⟨s1, a, hbmap, hbread, x1, free1, keeps1⟩ :=
        x.store hoff hm hfit (by omega) roomStep (src.drop tot)
      generalize hs2 : s1.logWrite a.toNat
        (storeChunk (s1.disk a.toNat) (off % bsize) (src.drop tot) m) = s2 at x1 free1 keeps1
      have grown : max (max lim (off + m)) (off + m + (n - (tot + m))) = max lim (off + (n - tot)) := by
        omega
      have additive := allocations_add (blockCount_mono (le_max_left lim (off + m)))
        (blockCount_mono (show max lim (off + m) ≤ max lim (off + (n - tot)) by omega))
      obtain ⟨s', hloop, x', free', keeps'⟩ := ih (tot + m) (off + m) s2 (max lim (off + m))
        (Image.writeAt img off ((List.range m).map ((src.drop tot).getD · 0))) (by omega) x1
        (by omega) (by omega) (by rw [grown]; omega)
      refine ⟨s', ?_, ?_, ?_, keeps1.trans keeps'⟩
      · rw [writeiLoop, if_pos more, hbmap, except_ok_bind]
        dsimp only
        rw [hbread, except_ok_bind, hs2]
        exact hloop
      · -- the chunk and the rest are one write of the `n - tot` bytes
        have joined := Image.writeAt_append (show off ≤ img.length by rw [x.length]; exact hoff)
          ((List.range m).map ((src.drop tot).getD · 0))
          ((List.range (n - (tot + m))).map ((src.drop (tot + m)).getD · 0))
        rw [List.length_map, List.length_range] at joined
        have split : m + (n - (tot + m)) = n - tot := by omega
        rw [grown, joined, ← Image.map_range_getD_drop_add, split] at x'
        exact x'
      · rw [grown] at free'
        omega
    · have done : n - tot = 0 := by omega
      refine ⟨s, by rw [writeiLoop, if_neg more]; rfl, ?_, ?_, Keeps.refl s ip⟩
      · rw [done, List.range_zero, List.map_nil, Image.writeAt_nil, Nat.add_zero,
          max_eq_left hoff]
        exact x
      · simp [done, max_eq_left hoff, allocations]

/-! ## `writei` -/

theorem toInt32_toInt_of_lt {n : UInt32} (h : n.toNat < 2 ^ 31) : n.toInt32.toInt = n.toNat := by
  rw [Int32.toInt, UInt32.toBitVec_toInt32, BitVec.toInt_eq_toNat_cond]
  simp only [UInt32.toNat_toBitVec]
  split_ifs <;> omega

theorem fileBlock_of_addrs (s : Fs) {d d' : DInode} (h : d'.addrs = d.addrs) :
    s.fileBlock d' = s.fileBlock d := by
  funext bn
  unfold fileBlock
  rw [h]

/-- A write to a block neither the file nor the bitmap holds keeps the file's image. -/
theorem Extent.logWrite {s : Fs} {ip : Fin ninode} {lim : Nat} {img : List UInt8}
    (x : s.Extent ip lim img) {a : Nat}
    (notOwned : ∀ b, s.Owns (s.icache ip).din (blockCount lim) b → b ≠ a)
    (notBitmap : ∀ y < s.sb.size, bblock y s.sb ≠ a) (blk : Block) :
    (s.logWrite a blk).Extent ip lim img := by
  have notInd : ndirect < blockCount lim → a ≠ indirectOf (s.icache ip).din :=
    fun past => (notOwned _ (.inr ⟨past, rfl⟩)).symm
  have same : (s.logWrite a blk).fileBlock (s.icache ip).din = s.fileBlock (s.icache ip).din :=
    fileBlock_congr fun ind => by
      have ne := notInd (x.mapped.indirect.mp ind)
      simp [Function.update_of_ne ne.symm]
  refine ⟨x.length, x.le, x.mapped.logWrite notInd notBitmap blk, ?_,
    x.bitmap.logWrite notBitmap blk, x.inode.logWrite notBitmap blk⟩
  intro k hk
  -- the byte's block is the file's, so not `a`
  have mapped : k / bsize < blockCount lim := by
    have := x.length
    unfold blockCount bsize at *
    omega
  have other := notOwned _ (.inl ⟨k / bsize, mapped, rfl⟩)
  rw [← x.reads k hk, fileByte, fileByte, logWrite_icache, same]
  simp [Function.update_of_ne other]

/-- A new copy of the disk inode that keeps its addresses keeps the file's image. -/
theorem Extent.setDin {s : Fs} {ip : Fin ninode} {lim : Nat} {img : List UInt8}
    (x : s.Extent ip lim img) {d : DInode} (h : d.addrs = (s.icache ip).din.addrs) :
    (s.setDin ip d).Extent ip lim img := by
  have same : (s.setDin ip d).fileBlock d = s.fileBlock (s.icache ip).din :=
    fileBlock_of_addrs _ h
  have owns : (s.setDin ip d).Owns d = s.Owns (s.icache ip).din := by
    funext e b
    simp only [Owns, same, indirectOf, h]
  have good : ∀ b, s.Good ip b → (s.setDin ip d).Good ip b := fun b g =>
    g.transfer rfl (by simp) g.used
  refine ⟨x.length, x.le, ⟨x.mapped.le, ?_, ?_, ?_, ?_, ?_⟩, ?_, x.bitmap.transfer rfl
    (fun _ _ => rfl), x.inode.transfer rfl (by simp) x.inode.used⟩
  · simpa only [setDin_icache_self, same] using x.mapped.mapped
  · simpa only [setDin_icache_self, indirectOf, h] using x.mapped.indirect
  · simpa only [setDin_icache_self, same] using x.mapped.injective
  · simpa only [setDin_icache_self, same, indirectOf, h] using x.mapped.indirect_ne
  · intro b hb
    rw [setDin_icache_self, owns] at hb
    exact good b (x.mapped.good b hb)
  · intro k hk
    rw [← x.reads k hk, fileByte, fileByte, setDin_icache_self, same]
    rfl

theorem iupdate_eq {s : Fs} {ip : Fin ninode} (i : s.InodeOk ip) (ok : s.BitmapOk) :
    s.iupdate ip = .ok (s.logWrite (iblock (s.icache ip).inum s.sb)
      ((s.disk (iblock (s.icache ip).inum s.sb)).setDinode (s.icache ip).inum (s.icache ip).din)) := by
  rw [iupdate, bread_of_lt s (lt_of_lt_of_le i.lt ok.fits)]
  rfl

/-- `iupdate` writes the inode block, which the file does not hold. -/
theorem Extent.iupdate {s : Fs} {ip : Fin ninode} {lim : Nat} {img : List UInt8}
    (x : s.Extent ip lim img) :
    ∃ s', s.iupdate ip = .ok s' ∧ s'.Extent ip lim img ∧ s'.icache = s.icache ∧ s'.sb = s.sb ∧
      s'.freeBlocks = s.freeBlocks := by
  refine ⟨_, iupdate_eq x.inode x.bitmap,
    x.logWrite (fun b owns => (x.mapped.good b owns).notInode) x.inode.notBitmap _, rfl, rfl, ?_⟩
  exact freeBlocks_logWrite x.inode.notBitmap _

theorem toNat_add_of_lt {a b : UInt32} (h : a.toNat + b.toNat < 2 ^ 32) :
    (a + b).toNat = a.toNat + b.toNat := by
  rw [UInt32.toNat_add, Nat.mod_eq_of_lt h]

/-- `off + n < off` is the C test for a sum that wraps past `2^32`. -/
theorem add_lt_self_iff (off n : UInt32) : off + n < off ↔ 2 ^ 32 ≤ off.toNat + n.toNat := by
  rw [UInt32.lt_iff_toNat_lt, UInt32.toNat_add]
  have := off.toNat_lt
  have := n.toNat_lt
  constructor
  · intro wrapped
    by_contra small
    rw [Nat.mod_eq_of_lt (by omega)] at wrapped
    omega
  · intro big
    rw [Nat.mod_eq_sub_mod big, Nat.mod_eq_of_lt (by omega)]
    omega

theorem toNat_maxFile_bytes : (UInt32.ofNat (maxFile * bsize)).toNat = maxFile * bsize :=
  UInt32.toNat_ofNat_of_lt' (by decide)

theorem maxFile_bytes_lt : maxFile * bsize < 2 ^ 31 := by decide

/-- `writei` of `n` bytes of `src` at `off`, at most the file's size, with `off + n` within
`MAXFILE*BSIZE` and room in the bitmap for the blocks it adds: it returns `n`, and the file
reads as `bytes` with `src[0..n)` stored at `off`, `max size (off + n)` bytes of it. -/
theorem writei_image {s : Fs} {ip : Fin ninode} {bytes : List UInt8} (f : s.FileImage ip bytes)
    {src : List UInt8} {off n : UInt32} (hsrc : n.toNat ≤ src.length)
    (hoff : off.toNat ≤ bytes.length) (fits : off.toNat + n.toNat ≤ maxFile * bsize)
    (room : allocations (blockCount bytes.length)
      (blockCount (max bytes.length (off.toNat + n.toNat))) ≤ s.freeBlocks.card) :
    ∃ s', s.writei ip src off n = .ok (s', n.toNat) ∧
      s'.FileImage ip (Image.writeAt bytes off.toNat (src.take n.toNat)) ∧
      (s'.icache ip).din.size.toNat = max bytes.length (off.toNat + n.toNat) ∧
      s'.freeBlocks.card + allocations (blockCount bytes.length)
        (blockCount (max bytes.length (off.toNat + n.toNat))) = s.freeBlocks.card := by
  have size := f.length
  have small := maxFile_bytes_lt
  have sum : (off + n).toNat = off.toNat + n.toNat := toNat_add_of_lt (by omega)
  have x : s.Extent ip bytes.length bytes := by
    rw [f.length]
    exact f.toExtent
  obtain ⟨s1, hloop, x1, free1, keeps1⟩ := writeiLoop_spec ip src n.toNat n.toNat 0 off.toNat s
    bytes.length bytes (by omega) x hoff (by omega) (by rw [Nat.sub_zero]; exact room)
  rw [Nat.sub_zero, List.drop_zero, Image.map_range_getD hsrc] at x1
  rw [Nat.sub_zero] at free1
  -- the checks `writei` makes before its loop all pass
  have notPast : ¬ (off > (s.icache ip).din.size ∨ off + n < off) := by
    rw [gt_iff_lt, UInt32.lt_iff_toNat_lt, add_lt_self_iff]
    omega
  have notBig : ¬ (off + n > UInt32.ofNat (maxFile * bsize)) := by
    rw [gt_iff_lt, UInt32.lt_iff_toNat_lt, sum, toNat_maxFile_bytes]
    omega
  have count : n.toInt32.toInt = n.toNat := toInt32_toInt_of_lt (by omega)
  have oldSize : (s1.icache ip).din.size.toNat = bytes.length := by
    rw [keeps1.size, size]
  by_cases grow : n > 0 ∧ off + n > (s1.icache ip).din.size
  · -- the file grows past its size, and `iupdate` writes the new size back
    obtain ⟨s2, hup, x2, icache2, -, free2⟩ :=
      (x1.setDin (d := { (s1.icache ip).din with size := off + n }) rfl).iupdate
    have past : bytes.length < off.toNat + n.toNat := by
      have := UInt32.lt_iff_toNat_lt.mp grow.2
      omega
    have newSize : (s2.icache ip).din.size.toNat = max bytes.length (off.toNat + n.toNat) := by
      rw [icache2, setDin_icache_self, sum]
      omega
    refine ⟨s2, ?_, ⟨by rw [newSize]; exact x2, ?_⟩, newSize, ?_⟩
    · simp only [writei, if_neg f.notDev, if_neg notPast, if_neg notBig, hloop, except_ok_bind,
        if_pos grow, hup, count]
      rfl
    · rw [icache2, setDin_icache_self, keeps1.type]
      exact f.notDev
    · rw [free2]
      exact free1
  · -- the size stays: nothing was written, or nothing past the end
    have within : max bytes.length (off.toNat + n.toNat) = bytes.length := by
      rw [not_and_or, gt_iff_lt, gt_iff_lt, UInt32.lt_iff_toNat_lt, UInt32.lt_iff_toNat_lt,
        UInt32.toNat_zero, sum, oldSize] at grow
      omega
    have newSize : (s1.icache ip).din.size.toNat = max bytes.length (off.toNat + n.toNat) := by
      rw [within, oldSize]
    refine ⟨s1, ?_, ⟨by rw [newSize]; exact x1, by rw [keeps1.type]; exact f.notDev⟩, newSize,
      free1⟩
    simp only [writei, if_neg f.notDev, if_neg notPast, if_neg notBig, hloop, except_ok_bind,
      if_neg grow, count]
    rfl

/-! ## `readi` -/

/-- The `m` bytes from `off % BSIZE` of the block holding `off`, within the block and the
image, are the image's from `off` on. -/
theorem Extent.read_chunk {s : Fs} {ip : Fin ninode} {lim : Nat} {img : List UInt8}
    (x : s.Extent ip lim img) {off m : Nat} (hblock : off % bsize + m ≤ bsize)
    (hend : off + m ≤ lim) :
    chunkOf (s.disk (s.fileBlock (s.icache ip).din (off / bsize))) (off % bsize) m =
      (img.drop off).take m := by
  have hlen := x.length
  apply List.ext_getElem
  · simp only [chunkOf, List.length_map, List.length_range, List.length_take, List.length_drop]
    omega
  intro k hk _
  simp only [chunkOf, List.length_map, List.length_range] at hk
  have sameBlock : (off + k) / bsize = off / bsize := by
    unfold bsize at *
    omega
  have within : (off + k) % bsize = off % bsize + k := by
    unfold bsize at *
    omega
  simp only [chunkOf, List.getElem_map, List.getElem_range, List.getElem_take, List.getElem_drop]
  rw [← x.reads (off + k) (by omega), fileByte, sameBlock, within]

/-- `readi`'s loop from `tot` of `n` bytes read, at `off`, with the rest below `lim`: the
image's bytes from `off` on, and nothing changed.  The induction is on the fuel; each turn
finds a mapped block (`bmap_mapped`) and reads a chunk of it (`Extent.read_chunk`). -/
theorem readiLoop_spec {s : Fs} {ip : Fin ninode} {lim : Nat} {img : List UInt8}
    (x : s.Extent ip lim img) (n : Nat) :
    ∀ fuel tot off, n - tot ≤ fuel → off + (n - tot) ≤ lim →
      s.readiLoop ip fuel tot off n = .ok (s, (img.drop off).take (n - tot)) := by
  intro fuel
  induction fuel with
  | zero =>
    intro tot off enough _
    rw [show n - tot = 0 by omega, List.take_zero]
    rfl
  | succ fuel ih =>
    intro tot off enough below
    by_cases more : tot < n
    · -- one chunk, to the end of `n` or of the block holding `off`
      have hblock : off % bsize < bsize := Nat.mod_lt _ (by decide)
      let m := min (n - tot) (bsize - off % bsize)
      have hm : 0 < m := by omega
      have hbn : off / bsize < blockCount lim := by
        unfold blockCount bsize at *
        omega
      obtain ⟨a, hbmap, ha⟩ := bmap_mapped x.mapped x.bitmap.fits hbn
      have readable : a.toNat < fsSize := by
        rw [ha]
        exact lt_of_lt_of_le (x.mapped.good_block hbn).lt x.bitmap.fits
      have chunk : chunkOf (s.disk (s.fileBlock (s.icache ip).din (off / bsize))) (off % bsize) m =
          (img.drop off).take m :=
        x.read_chunk (by omega) (by omega)
      have rest := ih (tot + m) (off + m) (by omega) (by omega)
      rw [readiLoop, if_pos more, hbmap, except_ok_bind]
      dsimp only
      rw [bread_of_lt s readable, except_ok_bind, rest, except_ok_bind, ha, chunk,
        show n - tot = m + (n - (tot + m)) by omega, List.take_add, List.drop_drop]
      rfl
    · rw [show n - tot = 0 by omega, List.take_zero, readiLoop, if_neg more]
      rfl

/-- `readi` of `n` bytes at `off`, at most the file's size, with `off + n` below `2^32`: it
returns the bytes of the file from `off` on, `min n (size - off)` of them, and changes
nothing. -/
theorem readi_image {s : Fs} {ip : Fin ninode} {bytes : List UInt8} (f : s.FileImage ip bytes)
    {off n : UInt32} (hoff : off.toNat ≤ bytes.length) (noWrap : off.toNat + n.toNat < 2 ^ 32) :
    s.readi ip off n =
      .ok (s, (min n.toNat (bytes.length - off.toNat) : Nat), (bytes.drop off.toNat).take n.toNat) := by
  have size := f.length
  have small := maxFile_bytes_lt
  have le := f.le
  have sum : (off + n).toNat = off.toNat + n.toNat := toNat_add_of_lt noWrap
  have x : s.Extent ip bytes.length bytes := by
    rw [f.length]
    exact f.toExtent
  have notPast : ¬ (off > (s.icache ip).din.size ∨ off + n < off) := by
    rw [gt_iff_lt, UInt32.lt_iff_toNat_lt, add_lt_self_iff]
    omega
  by_cases cut : off + n > (s.icache ip).din.size
  · -- past the end: the count is cut to `size - off`
    have past : bytes.length < off.toNat + n.toNat := by
      have := UInt32.lt_iff_toNat_lt.mp cut
      omega
    have left : ((s.icache ip).din.size - off).toNat = bytes.length - off.toNat := by
      rw [UInt32.toNat_sub_of_le _ _ (UInt32.le_iff_toNat_le.mpr (by omega)), size]
    have count : ((s.icache ip).din.size - off).toInt32.toInt =
        ((bytes.length - off.toNat : Nat) : Int) := by
      rw [toInt32_toInt_of_lt (by rw [left]; omega), left]
    have loop := readiLoop_spec x (bytes.length - off.toNat) (bytes.length - off.toNat) 0
      off.toNat (by omega) (by omega)
    rw [Nat.sub_zero, List.take_of_length_le (by simp)] at loop
    simp only [readi, if_neg f.notDev, if_neg notPast, if_pos cut, left, loop, except_ok_bind,
      count]
    rw [List.take_of_length_le (by simp; omega), min_eq_right (by omega)]
    rfl
  · have within : off.toNat + n.toNat ≤ bytes.length := by
      have inside := cut
      rw [gt_iff_lt, UInt32.lt_iff_toNat_lt] at inside
      omega
    have count : n.toInt32.toInt = n.toNat := toInt32_toInt_of_lt (by omega)
    have loop := readiLoop_spec x n.toNat n.toNat 0 off.toNat (by omega) (by omega)
    rw [Nat.sub_zero] at loop
    simp only [readi, if_neg f.notDev, if_neg notPast, if_neg cut, loop, except_ok_bind, count]
    rw [min_eq_left (by omega)]
    rfl

/-! ## What `readi` and `writei` refuse -/

section Refusals

variable {s : Fs} {ip : Fin ninode} {off n : UInt32}

/-- At an offset past the size, or with `off + n` past `2^32`, `readi` of a file returns `-1`
and changes nothing. -/
theorem readi_refuses (notDev : (s.icache ip).din.type ≠ tDev)
    (bad : (s.icache ip).din.size.toNat < off.toNat ∨ 2 ^ 32 ≤ off.toNat + n.toNat) :
    s.readi ip off n = .ok (s, -1, []) := by
  have refused : off > (s.icache ip).din.size ∨ off + n < off := by
    rw [gt_iff_lt, UInt32.lt_iff_toNat_lt, add_lt_self_iff]
    exact bad
  simp only [readi, if_neg notDev, if_pos refused]
  rfl

/-- `writei` of a file refuses what `readi` does, and also a write past `MAXFILE*BSIZE`. -/
theorem writei_refuses (notDev : (s.icache ip).din.type ≠ tDev) (src : List UInt8)
    (bad : (s.icache ip).din.size.toNat < off.toNat ∨ 2 ^ 32 ≤ off.toNat + n.toNat ∨
      maxFile * bsize < off.toNat + n.toNat) :
    s.writei ip src off n = .ok (s, -1) := by
  by_cases refused : off > (s.icache ip).din.size ∨ off + n < off
  · simp only [writei, if_neg notDev, if_pos refused]
    rfl
  · -- no wrap, so the last test is on the true sum
    rw [gt_iff_lt, UInt32.lt_iff_toNat_lt, add_lt_self_iff] at refused
    have big : off + n > UInt32.ofNat (maxFile * bsize) := by
      rw [gt_iff_lt, UInt32.lt_iff_toNat_lt, toNat_add_of_lt (by omega), toNat_maxFile_bytes]
      omega
    simp only [writei, if_neg notDev, if_neg (show ¬ (off > (s.icache ip).din.size ∨ off + n < off)
      by rw [gt_iff_lt, UInt32.lt_iff_toNat_lt, add_lt_self_iff]; exact refused), if_pos big]
    rfl

end Refusals

/-! ## The empty file -/

/-- An inode with no addresses, as `ialloc` leaves it, has no blocks mapped. -/
theorem mapped_empty {s : Fs} {ip : Fin ninode} (h : ∀ k, (s.icache ip).din.addrs k = 0) :
    s.Mapped ip 0 := by
  have ind : indirectOf (s.icache ip).din = 0 := by simp [indirectOf, h]
  refine ⟨Nat.zero_le _, fun bn _ => ?_, by simp [ind], fun bn hbn => absurd hbn (Nat.not_lt_zero _),
    fun bn hbn => absurd hbn (Nat.not_lt_zero _), ?_⟩
  · -- every block reads 0, directly or through the absent indirect block
    simp only [Nat.not_lt_zero, iff_false, not_not]
    by_cases direct : bn < ndirect
    · rw [fileBlock_direct s _ direct, h]
      rfl
    · exact fileBlock_of_indirect_zero s _ (Nat.not_lt.mp direct) ind
  · rintro b (⟨bn, hbn, -⟩ | ⟨hlt, -⟩)
    · exact absurd hbn (Nat.not_lt_zero _)
    · exact absurd hlt (Nat.not_lt_zero _)

/-- A file inode of size 0 with no addresses, on a sound bitmap, holds the empty file. -/
theorem FileImage.empty {s : Fs} {ip : Fin ninode} (file : (s.icache ip).din.type ≠ tDev)
    (zero : (s.icache ip).din.size = 0) (h : ∀ k, (s.icache ip).din.addrs k = 0)
    (ok : s.BitmapOk) (inode : s.InodeOk ip) : s.FileImage ip [] where
  length := by rw [zero]; rfl
  le := by rw [zero]; exact Nat.zero_le _
  mapped := by rw [zero]; exact mapped_empty h
  reads := fun _ hk => absurd hk (Nat.not_lt_zero _)
  bitmap := ok
  inode := inode
  notDev := file

/-! ## `readi` and `writei` on a file -/

theorem file_read_write {s : Fs} {ip : Fin ninode} {bytes : List UInt8}
    (f : s.FileImage ip bytes) :
    (∀ (src : List UInt8) (off n : UInt32), n.toNat ≤ src.length → off.toNat ≤ bytes.length →
      off.toNat + n.toNat ≤ maxFile * bsize →
      allocations (blockCount bytes.length) (blockCount (max bytes.length (off.toNat + n.toNat))) ≤
        s.freeBlocks.card →
      ∃ s', s.writei ip src off n = .ok (s', n.toNat) ∧
        s'.FileImage ip (Image.writeAt bytes off.toNat (src.take n.toNat)) ∧
        (s'.icache ip).din.size.toNat = max bytes.length (off.toNat + n.toNat)) ∧
    (∀ off n : UInt32, off.toNat ≤ bytes.length → off.toNat + n.toNat < 2 ^ 32 →
      s.readi ip off n =
        .ok (s, (min n.toNat (bytes.length - off.toNat) : Nat), (bytes.drop off.toNat).take n.toNat)) ∧
    (∀ off n : UInt32, bytes.length < off.toNat ∨ 2 ^ 32 ≤ off.toNat + n.toNat →
      s.readi ip off n = .ok (s, -1, []) ∧ ∀ src, s.writei ip src off n = .ok (s, -1)) ∧
    (∀ (src : List UInt8) (off n : UInt32), maxFile * bsize < off.toNat + n.toNat →
      s.writei ip src off n = .ok (s, -1)) := by
  refine ⟨fun src off n hsrc hoff fits room => ?_, fun off n hoff noWrap => readi_image f hoff noWrap,
    fun off n bad => ⟨?_, fun src => ?_⟩,
    fun src off n big => writei_refuses f.notDev src (.inr (.inr big))⟩
  · obtain ⟨s', hwrite, image, size, -⟩ := writei_image f hsrc hoff fits room
    exact ⟨s', hwrite, image, size⟩
  · -- the file's size is the image's length
    rw [f.length] at bad
    exact readi_refuses f.notDev bad
  · rw [f.length] at bad
    exact writei_refuses f.notDev src (bad.imp_right .inl)

/-- The empty file of inode 1, on a disk of four blocks whose blocks 0 and 1 are in use, 1 the
bitmap: writing 600 bytes takes the two free blocks, and reading four bytes across the boundary
of the two then returns the bytes written there. -/
theorem file_read_write_two_blocks :
    let s : Fs := ⟨⟨4, 3, 8, 0, 0, 0, 1⟩, fun b => if b = 1 then fun j => if j.val = 0 then 3 else 0
        else zeroBlock, fun _ => ⟨1, 1, 1, true, true, ⟨tFile, 0, 0, 1, 0, fun _ => 0⟩⟩,
      ⟨0, ninode_pos⟩, fun _ => none⟩
    let ip : Fin ninode := ⟨0, ninode_pos⟩
    s.FileImage ip [] ∧ ∃ s', s.writei ip ((List.range 600).map UInt8.ofNat) 0 600 = .ok (s', 600) ∧
      s'.FileImage ip ((List.range 600).map UInt8.ofNat) ∧ s'.readi ip 510 4 = .ok (s', 4, [254, 255, 0, 1]) := by
  intro s ip
  have f : s.FileImage ip [] :=
    FileImage.empty (by decide) rfl (fun _ => rfl) ⟨by decide, by decide, by decide, by decide, by decide⟩
      ⟨by decide, by decide, by decide⟩
  have len : ((List.range 600).map UInt8.ofNat).length = 600 := by simp
  -- the write, on the empty file; then the read, on the file it leaves
  obtain ⟨s', write, image, -⟩ := (file_read_write f).1 ((List.range 600).map UInt8.ofNat) 0 600
    (by rw [len]; decide) (by decide) (by decide) (by decide)
  have whole : Image.writeAt [] (0 : UInt32).toNat (((List.range 600).map UInt8.ofNat).take (600 : UInt32).toNat) =
      (List.range 600).map UInt8.ofNat := by
    rw [List.take_of_length_le (by rw [len]; decide)]
    exact (Image.writeAt_length [] _).trans (List.nil_append _)
  rw [whole] at image
  refine ⟨f, s', write, image, ?_⟩
  rw [(file_read_write image).2.1 510 4 (by rw [len]; decide) (by decide), len]
  have bytes : (((List.range 600).map UInt8.ofNat).drop (510 : UInt32).toNat).take (4 : UInt32).toNat =
      [254, 255, 0, 1] := by decide +kernel
  rw [bytes]
  rfl

/-- On an inode two of whose direct entries name one block, all its blocks below
`ceil(size/BSIZE)` allocated, a write of byte 0 is also a write of byte 512: `readi` of byte 512
reads `0` before and `7` after. -/
theorem aliased_write :
    let d : DInode := ⟨tFile, 0, 0, 1, 1024, fun k => if k.val < 2 then 2 else 0⟩
    let s : Fs := ⟨⟨4, 3, 8, 0, 0, 0, 1⟩, fun b => if b = 1 then fun j => if j.val = 0 then 7 else 0
        else zeroBlock, fun _ => ⟨1, 1, 1, true, true, d⟩, ⟨0, ninode_pos⟩, fun _ => none⟩
    let ip : Fin ninode := ⟨0, ninode_pos⟩
    (s.icache ip).din.type ≠ tDev ∧ (s.icache ip).din.size.toNat ≤ maxFile * bsize ∧
    (∀ bn < blockCount (s.icache ip).din.size.toNat,
      s.fileBlock (s.icache ip).din bn ≠ 0 ∧ s.inUse (s.fileBlock (s.icache ip).din bn) = true) ∧
    3 < s.sb.size ∧ s.inUse 3 = false ∧
    s.readi ip 512 1 = .ok (s, 1, [0]) ∧
    ∃ s', s.writei ip [7] 0 1 = .ok (s', 1) ∧ (s'.icache ip).din.size = 1024 ∧
      s'.readi ip 512 1 = .ok (s', 1, [7]) := by
  intro d s ip
  refine ⟨by decide, by decide, by decide, by decide, by decide, rfl, _, rfl, rfl, rfl⟩

end Fs

end Xv6
