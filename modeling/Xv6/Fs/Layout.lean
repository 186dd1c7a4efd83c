import Mathlib.Data.Fintype.Basic
import Xv6.Log.Disk

/-!
# The file system's on-disk format

`fs.h` and `stat.h`: the superblock, and `struct dinode` and `struct dirent` byte for byte
as the compiler lays them out, little-endian, with where each lives on the disk (`IBLOCK`,
`BBLOCK`).  An inode block is an array of eight 64-byte `dinode` records, and a directory's
data an array of 16-byte `dirent` records.

* `DInode.ofBytes_bytes`, `Dirent.ofBytes_bytes`: a record stored and read back is the record;
* `Block.record_setRecord_self`, `Block.record_setRecord_of_ne`: storing one record of a block
  leaves the block's other records alone.
-/

namespace Xv6

/-! ## `stat.h` and `param.h` -/

/-- `T_DIR`. -/
def tDir : Int16 := 1

/-- `T_FILE`. -/
def tFile : Int16 := 2

/-- `T_DEV`. -/
def tDev : Int16 := 3

/-- `ROOTDEV`: the device of the root file system. -/
def rootDev : Nat := 1

/-- `NDEV`: the size of the device switch `devsw`. -/
def ndev : Nat := 10

/-! ## `fs.h` -/

/-- `ROOTINO`: the root directory's inode number. -/
def rootIno : Nat := 1

/-- `sizeof(struct dinode)`. -/
abbrev dinodeSize : Nat := 64

/-- `sizeof(struct dirent)`. -/
abbrev direntSize : Nat := 16

/-- `IPB`: the inodes of one block. -/
def ipb : Nat := bsize / dinodeSize

/-- `struct superblock`, whose fields are `uint`s on disk. -/
structure Superblock where
  size : Nat
  nblocks : Nat
  ninodes : Nat
  nlog : Nat
  logstart : Nat
  inodestart : Nat
  bmapstart : Nat
  deriving DecidableEq, Repr

/-- `IBLOCK(i, sb)`: the block holding inode `i`. -/
def iblock (i : Nat) (sb : Superblock) : Nat := i / ipb + sb.inodestart

/-- `BBLOCK(b, sb)`: the bitmap block holding the bit of block `b`. -/
def bblock (b : Nat) (sb : Superblock) : Nat := b / bpb + sb.bmapstart

/-! ## Records of a block -/

theorem record_size_pos {sz : Nat} (i : Fin (bsize / sz)) : 0 < sz := by
  rcases Nat.eq_zero_or_pos sz with h | h
  · subst h
    exact absurd i.isLt (by simp)
  · exact h

theorem record_lt {sz : Nat} (i : Fin (bsize / sz)) (k : Fin sz) : i.val * sz + k.val < bsize := by
  have fits : (i.val + 1) * sz ≤ bsize :=
    le_trans (Nat.mul_le_mul_right sz i.isLt) (Nat.div_mul_le_self bsize sz)
  rw [Nat.add_mul, one_mul] at fits
  have := k.isLt
  omega

/-- Record `i` of a block read as an array of `sz`-byte records. -/
def Block.record (blk : Block) (sz : Nat) (i : Fin (bsize / sz)) (k : Fin sz) : UInt8 :=
  blk ⟨i.val * sz + k.val, record_lt i k⟩

/-- Store `r` as record `i` of a block, leaving its other bytes alone. -/
def Block.setRecord (blk : Block) (sz : Nat) (i : Fin (bsize / sz)) (r : Fin sz → UInt8) :
    Block := fun j =>
  if j.val / sz = i.val then r ⟨j.val % sz, Nat.mod_lt _ (record_size_pos i)⟩ else blk j

theorem record_div {sz : Nat} (i : Fin (bsize / sz)) (k : Fin sz) :
    (i.val * sz + k.val) / sz = i.val := by
  have hsz := record_size_pos i
  rw [Nat.add_comm, Nat.add_mul_div_right _ _ hsz, Nat.div_eq_of_lt k.isLt, zero_add]

theorem record_mod {sz : Nat} (i : Fin (bsize / sz)) (k : Fin sz) :
    (i.val * sz + k.val) % sz = k.val := by
  rw [Nat.add_comm, Nat.add_mul_mod_self_right, Nat.mod_eq_of_lt k.isLt]

theorem Block.record_setRecord_self (blk : Block) {sz : Nat} (i : Fin (bsize / sz))
    (r : Fin sz → UInt8) : (blk.setRecord sz i r).record sz i = r := by
  funext k
  simp only [Block.record, Block.setRecord, record_div, if_true, record_mod]

theorem Block.record_setRecord_of_ne (blk : Block) {sz : Nat} {i i' : Fin (bsize / sz)}
    (r : Fin sz → UInt8) (hne : i' ≠ i) : (blk.setRecord sz i r).record sz i' = blk.record sz i' := by
  funext k
  have hdiv : (i'.val * sz + k.val) / sz ≠ i.val := by
    rw [record_div]
    exact fun h => hne (Fin.ext h)
  simp only [Block.record, Block.setRecord, if_neg hdiv]

/-! ## `struct dinode` -/

/-- `struct dinode`: `type`, `major`, `minor` and `nlink` are `short`s, `size` and the
`NDIRECT+1` block addresses `uint`s. -/
structure DInode where
  type : Int16
  major : Int16
  minor : Int16
  nlink : Int16
  size : UInt32
  addrs : Fin (ndirect + 1) → UInt32
  deriving DecidableEq

/-- The bytes of a `struct dinode`: the four `short`s, `size`, then `addrs`. -/
def DInode.bytes (d : DInode) (k : Fin dinodeSize) : UInt8 :=
  if k.val < 2 then LittleEndian.byte16 d.type.toUInt16 k.val
  else if k.val < 4 then LittleEndian.byte16 d.major.toUInt16 (k.val - 2)
  else if k.val < 6 then LittleEndian.byte16 d.minor.toUInt16 (k.val - 4)
  else if k.val < 8 then LittleEndian.byte16 d.nlink.toUInt16 (k.val - 6)
  else if k.val < 12 then LittleEndian.byte32 d.size (k.val - 8)
  else LittleEndian.byte32 (d.addrs ⟨(k.val - 12) / 4, by
    have := k.isLt; unfold dinodeSize at this; unfold ndirect; omega⟩) ((k.val - 12) % 4)

/-- Byte `12 + 4j + b` of a `dinode`: byte `b` of `addrs[j]`. -/
def addrByte (j : Fin (ndirect + 1)) (b : Nat) (hb : b < 4) : Fin dinodeSize :=
  ⟨12 + 4 * j.val + b, by have := j.isLt; unfold ndirect at this; unfold dinodeSize; omega⟩

-- The offsets of a word's four bytes, named so that `DInode.ofBytes` names its proofs.
theorem byte0_lt : 0 < 4 := by decide

theorem byte1_lt : 1 < 4 := by decide

theorem byte2_lt : 2 < 4 := by decide

theorem byte3_lt : 3 < 4 := by decide

/-- Read a `struct dinode` from its bytes. -/
def DInode.ofBytes (f : Fin dinodeSize → UInt8) : DInode where
  type := (LittleEndian.word16 (f 0) (f 1)).toInt16
  major := (LittleEndian.word16 (f 2) (f 3)).toInt16
  minor := (LittleEndian.word16 (f 4) (f 5)).toInt16
  nlink := (LittleEndian.word16 (f 6) (f 7)).toInt16
  size := LittleEndian.word32 (f 8) (f 9) (f 10) (f 11)
  addrs := fun j => LittleEndian.word32 (f (addrByte j 0 byte0_lt)) (f (addrByte j 1 byte1_lt))
    (f (addrByte j 2 byte2_lt)) (f (addrByte j 3 byte3_lt))

theorem DInode.bytes_addrByte (d : DInode) (j : Fin (ndirect + 1)) (b : Nat) (hb : b < 4) :
    d.bytes (addrByte j b hb) = LittleEndian.byte32 (d.addrs j) b := by
  have hval : (addrByte j b hb).val = 12 + 4 * j.val + b := rfl
  unfold DInode.bytes
  rw [if_neg (by omega), if_neg (by omega), if_neg (by omega), if_neg (by omega),
    if_neg (by omega)]
  congr 2
  · exact Fin.ext (by simp only [hval]; omega)
  · omega

theorem DInode.ofBytes_bytes (d : DInode) : DInode.ofBytes d.bytes = d := by
  have half : ∀ x : Int16, (LittleEndian.word16 (LittleEndian.byte16 x.toUInt16 0)
      (LittleEndian.byte16 x.toUInt16 1)).toInt16 = x := by
    intro x
    rw [LittleEndian.word16_byte16, Int16.toInt16_toUInt16]
  obtain ⟨type, major, minor, nlink, size, addrs⟩ := d
  simp only [DInode.ofBytes, DInode.bytes_addrByte, LittleEndian.word32_byte32]
  simp only [DInode.bytes, Fin.isValue, Fin.val_zero, Fin.val_one, Fin.val_two]
  refine DInode.mk.injEq .. ▸ ⟨half type, half major, half minor, half nlink, ?_, rfl⟩
  exact LittleEndian.word32_byte32 size

/-- `struct dinode` `i % IPB` of an inode block. -/
def Block.dinode (blk : Block) (i : Nat) : DInode :=
  DInode.ofBytes (blk.record dinodeSize ⟨i % ipb, Nat.mod_lt _ (by decide)⟩)

/-- Store `d` as `struct dinode` `i % IPB` of an inode block. -/
def Block.setDinode (blk : Block) (i : Nat) (d : DInode) : Block :=
  blk.setRecord dinodeSize ⟨i % ipb, Nat.mod_lt _ (by decide)⟩ d.bytes

theorem Block.dinode_setDinode_self (blk : Block) (i : Nat) (d : DInode) :
    (blk.setDinode i d).dinode i = d := by
  rw [Block.dinode, Block.setDinode, Block.record_setRecord_self, DInode.ofBytes_bytes]

theorem Block.dinode_setDinode_of_ne (blk : Block) {i i' : Nat} (d : DInode)
    (hne : i' % ipb ≠ i % ipb) : (blk.setDinode i d).dinode i' = blk.dinode i' := by
  rw [Block.dinode, Block.setDinode, Block.record_setRecord_of_ne _ _
    (fun h => hne (congrArg Fin.val h)), Block.dinode]

/-! ## `struct dirent` -/

/-- `struct dirent`: a `ushort` inode number (`0` for a free entry) and `DIRSIZ` name bytes. -/
structure Dirent where
  inum : UInt16
  name : Fin dirSiz → UInt8
  deriving DecidableEq

/-- The bytes of a `struct dirent`. -/
def Dirent.bytes (de : Dirent) (k : Fin direntSize) : UInt8 :=
  if h : k.val < 2 then LittleEndian.byte16 de.inum k.val
  else de.name ⟨k.val - 2, by have := k.isLt; unfold direntSize at this; unfold dirSiz; omega⟩

/-- Read a `struct dirent` from its bytes. -/
def Dirent.ofBytes (f : Fin direntSize → UInt8) : Dirent where
  inum := LittleEndian.word16 (f 0) (f 1)
  name := fun k => f ⟨k.val + 2, by have := k.isLt; unfold dirSiz at this; unfold direntSize; omega⟩

theorem Dirent.ofBytes_bytes (de : Dirent) : Dirent.ofBytes de.bytes = de := by
  obtain ⟨inum, name⟩ := de
  simp only [Dirent.ofBytes, Dirent.bytes, Dirent.mk.injEq]
  refine ⟨LittleEndian.word16_byte16 inum, ?_⟩
  funext k
  rw [dif_neg (by omega)]
  simp only [Nat.add_sub_cancel, Fin.eta]

/-- The bytes `readi` copies into a `struct dirent`, as a list, read as one. -/
def Dirent.ofList (l : List UInt8) : Dirent := Dirent.ofBytes fun k => l.getD k.val 0

/-- The bytes of a `struct dirent`, as the list `writei` takes. -/
def Dirent.toList (de : Dirent) : List UInt8 := List.ofFn de.bytes

theorem Dirent.ofList_toList (de : Dirent) : Dirent.ofList de.toList = de := by
  have hget : (fun k : Fin direntSize => de.toList.getD k.val 0) = de.bytes := by
    funext k
    rw [Dirent.toList, List.getD_eq_getElem?_getD, List.getElem?_ofFn, dif_pos k.isLt,
      Option.getD_some]
  rw [Dirent.ofList, hget, Dirent.ofBytes_bytes]

@[simp] theorem Dirent.toList_length (de : Dirent) : de.toList.length = direntSize := by
  simp [Dirent.toList]

end Xv6
