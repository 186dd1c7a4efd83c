import Mathlib.Data.List.Defs
import Xv6.Fs.Dir

/-!
# `mkfs`, and the kernel's first look at its image

`mkfs.c` builds the disk image: it zeroes every block, writes the superblock, allocates
the root directory with its `.` and `..` entries, and for each input file an inode, a root
directory entry and the file's blocks (`iappend`), then rounds the root directory's size up
and marks every block it used in the bitmap (`balloc`).  `mkfs` fails (`none`) where one
of its `assert`s does.

`Fs.boot` is the file-system state of the first process: the superblock `readsb` finds
in block 1, an inode cache holding only the root, referenced once as the process's
current directory by `userinit`'s `namei("/")`, and the drivers registered so far.
-/

namespace Xv6

namespace Mkfs

/-- `NINODES`: the inodes of the image. -/
def ninodes : Nat := 200

/-- `nbitmap`. -/
def nbitmap : Nat := fsSize / (bsize * 8) + 1

/-- `ninodeblocks`. -/
def ninodeblocks : Nat := ninodes / ipb + 1

/-- `nmeta`: boot, superblock, log, inode and bitmap blocks. -/
def nmeta : Nat := 2 + logSize + ninodeblocks + nbitmap

/-- The superblock `mkfs` writes. -/
def sb : Superblock where
  size := fsSize
  nblocks := fsSize - nmeta
  ninodes := ninodes
  nlog := logSize
  logstart := 2
  inodestart := 2 + logSize
  bmapstart := 2 + logSize + ninodeblocks

/-- The superblock as `memmove(buf, &sb, sizeof(sb))` lays it in block 1. -/
def sbBlock (sb : Superblock) : Block :=
  [sb.size, sb.nblocks, sb.ninodes, sb.nlog, sb.logstart, sb.inodestart, sb.bmapstart].zipIdx.foldl
    (fun blk (x, k) => blk.setWord ⟨k % 128, Nat.mod_lt _ (by decide)⟩ (UInt32.ofNat x)) zeroBlock

/-- The image under construction, with `freeinode` and `freeblock`. -/
structure Image where
  disk : Disk
  freeinode : Nat
  freeblock : Nat

namespace Image

/-- `wsect(sec, buf)`. -/
def wsect (m : Image) (sec : Nat) (buf : Block) : Image :=
  { m with disk := Function.update m.disk sec buf }

/-- `rinode(inum, &din)`. -/
def rinode (m : Image) (inum : Nat) : DInode := (m.disk (iblock inum sb)).dinode inum

/-- `winode(inum, &din)`. -/
def winode (m : Image) (inum : Nat) (din : DInode) : Image :=
  m.wsect (iblock inum sb) ((m.disk (iblock inum sb)).setDinode inum din)

/-- `ialloc(type)`: the next inode number, with `nlink = 1`. -/
def ialloc (m : Image) (type : Int16) : Image × Nat :=
  let inum := m.freeinode
  ({ m with freeinode := inum + 1 }.winode inum { Fs.DInode.empty with type := type, nlink := 1 },
    inum)

/-- `freeblock++`. -/
def takeBlock (m : Image) : Image × UInt32 :=
  ({ m with freeblock := m.freeblock + 1 }, UInt32.ofNat m.freeblock)

/-- The block holding file block `fbn` of `din`, given a number when it has none. -/
def blockFor (m : Image) (din : DInode) (fbn : Nat) (hfbn : fbn < maxFile) :
    Image × DInode × Nat :=
  if h : fbn < ndirect then
    let k : Fin (ndirect + 1) := ⟨fbn, Nat.lt_succ_of_lt h⟩
    let (m, din) := if din.addrs k = 0 then
        let (m, x) := m.takeBlock
        (m, { din with addrs := Function.update din.addrs k x })
      else (m, din)
    (m, din, (din.addrs k).toNat)
  else
    let (m, din) := if din.addrs (Fin.last ndirect) = 0 then
        let (m, x) := m.takeBlock
        (m, { din with addrs := Function.update din.addrs (Fin.last ndirect) x })
      else (m, din)
    let ind := (din.addrs (Fin.last ndirect)).toNat
    let j : Fin 128 := ⟨fbn - ndirect, by unfold maxFile nindirect bsize at hfbn; omega⟩
    let m := if (m.disk ind).word j = 0 then
        let (m, x) := m.takeBlock
        m.wsect ind ((m.disk ind).setWord j x)
      else m
    (m, din, ((m.disk ind).word j).toNat)

/-- `iappend`'s loop: `n` bytes of `p` left to append at offset `off`. -/
def iappendLoop (m : Image) : (fuel : Nat) → (din : DInode) → (p : List UInt8) → (off n : Nat) →
    Option (Image × DInode × Nat)
  | 0, din, _, off, _ => some (m, din, off)
  | fuel + 1, din, p, off, n =>
    if n = 0 then some (m, din, off) else
    let fbn := off / bsize
    if hfbn : fbn < maxFile then
      let (m, din, x) := m.blockFor din fbn hfbn
      let n1 := min n ((fbn + 1) * bsize - off)
      let m := m.wsect x (Fs.storeChunk (m.disk x) (off - fbn * bsize) p n1)
      m.iappendLoop fuel din (p.drop n1) (off + n1) (n - n1)
    else none

/-- `iappend(inum, p, n)`. -/
def iappend (m : Image) (inum : Nat) (p : List UInt8) (n : Nat) : Option Image := do
  let din := m.rinode inum
  let (m, din, off) ← m.iappendLoop n din p din.size.toNat n
  return m.winode inum { din with size := UInt32.ofNat off }

/-- `balloc(used)`: the bitmap block with the first `used` bits set. -/
def balloc (m : Image) (used : Nat) : Option Image :=
  if used < bsize * 8 then
    some (m.wsect sb.bmapstart fun j =>
      (List.range used).foldl (fun b i => if i / 8 = j.val then b ||| Fs.bitMask i else b) 0)
  else none

/-! ### What each step writes -/

@[simp] theorem wsect_freeinode (m : Image) (sec : Nat) (buf : Block) :
    (m.wsect sec buf).freeinode = m.freeinode := rfl

@[simp] theorem wsect_freeblock (m : Image) (sec : Nat) (buf : Block) :
    (m.wsect sec buf).freeblock = m.freeblock := rfl

@[simp] theorem winode_freeinode (m : Image) (inum : Nat) (din : DInode) :
    (m.winode inum din).freeinode = m.freeinode := rfl

@[simp] theorem winode_freeblock (m : Image) (inum : Nat) (din : DInode) :
    (m.winode inum din).freeblock = m.freeblock := rfl

theorem rinode_wsect_of_ne (m : Image) {sec inum : Nat} (buf : Block)
    (h : sec ≠ iblock inum sb) : (m.wsect sec buf).rinode inum = m.rinode inum := by
  simp only [rinode, wsect, Function.update_of_ne (Ne.symm h)]

@[simp] theorem rinode_winode_self (m : Image) (inum : Nat) (din : DInode) :
    (m.winode inum din).rinode inum = din := by
  simp only [rinode, winode, wsect, Function.update_self, Block.dinode_setDinode_self]

/-- `winode` rewrites the whole inode block, and keeps the block's other inodes. -/
theorem rinode_winode_of_ne (m : Image) {inum inum' : Nat} (din : DInode) (h : inum' ≠ inum) :
    (m.winode inum din).rinode inum' = m.rinode inum' := by
  by_cases hblk : iblock inum' sb = iblock inum sb
  · -- the same inode block: the two inodes sit in different records of it
    have hrec : inum' % ipb ≠ inum % ipb := by
      have hdiv : inum' / ipb = inum / ipb := by unfold iblock at hblk; omega
      intro hmod
      exact h (by rw [← Nat.div_add_mod inum' ipb, ← Nat.div_add_mod inum ipb, hdiv, hmod])
    simp only [rinode, winode, wsect, hblk, Function.update_self,
      Block.dinode_setDinode_of_ne _ _ hrec]
  · exact rinode_wsect_of_ne m _ (Ne.symm hblk)

@[simp] theorem ialloc_freeinode (m : Image) (type : Int16) :
    (m.ialloc type).1.freeinode = m.freeinode + 1 := rfl

@[simp] theorem ialloc_freeblock (m : Image) (type : Int16) :
    (m.ialloc type).1.freeblock = m.freeblock := rfl

theorem rinode_ialloc_self (m : Image) (type : Int16) :
    (m.ialloc type).1.rinode m.freeinode = { Fs.DInode.empty with type := type, nlink := 1 } :=
  rinode_winode_self _ _ _

theorem rinode_ialloc_of_ne (m : Image) (type : Int16) {inum : Nat} (h : inum ≠ m.freeinode) :
    (m.ialloc type).1.rinode inum = m.rinode inum :=
  rinode_winode_of_ne _ _ h

theorem blockFor_zero_of_ne (m : Image) (din : DInode) (hfbn : 0 < maxFile) (h : din.addrs 0 ≠ 0) :
    m.blockFor din 0 hfbn = (m, din, (din.addrs 0).toNat) := by
  have h0 : din.addrs ⟨0, by decide⟩ ≠ 0 := h
  rw [blockFor, dif_pos (show 0 < ndirect by decide)]
  simp only [if_neg h0]
  rfl

theorem blockFor_zero_of_eq (m : Image) (din : DInode) (hfbn : 0 < maxFile) (h : din.addrs 0 = 0) :
    m.blockFor din 0 hfbn = (m.takeBlock.1,
      { din with addrs := Function.update din.addrs 0 m.takeBlock.2 }, m.takeBlock.2.toNat) := by
  have h0 : din.addrs ⟨0, by decide⟩ = 0 := h
  rw [blockFor, dif_pos (show 0 < ndirect by decide)]
  simp only [if_pos h0, Function.update_self]
  rfl

theorem iappendLoop_done (m : Image) (fuel : Nat) (din : DInode) (p : List UInt8) (off : Nat) :
    m.iappendLoop fuel din p off 0 = some (m, din, off) := by
  cases fuel <;> rfl

/-- `n` bytes that fit in the first block: one `wsect` into the block `blockFor` gives it. -/
theorem iappendLoop_within_block (m : Image) (fuel : Nat) (din : DInode) (p : List UInt8)
    {off n : Nat} (hn : 0 < n) (hoff : off + n ≤ bsize) :
    m.iappendLoop (fuel + 1) din p off n =
      let b := m.blockFor din 0 (by decide)
      some (b.1.wsect b.2.2 (Fs.storeChunk (b.1.disk b.2.2) off p n), b.2.1, off + n) := by
  have hfbn : off / bsize = 0 := Nat.div_eq_of_lt (by omega)
  rw [iappendLoop, if_neg (by omega)]
  have hn1 : min n ((0 + 1) * bsize - off) = n := by omega
  simp only [hfbn, hn1, dif_pos (show 0 < maxFile by decide), Nat.zero_mul, Nat.sub_zero,
    Nat.sub_self, iappendLoop_done]

/-- Appending into a file with no block yet takes the next free block for it. -/
theorem iappend_fresh_block (m : Image) (inum : Nat) (p : List UInt8) {n : Nat} (hn : 0 < n)
    (hoff : (m.rinode inum).size.toNat + n ≤ bsize) (h0 : (m.rinode inum).addrs 0 = 0) :
    ∃ m', m.iappend inum p n = some m' ∧
      m'.rinode inum = { m.rinode inum with
        addrs := Function.update (m.rinode inum).addrs 0 (UInt32.ofNat m.freeblock),
        size := UInt32.ofNat ((m.rinode inum).size.toNat + n) } ∧
      m'.freeinode = m.freeinode ∧ m'.freeblock = m.freeblock + 1 := by
  obtain ⟨k, rfl⟩ : ∃ k, n = k + 1 := ⟨n - 1, by omega⟩
  simp only [iappend, iappendLoop_within_block m k _ p hn hoff, blockFor_zero_of_eq _ _ _ h0]
  exact ⟨_, rfl, rinode_winode_self _ _ _, rfl, rfl⟩

/-- Appending within the file's first block, which it has, takes no block. -/
theorem iappend_same_block (m : Image) (inum : Nat) (p : List UInt8) {n : Nat} (hn : 0 < n)
    (hoff : (m.rinode inum).size.toNat + n ≤ bsize) (h0 : (m.rinode inum).addrs 0 ≠ 0) :
    ∃ m', m.iappend inum p n = some m' ∧
      m'.rinode inum = { m.rinode inum with
        size := UInt32.ofNat ((m.rinode inum).size.toNat + n) } ∧
      m'.freeinode = m.freeinode ∧ m'.freeblock = m.freeblock := by
  obtain ⟨k, rfl⟩ : ∃ k, n = k + 1 := ⟨n - 1, by omega⟩
  simp only [iappend, iappendLoop_within_block m k _ p hn hoff, blockFor_zero_of_ne _ _ _ h0]
  exact ⟨_, rfl, rinode_winode_self _ _ _, rfl, rfl⟩

/-- `balloc` writes the bitmap block and nothing else. -/
theorem balloc_of_lt (m : Image) {used : Nat} (h : used < bsize * 8) :
    ∃ m', m.balloc used = some m' ∧ ∀ b, b ≠ sb.bmapstart → m'.disk b = m.disk b :=
  ⟨_, if_pos h, fun _ hb => Function.update_of_ne hb _ _⟩

end Image

/-- The `struct dirent` `mkfs` appends for `name`. -/
def dirent (inum : Nat) (name : List UInt8) : Dirent := ⟨UInt16.ofNat inum, strncpy name⟩

/-- `'_'`, which `mkfs` drops from the front of a file's name. -/
def underscore : UInt8 := 95

/-- Add one input file: its inode, its root entry, its contents one `read` at a time. -/
def addFile (rootino : Nat) (m : Image) (file : List UInt8 × List UInt8) : Option Image := do
  let (name, content) := file
  if slash ∈ name then none else
  let name := if name.head? = some underscore then name.tail else name
  let (m, inum) := m.ialloc tFile
  let m ← m.iappend rootino (dirent inum name).toList direntSize
  (content.toChunks bsize).foldlM (fun m buf => m.iappend inum buf buf.length) m

/-- `mkfs fs.img files...`, each file a name and its contents. -/
def mkfs (files : List (List UInt8 × List UInt8)) : Option Disk := do
  let m : Image := ⟨fun _ => zeroBlock, 1, nmeta⟩
  let m := m.wsect 1 (sbBlock sb)
  let (m, rootino) := m.ialloc tDir
  let m ← m.iappend rootino (dirent rootino dotName).toList direntSize
  let m ← m.iappend rootino (dirent rootino dotDotName).toList direntSize
  let m ← files.foldlM (addFile rootino) m
  -- fix size of root inode dir
  let din := m.rinode rootino
  let m := m.winode rootino { din with size := UInt32.ofNat ((din.size.toNat / bsize + 1) * bsize) }
  let m ← m.balloc m.freeblock
  return m.disk

/-! ## The image of one empty file

What `mkfs fs.img a` writes for one empty file `a`, block by block: the superblock; inode
block `32` with the root (`T_DIR`, one link, its size rounded up to a block, data in block
`59`) and `a` (`T_FILE`, one link, empty); the bitmap with blocks `0..59` in use; and the
root directory's `.`, `..` and `a`.  Every other block is zero. -/

/-- The root's `struct dinode`. -/
def rootDinode : DInode where
  type := tDir
  major := 0
  minor := 0
  nlink := 1
  size := 512
  addrs := fun k => if k = 0 then 59 else 0

/-- `a`'s `struct dinode`. -/
def fileDinode : DInode := { Fs.DInode.empty with type := tFile, nlink := 1 }

/-- The root directory's block: `.`, `..` and `a`. -/
def rootBlock : Block :=
  ((zeroBlock.setRecord direntSize ⟨0, by decide⟩ (dirent rootIno dotName).bytes).setRecord
    direntSize ⟨1, by decide⟩ (dirent rootIno dotDotName).bytes).setRecord direntSize
    ⟨2, by decide⟩ (dirent 2 [97]).bytes

/-- The bitmap block: blocks `0..59` in use. -/
def bitmapBlock : Block := fun j => if j.val < 7 then 0xFF else if j.val = 7 then 0x0F else 0

/-- The disk `mkfs fs.img a` writes. -/
def oneFileImage : Disk := fun b =>
  if b = 1 then sbBlock sb
  else if b = 32 then (zeroBlock.setDinode rootIno rootDinode).setDinode 2 fileDinode
  else if b = 58 then bitmapBlock
  else if b = 59 then rootBlock
  else zeroBlock

end Mkfs

/-- `readsb`: the superblock's seven `uint`s from block 1. -/
def readsb (blk : Block) : Superblock :=
  ⟨(blk.word 0).toNat, (blk.word 1).toNat, (blk.word 2).toNat, (blk.word 3).toNat,
    (blk.word 4).toNat, (blk.word 5).toNat, (blk.word 6).toNat⟩

/-- An inode-cache entry nothing references. -/
def Inode.unused : Inode := ⟨0, 0, 0, false, false, Fs.DInode.empty⟩

/-- The state the first process sees on disk `d`: `iinit`'s superblock, and `userinit`'s
`namei("/")`, which takes the first cache entry for the root without reading it. -/
def Fs.boot (d : Disk) (devsw : Fin ndev → Option DevSw) : Fs where
  sb := readsb (d 1)
  disk := d
  icache := Function.update (fun _ => Inode.unused) ⟨0, by decide⟩
    { Inode.unused with dev := rootDev, inum := rootIno, ref := 1 }
  cwd := ⟨0, by decide⟩
  devsw := devsw

end Xv6
