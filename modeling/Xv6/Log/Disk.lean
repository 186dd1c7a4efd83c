import Xv6.Param
import Xv6.Lib.Writes
import Xv6.Lib.LittleEndian

/-!
# The checksummed log on disk

`log.c`'s disk side: the routines `commit` runs (`write_log`, `write_checksum`,
`check_checksum`, `write_head`, `install_trans`) and the boot path (`initlog`,
`recover_from_log`, `read_head`).

The log region is `log.size` blocks from `log.start`: block `log.start` holds the checksum
word, block `log.start+1` the header (`struct logheader`: the count `n` in word 0 and the
block numbers in words `1..LOGSIZE`), and blocks `log.start+2..` the logged copies.

The model's state `Sys` holds the fields of `struct log` these routines use, the contents
`bread` returns (`view`), and the single-block disk writes issued so far (`writes`), in
order.  `bread` returns the latest contents written to a block, cached or not: that is the
buffer cache's coherence, which the buffer-cache model establishes on its own.  A crash
keeps a prefix of `writes` and forgets `view` (`Xv6.Log.Crash`).

Every block number goes through `bread`, which stops with `idestart`'s
`panic("incorrect blockno")` at or past `FSSIZE`; an index of `log.lh.block` at or past
`LOGSIZE` is `Fault.outOfBounds`; and a second `bread` of the block whose buffer the
routine already holds sleeps on that buffer's lock for ever (`Fault.selfDeadlock`).
-/

namespace Xv6

/-! ## Words of a block -/

/-- The byte `k` of word `w`, for the 4-byte `int` and `uint` fields laid over a block. -/
def wordByte (w : Fin 128) (k : Nat) (hk : k < 4) : Fin bsize :=
  ⟨4 * w.val + k, by have := w.isLt; unfold bsize; omega⟩

/-- The little-endian word `w` of a block, as an `int`/`uint` field laid over
`buf->data` reads it. -/
def Block.word (blk : Block) (w : Fin 128) : UInt32 :=
  LittleEndian.word32 (blk (wordByte w 0 (by decide))) (blk (wordByte w 1 (by decide)))
    (blk (wordByte w 2 (by decide))) (blk (wordByte w 3 (by decide)))

/-- Store `x` into word `w` of a block, leaving its other bytes alone. -/
def Block.setWord (blk : Block) (w : Fin 128) (x : UInt32) : Block :=
  fun j => if j.val / 4 = w.val then LittleEndian.byte32 x (j.val % 4) else blk j

/-- An `int` field: the word read as two's complement. -/
def Block.int (blk : Block) (w : Fin 128) : Int := (blk.word w).toInt32.toInt

/-- Store an `int` field. -/
def Block.setInt (blk : Block) (w : Fin 128) (x : Int) : Block :=
  blk.setWord w (UInt32.ofInt x)

theorem wordByte_div (w : Fin 128) (k : Nat) (hk : k < 4) : (wordByte w k hk).val / 4 = w.val := by
  simp only [wordByte]
  omega

theorem wordByte_mod (w : Fin 128) (k : Nat) (hk : k < 4) : (wordByte w k hk).val % 4 = k := by
  simp only [wordByte]
  omega

theorem Block.setWord_word_self (blk : Block) (w : Fin 128) (x : UInt32) :
    (blk.setWord w x).word w = x := by
  have byteOf : ∀ (k : Nat) (hk : k < 4),
      blk.setWord w x (wordByte w k hk) = LittleEndian.byte32 x k := by
    intro k hk
    unfold Block.setWord
    rw [if_pos (wordByte_div w k hk), wordByte_mod]
  simp only [Block.word, byteOf]
  exact LittleEndian.word32_byte32 x

theorem Block.setWord_word_of_ne (blk : Block) {w w' : Fin 128} (x : UInt32) (hne : w' ≠ w) :
    (blk.setWord w x).word w' = blk.word w' := by
  have byteOf : ∀ (k : Nat) (hk : k < 4),
      blk.setWord w x (wordByte w' k hk) = blk (wordByte w' k hk) := by
    intro k hk
    unfold Block.setWord
    rw [if_neg (fun h => hne (Fin.ext ((wordByte_div w' k hk).symm.trans h)))]
  simp only [Block.word, byteOf]

theorem Block.int_eq (blk : Block) (w : Fin 128) :
    blk.int w = if (blk.word w).toNat < 2 ^ 31 then ((blk.word w).toNat : Int)
      else (blk.word w).toNat - 2 ^ 32 := by
  rw [Block.int, Int32.toInt, UInt32.toBitVec_toInt32, BitVec.toInt_eq_toNat_cond]
  simp only [UInt32.toNat_toBitVec]
  split_ifs <;> omega

/-- An `int` field holding a value of `int`'s range reads back as that value. -/
theorem Block.setInt_int_self (blk : Block) (w : Fin 128) {x : Int}
    (lo : -2 ^ 31 ≤ x) (hi : x < 2 ^ 31) : (blk.setInt w x).int w = x := by
  rw [Block.int_eq, Block.setInt, Block.setWord_word_self]
  have hofInt : ((UInt32.ofInt x).toNat : Int) = x % 2 ^ 32 := by
    simp only [UInt32.ofInt, UInt32.toNat_ofNat']
    omega
  split_ifs with h <;> omega

theorem Block.setInt_int_of_ne (blk : Block) {w w' : Fin 128} (x : Int) (hne : w' ≠ w) :
    (blk.setInt w x).int w' = blk.int w' := by
  simp only [Block.int, Block.setInt, Block.setWord_word_of_ne _ _ hne]

/-! ## The log's state -/

/-- `struct logheader`, in memory: the count and the logged block numbers. -/
structure LogHeader where
  n : Int
  block : Fin logSize → Int

/-- The fields of `struct log` that the disk routines read and write. -/
structure Log where
  start : Nat
  size : Nat
  checksum : UInt32
  lh : LogHeader

/-- The log layer's state: `struct log`, what `bread` returns, and the disk writes issued. -/
structure Sys where
  log : Log
  view : Disk
  writes : List (Nat × Block)

namespace Sys

/-- `bread(log.dev, b)`: `idestart` refuses a block number at or past `FSSIZE`. -/
def bread (s : Sys) (b : Nat) : Except Fault Block :=
  if b < fsSize then .ok (s.view b) else .error (.panic "incorrect blockno")

/-- `bread(log.dev, b)` while the caller holds the buffer of block `held`: the same block
finds that buffer in the cache and sleeps on its lock, which only the caller can release. -/
def bread2 (s : Sys) (held b : Nat) : Except Fault Block :=
  if b = held then .error .selfDeadlock else s.bread b

/-- `bwrite` of a buffer for block `b` holding `blk`: the disk write, and the cache's copy. -/
def bwrite (s : Sys) (b : Nat) (blk : Block) : Sys :=
  { s with view := Function.update s.view b blk, writes := s.writes ++ [(b, blk)] }

/-- `log.lh.block[i]`. -/
def slot (i : Nat) : Except Fault (Fin logSize) :=
  if h : i < logSize then .ok ⟨i, h⟩ else .error .outOfBounds

/-- Where `block[k]` of `struct logheader` lies in the header block: after `n`. -/
def slotWord (k : Fin logSize) : Fin 128 :=
  ⟨k.val + 1, by have hk := k.isLt; unfold logSize maxOpBlocks at hk; omega⟩

/-- `log.checksum = c`. -/
def setChecksum (s : Sys) (c : UInt32) : Sys := { s with log := { s.log with checksum := c } }

/-- `log.lh.n = n`. -/
def setN (s : Sys) (n : Int) : Sys := { s with log := { s.log with lh := { s.log.lh with n := n } } }

/-- `log.lh.block[k] = x`. -/
def setSlot (s : Sys) (k : Fin logSize) (x : Int) : Sys :=
  { s with log := { s.log with lh := { s.log.lh with block := Function.update s.log.lh.block k x } } }

@[simp] theorem bwrite_log (s : Sys) (b : Nat) (blk : Block) : (s.bwrite b blk).log = s.log := rfl

@[simp] theorem bwrite_view (s : Sys) (b : Nat) (blk : Block) :
    (s.bwrite b blk).view = Function.update s.view b blk := rfl

@[simp] theorem bwrite_writes (s : Sys) (b : Nat) (blk : Block) :
    (s.bwrite b blk).writes = s.writes ++ [(b, blk)] := rfl

@[simp] theorem setChecksum_view (s : Sys) (c : UInt32) : (s.setChecksum c).view = s.view := rfl

@[simp] theorem setChecksum_writes (s : Sys) (c : UInt32) :
    (s.setChecksum c).writes = s.writes := rfl

@[simp] theorem setChecksum_log_start (s : Sys) (c : UInt32) :
    (s.setChecksum c).log.start = s.log.start := rfl

@[simp] theorem setChecksum_log_checksum (s : Sys) (c : UInt32) :
    (s.setChecksum c).log.checksum = c := rfl

@[simp] theorem setChecksum_log_lh (s : Sys) (c : UInt32) :
    (s.setChecksum c).log.lh = s.log.lh := rfl

@[simp] theorem setN_view (s : Sys) (n : Int) : (s.setN n).view = s.view := rfl

@[simp] theorem setN_writes (s : Sys) (n : Int) : (s.setN n).writes = s.writes := rfl

@[simp] theorem setN_log_start (s : Sys) (n : Int) : (s.setN n).log.start = s.log.start := rfl

@[simp] theorem setN_lh_n (s : Sys) (n : Int) : (s.setN n).log.lh.n = n := rfl

@[simp] theorem setN_lh_block (s : Sys) (n : Int) :
    (s.setN n).log.lh.block = s.log.lh.block := rfl

theorem bread_of_lt (s : Sys) {b : Nat} (hb : b < fsSize) : s.bread b = .ok (s.view b) := by
  simp only [bread, if_pos hb]

theorem bread2_of_ne (s : Sys) {held b : Nat} (hne : b ≠ held) : s.bread2 held b = s.bread b := by
  simp only [bread2, if_neg hne]

theorem slot_of_lt {i : Nat} (hi : i < logSize) : slot i = .ok ⟨i, hi⟩ := by
  simp only [slot, dif_pos hi]

/-! ## The checksum loops -/

/-- The inner loop of the three checksum loops, `checksum += (j+1)*data[j]` over a block. -/
def addBlock (acc : UInt32) (blk : Block) : UInt32 :=
  (List.finRange bsize).foldl (fun acc j => acc + UInt32.ofNat ((j.val + 1) * (blk j).toNat)) acc

/-- The outer loop: the blocks `first .. first+n-1`, read through `bread`. -/
def sumBlocks (s : Sys) (first n : Nat) : Except Fault UInt32 :=
  (List.range n).foldlM (fun acc i => do
    let blk ← s.bread (first + i)
    pure (addBlock acc blk)) 0

/-- The sum `sumBlocks` computes when every block it reads is below `FSSIZE`. -/
def blocksSum (view : Disk) (first n : Nat) : UInt32 :=
  (List.range n).foldl (fun acc i => addBlock acc (view (first + i))) 0

theorem sumBlocks_of_le (s : Sys) {first n : Nat} (hle : first + n ≤ fsSize) :
    s.sumBlocks first n = .ok (blocksSum s.view first n) := by
  apply foldlM_except_ok
  intro i hi acc
  rw [s.bread_of_lt (by rw [List.mem_range] at hi; omega)]
  rfl

/-- `blocksSum` reads only the blocks `first .. first+n-1`. -/
theorem blocksSum_congr {view view' : Disk} {first n : Nat}
    (h : ∀ i < n, view (first + i) = view' (first + i)) :
    blocksSum view first n = blocksSum view' first n := by
  unfold blocksSum
  apply List.foldl_ext
  intro acc i hi
  rw [h i (List.mem_range.mp hi)]

/-- `write_checksum`: sum `log.lh.n` blocks from `log.start+1`, keep the remainder modulo
`BSIZE` in `log.checksum`, and store it in the first word of block `log.start`.  The
read-back that follows only prints. -/
def writeChecksum (s : Sys) : Except Fault Sys := do
  let sum ← s.sumBlocks (s.log.start + 1) s.log.lh.n.toNat
  let checksum := sum % UInt32.ofNat bsize
  let s := s.setChecksum checksum
  let checkBlock ← s.bread s.log.start
  let s := s.bwrite s.log.start (checkBlock.setWord 0 checksum)
  let _ ← s.bread s.log.start
  pure s

/-- `check_checksum`: recompute the same sum and compare it with `log.checksum`. -/
def checkChecksum (s : Sys) : Except Fault Bool := do
  let sum ← s.sumBlocks (s.log.start + 1) s.log.lh.n.toNat
  pure (s.log.checksum == sum % UInt32.ofNat bsize)

/-! ## Header, log copies and installation -/

/-- `write_head`: the header block with `n` and the first `n` block numbers written over it. -/
def writeHead (s : Sys) : Except Fault Sys := do
  let buf ← s.bread (s.log.start + 1)
  let hb ← (List.range s.log.lh.n.toNat).foldlM (fun hb i => do
    let k ← slot i
    pure (hb.setInt (slotWord k) (s.log.lh.block k))) (buf.setInt 0 s.log.lh.n)
  pure (s.bwrite (s.log.start + 1) hb)

/-- `read_head`: the header block's `n` and its first `n` block numbers into `log.lh`. -/
def readHead (s : Sys) : Except Fault Sys := do
  let buf ← s.bread (s.log.start + 1)
  (List.range (buf.int 0).toNat).foldlM (fun s i => do
    let k ← slot i
    pure (s.setSlot k (buf.int (slotWord k))))
    (s.setN (buf.int 0))

/-- `write_log`: copy each logged block from the cache to its log block `log.start+tail+2`. -/
def writeLog (s : Sys) : Except Fault Sys :=
  (List.range s.log.lh.n.toNat).foldlM (fun s tail => do
    let _ ← s.bread (s.log.start + tail + 1 + 1)
    let k ← slot tail
    let src ← s.bread2 (s.log.start + tail + 1 + 1) (toUint (s.log.lh.block k))
    pure (s.bwrite (s.log.start + tail + 1 + 1) src)) s

/-- `install_trans`: copy each log block `log.start+tail+2` to the block its slot names. -/
def installTrans (s : Sys) : Except Fault Sys :=
  (List.range s.log.lh.n.toNat).foldlM (fun s tail => do
    let lbuf ← s.bread (s.log.start + tail + 1 + 1)
    let k ← slot tail
    let _ ← s.bread2 (s.log.start + tail + 1 + 1) (toUint (s.log.lh.block k))
    pure (s.bwrite (toUint (s.log.lh.block k)) lbuf)) s

/-! ## Commit and recovery -/

/-- `commit` after `write_checksum`: `check_checksum`, then the header write that commits,
installation, and the header write that clears the log. -/
def commitChecked (s : Sys) : Except Fault Sys := do
  if (← s.checkChecksum) then
    let s ← s.writeHead
    let s ← s.installTrans
    (s.setN 0).writeHead
  else
    throw (.panic "log checksum has a missmatch")

/-- `commit`. -/
def commit (s : Sys) : Except Fault Sys :=
  if 0 < s.log.lh.n then do
    let s ← s.writeLog
    let s ← s.writeChecksum
    s.commitChecked
  else
    pure s

/-- `recover_from_log`: compare the checksum word of block `log.start` with the sum of
`log.lh.n` blocks from `log.start+2`, and replay the log only when they agree. -/
def recoverFromLog (s : Sys) : Except Fault Sys := do
  let buf ← s.bread s.log.start
  let diskCheck := buf.word 0
  let sum ← s.sumBlocks (s.log.start + 1 + 1) s.log.lh.n.toNat
  let checksum := sum % UInt32.ofNat bsize
  if diskCheck = checksum then
    let s ← s.readHead
    let s ← s.installTrans
    (s.setN 0).writeHead
  else
    pure s

end Sys

/-- The state `initlog` starts from on a disk: `struct log` is a zeroed global, so
`log.lh.n = 0`; `log.start` and `log.size` come from the superblock (block 1, whose words
3 and 4 are `nlog` and `logstart`); `log.checksum = 0`.  (`sizeof(struct logheader)` is
124 bytes, below `BSIZE`, so the size check passes.) -/
def bootSys (disk : Disk) : Except Fault Sys := do
  let sb ← ({ log := ⟨0, 0, 0, ⟨0, fun _ => 0⟩⟩, view := disk, writes := [] } : Sys).bread 1
  pure { log := ⟨(sb.word 4).toNat, (sb.word 3).toNat, 0, ⟨0, fun _ => 0⟩⟩,
         view := disk, writes := [] }

/-- `initlog(dev)`: read the superblock and recover from the log. -/
def initlog (disk : Disk) : Except Fault Sys := do
  let s ← bootSys disk
  s.recoverFromLog

end Xv6
