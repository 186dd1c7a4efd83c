import Xv6.Fs.Block

/-!
# Inode content

`fs.c`'s routines over an inode's blocks, on the in-memory copy `ip` that the caller
holds locked: `iupdate` writes the copy back to its inode block, `bmap` finds (and
allocates) the block holding byte block `bn` of the file, `itrunc` frees them all, and
`readi` and `writei` copy bytes out of and into them, block by block.

The copy loops of `readi` and `writei` consume at least one byte a turn, so they are
structural recursions on a `fuel` that starts at the byte count (`readiLoop_fuel`,
`writeiLoop_fuel` say that this is enough).
-/

namespace Xv6

namespace Fs

/-- Store `d` as the disk-inode fields of the in-memory inode `ip`. -/
def setDin (s : Fs) (ip : Fin ninode) (d : DInode) : Fs :=
  s.setInode ip { s.icache ip with din := d }

/-- `ip->addrs[k] = a`. -/
def setAddr (s : Fs) (ip : Fin ninode) (k : Fin (ndirect + 1)) (a : UInt32) : Fs :=
  s.setDin ip { (s.icache ip).din with addrs := Function.update (s.icache ip).din.addrs k a }

@[simp] theorem setDin_disk (s : Fs) (ip : Fin ninode) (d : DInode) : (s.setDin ip d).disk = s.disk :=
  rfl

@[simp] theorem setDin_sb (s : Fs) (ip : Fin ninode) (d : DInode) : (s.setDin ip d).sb = s.sb := rfl

@[simp] theorem setAddr_disk (s : Fs) (ip : Fin ninode) (k : Fin (ndirect + 1)) (a : UInt32) :
    (s.setAddr ip k a).disk = s.disk := rfl

@[simp] theorem setAddr_sb (s : Fs) (ip : Fin ninode) (k : Fin (ndirect + 1)) (a : UInt32) :
    (s.setAddr ip k a).sb = s.sb := rfl

/-- `iupdate(ip)`: copy the in-memory inode to its slot of its inode block. -/
def iupdate (s : Fs) (ip : Fin ninode) : Except Fault Fs := do
  let i := s.icache ip
  let bp ← s.bread (iblock i.inum s.sb)
  return s.logWrite (iblock i.inum s.sb) (bp.setDinode i.inum i.din)

/-! ## `bmap` -/

theorem indirect_lt {bn : Nat} (h : bn < nindirect) : bn < 128 := by
  unfold nindirect bsize at h
  omega

theorem sub_ndirect_lt {bn : Nat} (h : bn - ndirect < nindirect) : bn - ndirect < 128 :=
  indirect_lt h

/-- `bmap(ip, bn)`: the disk address of block `bn` of the file, allocated if it has none. -/
def bmap (s : Fs) (ip : Fin ninode) (bn : Nat) : Except Fault (Fs × UInt32) :=
  let addrs := (s.icache ip).din.addrs
  if h : bn < ndirect then
    if addrs ⟨bn, by omega⟩ = 0 then do
      let (s, b) ← s.balloc
      return (s.setAddr ip ⟨bn, by omega⟩ (UInt32.ofNat b), UInt32.ofNat b)
    else return (s, addrs ⟨bn, by omega⟩)
  else if h' : bn - ndirect < nindirect then do
    -- Load indirect block, allocating if necessary.
    let (s, addr) ← if addrs (Fin.last ndirect) = 0 then do
        let (s, b) ← s.balloc
        pure (s.setAddr ip (Fin.last ndirect) (UInt32.ofNat b), UInt32.ofNat b)
      else pure (s, addrs (Fin.last ndirect))
    let bp ← s.bread addr.toNat
    let k : Fin 128 := ⟨bn - ndirect, indirect_lt h'⟩
    if bp.word k = 0 then do
      let (s, b) ← s.balloc
      return (s.logWrite addr.toNat (bp.setWord k (UInt32.ofNat b)), UInt32.ofNat b)
    else return (s, bp.word k)
  else .error (.panic "bmap: out of range")

/-! ## `itrunc` -/

/-- One turn of `itrunc`'s loop over the direct blocks. -/
def itruncDirect (ip : Fin ninode) (s : Fs) (k : Fin ndirect) : Except Fault Fs :=
  let a := (s.icache ip).din.addrs k.castSucc
  if a ≠ 0 then do
    let s ← s.bfree a.toNat
    return s.setAddr ip k.castSucc 0
  else pure s

/-- One turn of `itrunc`'s loop over the entries `a` of the indirect block. -/
def itruncIndirect (a : Block) (s : Fs) (j : Fin 128) : Except Fault Fs :=
  if a.word j ≠ 0 then s.bfree (a.word j).toNat else pure s

/-- `itrunc(ip)`: free the inode's blocks and set its size to zero. -/
def itrunc (s : Fs) (ip : Fin ninode) : Except Fault Fs := do
  let s ← (List.finRange ndirect).foldlM (itruncDirect ip) s
  let ind := (s.icache ip).din.addrs (Fin.last ndirect)
  let s ← if ind ≠ 0 then do
      let bp ← s.bread ind.toNat
      let s ← (List.finRange 128).foldlM (itruncIndirect bp) s
      let s ← s.bfree ind.toNat
      pure (s.setAddr ip (Fin.last ndirect) 0)
    else pure s
  let s := s.setDin ip { (s.icache ip).din with size := 0 }
  s.iupdate ip

/-! ## `readi` and `writei` -/

/-- The driver of major number `major`, if `0 <= major < NDEV` and one is registered. -/
def driver (s : Fs) (major : Int16) : Option DevSw :=
  if h : 0 ≤ major.toInt ∧ major.toInt < ndev then s.devsw ⟨major.toInt.toNat, by omega⟩
  else none

/-- Byte `j` of a block, `0` past its end. -/
def Block.byte (blk : Block) (j : Nat) : UInt8 := if h : j < bsize then blk ⟨j, h⟩ else 0

/-- `memmove(dst, bp->data + start, m)`: the `m` bytes of a block from `start`. -/
def chunkOf (blk : Block) (start m : Nat) : List UInt8 :=
  (List.range m).map fun k => Block.byte blk (start + k)

/-- `memmove(bp->data + start, src, m)`: a block with `m` bytes of `src` stored at `start`. -/
def storeChunk (blk : Block) (start : Nat) (src : List UInt8) (m : Nat) : Block := fun j =>
  if start ≤ j.val ∧ j.val < start + m then src.getD (j.val - start) 0 else blk j

/-- `readi`'s copy loop: `tot` bytes of `n` copied, reading from file offset `off`. -/
def readiLoop (s : Fs) (ip : Fin ninode) : (fuel tot off n : Nat) → Except Fault (Fs × List UInt8)
  | 0, _, _, _ => pure (s, [])
  | fuel + 1, tot, off, n =>
    if tot < n then do
      let (s, a) ← s.bmap ip (off / bsize)
      let bp ← s.bread a.toNat
      let m := min (n - tot) (bsize - off % bsize)
      let (s, rest) ← s.readiLoop ip fuel (tot + m) (off + m) n
      return (s, chunkOf bp (off % bsize) m ++ rest)
    else pure (s, [])

/-- `readi(ip, dst, off, n)`: the count read and the bytes copied to `dst`. -/
def readi (s : Fs) (ip : Fin ninode) (off n : UInt32) : Except Fault (Fs × Int × List UInt8) :=
  let d := (s.icache ip).din
  if d.type = tDev then
    match s.driver d.major with
    | some dev => pure (s, dev.read n.toNat)
    | none => pure (s, -1, [])
  else if off > d.size ∨ off + n < off then pure (s, -1, [])
  else
    let n := if off + n > d.size then d.size - off else n
    do
      let (s, bytes) ← s.readiLoop ip n.toNat 0 off.toNat n.toNat
      return (s, n.toInt32.toInt, bytes)

/-- `writei`'s copy loop: `tot` bytes of `n` copied from `src`, writing at file offset `off`. -/
def writeiLoop (s : Fs) (ip : Fin ninode) (src : List UInt8) :
    (fuel tot off n : Nat) → Except Fault Fs
  | 0, _, _, _ => pure s
  | fuel + 1, tot, off, n =>
    if tot < n then do
      let (s, a) ← s.bmap ip (off / bsize)
      let bp ← s.bread a.toNat
      let m := min (n - tot) (bsize - off % bsize)
      let s := s.logWrite a.toNat (storeChunk bp (off % bsize) (src.drop tot) m)
      s.writeiLoop ip src fuel (tot + m) (off + m) n
    else pure s

/-- `writei(ip, src, off, n)`: the count written. -/
def writei (s : Fs) (ip : Fin ninode) (src : List UInt8) (off n : UInt32) :
    Except Fault (Fs × Int) :=
  let d := (s.icache ip).din
  if d.type = tDev then
    match s.driver d.major with
    | some dev => pure (s, dev.write (src.take n.toNat))
    | none => pure (s, -1)
  else if off > d.size ∨ off + n < off then pure (s, -1)
  else if off + n > UInt32.ofNat (maxFile * bsize) then pure (s, -1)
  else do
    let s ← s.writeiLoop ip src n.toNat 0 off.toNat n.toNat
    -- the loop leaves `off` at `off + n`
    let s ← if n > 0 ∧ off + n > (s.icache ip).din.size then
        (s.setDin ip { (s.icache ip).din with size := off + n }).iupdate ip
      else pure s
    return (s, n.toInt32.toInt)

end Fs

end Xv6
