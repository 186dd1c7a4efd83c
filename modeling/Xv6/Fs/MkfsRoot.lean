import Xv6.Fs.Mkfs

/-!
# The root directory `mkfs` writes

`mkfs` appends the root's entries with `iappend`, one `struct dirent` at a time, and at
the end rounds the root's size up: `off = ((off/BSIZE) + 1) * BSIZE`.  For input files
that all fit in the root's first block, `mkfs_empty_files_root` gives the root's
`dinode` on the finished disk: one block, `nmeta`, and the rounded size.

When the entries fill the block exactly, the rounding adds a whole block the root does
not have: with thirty files, `.`, `..` and the thirty entries are `512` bytes, and the
root's size becomes `1024` while `addrs[1]` stays `0` (`mkfs_root_size_overruns`).  The
kernel's `readi` of the root's second block then goes through `bmap`, which allocates a
block for it.
-/

namespace Xv6

namespace Mkfs

/-- The root's `struct dinode` while `mkfs` fills it: `sz` bytes of entries in block `nmeta`. -/
def rootFilling (sz : Nat) : DInode :=
  { Fs.DInode.empty with
    type := tDir
    nlink := 1
    size := UInt32.ofNat sz
    addrs := Function.update Fs.DInode.empty.addrs 0 (UInt32.ofNat nmeta) }

theorem rootFilling_size (sz : Nat) (h : sz ≤ bsize) : (rootFilling sz).size.toNat = sz := by
  simp only [rootFilling]
  exact Nat.mod_eq_of_lt (lt_of_le_of_lt h (by decide))

theorem rootFilling_addr_zero (sz : Nat) : (rootFilling sz).addrs 0 ≠ 0 := by
  simp only [rootFilling, Function.update_self]
  decide

/-- The image after `k` empty input files: the root holds `.`, `..` and `k` entries in
block `nmeta`, and the next inode and block are the first ones free. -/
structure Filled (m : Image) (k : Nat) : Prop where
  root : m.rinode rootIno = rootFilling (direntSize * (k + 2))
  freeinode : m.freeinode = k + 2
  freeblock : m.freeblock = nmeta + 1

/-- One empty input file: its inode, and one more entry in the root's block. -/
theorem addFile_filled {m : Image} {k : Nat} (hm : Filled m k) {name : List UInt8}
    (hname : slash ∉ name) (hfit : direntSize * (k + 3) ≤ bsize) :
    ∃ m', addFile rootIno m (name, []) = some m' ∧ Filled m' (k + 1) := by
  -- the file's inode is the next free one, never the root's
  have hne : rootIno ≠ m.freeinode := by rw [hm.freeinode]; unfold rootIno; omega
  have hfit' : direntSize * (k + 2) + direntSize ≤ bsize := by rw [← Nat.mul_succ]; exact hfit
  have hroot : (m.ialloc tFile).1.rinode rootIno = rootFilling (direntSize * (k + 2)) := by
    rw [Image.rinode_ialloc_of_ne _ _ hne, hm.root]
  have hsize : ((m.ialloc tFile).1.rinode rootIno).size.toNat = direntSize * (k + 2) := by
    rw [hroot, rootFilling_size _ (by omega)]
  obtain ⟨m', happ, hr', hi', hb'⟩ := Image.iappend_same_block (m.ialloc tFile).1 rootIno
    (dirent (m.ialloc tFile).2 (if name.head? = some underscore then name.tail else name)).toList
    (n := direntSize) (by decide) (by rw [hsize]; omega) (by rw [hroot]; exact rootFilling_addr_zero _)
  refine ⟨m', ?_, ⟨?_, ?_, ?_⟩⟩
  · simp only [addFile, if_neg hname]
    rw [happ]
    rfl
  · rw [hr', hsize, hroot]
    rfl
  · rw [hi', Image.ialloc_freeinode, hm.freeinode]
  · rw [hb', Image.ialloc_freeblock, hm.freeblock]

/-- The input files, all empty, one after another: one root entry each. -/
theorem foldlM_addFile_filled (files : List (List UInt8 × List UInt8))
    (hname : ∀ f ∈ files, slash ∉ f.1) (hempty : ∀ f ∈ files, f.2 = []) :
    ∀ {m : Image} {k : Nat}, Filled m k → direntSize * (k + files.length + 2) ≤ bsize →
      ∃ m', files.foldlM (addFile rootIno) m = some m' ∧ Filled m' (k + files.length) := by
  induction files with
  | nil => exact fun hm _ => ⟨_, rfl, hm⟩
  | cons f files ih =>
    intro m k hm hfit
    obtain ⟨name, content⟩ := f
    obtain rfl : content = [] := hempty _ (List.mem_cons_self ..)
    have hfit1 : direntSize * (k + 3) ≤ bsize :=
      le_trans (Nat.mul_le_mul_left _ (by simp only [List.length_cons]; omega)) hfit
    obtain ⟨m1, h1, hm1⟩ := addFile_filled hm (hname _ (List.mem_cons_self ..)) hfit1
    obtain ⟨m', h', hm'⟩ := ih (fun f hf => hname f (List.mem_cons_of_mem _ hf))
      (fun f hf => hempty f (List.mem_cons_of_mem _ hf)) hm1
      (by rwa [show k + 1 + files.length + 2 = k + (files.length + 1) + 2 by omega,
        ← List.length_cons])
    refine ⟨m', ?_, by simpa only [List.length_cons, Nat.add_assoc, Nat.add_comm 1] using hm'⟩
    rw [List.foldlM_cons, h1]
    exact h'

/-- `mkfs` on empty input files whose entries fit in one block: the root's `dinode` on the
finished disk has its entries' size rounded up by `((off/BSIZE) + 1) * BSIZE`, and one
block. -/
theorem mkfs_empty_files_root (files : List (List UInt8 × List UInt8))
    (hname : ∀ f ∈ files, slash ∉ f.1) (hempty : ∀ f ∈ files, f.2 = [])
    (hfit : direntSize * (files.length + 2) ≤ bsize) :
    ∃ d, mkfs files = some d ∧
      (d (iblock rootIno sb)).dinode rootIno =
        rootFilling ((direntSize * (files.length + 2) / bsize + 1) * bsize) := by
  -- the root, allocated as inode 1 of the fresh image
  set m0 : Image := (⟨fun _ => zeroBlock, 1, nmeta⟩ : Image).wsect 1 (sbBlock sb) with hm0
  have hino : (m0.ialloc tDir).2 = rootIno := rfl
  have hroot0 : (m0.ialloc tDir).1.rinode rootIno =
      { Fs.DInode.empty with type := tDir, nlink := 1 } :=
    Image.rinode_ialloc_self m0 tDir
  -- `.` takes block `nmeta` for the root, `..` follows it in that block
  obtain ⟨m1, h1, hr1, hi1, hb1⟩ := Image.iappend_fresh_block (m0.ialloc tDir).1 rootIno
    (dirent rootIno dotName).toList (n := direntSize) (by decide) (by rw [hroot0]; decide)
    (by rw [hroot0]; rfl)
  have hr1' : m1.rinode rootIno = rootFilling direntSize := by rw [hr1, hroot0]; rfl
  obtain ⟨m2, h2, hr2, hi2, hb2⟩ := Image.iappend_same_block m1 rootIno
    (dirent rootIno dotDotName).toList (n := direntSize) (by decide)
    (by rw [hr1', rootFilling_size _ (by decide)]; decide)
    (by rw [hr1']; exact rootFilling_addr_zero _)
  have hm2 : Filled m2 0 :=
    ⟨by rw [hr2, hr1', rootFilling_size _ (by decide)]; rfl, by rw [hi2, hi1]; rfl,
      by rw [hb2, hb1]; rfl⟩
  -- the files, one root entry each
  obtain ⟨m3, h3, hm3⟩ := foldlM_addFile_filled files hname hempty hm2
    (by rwa [Nat.zero_add])
  rw [Nat.zero_add] at hm3
  -- the size fix, then the bitmap
  have hsize3 : (m3.rinode rootIno).size.toNat = direntSize * (files.length + 2) := by
    rw [hm3.root, rootFilling_size _ hfit]
  let m4 := m3.winode rootIno { m3.rinode rootIno with
    size := UInt32.ofNat (((m3.rinode rootIno).size.toNat / bsize + 1) * bsize) }
  have hused : m4.freeblock < bsize * 8 := by rw [Image.winode_freeblock, hm3.freeblock]; decide
  obtain ⟨m5, h5, hframe⟩ := m4.balloc_of_lt hused
  refine ⟨m5.disk, ?_, ?_⟩
  · simp only [mkfs, ← hm0, hino, h1, Option.bind_eq_bind, Option.bind_some, h2, h3]
    show (m4.balloc m4.freeblock).bind _ = _
    rw [h5]
    rfl
  · rw [hframe _ (by decide)]
    show m4.rinode rootIno = _
    rw [Image.rinode_winode_self, hsize3, hm3.root]
    rfl

/-- Thirty empty files, named `A` to `^`. -/
def thirtyFiles : List (List UInt8 × List UInt8) :=
  (List.range 30).map fun i => ([UInt8.ofNat (65 + i)], [])

theorem mkfs_root_size_overruns :
    ∃ d, mkfs thirtyFiles = some d ∧
      ((d (iblock rootIno sb)).dinode rootIno).size = 1024 ∧
      ((d (iblock rootIno sb)).dinode rootIno).addrs 1 = 0 := by
  obtain ⟨d, hd, hroot⟩ := mkfs_empty_files_root thirtyFiles (by decide) (by decide) (by decide)
  -- `.`, `..` and thirty entries are exactly one block
  refine ⟨d, hd, ?_, ?_⟩
  · rw [hroot]
    rfl
  · rw [hroot]
    decide

end Mkfs

end Xv6