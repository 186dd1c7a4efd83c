import Xv6.Fs.Sysfile
import Xv6.Fs.Mkfs

/-!
# The directory tree on disk

What the disk says the file system is, read without the inode cache: the disk inode of
each inode number (`dinodeOf`), the block that holds each block of a file (`fileBlock`,
`bmap` without allocation) and the entries of a directory (`entries`, `readi` of each
entry in turn).  `Reachable` is the set of inodes named from the root through entries
other than `.` and `..`.

`link` counts are meant to count the names of an inode inside this tree.  `create` adds
an entry to whatever directory `nameiparent` returns, and a process's current directory
may have been unlinked: `mkdir` there makes a directory with one link that no directory
of the tree names (`mkdir_in_unlinked_cwd`).

* `Reachable.subset`: a set holding the root and every inode a tree entry of one of its
  directories names holds every reachable inode;
* `reachable_of_flat_root`: when the root's entries name only the root and inodes that are
  not directories, nothing else is reachable.
-/

namespace Xv6

/-- An entry of the tree: in use, and named neither `.` nor `..`. -/
def Dirent.isTreeEntry (de : Dirent) : Prop :=
  de.inum ≠ 0 ∧ namecmp (List.ofFn de.name) dotName ≠ 0 ∧ namecmp (List.ofFn de.name) dotDotName ≠ 0

namespace Fs

/-- The disk inode `inum`. -/
def dinodeOf (s : Fs) (inum : Nat) : DInode := (s.disk (iblock inum s.sb)).dinode inum

/-- The disk block holding block `bn` of a file with disk inode `d`, `0` if none. -/
def fileBlock (s : Fs) (d : DInode) (bn : Nat) : Nat :=
  if h : bn < ndirect then (d.addrs ⟨bn, Nat.lt_succ_of_lt h⟩).toNat
  else if h' : bn - ndirect < nindirect then
    let ind := (d.addrs (Fin.last ndirect)).toNat
    if ind = 0 then 0 else ((s.disk ind).word ⟨bn - ndirect, sub_ndirect_lt h'⟩).toNat
  else 0

/-- The `struct dirent` at byte `off` of a directory with disk inode `d`. -/
def direntAt (s : Fs) (d : DInode) (off : Nat) : Dirent :=
  Dirent.ofBytes fun k => Block.byte (s.disk (s.fileBlock d (off / bsize))) (off % bsize + k.val)

/-- The entries of directory `inum`, in order. -/
def entries (s : Fs) (inum : Nat) : List Dirent :=
  (dirOffsets (s.dinodeOf inum).size).map (s.direntAt (s.dinodeOf inum))

/-- The inodes named from the root through tree entries of directories. -/
inductive Reachable (s : Fs) : Nat → Prop
  | root : Reachable s rootIno
  | entry {d : Nat} {de : Dirent} : Reachable s d → (s.dinodeOf d).type = tDir →
      de ∈ s.entries d → de.isTreeEntry → Reachable s de.inum.toNat

/-- A set closed under the tree's entries holds the whole tree. -/
theorem Reachable.subset {s : Fs} {S : Set Nat} (root : rootIno ∈ S)
    (closed : ∀ d ∈ S, (s.dinodeOf d).type = tDir → ∀ de ∈ s.entries d, de.isTreeEntry →
      de.inum.toNat ∈ S) {i : Nat} (h : s.Reachable i) : i ∈ S := by
  induction h with
  | root => exact root
  | entry _ isDir mem tree ih => exact closed _ ih isDir _ mem tree

/-- A root whose entries name only itself and inodes that are not directories: the tree is
the root and such inodes. -/
theorem reachable_of_flat_root {s : Fs}
    (flat : ∀ de ∈ s.entries rootIno,
      de.inum = 0 ∨ de.inum.toNat = rootIno ∨ (s.dinodeOf de.inum.toNat).type ≠ tDir)
    {i : Nat} (h : s.Reachable i) : i = rootIno ∨ (s.dinodeOf i).type ≠ tDir := by
  apply Reachable.subset (S := {i | i = rootIno ∨ (s.dinodeOf i).type ≠ tDir}) (Or.inl rfl) _ h
  rintro d (rfl | notDir) isDir de mem tree
  · exact (flat de mem).resolve_left tree.1
  · exact absurd isDir notDir

end Fs

/-- What the run below leaves on disk that contradicts the link counts: inode `4` is an
allocated directory with one link, and every entry of the root names nothing, the root, or
an inode that is not a directory. -/
def unlinkedMkdirCheck (r : Except Fault (Fs × List Int)) : Bool :=
  match r with
  | .ok (s, rs) => rs == [0, 0, 0, 0] && (s.dinodeOf 4).type == tDir && (s.dinodeOf 4).nlink == 1 &&
      (s.entries rootIno).all fun de =>
        de.inum == 0 || de.inum.toNat == rootIno || (s.dinodeOf de.inum.toNat).type != tDir
  | .error _ => false

/-- On the image `mkfs fs.img a` writes, a process in the root directory runs
`mkdir("/d")`, `chdir("/d")`, `unlink("/d")` (which `sys_unlink` allows: `d` is empty, and
being a current directory does not stop it) and `mkdir("x")`.  `create` adds `x` (inode 4)
to `d` and gives it one link, and no directory reachable from the root names it. -/
theorem mkdir_in_unlinked_cwd : ∃ s, (Fs.boot Mkfs.oneFileImage fun _ => none).run
      [.mkdir [slash, 100], .chdir [slash, 100], .unlink [slash, 100], .mkdir [120]] =
        .ok (s, [0, 0, 0, 0]) ∧
    (s.dinodeOf 4).type = tDir ∧ (s.dinodeOf 4).nlink = 1 ∧ ¬ s.Reachable 4 := by
  have run : unlinkedMkdirCheck ((Fs.boot Mkfs.oneFileImage fun _ => none).run
      [.mkdir [slash, 100], .chdir [slash, 100], .unlink [slash, 100], .mkdir [120]]) = true := by
    decide +kernel
  generalize hrun : (Fs.boot Mkfs.oneFileImage fun _ => none).run
    [.mkdir [slash, 100], .chdir [slash, 100], .unlink [slash, 100], .mkdir [120]] = r at run
  cases r with
  | error e => cases run
  | ok result =>
    obtain ⟨s, rs⟩ := result
    simp only [unlinkedMkdirCheck, Bool.and_eq_true, beq_iff_eq, List.all_eq_true,
      Bool.or_eq_true, bne_iff_ne, ne_eq] at run
    obtain ⟨⟨⟨rets, isDir⟩, oneLink⟩, flat⟩ := run
    subst rets
    refine ⟨s, rfl, isDir, oneLink, fun reach => ?_⟩
    rcases Fs.reachable_of_flat_root (fun de mem => (flat de mem).elim (fun h => h.elim .inl
      (fun h => .inr (.inl h))) (fun h => .inr (.inr h))) reach with isRoot | notDir
    · exact absurd isRoot (by decide)
    · exact notDir isDir

end Xv6
