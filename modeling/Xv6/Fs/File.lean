import Mathlib.Data.Fintype.Basic
import Xv6.Fs.Mkfs
import Xv6.Fs.Sysfile

/-!
# Open files and the processes that hold them

`file.c`'s table of open files and the calls of `sysfile.c` over descriptors: `sys_open`,
`sys_read`, `sys_write`, `sys_close` and `sys_dup`.  A `struct file` refers to an entry of
the inode cache and holds one of its references; a process's descriptors refer to files
and hold one of theirs, and its current directory holds one more reference to an inode.

`Files` is the whole system: the file-system layer, the file table, and each process's
descriptors and current directory.  A call of process `p` runs the file-system layer with
`p`'s current directory as `cwd`; calls run one at a time (`Files.run`).  Pipes are left
out: a file here is `FD_NONE` or `FD_INODE`.
-/

namespace Xv6

/-- `NOFILE`: the descriptors of a process. -/
def nofile : Nat := 16

/-- `NFILE`: the open files of the system. -/
def nfile : Nat := 100

/-- `O_RDONLY`. -/
def oRdonly : Int32 := 0x000

/-- `O_WRONLY`. -/
def oWronly : Int32 := 0x001

/-- `O_RDWR`. -/
def oRdwr : Int32 := 0x002

/-- `O_CREATE`. -/
def oCreate : Int32 := 0x200

/-- `FD_NONE`, `FD_INODE`. -/
inductive FdType where
  | none
  | inode
  deriving DecidableEq

/-- `struct file`. -/
structure File where
  type : FdType
  ref : Nat
  readable : Bool
  writable : Bool
  ip : Fin ninode
  off : UInt32
  deriving DecidableEq

/-- A file-table entry as `fileinit` leaves it: zero. -/
def File.closed : File := ⟨.none, 0, false, false, ⟨0, ninode_pos⟩, 0⟩

/-- The system: the file-system layer, `ftable.file`, and each process's `ofile` and `cwd`.
The file-system layer's own `cwd` is that of the process running a call. -/
structure Files (Pid : Type) where
  fs : Fs
  ftable : Fin nfile → File
  ofile : Pid → Fin nofile → Option (Fin nfile)
  cwd : Pid → Fin ninode

/-- `max` of `filewrite`: the bytes one transaction writes at most. -/
def maxWrite : Nat := ((maxOpBlocks - 1 - 1 - 2) / 2) * 512

namespace Files

variable {Pid : Type}

/-- The file-system layer as process `p` sees it. -/
def fsOf (s : Files Pid) (p : Pid) : Fs := { s.fs with cwd := s.cwd p }

/-- Store file `f`. -/
def setFile (s : Files Pid) (f : Fin nfile) (x : File) : Files Pid :=
  { s with ftable := Function.update s.ftable f x }

@[simp] theorem fsOf_disk (s : Files Pid) (p : Pid) : (s.fsOf p).disk = s.fs.disk := rfl

@[simp] theorem fsOf_sb (s : Files Pid) (p : Pid) : (s.fsOf p).sb = s.fs.sb := rfl

@[simp] theorem fsOf_icache (s : Files Pid) (p : Pid) : (s.fsOf p).icache = s.fs.icache := rfl

@[simp] theorem fsOf_cwd (s : Files Pid) (p : Pid) : (s.fsOf p).cwd = s.cwd p := rfl

@[simp] theorem setFile_fs (s : Files Pid) (f : Fin nfile) (x : File) : (s.setFile f x).fs = s.fs := rfl

@[simp] theorem setFile_ftable (s : Files Pid) (f : Fin nfile) (x : File) :
    (s.setFile f x).ftable = Function.update s.ftable f x := rfl

@[simp] theorem setFile_ofile (s : Files Pid) (f : Fin nfile) (x : File) :
    (s.setFile f x).ofile = s.ofile := rfl

@[simp] theorem setFile_cwd (s : Files Pid) (f : Fin nfile) (x : File) : (s.setFile f x).cwd = s.cwd :=
  rfl

variable [DecidableEq Pid]

/-- The file-system layer after a call of `p`, with `p`'s current directory. -/
def withFs (s : Files Pid) (p : Pid) (fs : Fs) : Files Pid :=
  { s with fs := fs, cwd := Function.update s.cwd p fs.cwd }

/-- Store descriptor `fd` of process `p`. -/
def setOfile (s : Files Pid) (p : Pid) (fd : Fin nofile) (x : Option (Fin nfile)) : Files Pid :=
  { s with ofile := Function.update s.ofile p (Function.update (s.ofile p) fd x) }

@[simp] theorem withFs_fs (s : Files Pid) (p : Pid) (fs : Fs) : (s.withFs p fs).fs = fs := rfl

@[simp] theorem withFs_ftable (s : Files Pid) (p : Pid) (fs : Fs) :
    (s.withFs p fs).ftable = s.ftable := rfl

@[simp] theorem withFs_ofile (s : Files Pid) (p : Pid) (fs : Fs) :
    (s.withFs p fs).ofile = s.ofile := rfl

@[simp] theorem withFs_cwd (s : Files Pid) (p : Pid) (fs : Fs) :
    (s.withFs p fs).cwd = Function.update s.cwd p fs.cwd := rfl

@[simp] theorem setOfile_fs (s : Files Pid) (p : Pid) (fd : Fin nofile) (x : Option (Fin nfile)) :
    (s.setOfile p fd x).fs = s.fs := rfl

@[simp] theorem setOfile_ftable (s : Files Pid) (p : Pid) (fd : Fin nofile) (x : Option (Fin nfile)) :
    (s.setOfile p fd x).ftable = s.ftable := rfl

@[simp] theorem setOfile_ofile (s : Files Pid) (p : Pid) (fd : Fin nofile) (x : Option (Fin nfile)) :
    (s.setOfile p fd x).ofile = Function.update s.ofile p (Function.update (s.ofile p) fd x) := rfl

@[simp] theorem setOfile_cwd (s : Files Pid) (p : Pid) (fd : Fin nofile) (x : Option (Fin nfile)) :
    (s.setOfile p fd x).cwd = s.cwd := rfl

/-- `filealloc()`: the first file with no references, now with one. -/
def filealloc (s : Files Pid) : Option (Files Pid × Fin nfile) :=
  match (List.finRange nfile).find? (fun f => (s.ftable f).ref = 0) with
  | some f => some (s.setFile f { s.ftable f with ref := 1 }, f)
  | none => none

/-- `filedup(f)`. -/
def filedup (s : Files Pid) (f : Fin nfile) : Except Fault (Files Pid) :=
  if (s.ftable f).ref < 1 then .error (.panic "filedup")
  else pure (s.setFile f { s.ftable f with ref := (s.ftable f).ref + 1 })

/-- `fileclose(f)`: drop a reference; the last one releases the file's inode. -/
def fileclose (s : Files Pid) (f : Fin nfile) : Except Fault (Files Pid) :=
  let x := s.ftable f
  if x.ref < 1 then .error (.panic "fileclose")
  else if x.ref - 1 > 0 then pure (s.setFile f { x with ref := x.ref - 1 })
  else
    let s := s.setFile f { x with ref := 0, type := .none }
    if x.type = .inode then do
      let fs ← s.fs.iput x.ip
      pure { s with fs := fs }
    else pure s

/-- `fdalloc(f)`: the first free descriptor of `p`, now holding `f`. -/
def fdalloc (s : Files Pid) (p : Pid) (f : Fin nfile) : Option (Files Pid × Fin nofile) :=
  match (List.finRange nofile).find? (fun fd => s.ofile p fd = none) with
  | some fd => some (s.setOfile p fd (some f), fd)
  | none => none

/-- `argfd`: the descriptor `fd` of `p` and its file, if `0 <= fd < NOFILE` and it is open. -/
def argfd (s : Files Pid) (p : Pid) (fd : Int) : Option (Fin nofile × Fin nfile) :=
  if h : 0 ≤ fd ∧ fd < nofile then
    (s.ofile p ⟨fd.toNat, by omega⟩).map fun f => (⟨fd.toNat, by omega⟩, f)
  else none

/-- `sys_open(path, omode)`'s lookup: the inode to open, locked, or `none` for `-1`. -/
def openInode (fs : Fs) (path : List UInt8) (omode : Int32) :
    Except Fault (Fs × Option (Fin ninode)) :=
  if omode &&& oCreate ≠ 0 then fs.create path tFile 0 0
  else do
    let (fs, ip) ← fs.namei path
    match ip with
    | none => pure (fs, none)
    | some ip => do
      let fs ← fs.ilock ip
      if (fs.icache ip).din.type = tDir ∧ omode ≠ oRdonly then do
        let fs ← fs.iunlockput ip
        pure (fs, none)
      else pure (fs, some ip)

/-- `sys_open(path, omode)`. -/
def sysOpen (s : Files Pid) (p : Pid) (path : List UInt8) (omode : Int32) :
    Except Fault (Files Pid × Int) := do
  let (fs, ip) ← openInode (s.fsOf p) path omode
  let s := s.withFs p fs
  match ip with
  | none => return (s, -1)
  | some ip =>
    match s.filealloc with
    | none => do
      let fs ← s.fs.iunlockput ip
      return ({ s with fs := fs }, -1)
    | some (s, f) =>
      match s.fdalloc p f with
      | none => do
        let s ← s.fileclose f
        let fs ← s.fs.iunlockput ip
        return ({ s with fs := fs }, -1)
      | some (s, fd) => do
        let fs ← s.fs.iunlock ip
        let s : Files Pid := { s with fs := fs }
        let x : File := { s.ftable f with
          type := .inode
          ip := ip
          off := 0
          readable := omode &&& oWronly = 0
          writable := omode &&& oWronly ≠ 0 ∨ omode &&& oRdwr ≠ 0 }
        let s := s.setFile f x
        return (s, fd.val)

/-- `fileread(f, addr, n)`: the count read and the bytes. -/
def fileread (s : Files Pid) (f : Fin nfile) (n : Nat) : Except Fault (Files Pid × Int × List UInt8) :=
  let x := s.ftable f
  if !x.readable then pure (s, -1, [])
  else if x.type = .inode then do
    let fs ← s.fs.ilock x.ip
    let (fs, r, bytes) ← fs.readi x.ip x.off (UInt32.ofNat n)
    let x := if r > 0 then { x with off := x.off + UInt32.ofNat r.toNat } else x
    let fs ← fs.iunlock x.ip
    pure (({ s with fs := fs } : Files Pid).setFile f x, r, bytes)
  else .error (.panic "fileread")

/-- `filewrite`'s loop: `i` of the `n` bytes of `src` written, at most `maxWrite` a turn; the
final `i`. -/
def filewriteLoop (s : Files Pid) (f : Fin nfile) (src : List UInt8) (n : Nat) :
    (fuel i : Nat) → Except Fault (Files Pid × Nat)
  | 0, i => pure (s, i)
  | fuel + 1, i =>
    if i < n then do
      let n1 := min (n - i) maxWrite
      let x := s.ftable f
      let fs ← s.fs.ilock x.ip
      let (fs, r) ← fs.writei x.ip (src.drop i) x.off (UInt32.ofNat n1)
      let x := if r > 0 then { x with off := x.off + UInt32.ofNat r.toNat } else x
      let fs ← fs.iunlock x.ip
      let s := ({ s with fs := fs } : Files Pid).setFile f x
      if r < 0 then pure (s, i)
      else if r ≠ n1 then .error (.panic "short filewrite")
      else s.filewriteLoop f src n fuel (i + n1)
    else pure (s, i)

/-- `filewrite(f, addr, n)` of the bytes `src`. -/
def filewrite (s : Files Pid) (f : Fin nfile) (src : List UInt8) : Except Fault (Files Pid × Int) :=
  let x := s.ftable f
  if !x.writable then pure (s, -1)
  else if x.type = .inode then do
    -- each turn writes at least one byte, so `n` turns are enough
    let (s, i) ← s.filewriteLoop f src src.length src.length 0
    pure (s, if i = src.length then src.length else -1)
  else .error (.panic "filewrite")

/-- `sys_read(fd, p, n)`: the count, and the bytes copied to `p`. -/
def sysRead (s : Files Pid) (p : Pid) (fd n : Int) : Except Fault (Files Pid × Int × List UInt8) :=
  match s.argfd p fd with
  | none => pure (s, -1, [])
  | some (_, f) => if n < 0 then pure (s, -1, []) else s.fileread f n.toNat

/-- `sys_write(fd, p, n)` of the `n` bytes `src` at `p`. -/
def sysWrite (s : Files Pid) (p : Pid) (fd : Int) (src : List UInt8) : Except Fault (Files Pid × Int) :=
  match s.argfd p fd with
  | none => pure (s, -1)
  | some (_, f) => s.filewrite f src

/-- `sys_close(fd)`. -/
def sysClose (s : Files Pid) (p : Pid) (fd : Int) : Except Fault (Files Pid × Int) :=
  match s.argfd p fd with
  | none => pure (s, -1)
  | some (fd, f) => do
    let s ← (s.setOfile p fd none).fileclose f
    return (s, 0)

/-- `sys_dup(fd)`. -/
def sysDup (s : Files Pid) (p : Pid) (fd : Int) : Except Fault (Files Pid × Int) :=
  match s.argfd p fd with
  | none => pure (s, -1)
  | some (_, f) =>
    match s.fdalloc p f with
    | none => pure (s, -1)
    | some (s, fd) => do
      let s ← s.filedup f
      return (s, fd.val)

end Files

/-- A system call, with its arguments. -/
inductive FileCall where
  /-- A call of the file-system layer over paths. -/
  | fs (c : Fs.Call)
  | open (path : List UInt8) (omode : Int32)
  | read (fd n : Int)
  | write (fd : Int) (src : List UInt8)
  | close (fd : Int)
  | dup (fd : Int)

namespace Files

variable {Pid : Type} [DecidableEq Pid]

/-- Process `p` makes call `c`: what it returns. -/
def call (s : Files Pid) (p : Pid) : FileCall → Except Fault (Files Pid × Int)
  | .fs c => do
    let (fs, r) ← (s.fsOf p).call c
    return (s.withFs p fs, r)
  | .open path omode => s.sysOpen p path omode
  | .read fd n => do
    let (s, r, _) ← s.sysRead p fd n
    return (s, r)
  | .write fd src => s.sysWrite p fd src
  | .close fd => s.sysClose p fd
  | .dup fd => s.sysDup p fd

/-- Calls run one at a time, each by its process: the final state and what each returned. -/
def run (s : Files Pid) : List (Pid × FileCall) → Except Fault (Files Pid × List Int)
  | [] => pure (s, [])
  | (p, c) :: cs => do
    let (s, r) ← s.call p c
    let (s, rs) ← s.run cs
    return (s, r :: rs)

/-- The system with one process, as `userinit` leaves it: no open files, and the root as the
current directory. -/
def boot (d : Disk) (devsw : Fin ndev → Option DevSw) : Files Unit where
  fs := Fs.boot d devsw
  ftable := fun _ => File.closed
  ofile := fun _ _ => none
  cwd := fun _ => (Fs.boot d devsw).cwd

end Files

end Xv6
