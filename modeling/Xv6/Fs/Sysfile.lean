import Xv6.Fs.Dir

/-!
# File-system system calls

`sysfile.c`'s calls over directories: `sys_link`, `sys_unlink` (with `isdirempty`), `create`
and the calls built on it, `sys_mkdir` and `sys_mknod`, and `sys_chdir`.  Each returns what
the call returns to the user, `0` or `-1`; the string arguments are the paths' bytes.
`Fs.run` runs a list of them one at a time, as one process does.
-/

namespace Xv6

namespace Fs

/-- `ip->nlink += k; iupdate(ip)`. -/
def addLink (s : Fs) (ip : Fin ninode) (k : Int16) : Except Fault Fs :=
  (s.setDin ip { (s.icache ip).din with nlink := (s.icache ip).din.nlink + k }).iupdate ip

/-- `sys_link`'s `bad:` path: undo the link count and drop `ip`. -/
def linkBad (s : Fs) (ip : Fin ninode) : Except Fault (Fs × Int) := do
  let s ← s.ilock ip
  let s ← s.addLink ip (-1)
  let s ← s.iunlockput ip
  return (s, -1)

/-- `sys_link(old, new)`: create the path `new` as a link to the same inode as `old`. -/
def sysLink (s : Fs) (old new : List UInt8) : Except Fault (Fs × Int) := do
  let (s, ip) ← s.namei old
  match ip with
  | none => return (s, -1)
  | some ip => do
    let s ← s.ilock ip
    if (s.icache ip).din.type = tDir then do
      let s ← s.iunlockput ip
      return (s, -1)
    else do
      let s ← s.addLink ip 1
      let s ← s.iunlock ip
      let (s, dp, name) ← s.nameiparent new
      match dp with
      | none => s.linkBad ip
      | some dp => do
        let s ← s.ilock dp
        if (s.icache dp).dev ≠ (s.icache ip).dev then do
          let s ← s.iunlockput dp
          s.linkBad ip
        else do
          let (s, r) ← s.dirlink dp name (s.icache ip).inum
          if r < 0 then do
            let s ← s.iunlockput dp
            s.linkBad ip
          else do
            let s ← s.iunlockput dp
            let s ← s.iput ip
            return (s, 0)

/-- `isdirempty`'s loop over the entries after `.` and `..`. -/
def isdiremptyFrom (s : Fs) (dp : Fin ninode) : List Nat → Except Fault (Fs × Bool)
  | [] => pure (s, true)
  | off :: offs => do
    let (s, r, bytes) ← s.readi dp (UInt32.ofNat off) (UInt32.ofNat direntSize)
    if r ≠ direntSize then .error (.panic "isdirempty: readi") else
    if (Dirent.ofList bytes).inum ≠ 0 then pure (s, false) else s.isdiremptyFrom dp offs

/-- `isdirempty(dp)`: is the directory empty except for `.` and `..`? -/
def isdirempty (s : Fs) (dp : Fin ninode) : Except Fault (Fs × Bool) :=
  s.isdiremptyFrom dp ((dirOffsets (s.icache dp).din.size).drop 2)

/-- The all-zero `struct dirent` that `sys_unlink` writes over the entry. -/
def Dirent.zero : Dirent := ⟨0, fun _ => 0⟩

/-- `sys_unlink`'s `bad:` path. -/
def unlinkBad (s : Fs) (dp : Fin ninode) : Except Fault (Fs × Int) := do
  let s ← s.iunlockput dp
  return (s, -1)

/-- `sys_unlink(path)`. -/
def sysUnlink (s : Fs) (path : List UInt8) : Except Fault (Fs × Int) := do
  let (s, dp, name) ← s.nameiparent path
  match dp with
  | none => return (s, -1)
  | some dp => do
    let s ← s.ilock dp
    -- Cannot unlink "." or "..".
    if namecmp name dotName = 0 ∨ namecmp name dotDotName = 0 then s.unlinkBad dp else
    let (s, found) ← s.dirlookup dp name
    match found with
    | none => s.unlinkBad dp
    | some (ip, off) => do
      let s ← s.ilock ip
      if (s.icache ip).din.nlink < 1 then .error (.panic "unlink: nlink < 1") else
      let (s, empty) ← if (s.icache ip).din.type = tDir then s.isdirempty ip else pure (s, true)
      if !empty then do
        let s ← s.iunlockput ip
        s.unlinkBad dp
      else do
        let (s, r) ← s.writei dp Dirent.zero.toList (UInt32.ofNat off) (UInt32.ofNat direntSize)
        if r ≠ direntSize then .error (.panic "unlink: writei") else
        let s ← if (s.icache ip).din.type = tDir then s.addLink dp (-1) else pure s
        let s ← s.iunlockput dp
        let s ← s.addLink ip (-1)
        let s ← s.iunlockput ip
        return (s, 0)

/-- `create`'s `.` and `..` entries of a new directory `ip` in `dp`. -/
def createDots (s : Fs) (ip dp : Fin ninode) : Except Fault Fs := do
  let s ← s.addLink dp 1  -- for ".."
  -- No ip->nlink++ for ".": avoid cyclic ref count.
  let (s, r) ← s.dirlink ip dotName (s.icache ip).inum
  if r < 0 then .error (.panic "create dots") else
  let (s, r) ← s.dirlink ip dotDotName (s.icache dp).inum
  if r < 0 then .error (.panic "create dots") else pure s

/-- `create(path, type, major, minor)`: the new inode, or an existing file for `T_FILE`,
locked; `none` for `0`. -/
def create (s : Fs) (path : List UInt8) (type major minor : Int16) :
    Except Fault (Fs × Option (Fin ninode)) := do
  let (s, dp, name) ← s.nameiparent path
  match dp with
  | none => return (s, none)
  | some dp => do
    let s ← s.ilock dp
    let (s, found) ← s.dirlookup dp name
    match found with
    | some (ip, _) => do
      let s ← s.iunlockput dp
      let s ← s.ilock ip
      if type = tFile ∧ (s.icache ip).din.type = tFile then return (s, some ip) else do
      let s ← s.iunlockput ip
      return (s, none)
    | none => do
      -- `ialloc` panics rather than return 0, so `panic("create: ialloc")` is never reached
      let (s, ip) ← s.ialloc (s.icache dp).dev type
      let s ← s.ilock ip
      let s ← (s.setDin ip { (s.icache ip).din with major := major, minor := minor, nlink := 1 }).iupdate ip
      let s ← if type = tDir then s.createDots ip dp else pure s
      let (s, r) ← s.dirlink dp name (s.icache ip).inum
      if r < 0 then .error (.panic "create: dirlink") else
      let s ← s.iunlockput dp
      return (s, some ip)

/-- `sys_mkdir(path)`. -/
def sysMkdir (s : Fs) (path : List UInt8) : Except Fault (Fs × Int) := do
  let (s, ip) ← s.create path tDir 0 0
  match ip with
  | none => return (s, -1)
  | some ip => do
    let s ← s.iunlockput ip
    return (s, 0)

/-- `sys_mknod(path, major, minor)`. -/
def sysMknod (s : Fs) (path : List UInt8) (major minor : Int16) : Except Fault (Fs × Int) := do
  let (s, ip) ← s.create path tDev major minor
  match ip with
  | none => return (s, -1)
  | some ip => do
    let s ← s.iunlockput ip
    return (s, 0)

/-- `sys_chdir(path)`. -/
def sysChdir (s : Fs) (path : List UInt8) : Except Fault (Fs × Int) := do
  let (s, ip) ← s.namei path
  match ip with
  | none => return (s, -1)
  | some ip => do
    let s ← s.ilock ip
    if (s.icache ip).din.type ≠ tDir then do
      let s ← s.iunlockput ip
      return (s, -1)
    else do
      let s ← s.iunlock ip
      let s ← s.iput s.cwd
      return ({ s with cwd := ip }, 0)

/-- A call of this layer, with its arguments. -/
inductive Call where
  | link (old new : List UInt8)
  | unlink (path : List UInt8)
  | mkdir (path : List UInt8)
  | mknod (path : List UInt8) (major minor : Int16)
  | chdir (path : List UInt8)

/-- Run one call. -/
def call (s : Fs) : Call → Except Fault (Fs × Int)
  | .link old new => s.sysLink old new
  | .unlink path => s.sysUnlink path
  | .mkdir path => s.sysMkdir path
  | .mknod path major minor => s.sysMknod path major minor
  | .chdir path => s.sysChdir path

/-- Run calls one at a time: the final state and what each call returned. -/
def run (s : Fs) : List Call → Except Fault (Fs × List Int)
  | [] => pure (s, [])
  | c :: cs => do
    let (s, r) ← s.call c
    let (s, rs) ← s.run cs
    return (s, r :: rs)

end Fs

end Xv6
