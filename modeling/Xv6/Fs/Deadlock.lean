import Xv6.Fs.Sysfile
import Xv6.Fs.Mkfs

/-!
# Linking a name onto `.`

`dirlink` checks that the name is absent with `dirlookup`, and drops what it found with
`iput`, which takes the found inode's sleep-lock.  Its callers hold the directory's lock.
When the name is `.`, the entry found is the directory's own `.` entry, `iget` returns the
directory's own cache entry, and `iput` sleeps on the lock its caller holds:
`dirlink_dot_deadlocks`.  `sys_unlink` refuses `.` and `..` before its lookup; `sys_link`
does not, so `link("a", "/.")` reaches this path (`link_onto_dot_deadlocks`).
-/

namespace Xv6

namespace Fs

/-- `dirlink(dp, ".", inum)` on a locked directory whose first entry is its `.` entry, and
whose inode the cache holds once: the process sleeps for ever on `dp`'s own lock. -/
theorem dirlink_dot_deadlocks {s s1 : Fs} {dp : Fin ninode} {bytes : List UInt8} (inum : Nat)
    (isDir : (s.icache dp).din.type = tDir) (nonempty : 0 < (s.icache dp).din.size.toNat)
    (read : s.readi dp (UInt32.ofNat 0) (UInt32.ofNat direntSize) = .ok (s1, direntSize, bytes))
    (dot : Dirent.ofList bytes = ⟨UInt16.ofNat (s1.icache dp).inum, strncpy dotName⟩)
    (inumRange : 0 < (s1.icache dp).inum ∧ (s1.icache dp).inum < 2 ^ 16)
    (referenced : 0 < (s1.icache dp).ref) (held : (s1.icache dp).locked = true)
    (unique : ∀ ip', 0 < (s1.icache ip').ref ∧ (s1.icache ip').dev = (s1.icache dp).dev ∧
      (s1.icache ip').inum = (s1.icache dp).inum → ip' = dp) :
    s.dirlink dp dotName inum = .error .selfDeadlock := by
  have inumOf : (UInt16.ofNat (s1.icache dp).inum).toNat = (s1.icache dp).inum := by
    exact UInt16.toNat_ofNat_of_lt' inumRange.2
  have inUse : (Dirent.ofList bytes).inum ≠ 0 := by
    rw [dot]
    intro h
    have := congrArg UInt16.toNat h
    rw [inumOf] at this
    exact absurd this (Nat.pos_iff_ne_zero.mp inumRange.1)
  have named : namecmp dotName (List.ofFn (Dirent.ofList bytes).name) = 0 := by
    rw [dot]
    dsimp only
    decide
  have found : s1.cached (s1.icache dp).dev (Dirent.ofList bytes).inum.toNat = some dp := by
    rw [dot]
    dsimp only
    rw [inumOf]
    exact cached_of_unique ⟨referenced, rfl, rfl⟩ unique
  apply dirlookup_self_deadlock (dirlookup_first isDir nonempty read inUse named found)
  rw [addRef_icache_locked]
  exact held

end Fs

/-- On the image `mkfs fs.img a` writes, booted with no driver registered, a process in the
root directory calls `link("a", "/.")`.  `nameiparent("/.")` returns the root with the name
`.`, `sys_link` locks it, `dirlink` finds the root's `.` entry, and `iput` sleeps on the
root's lock for ever. -/
theorem link_onto_dot_deadlocks :
    (Fs.boot Mkfs.oneFileImage fun _ => none).sysLink [97] [slash, 46] = .error .selfDeadlock := by
  have run : (Prod.snd <$> (Fs.boot Mkfs.oneFileImage fun _ => none).sysLink [97] [slash, 46]) =
      .error .selfDeadlock := by
    decide +kernel
  exact except_eq_error_of_map run

end Xv6
