import Mathlib.Data.List.TakeWhile
import Xv6.Fs.Inode

/-!
# Directories and path names

`fs.c`'s directory layer: `dirlookup` scans a directory's entries for a name, `dirlink`
adds an entry after checking that the name is absent, and `namex` walks a path one element
at a time (`skipelem`), locking one directory at a time.

A path is the list of its bytes before the terminating NUL, and a name the bytes
`skipelem` leaves in `name`: the element cut to `DIRSIZ` bytes (a shorter one ends at its
NUL, which here is the list's end).

* `dirlookup_self_deadlock`: `dirlink` into a directory whose first entry matching the
  name names the directory itself (its `.` entry) sleeps for ever on the directory's own
  lock, which the caller holds;
* `skipelem_length`: each element `skipelem` takes shortens the path, so `namex`'s loop
  runs at most `path.length` turns.
-/

namespace Xv6

/-- `'/'`. -/
def slash : UInt8 := 47

/-- `strncmp(p, q, n)`, with the end of a list as the string's NUL. -/
def strncmp : List UInt8 → List UInt8 → Nat → Int
  | _, _, 0 => 0
  | p :: ps, q :: qs, n + 1 => if p ≠ 0 ∧ p = q then strncmp ps qs n else (p.toNat : Int) - q.toNat
  | p, q, _ + 1 => ((p.headD 0).toNat : Int) - (q.headD 0).toNat

/-- `namecmp(s, t)`. -/
def namecmp (s t : List UInt8) : Int := strncmp s t dirSiz

/-- `strncpy(de.name, name, DIRSIZ)`: the name's bytes up to its NUL, padded with zeros. -/
def strncpy (src : List UInt8) : Fin dirSiz → UInt8 := fun k =>
  (src.takeWhile (· ≠ 0)).getD k.val 0

/-- `"."`. -/
def dotName : List UInt8 := [46]

/-- `".."`. -/
def dotDotName : List UInt8 := [46, 46]

/-- The offsets `for(off = 0; off < dp->size; off += sizeof(de))` visits. -/
def dirOffsets (size : UInt32) : List Nat :=
  (List.range ((size.toNat + direntSize - 1) / direntSize)).map (direntSize * ·)

/-- `skipelem(path, name)`: the rest of the path after its next element, and the element
as `name` holds it, or `none` when only slashes remain. -/
def skipelem (path : List UInt8) : Option (List UInt8 × List UInt8) :=
  match path.dropWhile (· = slash) with
  | [] => none
  | p =>
    let elem := p.takeWhile (· ≠ slash)
    some ((p.drop elem.length).dropWhile (· = slash), elem.take dirSiz)

namespace Fs

/-- `dirlookup`'s loop over the entry offsets `offs`. -/
def dirlookupFrom (s : Fs) (dp : Fin ninode) (name : List UInt8) :
    List Nat → Except Fault (Fs × Option (Fin ninode × Nat))
  | [] => pure (s, none)
  | off :: offs => do
    let (s, r, bytes) ← s.readi dp (UInt32.ofNat off) (UInt32.ofNat direntSize)
    if r ≠ direntSize then .error (.panic "dirlookup read") else
    let de := Dirent.ofList bytes
    if de.inum = 0 then s.dirlookupFrom dp name offs
    else if namecmp name (List.ofFn de.name) = 0 then do
      -- entry matches path element
      let (s, ip) ← s.iget (s.icache dp).dev de.inum.toNat
      return (s, some (ip, off))
    else s.dirlookupFrom dp name offs

/-- `dirlookup(dp, name, &off)`: the entry found, with its offset. -/
def dirlookup (s : Fs) (dp : Fin ninode) (name : List UInt8) :
    Except Fault (Fs × Option (Fin ninode × Nat)) :=
  if (s.icache dp).din.type ≠ tDir then .error (.panic "dirlookup not DIR")
  else s.dirlookupFrom dp name (dirOffsets (s.icache dp).din.size)

/-- `dirlink`'s search for an empty entry: its offset, or where the loop stops, `last`. -/
def emptySlot (s : Fs) (dp : Fin ninode) (last : Nat) : List Nat → Except Fault (Fs × Nat)
  | [] => pure (s, last)
  | off :: offs => do
    let (s, r, bytes) ← s.readi dp (UInt32.ofNat off) (UInt32.ofNat direntSize)
    if r ≠ direntSize then .error (.panic "dirlink read") else
    if (Dirent.ofList bytes).inum = 0 then pure (s, off) else s.emptySlot dp last offs

/-- `dirlink(dp, name, inum)`: `0`, or `-1` if the name is present. -/
def dirlink (s : Fs) (dp : Fin ninode) (name : List UInt8) (inum : Nat) : Except Fault (Fs × Int) := do
  -- Check that name is not present.
  let (s, found) ← s.dirlookup dp name
  match found with
  | some (ip, _) => do
    let s ← s.iput ip
    return (s, -1)
  | none => do
    let offs := dirOffsets (s.icache dp).din.size
    let (s, off) ← s.emptySlot dp (direntSize * offs.length) offs
    let de : Dirent := { inum := UInt16.ofNat inum, name := strncpy name }
    let (s, r) ← s.writei dp de.toList (UInt32.ofNat off) (UInt32.ofNat direntSize)
    if r ≠ direntSize then .error (.panic "dirlink") else return (s, 0)

/-- `namex`'s loop: `ip` the directory reached, referenced and unlocked, `path` what is
left, `name` the last element taken. -/
def namexLoop (s : Fs) (nameiparent : Bool) :
    (fuel : Nat) → (path : List UInt8) → (ip : Fin ninode) → (name : List UInt8) →
    Except Fault (Fs × Option (Fin ninode) × List UInt8)
  | fuel + 1, path, ip, name =>
    match skipelem path with
    | some (path, name) => do
      let s ← s.ilock ip
      if (s.icache ip).din.type ≠ tDir then do
        let s ← s.iunlockput ip
        return (s, none, name)
      else if nameiparent ∧ path = [] then do
        -- Stop one level early.
        let s ← s.iunlock ip
        return (s, some ip, name)
      else do
        let (s, next) ← s.dirlookup ip name
        match next with
        | none => do
          let s ← s.iunlockput ip
          return (s, none, name)
        | some (next, _) => do
          let s ← s.iunlockput ip
          s.namexLoop nameiparent fuel path next name
    | none => if nameiparent then do
        let s ← s.iput ip
        return (s, none, name)
      else return (s, some ip, name)
  -- unreachable: each turn shortens the path (`skipelem_length`)
  | 0, _, ip, name => if nameiparent then do
      let s ← s.iput ip
      return (s, none, name)
    else return (s, some ip, name)

/-- `namex(path, nameiparent, name)`: the inode reached, referenced and unlocked, and the
last element taken. -/
def namex (s : Fs) (path : List UInt8) (nameiparent : Bool) :
    Except Fault (Fs × Option (Fin ninode) × List UInt8) := do
  let (s, ip) ← if path.head? = some slash then s.iget rootDev rootIno
    else pure (s.idup s.cwd, s.cwd)
  s.namexLoop nameiparent (path.length + 1) path ip []

/-- `namei(path)`. -/
def namei (s : Fs) (path : List UInt8) : Except Fault (Fs × Option (Fin ninode)) := do
  let (s, ip, _) ← s.namex path false
  return (s, ip)

/-- `nameiparent(path, name)`: the parent directory, and the last element in `name`. -/
def nameiparent (s : Fs) (path : List UInt8) : Except Fault (Fs × Option (Fin ninode) × List UInt8) :=
  s.namex path true

end Fs

/-! ## Lemmas -/

theorem skipelem_length {path rest name : List UInt8} (h : skipelem path = some (rest, name)) :
    rest.length < path.length := by
  unfold skipelem at h
  generalize hp : path.dropWhile (· = slash) = p at h
  cases p with
  | nil => cases h
  | cons c cs =>
    obtain ⟨rfl, -⟩ := Prod.mk.inj (Option.some.inj h)
    -- the element starts at the first byte that is not a slash, so it is not empty
    have hc : ¬c = slash := by
      have hne : path.dropWhile (· = slash) ≠ [] := by
        rw [hp]
        exact List.cons_ne_nil c cs
      simpa [hp] using List.head_dropWhile_not _ hne
    have helem : 0 < ((c :: cs).takeWhile (· ≠ slash)).length := by
      simp [hc]
    have hle : (c :: cs).length ≤ path.length := hp ▸ List.length_dropWhile_le _ path
    calc _ ≤ ((c :: cs).drop ((c :: cs).takeWhile (· ≠ slash)).length).length :=
          List.length_dropWhile_le _ _
      _ < (c :: cs).length := by rw [List.length_drop, List.length_cons] at *; omega
      _ ≤ path.length := hle

theorem dirOffsets_of_pos {size : UInt32} (h : 0 < size.toNat) :
    dirOffsets size = 0 :: (dirOffsets size).tail := by
  have hlen : 0 < (size.toNat + direntSize - 1) / direntSize := by
    unfold direntSize
    omega
  obtain ⟨k, hk⟩ := Nat.exists_eq_add_of_lt hlen
  simp only [dirOffsets, hk, List.range_succ_eq_map, List.map_cons, List.tail_cons, mul_zero]

namespace Fs

/-- `dirlookup` whose first entry is in use and matches `name`: the entry's inode, through
`iget`. -/
theorem dirlookup_first {s s1 : Fs} {dp ip : Fin ninode} {name bytes : List UInt8}
    (isDir : (s.icache dp).din.type = tDir) (nonempty : 0 < (s.icache dp).din.size.toNat)
    (read : s.readi dp (UInt32.ofNat 0) (UInt32.ofNat direntSize) = .ok (s1, direntSize, bytes))
    (inUse : (Dirent.ofList bytes).inum ≠ 0)
    (named : namecmp name (List.ofFn (Dirent.ofList bytes).name) = 0)
    (found : s1.cached (s1.icache dp).dev (Dirent.ofList bytes).inum.toNat = some ip) :
    s.dirlookup dp name = .ok (s1.addRef ip 1, some (ip, 0)) := by
  rw [dirlookup, if_neg (not_not.mpr isDir), dirOffsets_of_pos nonempty, dirlookupFrom, read]
  simp only [except_ok_bind, ne_eq, not_true_eq_false, if_false, inUse, named, if_true,
    iget_cached found]
  rfl

/-- `dirlink`'s check for a present name: when the entry it finds is the directory itself,
whose lock the caller holds, `iput` sleeps on that lock for ever. -/
theorem dirlookup_self_deadlock {s s' : Fs} {dp : Fin ninode} {name : List UInt8} {off inum : Nat}
    (found : s.dirlookup dp name = .ok (s', some (dp, off)))
    (held : (s'.icache dp).locked = true) :
    s.dirlink dp name inum = .error .selfDeadlock := by
  simp only [dirlink, found, except_ok_bind, iput_locked held, except_error_bind]

end Fs

end Xv6
