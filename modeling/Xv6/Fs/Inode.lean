import Xv6.Fs.Bmap

/-!
# The inode cache and inode locks

`fs.c`'s in-memory inodes: `iget` finds or recycles a cache entry, `idup` and `iput` count
references, `ilock` takes an inode's sleep-lock and reads it from disk when the entry is
not `valid`, `iunlock` releases it, and `iput` of the last reference to an inode with no
links frees it on disk.  `ialloc` marks the first free disk inode allocated.

The sleep-lock is `acquiresleep`: with one call running at a time, a lock found taken is
held by the caller itself, which then sleeps for ever (`Fault.selfDeadlock`).

* `iget_cached`: when an entry with references caches `(dev, inum)`, `iget` returns the
  first such entry with one more reference;
* `iput_locked`: `iput` of an inode whose lock the caller holds never returns.
-/

namespace Xv6

namespace Fs

/-- `acquiresleep(&ip->lock)`. -/
def acquiresleep (s : Fs) (ip : Fin ninode) : Except Fault Fs :=
  if (s.icache ip).locked then .error .selfDeadlock
  else pure (s.setInode ip { s.icache ip with locked := true })

/-- `releasesleep(&ip->lock)`. -/
def releasesleep (s : Fs) (ip : Fin ninode) : Fs :=
  s.setInode ip { s.icache ip with locked := false }

/-- `ip->ref += k`, under `icache.lock`. -/
def addRef (s : Fs) (ip : Fin ninode) (k : Int) : Fs :=
  s.setInode ip { s.icache ip with ref := (s.icache ip).ref + k }

/-- The entry `iget(dev, inum)` finds in the cache: one with references caching the inode. -/
def cached (s : Fs) (dev inum : Nat) : Option (Fin ninode) :=
  (List.finRange ninode).find? fun ip =>
    decide (0 < (s.icache ip).ref ∧ (s.icache ip).dev = dev ∧ (s.icache ip).inum = inum)

/-- The empty entry `iget`'s scan remembers: the first with no references. -/
def firstEmpty (s : Fs) : Option (Fin ninode) :=
  (List.finRange ninode).find? fun ip => decide ((s.icache ip).ref = 0)

/-- `iget(dev, inum)`: the cached entry with one more reference, or the first empty entry
recycled for the inode, not `valid`. -/
def iget (s : Fs) (dev inum : Nat) : Except Fault (Fs × Fin ninode) :=
  match s.cached dev inum with
  | some ip => pure (s.addRef ip 1, ip)
  | none =>
    match s.firstEmpty with
    | some ip =>
        pure (s.setInode ip { s.icache ip with dev := dev, inum := inum, ref := 1, valid := false },
          ip)
    | none => .error (.panic "iget: no inodes")

/-- `idup(ip)`. -/
def idup (s : Fs) (ip : Fin ninode) : Fs := s.addRef ip 1

/-- `ilock(ip)`: take the sleep-lock, and read the inode from disk if the entry is not
`valid`. -/
def ilock (s : Fs) (ip : Fin ninode) : Except Fault Fs :=
  if (s.icache ip).ref < 1 then .error (.panic "ilock") else do
  let s ← s.acquiresleep ip
  let i := s.icache ip
  if i.valid then pure s else do
  let bp ← s.bread (iblock i.inum s.sb)
  let d := bp.dinode i.inum
  let s := s.setInode ip { i with din := d, valid := true }
  if d.type = 0 then .error (.panic "ilock: no type") else pure s

/-- `iunlock(ip)`: the caller must hold the lock. -/
def iunlock (s : Fs) (ip : Fin ninode) : Except Fault Fs :=
  if !(s.icache ip).locked ∨ (s.icache ip).ref < 1 then .error (.panic "iunlock")
  else pure (s.releasesleep ip)

/-- `iput(ip)`: drop a reference; the last reference to an inode with no links frees it. -/
def iput (s : Fs) (ip : Fin ninode) : Except Fault Fs := do
  let s ← s.acquiresleep ip
  let i := s.icache ip
  let s ← if i.valid ∧ i.din.nlink = 0 ∧ i.ref = 1 then do
      -- inode has no links and no other references: truncate and free.
      let s ← s.itrunc ip
      let s ← (s.setDin ip { (s.icache ip).din with type := 0 }).iupdate ip
      pure (s.setInode ip { s.icache ip with valid := false })
    else pure s
  return (s.releasesleep ip).addRef ip (-1)

/-- `iunlockput(ip)`. -/
def iunlockput (s : Fs) (ip : Fin ninode) : Except Fault Fs := do
  let s ← s.iunlock ip
  s.iput ip

/-- The disk inode `memset` to zero. -/
def DInode.empty : DInode := ⟨0, 0, 0, 0, 0, fun _ => 0⟩

/-- `ialloc`'s loop from inode number `inum` on. -/
def iallocFrom (s : Fs) (dev : Nat) (type : Int16) : List Nat → Except Fault (Fs × Fin ninode)
  | [] => .error (.panic "ialloc: no inodes")
  | inum :: rest => do
      let bp ← s.bread (iblock inum s.sb)
      if (bp.dinode inum).type = 0 then
        -- a free inode: mark it allocated on the disk
        let s := s.logWrite (iblock inum s.sb) (bp.setDinode inum { DInode.empty with type := type })
        s.iget dev inum
      else s.iallocFrom dev type rest

/-- `ialloc(dev, type)`: allocate the first free inode from `1` below `sb.ninodes`. -/
def ialloc (s : Fs) (dev : Nat) (type : Int16) : Except Fault (Fs × Fin ninode) :=
  s.iallocFrom dev type (List.range' 1 (s.sb.ninodes - 1))

/-! ## Lemmas -/

@[simp] theorem addRef_disk (s : Fs) (ip : Fin ninode) (k : Int) : (s.addRef ip k).disk = s.disk :=
  rfl

@[simp] theorem releasesleep_disk (s : Fs) (ip : Fin ninode) : (s.releasesleep ip).disk = s.disk :=
  rfl

theorem acquiresleep_of_locked {s : Fs} {ip : Fin ninode} (h : (s.icache ip).locked = true) :
    s.acquiresleep ip = .error .selfDeadlock := by
  simp only [acquiresleep, h, if_true]

/-- `iput` starts by taking the inode's sleep-lock: if the caller holds it, it sleeps on
it for ever. -/
theorem iput_locked {s : Fs} {ip : Fin ninode} (h : (s.icache ip).locked = true) :
    s.iput ip = .error .selfDeadlock := by
  simp only [iput, acquiresleep_of_locked h, except_error_bind]

theorem cached_spec {s : Fs} {dev inum : Nat} {ip : Fin ninode} (h : s.cached dev inum = some ip) :
    0 < (s.icache ip).ref ∧ (s.icache ip).dev = dev ∧ (s.icache ip).inum = inum := by
  simpa using List.find?_some h

/-- An entry with references that caches `(dev, inum)` and is the only one: `iget` finds it. -/
theorem cached_of_unique {s : Fs} {dev inum : Nat} {ip : Fin ninode}
    (hip : 0 < (s.icache ip).ref ∧ (s.icache ip).dev = dev ∧ (s.icache ip).inum = inum)
    (unique : ∀ ip', 0 < (s.icache ip').ref ∧ (s.icache ip').dev = dev ∧
      (s.icache ip').inum = inum → ip' = ip) :
    s.cached dev inum = some ip := by
  have hsome : (s.cached dev inum).isSome := by
    rw [cached, List.find?_isSome]
    exact ⟨ip, List.mem_finRange ip, by simpa using hip⟩
  obtain ⟨ip', hfind⟩ := Option.isSome_iff_exists.mp hsome
  rw [hfind, unique ip' (cached_spec hfind)]

/-- `iget` of a cached inode returns its entry with one more reference. -/
theorem iget_cached {s : Fs} {dev inum : Nat} {ip : Fin ninode} (h : s.cached dev inum = some ip) :
    s.iget dev inum = .ok (s.addRef ip 1, ip) := by
  simp only [iget, h]
  rfl

/-- `ilock` of an entry with references, unlocked and `valid`: it takes the lock and reads
nothing. -/
theorem ilock_valid {s : Fs} {ip : Fin ninode} (ref : 1 ≤ (s.icache ip).ref)
    (unlocked : (s.icache ip).locked = false) (valid : (s.icache ip).valid = true) :
    s.ilock ip = .ok (s.setInode ip { s.icache ip with locked := true }) := by
  have held : ¬ (s.icache ip).ref < 1 := by omega
  simp only [ilock, if_neg held, acquiresleep, unlocked, Bool.false_eq_true, if_false, except_pure,
    except_ok_bind, setInode_icache, Function.update_self, valid, if_true]

/-- `iunlock` of an entry the caller holds locked, with references: it releases the lock. -/
theorem iunlock_locked {s : Fs} {ip : Fin ninode} (locked : (s.icache ip).locked = true)
    (ref : 1 ≤ (s.icache ip).ref) : s.iunlock ip = .ok (s.releasesleep ip) := by
  have held : ¬ ((!(s.icache ip).locked) = true ∨ (s.icache ip).ref < 1) := by
    rw [locked, Bool.not_true]
    simp only [Bool.false_eq_true, false_or, not_lt]
    exact ref
  rw [iunlock, if_neg held]
  rfl

@[simp] theorem addRef_icache_locked (s : Fs) (ip ip' : Fin ninode) (k : Int) :
    ((s.addRef ip k).icache ip').locked = (s.icache ip').locked := by
  by_cases h : ip' = ip
  · subst h
    simp [addRef]
  · simp [addRef, Function.update_of_ne h]

end Fs

end Xv6
