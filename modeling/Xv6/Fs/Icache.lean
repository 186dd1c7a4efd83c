import Xv6.Lib.Scan
import Xv6.Fs.Mkfs

/-!
# What the inode-cache routines do to the entries

`fs.c`'s routines that run under an entry's sleep-lock (`ilock`'s read of the inode,
`itrunc`, `iupdate`, the free in `iput`) change no entry's inode, count or lock
(`KeepsEntries`); `iget`, `idup` and `iput`'s `ip->ref--` change one entry's count, and
`acquiresleep` and `releasesleep` one entry's lock.  This module says so once per routine,
for the interleaved processes of `Xv6.Fs.IcacheStep`:

* `iput_eq`: `iput` is its part under the sleep-lock (`iputBody`), then `ip->ref--`; that
  part frees the inode exactly when the entry is valid, the inode has no links and
  `ref = 1` (`iputBody_eq`), and keeps every entry's inode, count and lock (`iputBody_ok`);
* `acquiresleep_ok`, `ilock_ok`, `iunlock_ok`: what a call that returns found and changed;
* `iget_ok`, `iget_error`: `iget` returns the cached entry with one more reference, or
  recycles the first entry with no references (`firstEmpty_eq_some_iff`), or panics
  `iget: no inodes` when there is none;
* `Fs.UniqueRefs`: no two entries with references cache one inode.  Under it `iget` of a
  cached inode returns the entry that caches it (`UniqueRefs.iget_eq`), and the routines
  keep it (`UniqueRefs.of_keeps`, `UniqueRefs.addRef`, `UniqueRefs.recycle`).
-/

namespace Xv6

namespace Fs

/-- What a routine that works under an entry's sleep-lock keeps of every cache entry: the
inode it names, its count and its lock. -/
structure KeepsEntries (s s' : Fs) : Prop where
  dev : ∀ ip, (s'.icache ip).dev = (s.icache ip).dev
  inum : ∀ ip, (s'.icache ip).inum = (s.icache ip).inum
  ref : ∀ ip, (s'.icache ip).ref = (s.icache ip).ref
  locked : ∀ ip, (s'.icache ip).locked = (s.icache ip).locked

namespace KeepsEntries

theorem refl (s : Fs) : s.KeepsEntries s :=
  ⟨fun _ => rfl, fun _ => rfl, fun _ => rfl, fun _ => rfl⟩

theorem trans {s s' s'' : Fs} (h : s.KeepsEntries s') (h' : s'.KeepsEntries s'') :
    s.KeepsEntries s'' :=
  ⟨fun ip => (h'.dev ip).trans (h.dev ip), fun ip => (h'.inum ip).trans (h.inum ip),
    fun ip => (h'.ref ip).trans (h.ref ip), fun ip => (h'.locked ip).trans (h.locked ip)⟩

theorem of_icache {s s' : Fs} (h : s'.icache = s.icache) : s.KeepsEntries s' :=
  ⟨fun ip => by rw [h], fun ip => by rw [h], fun ip => by rw [h], fun ip => by rw [h]⟩

end KeepsEntries

/-- Storing an entry changes a field of no other entry, nor of it when the new value has the
field it had. -/
theorem setInode_apply {α : Type} {s : Fs} {ip : Fin ninode} (x : Inode) (f : Inode → α)
    (hx : f x = f (s.icache ip)) (j : Fin ninode) : f ((s.setInode ip x).icache j) = f (s.icache j) := by
  by_cases same : j = ip
  · subst same
    simpa using hx
  · simp [Function.update_of_ne same]

/-- Taking or releasing an entry's lock changes no field that does not see the lock. -/
theorem setLocked_apply {α : Type} (s : Fs) (ip : Fin ninode) (b : Bool) (f : Inode → α)
    (hf : ∀ x : Inode, f { x with locked := b } = f x) (j : Fin ninode) :
    f ((s.setInode ip { s.icache ip with locked := b }).icache j) = f (s.icache j) :=
  setInode_apply _ f (hf _) j

theorem keepsEntries_setInode {s : Fs} {ip : Fin ninode} {x : Inode}
    (dev : x.dev = (s.icache ip).dev) (inum : x.inum = (s.icache ip).inum)
    (ref : x.ref = (s.icache ip).ref) (locked : x.locked = (s.icache ip).locked) :
    s.KeepsEntries (s.setInode ip x) :=
  ⟨setInode_apply x Inode.dev dev, setInode_apply x Inode.inum inum,
    setInode_apply x Inode.ref ref, setInode_apply x Inode.locked locked⟩

theorem keepsEntries_setDin (s : Fs) (ip : Fin ninode) (d : DInode) :
    s.KeepsEntries (s.setDin ip d) :=
  keepsEntries_setInode rfl rfl rfl rfl

theorem keepsEntries_setAddr (s : Fs) (ip : Fin ninode) (k : Fin (ndirect + 1)) (a : UInt32) :
    s.KeepsEntries (s.setAddr ip k a) :=
  keepsEntries_setDin _ _ _

theorem keepsEntries_logWrite (s : Fs) (b : Nat) (blk : Block) : s.KeepsEntries (s.logWrite b blk) :=
  .of_icache (logWrite_icache s b blk)

section Keeps

variable {s s' : Fs} {ip : Fin ninode}

theorem keepsEntries_bfree {b : Nat} (h : s.bfree b = .ok s') : s.KeepsEntries s' := by
  obtain ⟨bp, -, freed⟩ := except_bind_eq_ok h
  dsimp only at freed
  split at freed
  · cases freed
  · cases freed
    exact keepsEntries_logWrite _ _ _

theorem keepsEntries_iupdate (h : s.iupdate ip = .ok s') : s.KeepsEntries s' := by
  obtain ⟨bp, -, written⟩ := except_bind_eq_ok h
  cases written
  exact keepsEntries_logWrite _ _ _

theorem keepsEntries_itruncDirect {k : Fin ndirect} (h : itruncDirect ip s k = .ok s') :
    s.KeepsEntries s' := by
  unfold itruncDirect at h
  dsimp only at h
  split at h
  · obtain ⟨s1, freed, done⟩ := except_bind_eq_ok h
    cases done
    exact (keepsEntries_bfree freed).trans (keepsEntries_setAddr _ _ _ _)
  · cases h
    exact .refl s

theorem keepsEntries_itruncIndirect {a : Block} {j : Fin 128} (h : itruncIndirect a s j = .ok s') :
    s.KeepsEntries s' := by
  unfold itruncIndirect at h
  split at h
  · exact keepsEntries_bfree h
  · cases h
    exact .refl s

/-- `itrunc` frees blocks and changes only the entry's disk-inode copy. -/
theorem keepsEntries_itrunc (h : s.itrunc ip = .ok s') : s.KeepsEntries s' := by
  obtain ⟨s1, direct, rest⟩ := except_bind_eq_ok h
  have keeps1 := foldlM_except_rel KeepsEntries.refl (fun _ _ _ => KeepsEntries.trans)
    (fun _ _ _ => keepsEntries_itruncDirect) _ _ _ direct
  -- then the indirect block, if any, and the size written back by `iupdate`
  dsimp only at rest
  split at rest
  · obtain ⟨bp, -, loop⟩ := except_bind_eq_ok rest
    obtain ⟨s2, entries, freed⟩ := except_bind_eq_ok loop
    obtain ⟨s3, freed, updated⟩ := except_bind_eq_ok freed
    rw [except_pure, except_ok_bind] at updated
    have keeps2 := foldlM_except_rel KeepsEntries.refl (fun _ _ _ => KeepsEntries.trans)
      (fun _ _ _ => keepsEntries_itruncIndirect) _ _ _ entries
    exact keeps1.trans (keeps2.trans ((keepsEntries_bfree freed).trans
      ((keepsEntries_setAddr _ _ _ _).trans
        ((keepsEntries_setDin _ _ _).trans (keepsEntries_iupdate updated)))))
  · rw [except_pure, except_ok_bind] at rest
    exact keeps1.trans ((keepsEntries_setDin _ _ _).trans (keepsEntries_iupdate rest))

end Keeps

/-- `iput`'s freeing of an inode with no links and no other references: truncate it, mark
it free on disk (`type = 0`), and make the entry not `valid`. -/
def ifree (s : Fs) (ip : Fin ninode) : Except Fault Fs := do
  let s ← s.itrunc ip
  let s ← (s.setDin ip { (s.icache ip).din with type := 0 }).iupdate ip
  pure (s.setInode ip { s.icache ip with valid := false })

/-- `iput(ip)` up to its `releasesleep`: what it does under the sleep-lock. -/
def iputBody (s : Fs) (ip : Fin ninode) : Except Fault Fs := do
  let s ← s.acquiresleep ip
  let i := s.icache ip
  let s ← if i.valid ∧ i.din.nlink = 0 ∧ i.ref = 1 then s.ifree ip else pure s
  return s.releasesleep ip

section Put

variable {s s' : Fs} {ip : Fin ninode}

/-- `iput` is its part under the sleep-lock, then `ip->ref--`. -/
theorem iput_eq (s : Fs) (ip : Fin ninode) :
    s.iput ip = (fun s => s.addRef ip (-1)) <$> s.iputBody ip := by
  rw [iput, iputBody, map_bind]
  congr 1
  funext s1
  dsimp only
  split
  · simp only [ifree, bind_assoc, map_bind, map_pure, pure_bind]
  · simp only [pure_bind, map_pure]

theorem keepsEntries_ifree (h : s.ifree ip = .ok s') : s.KeepsEntries s' := by
  obtain ⟨s1, truncated, rest⟩ := except_bind_eq_ok h
  obtain ⟨s2, updated, done⟩ := except_bind_eq_ok rest
  cases done
  exact (((keepsEntries_itrunc truncated).trans (keepsEntries_setDin _ _ _)).trans
    (keepsEntries_iupdate updated)).trans (keepsEntries_setInode rfl rfl rfl rfl)

/-- `itrunc` of an inode with no blocks frees nothing: it writes the inode back with
`size = 0`. -/
theorem itrunc_unmapped (unmapped : ∀ k, (s.icache ip).din.addrs k = 0)
    (lt : iblock (s.icache ip).inum s.sb < fsSize) :
    s.itrunc ip = .ok ((s.setDin ip { (s.icache ip).din with size := 0 }).logWrite
      (iblock (s.icache ip).inum s.sb)
      ((s.disk (iblock (s.icache ip).inum s.sb)).setDinode (s.icache ip).inum
        { (s.icache ip).din with size := 0 })) := by
  have direct : (List.finRange ndirect).foldlM (itruncDirect ip) s = .ok s :=
    foldlM_except_fixed _ fun k _ => by simp [itruncDirect, unmapped]
  rw [itrunc, direct, except_ok_bind]
  simp [unmapped, iupdate, bread_of_lt _ lt, setDin]

/-- The free of an inode with no blocks returns, with the inode free on disk (`type = 0`) and
the entry no longer `valid`. -/
theorem ifree_unmapped (unmapped : ∀ k, (s.icache ip).din.addrs k = 0)
    (lt : iblock (s.icache ip).inum s.sb < fsSize) :
    ∃ s', s.ifree ip = .ok s' ∧ s'.sb = s.sb ∧ (s'.icache ip).valid = false ∧
      (s'.disk (iblock (s.icache ip).inum s.sb)).dinode (s.icache ip).inum =
        { (s.icache ip).din with size := 0, type := 0 } := by
  rw [ifree, itrunc_unmapped unmapped lt, except_ok_bind]
  simp [iupdate, bread_of_lt _ lt, setDin, Block.dinode_setDinode_self]

@[simp] theorem setInode_self (s : Fs) (ip : Fin ninode) : s.setInode ip (s.icache ip) = s := by
  simp [setInode]

@[simp] theorem setInode_setInode (s : Fs) (ip : Fin ninode) (x y : Inode) :
    (s.setInode ip x).setInode ip y = s.setInode ip y := by
  simp [setInode]

/-- Taking an unlocked entry's sleep-lock and releasing it again changes nothing. -/
theorem releasesleep_acquired (unlocked : (s.icache ip).locked = false) :
    (s.setInode ip { s.icache ip with locked := true }).releasesleep ip = s := by
  simp only [releasesleep, setInode_icache, Function.update_self, setInode_setInode]
  rw [← unlocked, setInode_self]

/-- The first part of `iput` on an unlocked entry: it frees the inode exactly when the entry
is valid, the inode has no links, and this is the only reference; otherwise it changes
nothing. -/
theorem iputBody_eq (unlocked : (s.icache ip).locked = false) :
    s.iputBody ip =
      if (s.icache ip).valid ∧ (s.icache ip).din.nlink = 0 ∧ (s.icache ip).ref = 1 then
        (fun s => s.releasesleep ip) <$> (s.setInode ip { s.icache ip with locked := true }).ifree ip
      else .ok s := by
  simp only [iputBody, acquiresleep, unlocked, Bool.false_eq_true, if_false, except_pure,
    except_ok_bind, setInode_icache, Function.update_self, map_eq_pure_bind]
  split
  · rfl
  · rw [releasesleep_acquired unlocked]

/-- Taking an entry's sleep-lock, working under it without touching any entry's inode, count
or lock, and releasing it keeps every entry's inode, count and lock. -/
theorem keepsEntries_release {t : Fs} (unlocked : (s.icache ip).locked = false)
    (h : (s.setInode ip { s.icache ip with locked := true }).KeepsEntries t) :
    s.KeepsEntries (t.releasesleep ip) := by
  refine ⟨fun j => ?_, fun j => ?_, fun j => ?_, fun j => ?_⟩
  · rw [releasesleep, setLocked_apply _ _ _ Inode.dev (fun _ => rfl), h.dev,
      setLocked_apply _ _ _ Inode.dev (fun _ => rfl)]
  · rw [releasesleep, setLocked_apply _ _ _ Inode.inum (fun _ => rfl), h.inum,
      setLocked_apply _ _ _ Inode.inum (fun _ => rfl)]
  · rw [releasesleep, setLocked_apply _ _ _ Inode.ref (fun _ => rfl), h.ref,
      setLocked_apply _ _ _ Inode.ref (fun _ => rfl)]
  · by_cases same : j = ip
    · subst same
      simp [releasesleep, unlocked]
    · have taken := h.locked j
      simp only [setInode_icache, Function.update_of_ne same] at taken
      simp [releasesleep, Function.update_of_ne same, taken]

/-- What the first part of `iput` keeps: the entry was unlocked, and every entry's inode,
count and lock are as before. -/
theorem iputBody_ok (h : s.iputBody ip = .ok s') :
    (s.icache ip).locked = false ∧ s.KeepsEntries s' := by
  cases unlocked : (s.icache ip).locked
  · refine ⟨rfl, ?_⟩
    rw [iputBody_eq unlocked] at h
    split at h
    · obtain ⟨s1, freed, done⟩ := except_bind_eq_ok h
      cases done
      exact keepsEntries_release unlocked (keepsEntries_ifree freed)
    · cases h
      exact .refl s
  · rw [iputBody, acquiresleep_of_locked unlocked] at h
    cases h

end Put

/-! ## What each routine does to the entries -/

section Routines

variable {s s' : Fs} {ip : Fin ninode}

theorem acquiresleep_ok (h : s.acquiresleep ip = .ok s') :
    (s.icache ip).locked = false ∧ s' = s.setInode ip { s.icache ip with locked := true } := by
  cases unlocked : (s.icache ip).locked
  · simp only [acquiresleep, unlocked, Bool.false_eq_true, if_false, except_pure] at h
    cases h
    exact ⟨rfl, rfl⟩
  · rw [acquiresleep_of_locked unlocked] at h
    cases h

/-- `ilock` that returns found a referenced, unlocked entry, and changed nothing of any entry
but the lock it took and the disk-inode copy it read, nor the disk. -/
theorem ilock_ok (h : s.ilock ip = .ok s') :
    1 ≤ (s.icache ip).ref ∧ (s.icache ip).locked = false ∧
      (s.setInode ip { s.icache ip with locked := true }).KeepsEntries s' ∧ s'.disk = s.disk := by
  unfold ilock at h
  split at h
  · cases h
  · rename_i referenced
    obtain ⟨s1, acquired, rest⟩ := except_bind_eq_ok h
    obtain ⟨unlocked, rfl⟩ := acquiresleep_ok acquired
    refine ⟨by omega, unlocked, ?_⟩
    dsimp only at rest
    split at rest
    · cases rest
      exact ⟨.refl _, rfl⟩
    · -- the read of an entry that was not `valid`
      obtain ⟨bp, -, rest⟩ := except_bind_eq_ok rest
      split at rest
      · cases rest
      · cases rest
        exact ⟨keepsEntries_setInode rfl rfl rfl rfl, rfl⟩

/-- `ilock` of a referenced, unlocked entry that is not `valid`: it takes the lock and reads
the inode `d` from its block, and panics if `d` is free. -/
theorem ilock_read {d : DInode} (ref : 1 ≤ (s.icache ip).ref)
    (unlocked : (s.icache ip).locked = false) (invalid : (s.icache ip).valid = false)
    (lt : iblock (s.icache ip).inum s.sb < fsSize)
    (read : (s.disk (iblock (s.icache ip).inum s.sb)).dinode (s.icache ip).inum = d) :
    s.ilock ip = if d.type = 0 then .error (.panic "ilock: no type")
      else .ok (s.setInode ip { s.icache ip with locked := true, din := d, valid := true }) := by
  have held : ¬ (s.icache ip).ref < 1 := by omega
  simp only [ilock, if_neg held, acquiresleep, unlocked, Bool.false_eq_true, if_false, except_pure,
    except_ok_bind, setInode_icache, Function.update_self, invalid, setInode_sb, bread_of_lt _ lt,
    setInode_disk, read, setInode_setInode]

/-- `iunlock` that returns found the entry locked and referenced, and released it. -/
theorem iunlock_ok (h : s.iunlock ip = .ok s') :
    (s.icache ip).locked = true ∧ 1 ≤ (s.icache ip).ref ∧ s' = s.releasesleep ip := by
  unfold iunlock at h
  split at h
  · cases h
  · rename_i held
    cases h
    simp only [Bool.not_eq_eq_eq_not, Bool.not_true, not_or, not_lt] at held
    exact ⟨by simpa using held.1, held.2, rfl⟩

theorem cached_eq_none {dev inum : Nat} (h : s.cached dev inum = none) (ip : Fin ninode) :
    ¬ (0 < (s.icache ip).ref ∧ (s.icache ip).dev = dev ∧ (s.icache ip).inum = inum) := by
  simpa using List.find?_eq_none.mp h ip (List.mem_finRange ip)

/-- `iget`'s empty slot is the first entry with no references. -/
theorem firstEmpty_eq_some_iff :
    s.firstEmpty = some ip ↔ (s.icache ip).ref = 0 ∧ ∀ j < ip, (s.icache j).ref ≠ 0 := by
  simp [firstEmpty, Scan.find?_finRange_eq_some]

theorem firstEmpty_eq_none_iff : s.firstEmpty = none ↔ ∀ ip, (s.icache ip).ref ≠ 0 := by
  simp [firstEmpty]

/-- `iget` that returns either found the inode cached or recycled its first empty slot. -/
theorem iget_ok {dev inum : Nat} (h : s.iget dev inum = .ok (s', ip)) :
    (s.cached dev inum = some ip ∧ s' = s.addRef ip 1) ∨
    (s.cached dev inum = none ∧ s.firstEmpty = some ip ∧
      s' = s.setInode ip { s.icache ip with dev := dev, inum := inum, ref := 1, valid := false }) := by
  unfold iget at h
  split at h
  · next found =>
    cases h
    exact .inl ⟨found, rfl⟩
  · next missed =>
    split at h
    · next empty =>
      cases h
      exact .inr ⟨missed, empty, rfl⟩
    · cases h

/-- `iget` stops only with `iget: no inodes`, when the inode is not cached and no entry is
empty. -/
theorem iget_error {dev inum : Nat} {f : Fault} (h : s.iget dev inum = .error f) :
    s.cached dev inum = none ∧ s.firstEmpty = none ∧ f = .panic "iget: no inodes" := by
  unfold iget at h
  split at h
  · cases h
  · next missed =>
    split at h
    · cases h
    · next empty =>
      cases h
      exact ⟨missed, empty, rfl⟩

end Routines

/-! ## Entries with references are unique -/

/-- No two entries with references cache the same `(dev, inum)`. -/
def UniqueRefs (s : Fs) : Prop :=
  ∀ ip ip', 0 < (s.icache ip).ref → 0 < (s.icache ip').ref →
    (s.icache ip).dev = (s.icache ip').dev → (s.icache ip).inum = (s.icache ip').inum → ip = ip'

/-- A change that gives references to no new entry and keeps each referenced entry's inode
keeps the entries with references unique. -/
theorem UniqueRefs.mono {s s' : Fs} (h : s.UniqueRefs)
    (pos : ∀ ip, 0 < (s'.icache ip).ref → 0 < (s.icache ip).ref)
    (dev : ∀ ip, (s'.icache ip).dev = (s.icache ip).dev)
    (inum : ∀ ip, (s'.icache ip).inum = (s.icache ip).inum) : s'.UniqueRefs := by
  intro ip ip' hip hip' hdev hinum
  rw [dev, dev] at hdev
  rw [inum, inum] at hinum
  exact h ip ip' (pos ip hip) (pos ip' hip') hdev hinum

theorem UniqueRefs.of_keeps {s s' : Fs} (h : s.UniqueRefs) (keeps : s.KeepsEntries s') :
    s'.UniqueRefs :=
  h.mono (fun ip pos => keeps.ref ip ▸ pos) keeps.dev keeps.inum

/-- Storing an entry that keeps its count and inode keeps the entries with references unique. -/
theorem UniqueRefs.setInode {s : Fs} (h : s.UniqueRefs) {ip : Fin ninode} {x : Inode}
    (ref : x.ref = (s.icache ip).ref) (dev : x.dev = (s.icache ip).dev)
    (inum : x.inum = (s.icache ip).inum) : (s.setInode ip x).UniqueRefs :=
  h.mono (fun j pos => setInode_apply x Inode.ref ref j ▸ pos) (setInode_apply x Inode.dev dev)
    (setInode_apply x Inode.inum inum)

/-- `iget`'s recycling of an entry for an inode no entry with references caches. -/
theorem UniqueRefs.recycle {s : Fs} (h : s.UniqueRefs) {ip : Fin ninode} {dev inum : Nat}
    (missed : s.cached dev inum = none) :
    (s.setInode ip { s.icache ip with dev, inum, ref := 1, valid := false }).UniqueRefs := by
  intro i i' hi hi' hdev hinum
  by_cases hi_ip : i = ip <;> by_cases hi'_ip : i' = ip
  · rw [hi_ip, hi'_ip]
  · -- `i'` is an old entry with references caching the recycled inode
    subst hi_ip
    simp only [setInode_icache, Function.update_self, Function.update_of_ne hi'_ip] at hi' hdev hinum
    exact absurd ⟨hi', hdev.symm, hinum.symm⟩ (cached_eq_none missed i')
  · subst hi'_ip
    simp only [setInode_icache, Function.update_self, Function.update_of_ne hi_ip] at hi hdev hinum
    exact absurd ⟨hi, hdev, hinum⟩ (cached_eq_none missed i)
  · simp only [setInode_icache, Function.update_of_ne hi_ip, Function.update_of_ne hi'_ip] at hi hi' hdev hinum
    exact h i i' hi hi' hdev hinum

theorem addRef_icache_self (s : Fs) (ip : Fin ninode) (k : Int) :
    (s.addRef ip k).icache ip = { s.icache ip with ref := (s.icache ip).ref + k } := by
  simp [addRef]

theorem addRef_icache_of_ne (s : Fs) {ip j : Fin ninode} (k : Int) (hj : j ≠ ip) :
    (s.addRef ip k).icache j = s.icache j := by
  simp [addRef, Function.update_of_ne hj]

/-- `ip->ref += k` with `k ≤ 0`, or on an entry with references already, gives references to
no new entry. -/
theorem UniqueRefs.addRef {s : Fs} (h : s.UniqueRefs) {ip : Fin ninode} {k : Int}
    (hk : k ≤ 0 ∨ 0 < (s.icache ip).ref) : (s.addRef ip k).UniqueRefs := by
  refine h.mono (fun j pos => ?_) (fun j => ?_) (fun j => ?_)
  all_goals by_cases hj : j = ip
  · subst hj
    rw [addRef_icache_self] at pos
    dsimp only at pos
    omega
  · rwa [addRef_icache_of_ne s k hj] at pos
  · subst hj
    rw [addRef_icache_self]
  · rw [addRef_icache_of_ne s k hj]
  · subst hj
    rw [addRef_icache_self]
  · rw [addRef_icache_of_ne s k hj]


section Iget

variable {s : Fs} {ip : Fin ninode} {dev inum : Nat}

/-- With the entries with references unique, `iget` of an inode one of them caches returns
that entry, with one more reference. -/
theorem UniqueRefs.iget_eq (h : s.UniqueRefs) (pos : 0 < (s.icache ip).ref)
    (dev_eq : (s.icache ip).dev = dev) (inum_eq : (s.icache ip).inum = inum) :
    s.iget dev inum = .ok (s.addRef ip 1, ip) :=
  iget_cached (cached_of_unique ⟨pos, dev_eq, inum_eq⟩ fun ip' other =>
    h ip' ip other.1 pos (other.2.1.trans dev_eq.symm) (other.2.2.trans inum_eq.symm))

/-- `iget` of an inode no entry with references caches recycles the first empty entry, with
`ref = 1` and `valid = 0`. -/
theorem iget_of_missed
    (missed : ∀ ip, ¬ (0 < (s.icache ip).ref ∧ (s.icache ip).dev = dev ∧ (s.icache ip).inum = inum))
    (empty : s.firstEmpty = some ip) :
    s.iget dev inum =
      .ok (s.setInode ip { s.icache ip with dev, inum, ref := 1, valid := false }, ip) := by
  have none : s.cached dev inum = none := List.find?_eq_none.mpr fun ip _ => by simpa using missed ip
  simp only [iget, none, empty]
  rfl

/-- With no entry empty, `iget` of an inode no entry with references caches panics. -/
theorem iget_of_full
    (missed : ∀ ip, ¬ (0 < (s.icache ip).ref ∧ (s.icache ip).dev = dev ∧ (s.icache ip).inum = inum))
    (full : ∀ ip, (s.icache ip).ref ≠ 0) : s.iget dev inum = .error (.panic "iget: no inodes") := by
  have none : s.cached dev inum = none := List.find?_eq_none.mpr fun ip _ => by simpa using missed ip
  simp only [iget, none, firstEmpty_eq_none_iff.mpr full]

/-- An empty entry is at or after the first one, which `iget`'s scan remembers. -/
theorem firstEmpty_le (empty : (s.icache ip).ref = 0) :
    ∃ ip', s.firstEmpty = some ip' ∧ ip' ≤ ip := by
  have found : s.firstEmpty.isSome := by
    rw [firstEmpty, List.find?_isSome]
    exact ⟨ip, List.mem_finRange ip, by simpa using empty⟩
  obtain ⟨ip', first⟩ := Option.isSome_iff_exists.mp found
  refine ⟨ip', first, not_lt.mp fun below => ?_⟩
  exact (firstEmpty_eq_some_iff.mp first).2 ip below empty

end Iget

end Fs

end Xv6
