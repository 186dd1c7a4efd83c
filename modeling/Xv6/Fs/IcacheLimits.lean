import Xv6.Fs.IcacheSpec

/-!
# Where the inode cache's guarantees stop

* The cache has `NINODE` entries: `iget` of `NINODE` different inodes fills it
  (`Icache.fill_cache`), and one more `iget` of an inode none of them caches panics
  `iget: no inodes` (`Icache.iget_when_full`);
* `iput` reads `ip->ref` before it frees, under the sleep-lock but not under
  `icache.lock`, which `iget` takes: another process's `iget` of the inode in between
  returns the entry with a second reference (`Icache.Inv.iget_while_freeing`), and the free
  then goes through with that reference held.  On an inode left on disk with no links, the
  second process's `ilock` then finds the inode free and panics `ilock: no type`.
-/

namespace Xv6

namespace Icache

variable {Pid : Type} [DecidableEq Pid]

/-- **`iget` of `k` different inodes**, one after another from `iinit`, takes the first `k`
entries with one reference each.  The induction is on `k`: the entries below `k` cache the
inodes `0 .. k-1`, so no entry with references caches inode `k`, and entry `k` is the first
empty one. -/
theorem fill_cache (fs : Fs) (p : Pid) (dev : Nat) :
    ∀ k ≤ ninode, ∃ s : Icache Pid, s.Reachable ∧ s.phase p = .idle ∧
      ∀ j : Fin ninode, (s.fs.icache j).ref = (if j.val < k then 1 else 0) ∧
        (j.val < k → (s.fs.icache j).dev = dev ∧ (s.fs.icache j).inum = j.val) := by
  intro k
  induction k with
  | zero =>
    intro _
    exact ⟨init fs, .init fs, rfl, fun j => ⟨by simp [init, Inode.unused], by simp⟩⟩
  | succ k ih =>
    intro hk
    obtain ⟨s, hs, idle, filled⟩ := ih (by omega)
    have missed : ∀ ip, ¬ (0 < (s.fs.icache ip).ref ∧ (s.fs.icache ip).dev = dev ∧
        (s.fs.icache ip).inum = k) := by
      rintro ip ⟨pos, -, inum⟩
      have below : ip.val < k := by
        by_contra above
        rw [(filled ip).1, if_neg above] at pos
        exact lt_irrefl 0 pos
      rw [((filled ip).2 below).2] at inum
      omega
    let next : Fin ninode := ⟨k, hk⟩
    have empty : s.fs.firstEmpty = some next := by
      refine Fs.firstEmpty_eq_some_iff.mpr ⟨by simp [(filled next).1, next], fun j below => ?_⟩
      rw [(filled j).1, if_pos (Fin.lt_def.mp below)]
      exact one_ne_zero
    refine ⟨_, .step p (.iget dev k) hs (step_iget_of idle (Fs.iget_of_missed missed empty)), idle,
      fun j => ?_⟩
    by_cases hj : j = next
    · subst hj
      simp [next]
    · have other : j.val ≠ k := fun same => hj (Fin.ext same)
      simp only [Fs.setInode_icache, Function.update_of_ne hj]
      refine ⟨?_, fun below => (filled j).2 (by omega)⟩
      rw [(filled j).1]
      split_ifs <;> omega

/-- **The cache runs out**: after `iget` of `NINODE` different inodes every entry has a
reference, and `iget` of one more panics `iget: no inodes`. -/
theorem iget_when_full (fs : Fs) (p : Pid) (dev : Nat) :
    ∃ s : Icache Pid, s.Reachable ∧ (∀ ip, 0 < (s.fs.icache ip).ref) ∧
      s.step p (.iget dev ninode) = some (.error (.panic "iget: no inodes")) := by
  obtain ⟨s, hs, idle, filled⟩ := fill_cache fs p dev ninode le_rfl
  have full : ∀ ip, 0 < (s.fs.icache ip).ref := fun ip => by simp [(filled ip).1]
  have missed : ∀ ip, ¬ (0 < (s.fs.icache ip).ref ∧ (s.fs.icache ip).dev = dev ∧
      (s.fs.icache ip).inum = ninode) := by
    rintro ip ⟨-, -, inum⟩
    rw [((filled ip).2 ip.isLt).2] at inum
    exact absurd inum (Nat.ne_of_lt ip.isLt)
  refine ⟨s, hs, full, ?_⟩
  rw [step, if_pos idle, Fs.iget_of_full missed fun ip => (full ip).ne']
  rfl

variable [Fintype Pid] {s : Icache Pid} {p q : Pid} {ip : Fin ninode}

/-- **The window in `iput`**: while `p` is between its read of `ip->ref` and the free, an
`iget` by another process of the inode the entry caches returns the entry with one more
reference, and leaves `p` where it is, about to free the inode. -/
theorem Inv.iget_while_freeing (hI : s.Inv) (freeing : s.phase p = .freeing ip)
    (idle : s.phase q = .idle) :
    s.step q (.iget (s.fs.icache ip).dev (s.fs.icache ip).inum) =
      some (.ok { s with fs := s.fs.addRef ip 1, held := s.setHeld q ip (s.held q ip + 1) }) := by
  have e := hI.entry ip
  -- `p` holds the lock, so it holds a reference
  have pos := e.held_pos_ref (e.holder_held p (e.freeing_holder p freeing))
  exact step_iget_of idle (hI.unique.iget_eq pos rfl rfl)

end Icache

/-- A file left on disk with no links: `T_FILE`, `nlink = 0`, and no blocks. -/
def orphan : DInode := { Fs.DInode.empty with type := 2 }

/-- A file system whose every block holds `orphan` as inode `1`, under a superblock of
zeros, so that inode `1` sits in block `0`. -/
def orphanFs : Fs where
  sb := ⟨0, 0, 0, 0, 0, 0, 0⟩
  disk := fun _ => zeroBlock.setDinode 1 orphan
  icache := fun _ => Inode.unused
  cwd := ⟨0, ninode_pos⟩
  devsw := fun _ => none

namespace Icache

/-- **A reference to a freed inode.**  On `orphanFs`, process `true` takes inode `1` into the
first entry (`iget`, `ilock`, which reads it, and `iunlock`), and its `iput` finds the only
reference to a valid inode with no links and goes on to free it.  In that window, process
`false`'s `iget` of inode `1` returns the entry with a second reference.  The free goes
through, and `false`'s `ilock` of the entry it holds reads the inode back, free, and panics
`ilock: no type`. -/
theorem freed_while_referenced :
    ∃ s : Icache Bool, s.Reachable ∧ s.phase true = .freeing ⟨0, ninode_pos⟩ ∧
      (s.fs.icache ⟨0, ninode_pos⟩).ref = 2 ∧ s.held false ⟨0, ninode_pos⟩ = 1 ∧
      ∃ s', s.step true .free = some (.ok s') ∧ s'.held false ⟨0, ninode_pos⟩ = 1 ∧
        s'.step false (.ilock ⟨0, ninode_pos⟩) = some (.error (.panic "ilock: no type")) := by
  let e0 : Fin ninode := ⟨0, ninode_pos⟩
  have lt : iblock 1 orphanFs.sb < fsSize := by decide
  -- `true` takes inode `1` into the first entry and reads it from disk
  have r1 := Reachable.step true (.iget 1 1) (.init orphanFs) (init_iget orphanFs true 1 1)
  have r2 := Reachable.step true (.ilock e0) r1 (step_ilock_of rfl (by decide) rfl
    ((Fs.ilock_read (d := orphan) (by decide) rfl rfl lt
      (by simp [init, orphanFs, e0, Block.dinode_setDinode_self])).trans (if_neg (by decide))))
  have r3 := Reachable.step true (.iunlock e0) r2 (step_iunlock_of rfl (by decide) rfl
    (Fs.iunlock_locked rfl (by decide)))
  -- its `iput` finds the only reference to a valid inode with no links
  have r4 := Reachable.step true (.iput e0) r3 (step_iput_freeing rfl (by decide) rfl rfl
    ⟨rfl, rfl, rfl⟩)
  -- `false`'s `iget` in the window
  have r5 := Reachable.step false _ r4 (r4.inv.iget_while_freeing (p := true) rfl rfl)
  obtain ⟨s, hs, r5⟩ : ∃ s : Icache Bool, s = _ ∧ s.Reachable := ⟨_, rfl, r5⟩
  -- the inode has no blocks, so the free goes through
  obtain ⟨fs, freed, sb_eq, invalid, written⟩ := @Fs.ifree_unmapped s.fs e0
    (by subst hs; exact fun k => rfl) (by subst hs; exact lt)
  have keeps := Fs.keepsEntries_ifree freed
  have inum : (fs.icache e0).inum = 1 := by
    rw [keeps.inum]
    subst hs
    rfl
  have sb : fs.sb = orphanFs.sb := by
    rw [sb_eq]
    subst hs
    rfl
  -- `false`'s `ilock` reads the inode back from disk, free
  have nofile : (fs.releasesleep e0).ilock e0 = .error (.panic "ilock: no type") := by
    refine (Fs.ilock_read (d := { (s.fs.icache e0).din with size := 0, type := 0 })
      ?_ ?_ ?_ ?_ ?_).trans (if_pos rfl)
    · rw [Fs.releasesleep, Fs.setLocked_apply _ _ _ Inode.ref (fun _ => rfl), keeps.ref]
      subst hs
      decide
    · simp [Fs.releasesleep]
    · rw [Fs.releasesleep, Fs.setLocked_apply _ _ _ Inode.valid (fun _ => rfl), invalid]
    · rw [Fs.releasesleep, Fs.setLocked_apply _ _ _ Inode.inum (fun _ => rfl), Fs.setInode_sb,
        inum, sb]
      exact lt
    · rw [Fs.releasesleep, Fs.setLocked_apply _ _ _ Inode.inum (fun _ => rfl), Fs.setInode_sb,
        Fs.setInode_disk, keeps.inum, sb_eq, written]
  refine ⟨s, r5, by subst hs; rfl, by subst hs; rfl, by subst hs; rfl, _,
    step_free_of (by subst hs; rfl) freed, by subst hs; rfl, ?_⟩
  exact step_ilock_error (by subst hs; rfl) (by subst hs; exact Nat.zero_lt_one) rfl nofile

end Icache

/-- **Where the inode cache stops.**  From `iinit`, after `iget` of `NINODE` different inodes
every entry has a reference, and `iget` of one more inode panics `iget: no inodes` instead of
recycling an entry.  And `iput` decides to free under the sleep-lock but does not keep
`iget` out: on `orphanFs`, another process's `iget` between the decision and the free takes a
second reference, the free goes through with it held, and that process's `ilock` then panics
`ilock: no type`. -/
theorem icache_exhausted_or_freed_in_use :
    (∃ s : Icache Unit, s.Reachable ∧ (∀ ip, 0 < (s.fs.icache ip).ref) ∧
      s.step () (.iget 1 ninode) = some (.error (.panic "iget: no inodes"))) ∧
    (∃ s : Icache Bool, s.Reachable ∧ s.phase true = .freeing ⟨0, ninode_pos⟩ ∧
      (s.fs.icache ⟨0, ninode_pos⟩).ref = 2 ∧ s.held false ⟨0, ninode_pos⟩ = 1 ∧
      ∃ s', s.step true .free = some (.ok s') ∧ s'.held false ⟨0, ninode_pos⟩ = 1 ∧
        s'.step false (.ilock ⟨0, ninode_pos⟩) = some (.error (.panic "ilock: no type"))) :=
  ⟨Icache.iget_when_full orphanFs () 1, Icache.freed_while_referenced⟩

end Xv6
