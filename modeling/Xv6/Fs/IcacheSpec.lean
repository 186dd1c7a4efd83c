import Xv6.Fs.IcacheInv

/-!
# What the inode cache guarantees under interleaving

From every state an interleaving reaches (`Icache.Reachable`):

* `ref` counts the references the processes hold, so it is never negative, and no two
  entries with references cache one inode (`Reachable.inv`);
* `iget` returns the entry that caches the inode, with one more reference; otherwise it
  recycles the first entry with none, with `ref = 1` and `valid = 0`; and with every entry
  referenced it panics `iget: no inodes`;
* `iput` decides to free the inode only when the entry is valid, the inode has no links and
  its caller holds the only reference (`Inv.iput_frees`), and only the free that follows
  writes the disk (`step_disk`).
-/

namespace Xv6

namespace Icache

variable {Pid : Type} [DecidableEq Pid] [Fintype Pid] {s s' : Icache Pid} {p : Pid}
  {ip : Fin ninode}

/-- A count of one, of which `p` holds one: nobody else holds a reference. -/
theorem refs_eq_one (one : s.refs ip = 1) (pos : 0 < s.held p ip) :
    s.held p ip = 1 ∧ ∀ q ≠ p, s.held q ip = 0 := by
  have split := Finset.add_sum_erase Finset.univ (fun q => (s.held q ip : ℤ)) (Finset.mem_univ p)
  change _ = s.refs ip at split
  have rest : 0 ≤ ∑ q ∈ Finset.univ.erase p, (s.held q ip : ℤ) :=
    Finset.sum_nonneg fun _ _ => Int.natCast_nonneg _
  refine ⟨by omega, fun q hq => ?_⟩
  have zero : ∑ q ∈ Finset.univ.erase p, (s.held q ip : ℤ) = 0 := by omega
  have := (Finset.sum_eq_zero_iff_of_nonneg fun _ _ => Int.natCast_nonneg _).mp zero q
    (Finset.mem_erase.mpr ⟨hq, Finset.mem_univ q⟩)
  omega

/-- `iput` goes on to free the inode only when the entry is valid, the inode has no links,
and the caller holds the only reference to it. -/
theorem Inv.iput_frees (hI : s.Inv) (h : s.step p (.iput ip) = some (.ok s'))
    (freeing : s'.phase p = .freeing ip) :
    (s.fs.icache ip).valid = true ∧ (s.fs.icache ip).din.nlink = 0 ∧ (s.fs.icache ip).ref = 1 ∧
      s.held p ip = 1 ∧ ∀ q ≠ p, s.held q ip = 0 := by
  obtain ⟨-, pos, -, -, ⟨⟨valid, nlink, one⟩, -⟩ | ⟨-, rfl⟩⟩ := step_iput h
  · exact ⟨valid, nlink, one, refs_eq_one ((hI.entry ip).ref_eq.symm.trans one) pos⟩
  · simp at freeing

omit [Fintype Pid] in
/-- Only `iput`'s free writes the disk, and only a process that decided to free takes it. -/
theorem step_disk {op : IcacheOp} (h : s.step p op = some (.ok s'))
    (changed : s'.fs.disk ≠ s.fs.disk) : op = .free ∧ ∃ ip, s.phase p = .freeing ip := by
  cases op with
  | free =>
    obtain ⟨ip, freeing, -⟩ := step_free h
    exact ⟨rfl, ip, freeing⟩
  | iget dev inum =>
    obtain ⟨-, fs, ip, got, rfl⟩ := step_iget h
    rcases Fs.iget_ok got with ⟨-, rfl⟩ | ⟨-, -, rfl⟩ <;> exact absurd rfl changed
  | idup ip =>
    obtain ⟨-, -, rfl⟩ := step_idup h
    exact absurd rfl changed
  | ilock ip =>
    obtain ⟨-, -, -, fs, locked, rfl⟩ := step_ilock h
    exact absurd (Fs.ilock_ok locked).2.2.2 changed
  | iunlock ip =>
    obtain ⟨-, -, -, fs, unlocked, rfl⟩ := step_iunlock h
    obtain ⟨-, -, rfl⟩ := Fs.iunlock_ok unlocked
    exact absurd rfl changed
  | iput ip =>
    obtain ⟨-, -, -, -, ⟨-, rfl⟩ | ⟨-, rfl⟩⟩ := step_iput h <;> exact absurd rfl changed
  | drop =>
    obtain ⟨ip, -, rfl⟩ := step_drop h
    exact absurd rfl changed

omit [Fintype Pid] in
/-- The first `iget` after `iinit` takes the first entry. -/
theorem init_iget (fs : Fs) (p : Pid) (dev inum : Nat) :
    (init fs : Icache Pid).step p (.iget dev inum) = some (.ok { (init fs : Icache Pid) with
      fs := (init fs : Icache Pid).fs.setInode ⟨0, ninode_pos⟩
        { Inode.unused with dev, inum, ref := 1, valid := false },
      held := (init fs : Icache Pid).setHeld p ⟨0, ninode_pos⟩ 1 }) := by
  have missed : ∀ ip, ¬ (0 < ((init fs : Icache Pid).fs.icache ip).ref ∧
      ((init fs : Icache Pid).fs.icache ip).dev = dev ∧
      ((init fs : Icache Pid).fs.icache ip).inum = inum) := by
    simp [init, Inode.unused]
  have empty : (init fs : Icache Pid).fs.firstEmpty = some ⟨0, ninode_pos⟩ :=
    Fs.firstEmpty_eq_some_iff.mpr
      ⟨rfl, fun j below => absurd (Fin.lt_def.mp below) (Nat.not_lt_zero _)⟩
  exact step_iget_of rfl (Fs.iget_of_missed missed empty)

end Icache

/-- **The inode cache under every interleaving.**  In every state that `iget`, `idup`,
`ilock`, `iunlock` and the steps of `iput` reach from `iinit`, each call made on an entry
its caller holds a reference to: each entry's `ref` is the number of references the
processes hold, and so never negative; no two entries with references cache one inode;
`iget` of an inode such an entry caches returns that entry with one more reference, and of
any other inode the first entry with no references, recycled with `ref = 1` and
`valid = 0`, or, when every entry has references, panics `iget: no inodes`; `iput` goes on
to free the inode only when the entry is valid, the inode has no links and the caller holds
the only reference; and only that free writes the disk. -/
theorem icache_refs_unique {Pid : Type} [DecidableEq Pid] [Fintype Pid] (s : Icache Pid)
    (hs : s.Reachable) :
    (∀ ip, (s.fs.icache ip).ref = ∑ p, (s.held p ip : ℤ) ∧ 0 ≤ (s.fs.icache ip).ref) ∧
    s.fs.UniqueRefs ∧
    (∀ dev inum ip, 0 < (s.fs.icache ip).ref → (s.fs.icache ip).dev = dev →
      (s.fs.icache ip).inum = inum → s.fs.iget dev inum = .ok (s.fs.addRef ip 1, ip)) ∧
    (∀ dev inum, (∀ ip, ¬ (0 < (s.fs.icache ip).ref ∧ (s.fs.icache ip).dev = dev ∧
        (s.fs.icache ip).inum = inum)) →
      (∀ ip, (s.fs.icache ip).ref = 0 → ∃ ip' ≤ ip, (s.fs.icache ip').ref = 0 ∧
        (∀ j < ip', (s.fs.icache j).ref ≠ 0) ∧
        s.fs.iget dev inum = .ok (s.fs.setInode ip'
          { s.fs.icache ip' with dev, inum, ref := 1, valid := false }, ip')) ∧
      ((∀ ip, (s.fs.icache ip).ref ≠ 0) →
        s.fs.iget dev inum = .error (.panic "iget: no inodes"))) ∧
    (∀ p ip s', s.step p (.iput ip) = some (.ok s') → s'.phase p = .freeing ip →
      (s.fs.icache ip).valid = true ∧ (s.fs.icache ip).din.nlink = 0 ∧
      (s.fs.icache ip).ref = 1 ∧ s.held p ip = 1 ∧ ∀ q ≠ p, s.held q ip = 0) ∧
    (∀ p op s', s.step p op = some (.ok s') → s'.fs.disk ≠ s.fs.disk →
      op = .free ∧ ∃ ip, s.phase p = .freeing ip) := by
  have hI := hs.inv
  refine ⟨fun ip => ⟨(hI.entry ip).ref_eq, ?_⟩, hI.unique,
    fun dev inum ip pos dev_eq inum_eq => hI.unique.iget_eq pos dev_eq inum_eq,
    fun dev inum missed => ⟨fun ip empty => ?_, Fs.iget_of_full missed⟩,
    fun p ip s' h freeing => hI.iput_frees h freeing,
    fun p op s' h changed => Icache.step_disk h changed⟩
  · rw [(hI.entry ip).ref_eq]
    exact Icache.refs_nonneg s ip
  · obtain ⟨ip', first, below⟩ := Fs.firstEmpty_le empty
    obtain ⟨zero, before⟩ := Fs.firstEmpty_eq_some_iff.mp first
    exact ⟨ip', below, zero, before, Fs.iget_of_missed missed first⟩

/-- After one `iget` of inode `1` from `iinit`, a second `iget` of it returns the same entry
with one more reference. -/
theorem icache_refs_unique_iget :
    ∃ s : Icache Unit, s.Reachable ∧ (s.fs.icache ⟨0, ninode_pos⟩).ref = 1 ∧
      s.fs.iget 1 1 = .ok (s.fs.addRef ⟨0, ninode_pos⟩ 1, ⟨0, ninode_pos⟩) := by
  let fs := Fs.boot (fun _ => zeroBlock) (fun _ => none)
  have took := Icache.Reachable.step () (.iget 1 1) (.init fs) (Icache.init_iget fs () 1 1)
  exact ⟨_, took, rfl, (icache_refs_unique _ took).2.2.1 1 1 ⟨0, ninode_pos⟩ (by decide) rfl rfl⟩

end Xv6
