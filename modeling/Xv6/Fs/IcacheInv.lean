import Mathlib.Algebra.Order.BigOperators.Group.Finset
import Xv6.Lib.WeightedSum
import Xv6.Fs.IcacheStep

/-!
# What every interleaving of the inode-cache routines keeps

`Icache.Inv` holds of every reachable state:

* for every entry (`EntryInv`): `ref` is the number of references the processes hold
  (`ref_eq`), so it is never negative; the entry is locked exactly when a process holds its
  sleep-lock (`locked_eq`), and that process holds a reference; a process in `iput`'s free
  holds the lock, and one left with `ip->ref--` holds a reference and not the lock;
* no two entries with references cache the same inode (`Fs.UniqueRefs`).

Each step changes one entry and one process, so `EntryInv.frame` carries the other entries
over and each step lemma proves the one it changes.  `Reachable.inv` chains them.
-/

namespace Xv6

namespace Icache

variable {Pid : Type}

section Count

variable [Fintype Pid]

/-- The references the processes hold to `ip`. -/
def refs (s : Icache Pid) (ip : Fin ninode) : ℤ := ∑ p, (s.held p ip : ℤ)

/-- What every reachable state satisfies of the entry `ip`. -/
structure EntryInv (s : Icache Pid) (ip : Fin ninode) : Prop where
  ref_eq : (s.fs.icache ip).ref = s.refs ip
  locked_eq : (s.fs.icache ip).locked = (s.holder ip).isSome
  holder_held : ∀ p, s.holder ip = some p → 0 < s.held p ip
  freeing_holder : ∀ p, s.phase p = .freeing ip → s.holder ip = some p
  dropping_held : ∀ p, s.phase p = .dropping ip → 0 < s.held p ip ∧ s.holder ip ≠ some p

/-- What every reachable state satisfies. -/
structure Inv (s : Icache Pid) : Prop where
  entry : ∀ ip, s.EntryInv ip
  unique : s.fs.UniqueRefs

/-! ## Counting references -/

variable (s : Icache Pid) (p : Pid) (ip : Fin ninode)

theorem refs_nonneg : 0 ≤ s.refs ip :=
  Finset.sum_nonneg fun _ _ => Int.natCast_nonneg _

theorem held_le_refs : (s.held p ip : ℤ) ≤ s.refs ip :=
  Finset.single_le_sum (f := fun q => (s.held q ip : ℤ)) (fun _ _ => Int.natCast_nonneg _)
    (Finset.mem_univ p)

variable [DecidableEq Pid]

/-- The count after `p` comes to hold `n` references to `ip`. -/
theorem refs_setHeld_self {t : Icache Pid} (n : Nat) (held : t.held = s.setHeld p ip n) :
    t.refs ip = s.refs ip + n - s.held p ip := by
  have moved := WeightedSum.sum_comp_update (fun row : Fin ninode → Nat => (row ip : ℤ)) s.held p
    (Function.update (s.held p) ip n)
  simp only [Function.update_self] at moved
  rw [refs, refs, held, add_sub_assoc, ← moved]
  rfl

end Count

/-! ## Facts from the invariant -/

namespace EntryInv

variable [Fintype Pid] {s : Icache Pid} {ip : Fin ninode} (h : s.EntryInv ip)
include h

theorem held_pos_ref {p : Pid} (held : 0 < s.held p ip) : 0 < (s.fs.icache ip).ref := by
  have := held_le_refs s p ip
  rw [h.ref_eq]
  omega

/-- An entry with no references is held by no process. -/
theorem held_eq_zero (zero : (s.fs.icache ip).ref = 0) (q : Pid) : s.held q ip = 0 := by
  by_contra held
  have := h.held_pos_ref (Nat.pos_of_ne_zero held)
  omega

theorem holder_eq_none (unlocked : (s.fs.icache ip).locked = false) : s.holder ip = none := by
  rw [h.locked_eq] at unlocked
  exact Option.not_isSome_iff_eq_none.mp (by simp [unlocked])

theorem holder_eq_none_of_held (nobody : ∀ q, s.held q ip = 0) : s.holder ip = none := by
  cases holding : s.holder ip with
  | none => rfl
  | some q =>
    have := h.holder_held q holding
    rw [nobody q] at this
    cases this

/-- No process is in `iput` on an entry whose lock nobody holds, past the test that keeps it. -/
theorem not_freeing (free : s.holder ip = none) (q : Pid) : s.phase q ≠ .freeing ip := by
  intro freeing
  rw [h.freeing_holder q freeing] at free
  cases free

/-- The entries a step leaves alone keep the invariant: nothing the invariant reads of them
changed, and no process moved in `iput` on them. -/
theorem frame {t : Icache Pid}
    (ref : (t.fs.icache ip).ref = (s.fs.icache ip).ref)
    (locked : (t.fs.icache ip).locked = (s.fs.icache ip).locked)
    (holder : t.holder ip = s.holder ip) (held : ∀ q, t.held q ip = s.held q ip)
    (freeing : ∀ q, t.phase q = .freeing ip → s.phase q = .freeing ip)
    (dropping : ∀ q, t.phase q = .dropping ip → s.phase q = .dropping ip) : t.EntryInv ip where
  ref_eq := by
    rw [ref, h.ref_eq, refs, refs]
    simp only [held]
  locked_eq := by rw [locked, holder, h.locked_eq]
  holder_held q hq := held q ▸ h.holder_held q (holder ▸ hq)
  freeing_holder q hq := holder ▸ h.freeing_holder q (freeing q hq)
  dropping_held q hq := by
    rw [held, holder]
    exact h.dropping_held q (dropping q hq)

end EntryInv

/-- A process moving between phases on `ip` (or to none) moves on no other entry. -/
theorem phase_update_of_ne [DecidableEq Pid] {s : Icache Pid} {p : Pid} {ip j : Fin ninode} {v : IputPhase}
    (hv : v = .idle ∨ v = .freeing ip ∨ v = .dropping ip) (hj : j ≠ ip) (q : Pid) :
    (Function.update s.phase p v q = .freeing j → s.phase q = .freeing j) ∧
      (Function.update s.phase p v q = .dropping j → s.phase q = .dropping j) := by
  by_cases hq : q = p
  · subst hq
    simp only [Function.update_self]
    rcases hv with rfl | rfl | rfl <;> simp [Ne.symm hj]
  · simp only [Function.update_of_ne hq]
    exact ⟨id, id⟩

/-! ## Each step keeps the invariant -/

section Steps

variable [DecidableEq Pid] [Fintype Pid] {s t : Icache Pid} {p : Pid} {ip : Fin ninode}

/-- `p` takes one more reference to an entry that has references already: `iget` of a cached
inode, or `idup`. -/
theorem Inv.take (hI : s.Inv) (pos : 0 < (s.fs.icache ip).ref) (fs : t.fs = s.fs.addRef ip 1)
    (held : t.held = s.setHeld p ip (s.held p ip + 1)) (holder : t.holder = s.holder)
    (phase : t.phase = s.phase) : t.Inv := by
  refine ⟨fun j => ?_, fs ▸ hI.unique.addRef (.inr pos)⟩
  have e := hI.entry j
  by_cases hj : j = ip
  · subst hj
    -- every process holds at least the references it held
    have more : ∀ q, s.held q j ≤ t.held q j := by
      intro q
      by_cases hq : q = p
      · subst hq
        simp [held]
      · simp [held, hq]
    refine ⟨?_, ?_, fun q hq => ?_, fun q hq => ?_, fun q hq => ?_⟩
    · rw [refs_setHeld_self s p j _ held, fs, Fs.addRef_icache_self, e.ref_eq]
      push_cast
      ring
    · rw [fs, Fs.addRef_icache_self, holder]
      exact e.locked_eq
    · rw [holder] at hq
      exact lt_of_lt_of_le (e.holder_held q hq) (more q)
    · rw [phase] at hq
      rw [holder]
      exact e.freeing_holder q hq
    · rw [phase] at hq
      obtain ⟨pos, other⟩ := e.dropping_held q hq
      exact ⟨lt_of_lt_of_le pos (more q), holder ▸ other⟩
  · refine e.frame ?_ ?_ (by rw [holder]) (fun q => ?_) (fun q => ?_) (fun q => ?_)
    · rw [fs, Fs.addRef_icache_of_ne _ _ hj]
    · rw [fs, Fs.addRef_icache_of_ne _ _ hj]
    · simp [held, hj]
    · rw [phase]
      exact id
    · rw [phase]
      exact id

/-- `iget` of an inode no entry with references caches, into the entry `ip` with none. -/
theorem Inv.recycle {dev inum : Nat} (hI : s.Inv) (missed : s.fs.cached dev inum = none)
    (zero : (s.fs.icache ip).ref = 0)
    (fs : t.fs = s.fs.setInode ip { s.fs.icache ip with dev, inum, ref := 1, valid := false })
    (held : t.held = s.setHeld p ip (s.held p ip + 1)) (holder : t.holder = s.holder)
    (phase : t.phase = s.phase) : t.Inv := by
  refine ⟨fun j => ?_, fs ▸ hI.unique.recycle missed⟩
  have e := hI.entry j
  by_cases hj : j = ip
  · subst hj
    -- nobody held the entry, so nobody holds its lock or is in `iput` on it
    have nobody := e.held_eq_zero zero
    have free := e.holder_eq_none_of_held nobody
    refine ⟨?_, ?_, fun q hq => ?_, fun q hq => ?_, fun q hq => ?_⟩
    · rw [refs_setHeld_self s p j _ held, fs, ← e.ref_eq, zero, nobody p]
      simp
    · rw [fs, holder]
      simpa using e.locked_eq
    · rw [holder, free] at hq
      cases hq
    · rw [phase] at hq
      exact absurd hq (e.not_freeing free q)
    · rw [phase] at hq
      have := (e.dropping_held q hq).1
      rw [nobody q] at this
      cases this
  · refine e.frame ?_ ?_ (by rw [holder]) (fun q => ?_) (fun q => ?_) (fun q => ?_)
    · simp [fs, Function.update_of_ne hj]
    · simp [fs, Function.update_of_ne hj]
    · simp [held, hj]
    · rw [phase]
      exact id
    · rw [phase]
      exact id

/-- `p` takes the sleep-lock of an unlocked entry it holds: `ilock`, whose read of the inode
keeps the entries' inodes, counts and locks, or `iput` on its way to free the inode. -/
theorem Inv.lock (hI : s.Inv) (idle : s.phase p = .idle) (pos : 0 < s.held p ip)
    (unlocked : (s.fs.icache ip).locked = false)
    (keeps : (s.fs.setInode ip { s.fs.icache ip with locked := true }).KeepsEntries t.fs)
    (holder : t.holder = Function.update s.holder ip (some p)) (held : t.held = s.held)
    (phase : t.phase = s.phase ∨ t.phase = Function.update s.phase p (.freeing ip)) : t.Inv := by
  -- the lock is all that changed of the entries
  have ref : ∀ j, (t.fs.icache j).ref = (s.fs.icache j).ref := fun j =>
    (keeps.ref j).trans (Fs.setLocked_apply _ _ _ Inode.ref (fun _ => rfl) j)
  have unique : t.fs.UniqueRefs := hI.unique.mono (fun j pos => ref j ▸ pos)
    (fun j => (keeps.dev j).trans (Fs.setLocked_apply _ _ _ Inode.dev (fun _ => rfl) j))
    (fun j => (keeps.inum j).trans (Fs.setLocked_apply _ _ _ Inode.inum (fun _ => rfl) j))
  refine ⟨fun j => ?_, unique⟩
  have e := hI.entry j
  -- no process but `p` moved, and `p` only into the free of `ip`
  have moved : ∀ q, t.phase q = s.phase q ∨ q = p ∧ t.phase q = .freeing ip := by
    intro q
    rcases phase with same | freeing
    · exact .inl (congrFun same q)
    · by_cases hq : q = p
      · subst hq
        exact .inr ⟨rfl, by simp [freeing]⟩
      · exact .inl (by simp [freeing, Function.update_of_ne hq])
  by_cases hj : j = ip
  · subst hj
    have free := e.holder_eq_none unlocked
    refine ⟨?_, ?_, fun q hq => ?_, fun q hq => ?_, fun q hq => ?_⟩
    · rw [ref, refs, held, e.ref_eq]
      rfl
    · rw [keeps.locked, holder]
      simp
    · rw [holder, Function.update_self, Option.some.injEq] at hq
      rw [held, ← hq]
      exact pos
    · rw [holder, Function.update_self]
      rcases moved q with same | ⟨rfl, -⟩
      · rw [same] at hq
        exact absurd hq (e.not_freeing free q)
      · rfl
    · rcases moved q with same | ⟨-, freeing⟩
      · rw [same] at hq
        have other : q ≠ p := by
          rintro rfl
          rw [idle] at hq
          cases hq
        rw [held, holder, Function.update_self]
        exact ⟨(e.dropping_held q hq).1, fun same => other (Option.some.inj same).symm⟩
      · rw [freeing] at hq
        cases hq
  · refine e.frame ?_ ?_ (by simp [holder, Function.update_of_ne hj]) (fun q => by rw [held])
      (fun q hq => ?_) (fun q hq => ?_)
    · exact ref j
    · rw [keeps.locked]
      simp [Function.update_of_ne hj]
    · rcases moved q with same | ⟨-, freeing⟩
      · rwa [same] at hq
      · rw [freeing] at hq
        exact absurd (IputPhase.freeing.inj hq) (Ne.symm hj)
    · rcases moved q with same | ⟨-, freeing⟩
      · rwa [same] at hq
      · rw [freeing] at hq
        cases hq

/-- `p` releases the sleep-lock it holds on `ip`: by `iunlock`, or at the end of `iput`'s
free, which goes on to `ip->ref--`. -/
theorem Inv.unlock {fs1 : Fs} (hI : s.Inv) (holding : s.holder ip = some p)
    (keeps : s.fs.KeepsEntries fs1) (fs : t.fs = fs1.releasesleep ip)
    (holder : t.holder = Function.update s.holder ip none) (held : t.held = s.held)
    (phase : s.phase p = .idle ∧ t.phase = s.phase ∨
      s.phase p = .freeing ip ∧ t.phase = Function.update s.phase p (.dropping ip)) : t.Inv := by
  -- the lock is all that changed of the entries
  have kept : ∀ {α : Type} (f : Inode → α), (∀ x : Inode, f { x with locked := false } = f x) →
      (∀ j, f (fs1.icache j) = f (s.fs.icache j)) → ∀ j, f (t.fs.icache j) = f (s.fs.icache j) := by
    intro α f hf same j
    rw [fs, Fs.releasesleep, Fs.setLocked_apply _ _ _ f hf, same]
  have ref := kept Inode.ref (fun _ => rfl) keeps.ref
  have unique : t.fs.UniqueRefs := hI.unique.mono (fun j pos => ref j ▸ pos)
    (kept Inode.dev (fun _ => rfl) keeps.dev) (kept Inode.inum (fun _ => rfl) keeps.inum)
  refine ⟨fun j => ?_, unique⟩
  have e := hI.entry j
  by_cases hj : j = ip
  · subst hj
    -- nobody is left in the free of `j`, and the only new caller of `ip->ref--` is `p`
    have noFree : ∀ q, t.phase q ≠ .freeing j := by
      intro q hq
      rcases phase with ⟨idle, same⟩ | ⟨freeing, moved⟩
      · rw [same] at hq
        rw [e.freeing_holder q hq, Option.some.injEq] at holding
        rw [holding, idle] at hq
        cases hq
      · by_cases hqp : q = p
        · rw [hqp, moved, Function.update_self] at hq
          cases hq
        · rw [moved, Function.update_of_ne hqp] at hq
          rw [e.freeing_holder q hq, Option.some.injEq] at holding
          exact hqp holding
    have dropped : ∀ q, t.phase q = .dropping j → s.phase q = .dropping j ∨ q = p := by
      intro q hq
      rcases phase with ⟨-, same⟩ | ⟨-, moved⟩
      · rw [same] at hq
        exact .inl hq
      · by_cases hqp : q = p
        · exact .inr hqp
        · rw [moved, Function.update_of_ne hqp] at hq
          exact .inl hq
    refine ⟨?_, ?_, fun q hq => ?_, fun q hq => absurd hq (noFree q), fun q hq => ?_⟩
    · rw [ref, refs, held, e.ref_eq]
      rfl
    · rw [fs, holder, Fs.releasesleep]
      simp
    · rw [holder, Function.update_self] at hq
      cases hq
    · rw [held, holder, Function.update_self]
      refine ⟨?_, (Option.some_ne_none q).symm⟩
      rcases dropped q hq with still | rfl
      · exact (e.dropping_held q still).1
      · exact e.holder_held q holding
  · -- the phases that moved are `p`'s, on `ip`
    have others : ∀ q, (t.phase q = .freeing j → s.phase q = .freeing j) ∧
        (t.phase q = .dropping j → s.phase q = .dropping j) := by
      intro q
      rcases phase with ⟨-, same⟩ | ⟨-, moved⟩
      · rw [same]
        exact ⟨id, id⟩
      · rw [moved]
        exact phase_update_of_ne (.inr (.inr rfl)) hj q
    refine e.frame (ref j) ?_ (by simp [holder, Function.update_of_ne hj]) (fun q => by rw [held])
      (fun q => (others q).1) (fun q => (others q).2)
    rw [fs, Fs.releasesleep, Fs.setInode_icache, Function.update_of_ne hj, keeps.locked]

/-- `iput` that found the inode linked, or referenced elsewhere: it released the lock it took
and goes on to `ip->ref--`. -/
theorem Inv.release (hI : s.Inv) (idle : s.phase p = .idle) (pos : 0 < s.held p ip)
    (unlocked : (s.fs.icache ip).locked = false) (fs : t.fs = s.fs) (holder : t.holder = s.holder)
    (held : t.held = s.held) (phase : t.phase = Function.update s.phase p (.dropping ip)) :
    t.Inv := by
  refine ⟨fun j => ?_, fs ▸ hI.unique⟩
  have e := hI.entry j
  by_cases hj : j = ip
  · subst hj
    refine ⟨?_, ?_, fun q hq => ?_, fun q hq => ?_, fun q hq => ?_⟩
    · rw [fs, refs, held, e.ref_eq]
      rfl
    · rw [fs, holder]
      exact e.locked_eq
    · rw [held]
      exact e.holder_held q (holder ▸ hq)
    · have other : q ≠ p := by
        rintro rfl
        rw [phase, Function.update_self] at hq
        cases hq
      rw [phase, Function.update_of_ne other] at hq
      rw [holder]
      exact e.freeing_holder q hq
    · rw [held, holder]
      by_cases hqp : q = p
      · subst hqp
        rw [e.holder_eq_none unlocked]
        exact ⟨pos, (Option.some_ne_none q).symm⟩
      · rw [phase, Function.update_of_ne hqp] at hq
        exact e.dropping_held q hq
  · refine e.frame (by rw [fs]) (by rw [fs]) (by rw [holder]) (fun q => by rw [held])
      (fun q => ?_) (fun q => ?_)
    · rw [phase]
      exact (phase_update_of_ne (.inr (.inr rfl)) hj q).1
    · rw [phase]
      exact (phase_update_of_ne (.inr (.inr rfl)) hj q).2

/-- `ip->ref--` at the end of `iput`. -/
theorem Inv.drop (hI : s.Inv) (dropping : s.phase p = .dropping ip)
    (fs : t.fs = s.fs.addRef ip (-1)) (held : t.held = s.setHeld p ip (s.held p ip - 1))
    (holder : t.holder = s.holder) (phase : t.phase = Function.update s.phase p .idle) : t.Inv := by
  refine ⟨fun j => ?_, fs ▸ hI.unique.addRef (.inl (by norm_num))⟩
  have e := hI.entry j
  by_cases hj : j = ip
  · subst hj
    obtain ⟨pos, notHolder⟩ := e.dropping_held p dropping
    -- `p` was the only process to move, and it holds neither the lock nor a place in `iput`
    have others : ∀ q, q ≠ p → t.held q j = s.held q j := fun q hq => by simp [held, hq]
    have left : ∀ q, t.phase q = .freeing j ∨ t.phase q = .dropping j → q ≠ p := by
      rintro q hq rfl
      rw [phase, Function.update_self] at hq
      rcases hq with hq | hq <;> cases hq
    refine ⟨?_, ?_, fun q hq => ?_, fun q hq => ?_, fun q hq => ?_⟩
    · have one : ((s.held p j - 1 : ℕ) : ℤ) = s.held p j - 1 := by omega
      rw [refs_setHeld_self s p j _ held, fs, Fs.addRef_icache_self, e.ref_eq, one]
      ring
    · rw [fs, Fs.addRef_icache_locked, holder]
      exact e.locked_eq
    · rw [holder] at hq
      have other : q ≠ p := by
        rintro rfl
        exact notHolder hq
      rw [others q other]
      exact e.holder_held q hq
    · have other := left q (.inl hq)
      rw [phase, Function.update_of_ne other] at hq
      rw [holder]
      exact e.freeing_holder q hq
    · have other := left q (.inr hq)
      rw [phase, Function.update_of_ne other] at hq
      rw [others q other, holder]
      exact e.dropping_held q hq
  · refine e.frame (by rw [fs, Fs.addRef_icache_of_ne _ _ hj])
      (by rw [fs, Fs.addRef_icache_of_ne _ _ hj]) (by rw [holder]) (fun q => by simp [held, hj])
      (fun q => ?_) (fun q => ?_)
    · rw [phase]
      exact (phase_update_of_ne (.inl rfl) hj q).1
    · rw [phase]
      exact (phase_update_of_ne (.inl rfl) hj q).2

/-- **Every step keeps the invariant.** -/
theorem Inv.step {s' : Icache Pid} (hI : s.Inv) {op : IcacheOp}
    (h : s.step p op = some (.ok s')) : s'.Inv := by
  cases op with
  | iget dev inum =>
    obtain ⟨-, fs, ip, got, rfl⟩ := step_iget h
    rcases Fs.iget_ok got with ⟨found, rfl⟩ | ⟨missed, empty, rfl⟩
    · exact hI.take (Fs.cached_spec found).1 rfl rfl rfl rfl
    · exact hI.recycle missed (Fs.firstEmpty_eq_some_iff.mp empty).1 rfl rfl rfl rfl
  | idup ip =>
    obtain ⟨-, pos, rfl⟩ := step_idup h
    exact hI.take ((hI.entry ip).held_pos_ref pos) rfl rfl rfl rfl
  | ilock ip =>
    obtain ⟨idle, pos, -, fs, locked, rfl⟩ := step_ilock h
    obtain ⟨-, unlocked, keeps, -⟩ := Fs.ilock_ok locked
    exact hI.lock idle pos unlocked keeps rfl rfl (.inl rfl)
  | iunlock ip =>
    obtain ⟨idle, -, holding, fs, unlocked, rfl⟩ := step_iunlock h
    obtain ⟨-, -, rfl⟩ := Fs.iunlock_ok unlocked
    exact hI.unlock holding (.refl _) rfl rfl rfl (.inl ⟨idle, rfl⟩)
  | iput ip =>
    obtain ⟨idle, pos, -, unlocked, ⟨-, rfl⟩ | ⟨-, rfl⟩⟩ := step_iput h
    · exact hI.lock idle pos unlocked (.refl _) rfl rfl (.inr rfl)
    · exact hI.release idle pos unlocked rfl rfl rfl rfl
  | free =>
    obtain ⟨ip, freeing, fs, freed, rfl⟩ := step_free h
    exact hI.unlock ((hI.entry ip).freeing_holder p freeing) (Fs.keepsEntries_ifree freed) rfl rfl
      rfl (.inr ⟨freeing, rfl⟩)
  | drop =>
    obtain ⟨ip, dropping, rfl⟩ := step_drop h
    exact hI.drop dropping rfl rfl rfl rfl

omit [DecidableEq Pid] in
theorem init_inv (fs : Fs) : (init fs : Icache Pid).Inv := by
  refine ⟨fun ip => ⟨?_, rfl, nofun, nofun, nofun⟩, fun ip ip' pos => absurd pos (lt_irrefl 0)⟩
  simp [init, refs, Inode.unused]

/-- **Every reachable state satisfies the invariant**, by induction on the run. -/
theorem Reachable.inv {s : Icache Pid} (h : s.Reachable) : s.Inv := by
  induction h with
  | init fs => exact init_inv fs
  | step p op _ stepped ih => exact ih.step stepped

end Steps

end Icache

end Xv6
