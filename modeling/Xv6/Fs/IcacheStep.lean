import Xv6.Fs.Icache

/-!
# Processes calling into the inode cache

Any number of processes call `iget`, `idup`, `ilock`, `iunlock` and `iput`, and the kernel
interleaves them wherever a process releases `icache.lock` or sleeps on an entry's
sleep-lock.  A step of process `p` is one such stretch: `iget` and `idup`, which run whole
under `icache.lock`; `ilock` once `acquiresleep` returns, with its read of the inode under
the sleep-lock; `iunlock`; and `iput` in three, as `fs.c` has it: up to its read of
`ip->ref` under `icache.lock` (`iput`), the truncation and free of an inode it decided to
free (`free`), and, after `releasesleep`, `ip->ref--` (`drop`).  `IputPhase` says where a
process is between them.

A process calls a routine only on an entry it holds a reference to, one its `iget` or
`idup` returned, and each `iput` gives one back: `held` counts them.  `holder` is the
`lk->pid` of each entry's sleep-lock: `ilock` and `iput` sleep while another process holds
it, and `iunlock` panics unless the caller does (`holdingsleep`).  A panic ends the run.

`step_iget` through `step_drop` say, once per routine, everything a step that returns can
have done.
-/

namespace Xv6

/-- Where a process is in `iput`, between two of its steps. -/
inductive IputPhase where
  | idle
  /-- Past the read of `ip->ref` that found the only reference: the free remains, under the
  sleep-lock. -/
  | freeing (ip : Fin ninode)
  /-- Past `releasesleep`: `ip->ref--` remains. -/
  | dropping (ip : Fin ninode)
  deriving DecidableEq

/-- What a process does next. -/
inductive IcacheOp where
  | iget (dev inum : Nat)
  | idup (ip : Fin ninode)
  | ilock (ip : Fin ninode)
  | iunlock (ip : Fin ninode)
  | iput (ip : Fin ninode)
  | free
  | drop

/-- The file system under interleaved calls: each entry's sleep-lock holder, the references
each process holds to each entry, and where each process is in `iput`. -/
structure Icache (Pid : Type) where
  fs : Fs
  holder : Fin ninode → Option Pid
  held : Pid → Fin ninode → Nat
  phase : Pid → IputPhase

namespace Icache

variable {Pid : Type} [DecidableEq Pid]

/-- After `iinit` on the file system `fs`: every entry unused, no lock held, and no process
in the cache. -/
def init (fs : Fs) : Icache Pid :=
  ⟨{ fs with icache := fun _ => Inode.unused }, fun _ => none, fun _ _ => 0, fun _ => .idle⟩

/-- The references after `p` comes to hold `n` references to `ip`. -/
def setHeld (s : Icache Pid) (p : Pid) (ip : Fin ninode) (n : Nat) : Pid → Fin ninode → Nat :=
  Function.update s.held p (Function.update (s.held p) ip n)

/-- `lk->locked` with `lk->pid` another process: `p`'s `acquiresleep` sleeps. -/
def lockedByOther (s : Icache Pid) (p : Pid) (ip : Fin ninode) : Bool :=
  match s.holder ip with
  | some q => q != p
  | none => false

/-- One step of process `p`: `none` when `p` cannot take it (it sleeps, is elsewhere in
`iput`, or names an entry it holds no reference to). -/
def step (s : Icache Pid) (p : Pid) : IcacheOp → Option (Except Fault (Icache Pid))
  | .iget dev inum =>
    if s.phase p = .idle then
      some do
        let (fs, ip) ← s.fs.iget dev inum
        return { s with fs, held := s.setHeld p ip (s.held p ip + 1) }
    else none
  | .idup ip =>
    if s.phase p = .idle ∧ 0 < s.held p ip then
      some (.ok { s with fs := s.fs.idup ip, held := s.setHeld p ip (s.held p ip + 1) })
    else none
  | .ilock ip =>
    if s.phase p = .idle ∧ 0 < s.held p ip ∧ s.lockedByOther p ip = false then
      some do
        let fs ← s.fs.ilock ip
        return { s with fs, holder := Function.update s.holder ip (some p) }
    else none
  | .iunlock ip =>
    if s.phase p = .idle ∧ 0 < s.held p ip then
      -- `holdingsleep(&ip->lock)`: the lock is held, and by `p`
      if s.holder ip ≠ some p then some (.error (.panic "iunlock"))
      else some do
        let fs ← s.fs.iunlock ip
        return { s with fs, holder := Function.update s.holder ip none }
    else none
  | .iput ip =>
    if s.phase p = .idle ∧ 0 < s.held p ip ∧ s.lockedByOther p ip = false then
      some do
        let fs ← s.fs.acquiresleep ip
        let i := fs.icache ip
        if i.valid ∧ i.din.nlink = 0 ∧ i.ref = 1 then
          -- the only reference to an inode with no links: free it, still under the lock
          return { s with
            fs, holder := Function.update s.holder ip (some p),
            phase := Function.update s.phase p (.freeing ip) }
        else
          return { s with fs := fs.releasesleep ip, phase := Function.update s.phase p (.dropping ip) }
    else none
  | .free =>
    match s.phase p with
    | .freeing ip =>
      some do
        let fs ← s.fs.ifree ip
        return { s with
          fs := fs.releasesleep ip, holder := Function.update s.holder ip none,
          phase := Function.update s.phase p (.dropping ip) }
    | _ => none
  | .drop =>
    match s.phase p with
    | .dropping ip =>
      some (.ok { s with
        fs := s.fs.addRef ip (-1), held := s.setHeld p ip (s.held p ip - 1),
        phase := Function.update s.phase p .idle })
    | _ => none

/-- The states some interleaving reaches from `iinit`. -/
inductive Reachable : Icache Pid → Prop
  | init (fs : Fs) : Reachable (init fs)
  | step {s s' : Icache Pid} (p : Pid) (op : IcacheOp) : Reachable s →
      s.step p op = some (.ok s') → Reachable s'

/-- Steps one after another, until one cannot be taken or panics. -/
def steps (s : Icache Pid) : List (Pid × IcacheOp) → Option (Except Fault (Icache Pid))
  | [] => some (.ok s)
  | (p, op) :: ops =>
    match s.step p op with
    | some (.ok s') => s'.steps ops
    | r => r

/-! ## What a step that returns did -/

section Inversion

variable {s s' : Icache Pid} {p : Pid} {ip : Fin ninode}

@[simp] theorem setHeld_apply (s : Icache Pid) (p : Pid) (ip : Fin ninode) (n : Nat)
    (q : Pid) (j : Fin ninode) :
    s.setHeld p ip n q j = if q = p ∧ j = ip then n else s.held q j := by
  by_cases hq : q = p
  · subst hq
    by_cases hj : j = ip
    · subst hj
      simp [setHeld]
    · simp [setHeld, hj]
  · simp [setHeld, hq]

theorem step_iget {dev inum : Nat} (h : s.step p (.iget dev inum) = some (.ok s')) :
    s.phase p = .idle ∧ ∃ fs ip, s.fs.iget dev inum = .ok (fs, ip) ∧
      s' = { s with fs, held := s.setHeld p ip (s.held p ip + 1) } := by
  rw [step] at h
  split at h
  · next idle =>
    obtain ⟨⟨fs, ip⟩, got, done⟩ := except_bind_eq_ok (Option.some.inj h)
    cases done
    exact ⟨idle, fs, ip, got, rfl⟩
  · cases h

theorem step_idup (h : s.step p (.idup ip) = some (.ok s')) :
    s.phase p = .idle ∧ 0 < s.held p ip ∧
      s' = { s with fs := s.fs.idup ip, held := s.setHeld p ip (s.held p ip + 1) } := by
  rw [step] at h
  split at h
  · next called =>
    cases h
    exact ⟨called.1, called.2, rfl⟩
  · cases h

theorem step_ilock (h : s.step p (.ilock ip) = some (.ok s')) :
    s.phase p = .idle ∧ 0 < s.held p ip ∧ s.lockedByOther p ip = false ∧
      ∃ fs, s.fs.ilock ip = .ok fs ∧ s' = { s with fs, holder := Function.update s.holder ip (some p) } := by
  rw [step] at h
  split at h
  · next called =>
    obtain ⟨fs, locked, done⟩ := except_bind_eq_ok (Option.some.inj h)
    cases done
    exact ⟨called.1, called.2.1, called.2.2, fs, locked, rfl⟩
  · cases h

theorem step_iunlock (h : s.step p (.iunlock ip) = some (.ok s')) :
    s.phase p = .idle ∧ 0 < s.held p ip ∧ s.holder ip = some p ∧
      ∃ fs, s.fs.iunlock ip = .ok fs ∧ s' = { s with fs, holder := Function.update s.holder ip none } := by
  rw [step] at h
  split at h
  · next called =>
    split at h
    · cases h
    · next holding =>
      obtain ⟨fs, unlocked, done⟩ := except_bind_eq_ok (Option.some.inj h)
      cases done
      exact ⟨called.1, called.2, not_not.mp holding, fs, unlocked, rfl⟩
  · cases h

/-- `iput` up to its read of `ip->ref`: it took the unlocked entry's sleep-lock, and either
keeps it to free the inode, or has released it again. -/
theorem step_iput (h : s.step p (.iput ip) = some (.ok s')) :
    s.phase p = .idle ∧ 0 < s.held p ip ∧ s.lockedByOther p ip = false ∧
      (s.fs.icache ip).locked = false ∧
      (((s.fs.icache ip).valid = true ∧ (s.fs.icache ip).din.nlink = 0 ∧ (s.fs.icache ip).ref = 1) ∧
          s' = { s with
            fs := s.fs.setInode ip { s.fs.icache ip with locked := true },
            holder := Function.update s.holder ip (some p),
            phase := Function.update s.phase p (.freeing ip) } ∨
        ¬ ((s.fs.icache ip).valid = true ∧ (s.fs.icache ip).din.nlink = 0 ∧ (s.fs.icache ip).ref = 1) ∧
          s' = { s with phase := Function.update s.phase p (.dropping ip) }) := by
  rw [step] at h
  split at h
  · next called =>
    obtain ⟨fs, acquired, rest⟩ := except_bind_eq_ok (Option.some.inj h)
    obtain ⟨unlocked, rfl⟩ := Fs.acquiresleep_ok acquired
    refine ⟨called.1, called.2.1, called.2.2, unlocked, ?_⟩
    simp only [Fs.setInode_icache, Function.update_self] at rest
    split at rest
    · next frees =>
      cases rest
      exact .inl ⟨frees, rfl⟩
    · next keeps =>
      cases rest
      rw [Fs.releasesleep_acquired unlocked]
      exact .inr ⟨keeps, rfl⟩
  · cases h

theorem step_free (h : s.step p .free = some (.ok s')) :
    ∃ ip, s.phase p = .freeing ip ∧ ∃ fs, s.fs.ifree ip = .ok fs ∧
      s' = { s with
        fs := fs.releasesleep ip, holder := Function.update s.holder ip none,
        phase := Function.update s.phase p (.dropping ip) } := by
  rw [step] at h
  split at h
  · next ip freeing =>
    obtain ⟨fs, freed, done⟩ := except_bind_eq_ok (Option.some.inj h)
    cases done
    exact ⟨ip, freeing, fs, freed, rfl⟩
  · cases h

theorem step_drop (h : s.step p .drop = some (.ok s')) :
    ∃ ip, s.phase p = .dropping ip ∧
      s' = { s with
        fs := s.fs.addRef ip (-1), held := s.setHeld p ip (s.held p ip - 1),
        phase := Function.update s.phase p .idle } := by
  rw [step] at h
  split at h
  · next ip dropping =>
    cases h
    exact ⟨ip, dropping, rfl⟩
  · cases h

/-- A run that returns took its first step, and the rest of the run returned. -/
theorem steps_cons_eq_ok {op : IcacheOp} {ops : List (Pid × IcacheOp)}
    (h : s.steps ((p, op) :: ops) = some (.ok s')) :
    ∃ s1, s.step p op = some (.ok s1) ∧ s1.steps ops = some (.ok s') := by
  cases stepped : s.step p op with
  | none => simp only [steps, stepped] at h; cases h
  | some r =>
    cases r with
    | error f => simp only [steps, stepped] at h; cases h
    | ok s1 =>
      simp only [steps, stepped] at h
      exact ⟨s1, rfl, h⟩

end Inversion

/-! ## Steps that can be taken -/

section Forward

variable {s : Icache Pid} {p : Pid} {ip : Fin ninode} {fs : Fs}

theorem step_iget_of {dev inum : Nat} (idle : s.phase p = .idle)
    (got : s.fs.iget dev inum = .ok (fs, ip)) :
    s.step p (.iget dev inum) =
      some (.ok { s with fs, held := s.setHeld p ip (s.held p ip + 1) }) := by
  rw [step, if_pos idle, got]
  rfl

theorem step_ilock_of (idle : s.phase p = .idle) (pos : 0 < s.held p ip)
    (free : s.lockedByOther p ip = false) (locked : s.fs.ilock ip = .ok fs) :
    s.step p (.ilock ip) = some (.ok { s with fs, holder := Function.update s.holder ip (some p) }) := by
  rw [step, if_pos ⟨idle, pos, free⟩, locked]
  rfl

theorem step_ilock_error {f : Fault} (idle : s.phase p = .idle) (pos : 0 < s.held p ip)
    (free : s.lockedByOther p ip = false) (failed : s.fs.ilock ip = .error f) :
    s.step p (.ilock ip) = some (.error f) := by
  rw [step, if_pos ⟨idle, pos, free⟩, failed]
  rfl

theorem step_iunlock_of (idle : s.phase p = .idle) (pos : 0 < s.held p ip)
    (holding : s.holder ip = some p) (unlocked : s.fs.iunlock ip = .ok fs) :
    s.step p (.iunlock ip) = some (.ok { s with fs, holder := Function.update s.holder ip none }) := by
  rw [step, if_pos ⟨idle, pos⟩, if_neg (not_not.mpr holding), unlocked]
  rfl

/-- `iput` of the only reference to a valid inode with no links goes on to free it. -/
theorem step_iput_freeing (idle : s.phase p = .idle) (pos : 0 < s.held p ip)
    (free : s.lockedByOther p ip = false) (unlocked : (s.fs.icache ip).locked = false)
    (frees : (s.fs.icache ip).valid = true ∧ (s.fs.icache ip).din.nlink = 0 ∧
      (s.fs.icache ip).ref = 1) :
    s.step p (.iput ip) = some (.ok { s with
      fs := s.fs.setInode ip { s.fs.icache ip with locked := true },
      holder := Function.update s.holder ip (some p),
      phase := Function.update s.phase p (.freeing ip) }) := by
  rw [step, if_pos ⟨idle, pos, free⟩]
  simp only [Fs.acquiresleep, unlocked, Bool.false_eq_true, if_false, except_pure, except_ok_bind,
    Fs.setInode_icache, Function.update_self, if_pos frees]

theorem step_free_of (freeing : s.phase p = .freeing ip) (freed : s.fs.ifree ip = .ok fs) :
    s.step p .free = some (.ok { s with
      fs := fs.releasesleep ip, holder := Function.update s.holder ip none,
      phase := Function.update s.phase p (.dropping ip) }) := by
  simp only [step, freeing, freed, except_ok_bind]
  rfl

end Forward

end Icache

end Xv6
