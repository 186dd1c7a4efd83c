import Xv6.Bio.Cache

/-!
# Processes using the buffer cache

Any number of processes call `bread`, `bwrite`, `log_write` and `brelse`, and the kernel
interleaves them wherever a process releases `bcache.lock` or sleeps.  A step of process
`p` is one such stretch: `bget`'s critical section; the rest of `bread` once
`acquiresleep` returns (`wake`); a change of a held buffer's data; `bwrite`; `log_write`'s
`B_DIRTY`; `brelse` up to `releasesleep`; and `brelse`'s critical section (`release`).
`BufPhase` is where a process is between two of its steps.

The processes keep the discipline the interface in `bio.c` asks for: they change data only
in a buffer they hold, and mark every change with `bwrite` or `log_write` before `brelse`;
a step that would break it is not one `step` takes.  A panic ends the run.

Three fields record the run's history and are read by no step: `latest`, the data last
written to each block through any buffer; `assigned`, the buffers `bget`'s recycling has
tagged; `pending`, the buffers changed since their last `bwrite` or `log_write`.
-/

namespace Xv6

/-- Where a process is in the buffer cache, between two of its steps. -/
inductive BufPhase where
  | idle
  /-- In `bread(dev, blockno)`: `bget` chose `b`; `acquiresleep` and the read remain. -/
  | reading (b : Fin nbuf) (dev blockno : Nat)
  /-- In `brelse(b)`: the sleep-lock is released; dropping the reference remains. -/
  | releasing (b : Fin nbuf)
  deriving DecidableEq

/-- The references to `b` a process in this phase holds without holding `b`'s lock. -/
def BufPhase.refs (b : Fin nbuf) : BufPhase → Nat
  | .idle => 0
  | .reading b' _ _ => if b' = b then 1 else 0
  | .releasing b' => if b' = b then 1 else 0

/-- What a process does next. -/
inductive BufOp where
  | bread (dev blockno : Nat)
  | wake
  | write (b : Fin nbuf) (data : Block)
  | bwrite (b : Fin nbuf)
  | logWrite (b : Fin nbuf)
  | brelse (b : Fin nbuf)
  | release

/-- The buffer cache, the disks, each process's phase, and the history fields. -/
structure Bio (Pid : Type) where
  cache : BCache Pid
  disk : Nat × Nat → Block
  proc : Pid → BufPhase
  latest : Nat × Nat → Block
  assigned : Fin nbuf → Bool
  pending : Fin nbuf → Bool

namespace Bio

variable {Pid : Type} [DecidableEq Pid]

/-- After `binit`, with every process outside the cache. -/
def boot (disk : Nat × Nat → Block) : Bio Pid :=
  ⟨BCache.binit, disk, fun _ => .idle, disk, fun _ => false, fun _ => false⟩

/-- One step of process `p`: `none` when `p` cannot take it (it sleeps, is elsewhere in
the cache, or would break the discipline). -/
def step (s : Bio Pid) (p : Pid) : BufOp → Option (Except Fault (Bio Pid))
  | .bread dev blockno =>
    if s.proc p = .idle then
      some do
        let (c, b) ← s.cache.bget dev blockno
        let proc := Function.update s.proc p (.reading b dev blockno)
        -- the history: `bget` tagged `b` itself when its first loop found nothing
        let assigned := if (s.cache.lookup dev blockno).isSome then s.assigned
          else Function.update s.assigned b true
        return { s with cache := c, proc, assigned }
    else none
  | .wake =>
    match s.proc p with
    | .reading b _ _ =>
      (s.cache.acquiresleep p b).map fun c => do
        let (disk, c) ← c.breadFill p s.disk b
        return { s with cache := c, disk := disk, proc := Function.update s.proc p .idle }
    | _ => none
  | .write b data =>
    if s.proc p = .idle ∧ s.cache.holding p b = true then
      let latest := Function.update s.latest (s.cache.buf b).tag data
      let pending := Function.update s.pending b true
      some (.ok { s with cache := s.cache.setBuf b { s.cache.buf b with data }, latest, pending })
    else none
  | .bwrite b =>
    if s.proc p = .idle then
      some do
        let (disk, c) ← s.cache.bwrite p s.disk b
        return { s with cache := c, disk := disk, pending := Function.update s.pending b false }
    else none
  | .logWrite b =>
    if s.proc p = .idle ∧ s.cache.holding p b = true then
      some (.ok { s with cache := s.cache.logWrite b, pending := Function.update s.pending b false })
    else none
  | .brelse b =>
    if s.proc p = .idle ∧ s.pending b = false then
      some do
        let c ← s.cache.brelse p b
        return { s with cache := c, proc := Function.update s.proc p (.releasing b) }
    else none
  | .release =>
    match s.proc p with
    | .releasing b =>
      some (.ok { s with cache := s.cache.brelseFinish b, proc := Function.update s.proc p .idle })
    | _ => none

/-- The states some interleaving reaches from boot. -/
inductive Reachable : Bio Pid → Prop
  | boot (disk : Nat × Nat → Block) : Reachable (boot disk)
  | step {s s' : Bio Pid} (p : Pid) (op : BufOp) : Reachable s → s.step p op = some (.ok s') →
      Reachable s'

/-- Steps one after another, until one cannot be taken or panics. -/
def steps (s : Bio Pid) : List (Pid × BufOp) → Option (Except Fault (Bio Pid))
  | [] => some (.ok s)
  | (p, op) :: ops =>
    match s.step p op with
    | some (.ok s') => s'.steps ops
    | r => r

/-- A run that returns took its first step, and the rest of the run returned. -/
theorem steps_cons_eq_ok {s s' : Bio Pid} {p : Pid} {op : BufOp} {ops : List (Pid × BufOp)}
    (h : s.steps ((p, op) :: ops) = some (.ok s')) :
    ∃ s1, s.step p op = some (.ok s1) ∧ s1.steps ops = some (.ok s') := by
  cases stepped : s.step p op with
  | none => simp only [steps, stepped] at h; cases h
  | some r =>
    cases r with
    | error f => simp only [steps, stepped] at h; cases h
    | ok s1 =>
      simp only [steps, stepped] at h
      exact ⟨s1, rfl, h⟩

/-! ## What each step does -/

section Steps

variable {s s' : Bio Pid} {p : Pid}

theorem step_bread {dev blockno : Nat} (h : s.step p (.bread dev blockno) = some (.ok s')) :
    s.proc p = .idle ∧ ∃ c b, s.cache.bget dev blockno = .ok (c, b) ∧
      s' = ⟨c, s.disk, Function.update s.proc p (.reading b dev blockno), s.latest,
        if (s.cache.lookup dev blockno).isSome then s.assigned else Function.update s.assigned b true,
        s.pending⟩ := by
  rw [step] at h
  by_cases hp : s.proc p = .idle
  swap
  · rw [if_neg hp] at h
    cases h
  rw [if_pos hp] at h
  refine ⟨hp, ?_⟩
  cases hb : s.cache.bget dev blockno with
  | error e => simp [hb] at h
  | ok r =>
    obtain ⟨c, b⟩ := r
    simp only [hb, except_ok_bind, except_pure, Option.some.injEq, Except.ok.injEq] at h
    exact ⟨c, b, rfl, h.symm⟩

theorem step_wake (h : s.step p .wake = some (.ok s')) :
    ∃ b dev blockno c disk c', s.proc p = .reading b dev blockno ∧
      s.cache.acquiresleep p b = some c ∧ c.breadFill p s.disk b = .ok (disk, c') ∧
      s' = { s with cache := c', disk := disk, proc := Function.update s.proc p .idle } := by
  simp only [step] at h
  split at h
  · rename_i b dev blockno hp
    cases ha : s.cache.acquiresleep p b with
    | none => simp [ha] at h
    | some c =>
      cases hf : c.breadFill p s.disk b with
      | error e => simp [ha, hf] at h
      | ok r =>
        obtain ⟨disk, c'⟩ := r
        simp only [ha, hf, Option.map_some, except_ok_bind, except_pure, Option.some.injEq,
          Except.ok.injEq] at h
        exact ⟨b, dev, blockno, c, disk, c', hp, ha, hf, h.symm⟩
  · cases h

theorem step_write {b : Fin nbuf} {data : Block} (h : s.step p (.write b data) = some (.ok s')) :
    s.proc p = .idle ∧ s.cache.holding p b = true ∧
      s' = ⟨s.cache.setBuf b { s.cache.buf b with data }, s.disk, s.proc,
        Function.update s.latest (s.cache.buf b).tag data, s.assigned,
        Function.update s.pending b true⟩ := by
  simp only [step] at h
  split_ifs at h with hp
  simp only [Option.some.injEq, Except.ok.injEq] at h
  exact ⟨hp.1, hp.2, h.symm⟩

theorem step_bwrite {b : Fin nbuf} (h : s.step p (.bwrite b) = some (.ok s')) :
    s.proc p = .idle ∧ ∃ disk c, s.cache.bwrite p s.disk b = .ok (disk, c) ∧
      s' = { s with cache := c, disk := disk, pending := Function.update s.pending b false } := by
  simp only [step] at h
  split_ifs at h with hp
  refine ⟨hp, ?_⟩
  cases hw : s.cache.bwrite p s.disk b with
  | error e => simp [hw] at h
  | ok r =>
    obtain ⟨disk, c⟩ := r
    simp only [hw, except_ok_bind, except_pure, Option.some.injEq, Except.ok.injEq] at h
    exact ⟨disk, c, rfl, h.symm⟩

theorem step_logWrite {b : Fin nbuf} (h : s.step p (.logWrite b) = some (.ok s')) :
    s.proc p = .idle ∧ s.cache.holding p b = true ∧
      s' = { s with cache := s.cache.logWrite b, pending := Function.update s.pending b false } := by
  simp only [step] at h
  split_ifs at h with hp
  simp only [Option.some.injEq, Except.ok.injEq] at h
  exact ⟨hp.1, hp.2, h.symm⟩

theorem step_brelse {b : Fin nbuf} (h : s.step p (.brelse b) = some (.ok s')) :
    s.proc p = .idle ∧ s.pending b = false ∧ ∃ c, s.cache.brelse p b = .ok c ∧
      s' = { s with cache := c, proc := Function.update s.proc p (.releasing b) } := by
  simp only [step] at h
  split_ifs at h with hp
  refine ⟨hp.1, hp.2, ?_⟩
  cases hr : s.cache.brelse p b with
  | error e => simp [hr] at h
  | ok c =>
    simp only [hr, except_ok_bind, except_pure, Option.some.injEq, Except.ok.injEq] at h
    exact ⟨c, rfl, h.symm⟩

theorem step_release (h : s.step p .release = some (.ok s')) :
    ∃ b, s.proc p = .releasing b ∧
      s' = { s with cache := s.cache.brelseFinish b, proc := Function.update s.proc p .idle } := by
  simp only [step] at h
  split at h
  · rename_i b hp
    simp only [Option.some.injEq, Except.ok.injEq] at h
    exact ⟨b, hp, h.symm⟩
  · cases h

end Steps

end Bio

end Xv6
