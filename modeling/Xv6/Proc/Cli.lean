import Xv6.Param

/-!
# Interrupt nesting: `pushcli` and `popcli`

`spinlock.c`'s `pushcli` and `popcli` are `cli` and `sti` made to nest: `ncli` counts the
levels, and `intena` records, at the outermost `pushcli`, whether interrupts were enabled,
for the outermost `popcli` to restore.  `acquire`, `release`, `holding` and `myproc` each
bracket their work with them, and `sched` carries `intena` across a context switch in its
own frame, "because intena is a property of this kernel thread, not this CPU".

`CpuSys` is one processor running kernel threads, the scheduler's and the processes': the
interrupt flag and `struct cpu`'s `ncli` and `intena`, the spinlocks it holds, the running
thread, and the `intena` each switched-out process keeps in its `sched` frame.  `entry`
records the run's history and is read by no step: for each thread, the interrupt flag just
before its outermost `pushcli`, for as long as that is the value its `intena` holds.

* `CpuSys.run_ncli`: after any run from boot, `ncli` is the number of `pushcli` calls made
  less the `popcli` calls, and `Inv`: it is never negative and interrupts stay disabled
  while it is positive;
* `CpuSys.popcli_of_inv`: a `popcli` that matches an earlier `pushcli` never panics;
* `CpuSys.step_records`, `CpuSys.step_restores`: a thread's outermost `pushcli` records the
  interrupt flag, and its outermost `popcli` restores the record;
* `CpuSys.section_restores`: a process's record survives whatever `sched` calls and other
  threads come between, since `sched` saves and restores `intena`; but `step_entry` drops
  the scheduler's record when a process enters `sched`, and `scheduler_intena_lost` runs
  one such schedule.
-/

namespace Xv6

/-- What `pushcli` and `popcli` read and write on one processor: the `FL_IF` bit of
`%eflags`, and `struct cpu`'s `ncli` and `intena`. -/
structure Cpu where
  intr : Bool
  ncli : Int
  intena : Bool
  deriving DecidableEq, Repr

namespace Cpu

/-- `pushcli`: read `%eflags`, `cli`, and at depth `0` record `eflags & FL_IF`. -/
def pushcli (c : Cpu) : Cpu :=
  let eflags := c.intr
  let c := { c with intr := false }
  let c := if c.ncli = 0 then { c with intena := eflags } else c
  { c with ncli := c.ncli + 1 }

/-- `popcli`: interrupts must be disabled and `--ncli` must stay nonnegative; back at
depth `0`, `sti` when `intena` is set. -/
def popcli (c : Cpu) : Except Fault Cpu :=
  if c.intr then .error (.panic "popcli - interruptible")
  else
    let c := { c with ncli := c.ncli - 1 }
    if c.ncli < 0 then .error (.panic "popcli")
    else .ok (if c.ncli = 0 ∧ c.intena = true then { c with intr := true } else c)

/-- `mycpu()`'s check: it must be called with interrupts disabled. -/
def mycpu (c : Cpu) : Except Fault Unit :=
  if c.intr then .error (.panic "mycpu called with interrupts enabled\n") else .ok ()

theorem pushcli_eq (c : Cpu) :
    c.pushcli = ⟨false, c.ncli + 1, if c.ncli = 0 then c.intr else c.intena⟩ := by
  unfold pushcli
  by_cases zero : c.ncli = 0 <;> simp [zero]

/-- A `popcli` at a positive depth with interrupts disabled returns, and enables them
exactly when it leaves depth `0` with `intena` set. -/
theorem popcli_eq {c : Cpu} (hn : 1 ≤ c.ncli) (hi : c.intr = false) :
    c.popcli = .ok ⟨decide (c.ncli = 1) && c.intena, c.ncli - 1, c.intena⟩ := by
  unfold popcli
  rw [if_neg (by rw [hi]; decide), if_neg (by dsimp only; omega)]
  by_cases last : c.ncli = 1
  · -- the outermost `popcli`: `sti` exactly when `intena` is set
    have zero : c.ncli - 1 = 0 := by omega
    cases ena : c.intena <;> simp [last, hi]
  · have pos : c.ncli - 1 ≠ 0 := by omega
    simp [pos, last, hi]

/-- `popcli` panics only with interrupts enabled or at depth `0`. -/
theorem popcli_error {c : Cpu} {f : Fault} (h : c.popcli = .error f) :
    c.intr = true ∨ c.ncli < 1 := by
  unfold popcli at h
  split at h
  · exact .inl ‹_›
  · dsimp only at h
    split at h
    · exact .inr (by omega)
    · cases h

theorem mycpu_eq {c : Cpu} (hi : c.intr = false) : c.mycpu = .ok () := by
  simp only [mycpu, hi, Bool.false_eq_true, if_false]

end Cpu

/-- A kernel thread: the scheduler's, or a process's. -/
inductive Thread (Pid : Type) where
  | scheduler
  | proc (p : Pid)
  deriving DecidableEq, Repr

/-- One processor running kernel threads, with the spinlocks `L` and the processes `Pid`. -/
structure CpuSys (L Pid : Type) where
  cpu : Cpu
  /-- The spinlocks whose `locked` is set with `cpu` this processor. -/
  held : List L
  running : Thread Pid
  /-- The `intena` local of each process's `sched` frame while the process is switched
  out; `none` for a process that has not yet run. -/
  saved : Pid → Option Bool
  /-- History: each thread's interrupt flag before its outermost `pushcli`. -/
  entry : Thread Pid → Option Bool

/-- What the running thread does next. -/
inductive CpuEvent (L Pid : Type) where
  | pushcli
  | popcli
  | acquire (lk : L)
  | release (lk : L)
  | holding (lk : L)
  | myproc
  /-- Code outside these routines changing `FL_IF`, all at depth `0`: the scheduler's
  `sti()`, an interrupt gate's entry, the `iret` of `trapret`. -/
  | setIF (v : Bool)
  /-- The running process calls `sched()`, holding `ptable.lock`. -/
  | sched
  /-- The scheduler's `swtch` to process `p`. -/
  | swtch (p : Pid)
  deriving DecidableEq, Repr

/-- The `pushcli` calls an event makes, those inside `acquire`, `release`, `holding`, `myproc`
and `sched` included. -/
def CpuEvent.pushes {L Pid : Type} : CpuEvent L Pid → Nat
  | .pushcli => 1
  | .acquire _ => 2
  | .release _ => 1
  | .holding _ => 1
  | .myproc => 1
  | .sched => 2
  | _ => 0

/-- The `popcli` calls an event makes. -/
def CpuEvent.pops {L Pid : Type} : CpuEvent L Pid → Nat
  | .popcli => 1
  | .acquire _ => 1
  | .release _ => 2
  | .holding _ => 1
  | .myproc => 1
  | .sched => 2
  | _ => 0

/-- The nesting depth after the events: `pushcli` calls made less `popcli` calls. -/
def cliDepth {L Pid : Type} (es : List (CpuEvent L Pid)) : Int :=
  (es.map fun e => (e.pushes : Int) - e.pops).sum

theorem cliDepth_cons {L Pid : Type} (e : CpuEvent L Pid) (es : List (CpuEvent L Pid)) :
    cliDepth (e :: es) = ((e.pushes : Int) - e.pops) + cliDepth es := by
  simp [cliDepth]

namespace CpuSys

variable {L Pid : Type} [DecidableEq L] [DecidableEq Pid]

/-- `pushcli()` by the running thread; at depth `0` the history records the flag it read. -/
def pushcli (s : CpuSys L Pid) : CpuSys L Pid :=
  { s with
    cpu := s.cpu.pushcli
    entry := if s.cpu.ncli = 0 then Function.update s.entry s.running (some s.cpu.intr)
      else s.entry }

/-- `popcli()` by the running thread. -/
def popcli (s : CpuSys L Pid) : Except Fault (CpuSys L Pid) := do
  let c ← s.cpu.popcli
  pure { s with cpu := c }

/-- `holding(lk)`: whether this processor holds `lk`, read between `pushcli` and `popcli`. -/
def holding (s : CpuSys L Pid) (lk : L) : Except Fault (CpuSys L Pid × Bool) := do
  let s := s.pushcli
  let r := decide (lk ∈ s.held)
  let s ← s.popcli
  pure (s, r)

/-- `acquire(lk)`: `pushcli`, the `holding` check, and the lock taken.  Spinning while
another processor holds it is that processor's business, not a step of this one. -/
def acquire (s : CpuSys L Pid) (lk : L) : Except Fault (CpuSys L Pid) := do
  let s := s.pushcli
  let (s, r) ← s.holding lk
  if r then throw (.panic "acquire")
  pure { s with held := lk :: s.held }

/-- `release(lk)`: the `holding` check, the lock given back, `popcli`. -/
def release (s : CpuSys L Pid) (lk : L) : Except Fault (CpuSys L Pid) := do
  let (s, r) ← s.holding lk
  if !r then throw (.panic "release")
  let s := { s with held := s.held.erase lk }
  s.popcli

/-- `myproc()`: `mycpu()->proc`, the running thread, read between `pushcli` and `popcli`. -/
def myproc (s : CpuSys L Pid) : Except Fault (CpuSys L Pid × Thread Pid) := do
  let s := s.pushcli
  s.cpu.mycpu
  let p := s.running
  let s ← s.popcli
  pure (s, p)

/-- `sched()` by process `p` up to its `swtch` to the scheduler: its checks (but for
`p->state`, which this model does not hold), then `intena` saved in its frame.  The
scheduler resumes with `mycpu()->intena` as `p` left it, and the history drops the
scheduler's record. -/
def sched (s : CpuSys L Pid) (ptable : L) (p : Pid) : Except Fault (CpuSys L Pid) := do
  let (s, _) ← s.myproc
  let (s, r) ← s.holding ptable
  if !r then throw (.panic "sched ptable.lock")
  s.cpu.mycpu
  if s.cpu.ncli ≠ 1 then throw (.panic "sched locks")
  if s.cpu.intr then throw (.panic "sched interruptible")
  pure { s with
    saved := Function.update s.saved p (some s.cpu.intena)
    running := .scheduler
    entry := Function.update s.entry .scheduler none }

/-- The scheduler's `swtch` to process `p`, holding `ptable.lock` and nothing else: a process
switched out in `sched` returns from its `swtch` and runs `mycpu()->intena = intena`; a new
one starts in `forkret`, restoring nothing. -/
def resume (s : CpuSys L Pid) (ptable : L) (p : Pid) : Option (CpuSys L Pid) :=
  if s.running = .scheduler ∧ s.cpu.ncli = 1 ∧ ptable ∈ s.held then
    some (match s.saved p with
      | some v =>
        { s with
          cpu := { s.cpu with intena := v }
          running := .proc p
          saved := Function.update s.saved p none }
      | none => { s with running := .proc p, entry := Function.update s.entry (.proc p) none })
  else none

/-- One step of the running thread: `.ok none` when it cannot be taken (`sched` by the
scheduler, a switch the scheduler cannot make, `FL_IF` changed inside a critical
section). -/
def step (s : CpuSys L Pid) (ptable : L) : CpuEvent L Pid → Except Fault (Option (CpuSys L Pid))
  | .pushcli => .ok (some s.pushcli)
  | .popcli => some <$> s.popcli
  | .acquire lk => some <$> s.acquire lk
  | .release lk => some <$> s.release lk
  | .holding lk => (fun r => some r.1) <$> s.holding lk
  | .myproc => (fun r => some r.1) <$> s.myproc
  | .setIF v => .ok (if s.cpu.ncli = 0 then some { s with cpu := ⟨v, s.cpu.ncli, s.cpu.intena⟩ }
      else none)
  | .sched =>
    match s.running with
    | .proc p => some <$> s.sched ptable p
    | .scheduler => .ok none
  | .swtch p => .ok (s.resume ptable p)

/-- The boot processor entering `scheduler()`: interrupts disabled since the boot loader,
`cpus[]` zeroed, no lock held, no process run yet. -/
def boot : CpuSys L Pid := ⟨⟨false, 0, false⟩, [], .scheduler, fun _ => none, fun _ => none⟩

/-- Steps one after another, until one cannot be taken or panics. -/
def run (s : CpuSys L Pid) (ptable : L) : List (CpuEvent L Pid) → Except Fault (Option (CpuSys L Pid))
  | [] => .ok (some s)
  | e :: es =>
    match s.step ptable e with
    | .ok (some s') => s'.run ptable es
    | r => r

/-- The states a run from boot reaches. -/
inductive Reachable (ptable : L) : CpuSys L Pid → Prop
  | boot : Reachable ptable boot
  | step {s s' : CpuSys L Pid} (e : CpuEvent L Pid) : Reachable ptable s →
      s.step ptable e = .ok (some s') → Reachable ptable s'

/-! ## What each routine does -/

section Routines

variable {s s' : CpuSys L Pid} {lk : L} {f : Fault}

section Brackets

omit [DecidableEq L]

@[simp] theorem pushcli_cpu (s : CpuSys L Pid) : s.pushcli.cpu = s.cpu.pushcli := rfl
@[simp] theorem pushcli_held (s : CpuSys L Pid) : s.pushcli.held = s.held := rfl
@[simp] theorem pushcli_running (s : CpuSys L Pid) : s.pushcli.running = s.running := rfl
@[simp] theorem pushcli_saved (s : CpuSys L Pid) : s.pushcli.saved = s.saved := rfl

/-- What `popcli` leaves at a positive depth with interrupts disabled. -/
def popped (s : CpuSys L Pid) : CpuSys L Pid :=
  { s with cpu := ⟨decide (s.cpu.ncli = 1) && s.cpu.intena, s.cpu.ncli - 1, s.cpu.intena⟩ }

/-- A `pushcli` and its `popcli` with nothing between that changes the processor: at depth
`0`, `intena` and the history take the interrupt flag, which the `popcli` restores. -/
def touch (s : CpuSys L Pid) : CpuSys L Pid :=
  if s.cpu.ncli = 0 then
    { s with
      cpu := { s.cpu with intena := s.cpu.intr }
      entry := Function.update s.entry s.running (some s.cpu.intr) }
  else s

theorem touch_of_pos (h : 0 < s.cpu.ncli) : s.touch = s := by
  rw [touch, if_neg (by omega)]

@[simp] theorem touch_ncli (s : CpuSys L Pid) : s.touch.cpu.ncli = s.cpu.ncli := by
  unfold touch
  split <;> rfl

@[simp] theorem touch_held (s : CpuSys L Pid) : s.touch.held = s.held := by
  unfold touch
  split <;> rfl

@[simp] theorem touch_running (s : CpuSys L Pid) : s.touch.running = s.running := by
  unfold touch
  split <;> rfl

@[simp] theorem touch_saved (s : CpuSys L Pid) : s.touch.saved = s.saved := by
  unfold touch
  split <;> rfl

section Popped

omit [DecidableEq Pid]

@[simp] theorem popped_held (s : CpuSys L Pid) : s.popped.held = s.held := rfl
@[simp] theorem popped_running (s : CpuSys L Pid) : s.popped.running = s.running := rfl
@[simp] theorem popped_saved (s : CpuSys L Pid) : s.popped.saved = s.saved := rfl

/-- `popcli` at a positive depth with interrupts disabled. -/
theorem popcli_eq (hn : 1 ≤ s.cpu.ncli) (hi : s.cpu.intr = false) : s.popcli = .ok s.popped := by
  rw [popcli, Cpu.popcli_eq hn hi]
  rfl

theorem popcli_error (h : s.popcli = .error f) : s.cpu.intr = true ∨ s.cpu.ncli < 1 := by
  rcases except_bind_eq_error h with failed | ⟨c, -, done⟩
  · exact Cpu.popcli_error failed
  · cases done

end Popped

end Brackets

/-! ### Under the invariant -/

/-- What every reachable state satisfies. -/
structure Inv (s : CpuSys L Pid) : Prop where
  ncli_nonneg : 0 ≤ s.cpu.ncli
  /-- Interrupts stay disabled inside a critical section. -/
  cli : 0 < s.cpu.ncli → s.cpu.intr = false
  /-- Inside a critical section, `intena` is what the running thread recorded. -/
  entry_running : ∀ v, s.entry s.running = some v → 0 < s.cpu.ncli → s.cpu.intena = v
  /-- A switched-out process's frame holds what it recorded. -/
  saved_entry : ∀ p v w, s.saved p = some v → s.entry (.proc p) = some w → w = v
  /-- The running process is not switched out. -/
  running_unsaved : ∀ p, s.running = .proc p → s.saved p = none

namespace Inv

variable (hI : s.Inv)
include hI

omit [DecidableEq L] in
/-- A `pushcli` and its `popcli` together: `holding`'s and `myproc`'s bracket. -/
theorem pushcli_popcli : s.pushcli.popcli = .ok s.touch := by
  have nonneg := hI.ncli_nonneg
  rw [popcli_eq (by simp [Cpu.pushcli_eq]; omega) (by simp [Cpu.pushcli_eq])]
  by_cases zero : s.cpu.ncli = 0
  · simp [popped, touch, pushcli, Cpu.pushcli_eq, zero]
  · -- inside a critical section the bracket changes nothing
    have quiet := hI.cli (by omega)
    obtain ⟨⟨intr, ncli, intena⟩, held, running, saved, entry⟩ := s
    dsimp only at quiet zero
    subst quiet
    simp [popped, touch, pushcli, Cpu.pushcli_eq, zero]

omit [DecidableEq L] in
theorem pushcli : s.pushcli.Inv where
  ncli_nonneg := by simp [Cpu.pushcli_eq]; have := hI.ncli_nonneg; omega
  cli _ := by simp [Cpu.pushcli_eq]
  entry_running v hv _ := by
    by_cases zero : s.cpu.ncli = 0
    · simp only [CpuSys.pushcli, zero, if_true, Function.update_self, Option.some.injEq] at hv
      simp [Cpu.pushcli_eq, zero, hv]
    · simp only [CpuSys.pushcli, zero, if_false] at hv
      simp [Cpu.pushcli_eq, zero, hI.entry_running v hv (by have := hI.ncli_nonneg; omega)]
  saved_entry p v w hv hw := by
    by_cases zero : s.cpu.ncli = 0
    · simp only [CpuSys.pushcli, zero, if_true] at hw
      by_cases running : Thread.proc p = s.running
      · rw [pushcli_saved, hI.running_unsaved p running.symm] at hv
        cases hv
      · rw [Function.update_of_ne running] at hw
        exact hI.saved_entry p v w hv hw
    · simp only [CpuSys.pushcli, zero, if_false] at hw
      exact hI.saved_entry p v w hv hw
  running_unsaved := hI.running_unsaved

omit [DecidableEq L] [DecidableEq Pid] in
theorem popped (hn : 1 ≤ s.cpu.ncli) : s.popped.Inv where
  ncli_nonneg := by simp only [CpuSys.popped]; omega
  cli pos := by
    simp only [CpuSys.popped] at pos ⊢
    simp only [show s.cpu.ncli ≠ 1 by omega, decide_false, Bool.false_and]
  entry_running v hv pos := hI.entry_running v hv (by omega)
  saved_entry := hI.saved_entry
  running_unsaved := hI.running_unsaved

omit [DecidableEq L] in
theorem touch : s.touch.Inv := by
  by_cases zero : s.cpu.ncli = 0
  · rw [CpuSys.touch, if_pos zero]
    exact {
      ncli_nonneg := by simp [zero]
      cli := fun pos => absurd pos (by simp [zero])
      entry_running := fun _ _ pos => absurd pos (by simp [zero])
      saved_entry := fun p v w hv hw => by
        dsimp only at hv hw
        by_cases running : Thread.proc p = s.running
        · rw [hI.running_unsaved p running.symm] at hv
          cases hv
        · rw [Function.update_of_ne running] at hw
          exact hI.saved_entry p v w hv hw
      running_unsaved := hI.running_unsaved }
  · rw [touch_of_pos (by have := hI.ncli_nonneg; omega)]
    exact hI

omit [DecidableEq L] [DecidableEq Pid] in
/-- The invariant does not read the locks. -/
theorem setHeld (held : List L) : ({ s with held } : CpuSys L Pid).Inv :=
  ⟨hI.ncli_nonneg, hI.cli, hI.entry_running, hI.saved_entry, hI.running_unsaved⟩

/-- `holding` reads the locks and leaves the processor as its bracket does. -/
theorem holding_eq : s.holding lk = .ok (s.touch, decide (lk ∈ s.held)) := by
  rw [holding]
  simp only [hI.pushcli_popcli, except_ok_bind, pushcli_held]
  rfl

omit [DecidableEq L] in
theorem myproc_eq : s.myproc = .ok (s.touch, s.running) := by
  have quiet : s.pushcli.cpu.intr = false := by simp [Cpu.pushcli_eq]
  rw [myproc]
  simp only [Cpu.mycpu_eq quiet, except_ok_bind, hI.pushcli_popcli, pushcli_running]
  rfl

omit [DecidableEq L] [DecidableEq Pid] in
/-- A `popcli` that returns was at a positive depth: at depth `0` it panics. -/
theorem popcli_ok (h : s.popcli = .ok s') : 1 ≤ s.cpu.ncli ∧ s' = s.popped := by
  by_cases hn : 1 ≤ s.cpu.ncli
  · rw [popcli_eq hn (hI.cli (by omega))] at h
    exact ⟨hn, (Except.ok.inj h).symm⟩
  · have below : s.cpu.ncli - 1 < 0 := by omega
    rcases except_bind_eq_ok h with ⟨c, popped, -⟩
    unfold Cpu.popcli at popped
    split at popped
    · cases popped
    · rw [if_pos below] at popped
      cases popped

/-- `acquire` of a lock this processor does not hold: one level deeper, and the lock
taken. -/
theorem acquire_eq (free : lk ∉ s.held) :
    s.acquire lk = .ok { s.pushcli with held := lk :: s.held } := by
  have deeper : 0 < s.pushcli.cpu.ncli := by
    simp [Cpu.pushcli_eq]
    have := hI.ncli_nonneg
    omega
  rw [acquire]
  simp only [hI.pushcli.holding_eq, touch_of_pos deeper, except_ok_bind, pushcli_held, free,
    decide_false, Bool.false_eq_true, if_false, except_pure]

theorem acquire_held (held : lk ∈ s.held) : s.acquire lk = .error (.panic "acquire") := by
  rw [acquire]
  simp only [hI.pushcli.holding_eq, except_ok_bind, pushcli_held, held, decide_true, if_true]
  rfl

/-- `release` of a lock this processor holds: the lock given back, then `popcli`. -/
theorem release_eq (held : lk ∈ s.held) :
    s.release lk = ({ s.touch with held := s.held.erase lk } : CpuSys L Pid).popcli := by
  rw [release]
  simp only [hI.holding_eq, except_ok_bind, held, decide_true, Bool.not_true,
    Bool.false_eq_true, if_false, touch_held]

theorem release_free (free : lk ∉ s.held) : s.release lk = .error (.panic "release") := by
  rw [release]
  simp only [hI.holding_eq, except_ok_bind, free, decide_false, Bool.not_false, if_true]
  rfl

/-- `sched` by process `p` holding `ptable.lock` at depth `1`: its frame saves `intena`, and
the scheduler runs. -/
theorem sched_eq {ptable : L} {p : Pid} (holds : ptable ∈ s.held) (one : s.cpu.ncli = 1) :
    s.sched ptable p = .ok { s with
      saved := Function.update s.saved p (some s.cpu.intena)
      running := .scheduler
      entry := Function.update s.entry .scheduler none } := by
  have same : s.touch = s := touch_of_pos (by omega)
  have quiet := hI.cli (by omega)
  rw [sched]
  simp only [hI.myproc_eq, same, except_ok_bind, hI.holding_eq, holds, decide_true,
    Bool.not_true, Bool.false_eq_true, if_false, Cpu.mycpu_eq quiet, one, ne_eq,
    not_true_eq_false, quiet, except_pure]

/-- A `sched` that returns was by a process holding `ptable.lock` at depth `1`. -/
theorem sched_ok {ptable : L} {p : Pid} (h : s.sched ptable p = .ok s') :
    ptable ∈ s.held ∧ s.cpu.ncli = 1 := by
  rw [sched] at h
  simp only [hI.myproc_eq, except_ok_bind, hI.touch.holding_eq] at h
  by_cases holds : ptable ∈ s.held
  · refine ⟨holds, ?_⟩
    by_contra notOne
    simp only [touch_held, holds, decide_true, Bool.not_true, Bool.false_eq_true, if_false] at h
    rcases except_bind_eq_ok h with ⟨u, -, rest⟩
    rw [if_pos (by simpa using notOne)] at rest
    cases rest
  · simp only [touch_held, holds, decide_false, Bool.not_false, if_true] at h
    cases h

omit [DecidableEq L] in
/-- `sched` keeps the invariant: the frame saves the `intena` the process recorded, and the
scheduler's record is dropped. -/
theorem sched {p : Pid} (running : s.running = .proc p) (one : s.cpu.ncli = 1) :
    ({ s with
      saved := Function.update s.saved p (some s.cpu.intena)
      running := .scheduler
      entry := Function.update s.entry .scheduler none } : CpuSys L Pid).Inv where
  ncli_nonneg := hI.ncli_nonneg
  cli := hI.cli
  entry_running v hv _ := by simp at hv
  saved_entry q v w hv hw := by
    dsimp only at hv hw
    rw [Function.update_of_ne (by intro e; cases e)] at hw
    by_cases same : q = p
    · subst same
      rw [Function.update_self] at hv
      cases hv
      exact (hI.entry_running w (by rw [running]; exact hw) (by omega)).symm
    · rw [Function.update_of_ne same] at hv
      exact hI.saved_entry q v w hv hw
  running_unsaved q hq := by cases hq

/-- The scheduler's switch keeps the invariant: a process switched out in `sched` gets back
the `intena` its frame saved, which is what it recorded; a new one has no record. -/
theorem resume {ptable : L} {p : Pid} (h : s.resume ptable p = some s') : s'.Inv := by
  unfold CpuSys.resume at h
  split at h
  · cases saved : s.saved p with
    | some v =>
      rw [saved] at h
      cases h
      exact {
        ncli_nonneg := hI.ncli_nonneg
        cli := hI.cli
        entry_running := fun w hw _ => (hI.saved_entry p v w saved hw).symm
        saved_entry := fun q v' w hv hw => by
          dsimp only at hv hw
          by_cases same : q = p
          · subst same
            simp at hv
          · rw [Function.update_of_ne same] at hv
            exact hI.saved_entry q v' w hv hw
        running_unsaved := fun q hq => by
          cases hq
          simp }
    | none =>
      rw [saved] at h
      cases h
      exact {
        ncli_nonneg := hI.ncli_nonneg
        cli := hI.cli
        entry_running := fun w hw _ => by simp at hw
        saved_entry := fun q v' w hv hw => by
          dsimp only at hv hw
          by_cases same : q = p
          · subst same
            rw [saved] at hv
            cases hv
          · rw [Function.update_of_ne (fun e => same (Thread.proc.inj e))] at hw
            exact hI.saved_entry q v' w hv hw
        running_unsaved := fun q hq => by
          cases hq
          exact saved }
  · cases h

end Inv

/-- The scheduler's switch holds the processor's `ncli` and interrupt flag as they were. -/
theorem resume_cpu {ptable : L} {p : Pid} (h : s.resume ptable p = some s') :
    s.running = .scheduler ∧ s.cpu.ncli = 1 ∧ s'.running = .proc p ∧
      s'.cpu.ncli = s.cpu.ncli ∧ s'.cpu.intr = s.cpu.intr := by
  unfold resume at h
  split at h
  · rename_i guard
    cases saved : s.saved p with
    | some v =>
      rw [saved] at h
      cases h
      exact ⟨guard.1, guard.2.1, rfl, rfl, rfl⟩
    | none =>
      rw [saved] at h
      cases h
      exact ⟨guard.1, guard.2.1, rfl, rfl, rfl⟩
  · cases h

/-- What the scheduler's switch does to the history: a process switched out in `sched`
keeps its record, a new one has none. -/
theorem resume_entry {ptable : L} {p : Pid} (h : s.resume ptable p = some s') (t : Thread Pid) :
    s'.entry t = s.entry t ∨ (t = .proc p ∧ s.saved p = none ∧ s'.entry t = none) := by
  unfold resume at h
  split at h
  · cases saved : s.saved p with
    | some v =>
      rw [saved] at h
      cases h
      exact .inl rfl
    | none =>
      rw [saved] at h
      cases h
      by_cases same : t = .proc p
      · subst same
        exact .inr ⟨rfl, rfl, Function.update_self _ _ _⟩
      · exact .inl (Function.update_of_ne same _ _)
  · cases h

/-- The scheduler's switch to `p` leaves every other process's `sched` frame alone. -/
theorem resume_saved {ptable : L} {p : Pid} (h : s.resume ptable p = some s') {q : Pid}
    (other : q ≠ p) : s'.saved q = s.saved q := by
  unfold resume at h
  split at h
  · cases saved : s.saved p with
    | some v =>
      rw [saved] at h
      cases h
      exact Function.update_of_ne other _ _
    | none =>
      rw [saved] at h
      cases h
      rfl
  · cases h

omit [DecidableEq L] in
/-- What `pushcli` does to the history: only the running thread's record, at depth `0`. -/
theorem pushcli_entry (t : Thread Pid) :
    s.pushcli.entry t = s.entry t ∨
      (t = s.running ∧ s.cpu.ncli = 0 ∧ s.pushcli.entry t = some s.cpu.intr) := by
  by_cases zero : s.cpu.ncli = 0
  · by_cases same : t = s.running
    · subst same
      exact .inr ⟨rfl, zero, by simp [pushcli, zero]⟩
    · exact .inl (by simp [pushcli, zero, Function.update_of_ne same])
  · exact .inl (by simp [pushcli, zero])

omit [DecidableEq L] in
/-- A bracket changes the history as its `pushcli` does. -/
theorem touch_entry (t : Thread Pid) :
    s.touch.entry t = s.entry t ∨
      (t = s.running ∧ s.cpu.ncli = 0 ∧ s.touch.entry t = some s.cpu.intr) := by
  by_cases zero : s.cpu.ncli = 0
  · by_cases same : t = s.running
    · subst same
      exact .inr ⟨rfl, zero, by simp [touch, zero]⟩
    · exact .inl (by simp [touch, zero, Function.update_of_ne same])
  · exact .inl (by rw [touch, if_neg zero])

end Routines

/-! ## What each step does -/

section Steps

variable {ptable : L} {s s' : CpuSys L Pid} {lk : L}

/-- A step that returns a state ran its routine to its end. -/
theorem except_map_some {α : Type} {x : Except Fault α} {a : α}
    (h : (some <$> x) = .ok (some a)) : x = .ok a := by
  cases x with
  | error e => cases h
  | ok b =>
    cases h
    rfl

theorem except_map_fst {α β : Type} {x : Except Fault (α × β)} {a : α}
    (h : ((fun r => some r.1) <$> x) = .ok (some a)) : ∃ b, x = .ok (a, b) := by
  cases x with
  | error e => cases h
  | ok r =>
    cases h
    exact ⟨r.2, rfl⟩

theorem step_pushcli (h : s.step ptable .pushcli = .ok (some s')) : s' = s.pushcli :=
  (Option.some.inj (Except.ok.inj h)).symm

theorem step_popcli (hI : s.Inv) (h : s.step ptable .popcli = .ok (some s')) :
    1 ≤ s.cpu.ncli ∧ s' = s.popped :=
  hI.popcli_ok (except_map_some h)

theorem step_acquire (hI : s.Inv) (h : s.step ptable (.acquire lk) = .ok (some s')) :
    lk ∉ s.held ∧ s' = { s.pushcli with held := lk :: s.held } := by
  have acquired := except_map_some h
  by_cases held : lk ∈ s.held
  · rw [hI.acquire_held held] at acquired
    cases acquired
  · rw [hI.acquire_eq held] at acquired
    exact ⟨held, (Except.ok.inj acquired).symm⟩

theorem step_release (hI : s.Inv) (h : s.step ptable (.release lk) = .ok (some s')) :
    lk ∈ s.held ∧ 1 ≤ s.cpu.ncli ∧ s' = { s.popped with held := s.held.erase lk } := by
  have released := except_map_some h
  by_cases held : lk ∈ s.held
  · rw [hI.release_eq held] at released
    obtain ⟨pos, rfl⟩ := (hI.touch.setHeld (s.held.erase lk)).popcli_ok released
    have pos' : 1 ≤ s.cpu.ncli := by simpa using pos
    rw [touch_of_pos (by omega)]
    exact ⟨held, pos', rfl⟩
  · rw [hI.release_free held] at released
    cases released

theorem step_holding (hI : s.Inv) (h : s.step ptable (.holding lk) = .ok (some s')) :
    s' = s.touch := by
  obtain ⟨r, read⟩ := except_map_fst h
  rw [hI.holding_eq] at read
  exact (Prod.mk.inj (Except.ok.inj read)).1.symm

theorem step_myproc (hI : s.Inv) (h : s.step ptable .myproc = .ok (some s')) : s' = s.touch := by
  obtain ⟨r, read⟩ := except_map_fst h
  rw [hI.myproc_eq] at read
  exact (Prod.mk.inj (Except.ok.inj read)).1.symm

theorem step_setIF {v : Bool} (h : s.step ptable (.setIF v) = .ok (some s')) :
    s.cpu.ncli = 0 ∧ s' = { s with cpu := ⟨v, s.cpu.ncli, s.cpu.intena⟩ } := by
  simp only [step] at h
  split at h
  · exact ⟨‹_›, (Option.some.inj (Except.ok.inj h)).symm⟩
  · cases h

theorem step_sched (hI : s.Inv) (h : s.step ptable .sched = .ok (some s')) :
    ∃ p, s.running = .proc p ∧ ptable ∈ s.held ∧ s.cpu.ncli = 1 ∧
      s' = { s with
        saved := Function.update s.saved p (some s.cpu.intena)
        running := .scheduler
        entry := Function.update s.entry .scheduler none } := by
  simp only [step] at h
  split at h
  · rename_i p running
    have switched := except_map_some h
    obtain ⟨holds, one⟩ := hI.sched_ok switched
    rw [hI.sched_eq holds one] at switched
    exact ⟨p, running, holds, one, (Except.ok.inj switched).symm⟩
  · cases h

theorem step_swtch {p : Pid} (h : s.step ptable (.swtch p) = .ok (some s')) :
    s.resume ptable p = some s' :=
  Except.ok.inj h

/-- **Context switches**: a step keeps the running thread and every `sched` frame, or is a
process's `sched`, which saves its `intena` and hands the processor to the scheduler, or is
the scheduler's switch to a process; both run at depth `1` and keep it. -/
theorem step_switch (hI : s.Inv) {e : CpuEvent L Pid} (h : s.step ptable e = .ok (some s')) :
    (s'.running = s.running ∧ s'.saved = s.saved) ∨
      (∃ q, s.running = .proc q ∧ s.cpu.ncli = 1 ∧ s'.running = .scheduler ∧
        s'.saved = Function.update s.saved q (some s.cpu.intena)) ∨
      (∃ q, s.running = .scheduler ∧ s.cpu.ncli = 1 ∧ s'.running = .proc q ∧
        s'.cpu.ncli = 1 ∧ ∀ r, r ≠ q → s'.saved r = s.saved r) := by
  cases e with
  | pushcli =>
    rw [step_pushcli h]
    exact .inl ⟨rfl, rfl⟩
  | popcli =>
    obtain ⟨-, rfl⟩ := step_popcli hI h
    exact .inl ⟨rfl, rfl⟩
  | acquire lk =>
    obtain ⟨-, rfl⟩ := step_acquire hI h
    exact .inl ⟨rfl, rfl⟩
  | release lk =>
    obtain ⟨-, -, rfl⟩ := step_release hI h
    exact .inl ⟨rfl, rfl⟩
  | holding lk =>
    rw [step_holding hI h]
    exact .inl ⟨touch_running s, touch_saved s⟩
  | myproc =>
    rw [step_myproc hI h]
    exact .inl ⟨touch_running s, touch_saved s⟩
  | setIF v =>
    obtain ⟨-, rfl⟩ := step_setIF h
    exact .inl ⟨rfl, rfl⟩
  | sched =>
    obtain ⟨q, running, -, one, rfl⟩ := step_sched hI h
    exact .inr (.inl ⟨q, running, one, rfl, rfl⟩)
  | swtch q =>
    have resumed := step_swtch h
    obtain ⟨sched, one, running, same, -⟩ := resume_cpu resumed
    exact .inr (.inr ⟨q, sched, one, running, same.trans one,
      fun r other => resume_saved resumed other⟩)

/-- **`ncli` is the nesting depth**: every step changes it by the `pushcli` calls it makes
less its `popcli` calls. -/
theorem step_ncli (hI : s.Inv) {e : CpuEvent L Pid} (h : s.step ptable e = .ok (some s')) :
    s'.cpu.ncli = s.cpu.ncli + e.pushes - e.pops := by
  cases e with
  | pushcli =>
    rw [step_pushcli h]
    simp [Cpu.pushcli_eq, CpuEvent.pushes, CpuEvent.pops]
  | popcli =>
    obtain ⟨-, rfl⟩ := step_popcli hI h
    simp [popped, CpuEvent.pushes, CpuEvent.pops]
  | acquire lk =>
    obtain ⟨-, rfl⟩ := step_acquire hI h
    simp [Cpu.pushcli_eq, CpuEvent.pushes, CpuEvent.pops]
    omega
  | release lk =>
    obtain ⟨-, -, rfl⟩ := step_release hI h
    simp [popped, CpuEvent.pushes, CpuEvent.pops]
    omega
  | holding lk =>
    rw [step_holding hI h]
    simp [CpuEvent.pushes, CpuEvent.pops]
  | myproc =>
    rw [step_myproc hI h]
    simp [CpuEvent.pushes, CpuEvent.pops]
  | setIF v =>
    obtain ⟨-, rfl⟩ := step_setIF h
    simp [CpuEvent.pushes, CpuEvent.pops]
  | sched =>
    obtain ⟨p, -, -, -, rfl⟩ := step_sched hI h
    simp [CpuEvent.pushes, CpuEvent.pops]
  | swtch p =>
    obtain ⟨-, -, -, same, -⟩ := resume_cpu (step_swtch h)
    simp [same, CpuEvent.pushes, CpuEvent.pops]

/-- **Every step keeps the invariant.** -/
theorem Inv.step (hI : s.Inv) {e : CpuEvent L Pid} (h : s.step ptable e = .ok (some s')) :
    s'.Inv := by
  cases e with
  | pushcli =>
    rw [step_pushcli h]
    exact hI.pushcli
  | popcli =>
    obtain ⟨pos, rfl⟩ := step_popcli hI h
    exact hI.popped pos
  | acquire lk =>
    obtain ⟨-, rfl⟩ := step_acquire hI h
    exact hI.pushcli.setHeld _
  | release lk =>
    obtain ⟨-, pos, rfl⟩ := step_release hI h
    exact (hI.popped pos).setHeld _
  | holding lk =>
    rw [step_holding hI h]
    exact hI.touch
  | myproc =>
    rw [step_myproc hI h]
    exact hI.touch
  | setIF v =>
    obtain ⟨zero, rfl⟩ := step_setIF h
    exact {
      ncli_nonneg := hI.ncli_nonneg
      cli := fun pos => absurd pos (by simp [zero])
      entry_running := fun _ _ pos => absurd pos (by simp [zero])
      saved_entry := hI.saved_entry
      running_unsaved := hI.running_unsaved }
  | sched =>
    obtain ⟨p, running, -, one, rfl⟩ := step_sched hI h
    exact hI.sched running one
  | swtch p => exact hI.resume (step_swtch h)

/-- **The outermost `pushcli` records the flag.**  A step of the running thread from depth
`0` into a critical section leaves in its record the interrupt flag it found. -/
theorem step_records (hI : s.Inv) {e : CpuEvent L Pid} (h : s.step ptable e = .ok (some s'))
    (zero : s.cpu.ncli = 0) (pos : 0 < s'.cpu.ncli) (same : s'.running = s.running) :
    s'.entry s.running = some s.cpu.intr := by
  cases e with
  | pushcli =>
    rw [step_pushcli h]
    simp [pushcli, zero]
  | popcli => exact absurd (step_popcli hI h).1 (by omega)
  | acquire lk =>
    obtain ⟨-, rfl⟩ := step_acquire hI h
    simp [pushcli, zero]
  | release lk => exact absurd (step_release hI h).2.1 (by omega)
  | holding lk =>
    rw [step_holding hI h, touch_ncli] at pos
    omega
  | myproc =>
    rw [step_myproc hI h, touch_ncli] at pos
    omega
  | setIF v =>
    obtain ⟨-, rfl⟩ := step_setIF h
    simp [zero] at pos
  | sched =>
    obtain ⟨p, running, -, -, rfl⟩ := step_sched hI h
    rw [running] at same
    cases same
  | swtch p =>
    obtain ⟨-, one, -, -, -⟩ := resume_cpu (step_swtch h)
    omega

/-- **The outermost `popcli` restores it.**  A step of the running thread that leaves its
critical section sets the interrupt flag to the thread's record, while it has one. -/
theorem step_restores (hI : s.Inv) {e : CpuEvent L Pid} (h : s.step ptable e = .ok (some s'))
    {v : Bool} (recorded : s.entry s.running = some v) (pos : 0 < s.cpu.ncli)
    (same : s'.running = s.running) (zero : s'.cpu.ncli = 0) : s'.cpu.intr = v := by
  have ncli := step_ncli hI h
  have intena := hI.entry_running v recorded pos
  cases e with
  | popcli =>
    obtain ⟨-, rfl⟩ := step_popcli hI h
    have one : s.cpu.ncli = 1 := by
      simp only [popped] at zero
      omega
    simp [popped, one, intena]
  | release lk =>
    obtain ⟨-, -, rfl⟩ := step_release hI h
    have one : s.cpu.ncli = 1 := by
      simp only [popped] at zero
      omega
    simp [popped, one, intena]
  | setIF v' => exact absurd (step_setIF h).1 (by omega)
  | sched =>
    obtain ⟨p, running, -, -, rfl⟩ := step_sched hI h
    rw [running] at same
    cases same
  | swtch p =>
    obtain ⟨sched, -, running, -, -⟩ := resume_cpu (step_swtch h)
    rw [running, sched] at same
    cases same
  | pushcli | acquire _ | holding _ | myproc =>
    simp only [CpuEvent.pushes, CpuEvent.pops] at ncli
    omega

/-- **What changes a record**: the running thread's own step at depth `0`, a process's
`sched`, which drops the scheduler's, and the first switch to a new process, which has
none; nothing else, so a process's record survives its `sched` calls. -/
theorem step_entry (hI : s.Inv) {e : CpuEvent L Pid} (h : s.step ptable e = .ok (some s'))
    (t : Thread Pid) :
    s'.entry t = s.entry t ∨ (t = s.running ∧ s.cpu.ncli = 0 ∧ s'.entry t = some s.cpu.intr) ∨
      (t = .scheduler ∧ e = .sched ∧ s'.entry t = none) ∨
      (∃ p, t = .proc p ∧ e = .swtch p ∧ s.saved p = none ∧ s'.entry t = none) := by
  cases e with
  | pushcli =>
    rw [step_pushcli h]
    exact (pushcli_entry (s := s) t).imp_right .inl
  | popcli =>
    obtain ⟨-, rfl⟩ := step_popcli hI h
    exact .inl rfl
  | acquire lk =>
    obtain ⟨-, rfl⟩ := step_acquire hI h
    exact (pushcli_entry (s := s) t).imp_right .inl
  | release lk =>
    obtain ⟨-, -, rfl⟩ := step_release hI h
    exact .inl rfl
  | holding lk =>
    rw [step_holding hI h]
    exact (touch_entry (s := s) t).imp_right .inl
  | myproc =>
    rw [step_myproc hI h]
    exact (touch_entry (s := s) t).imp_right .inl
  | setIF v =>
    obtain ⟨-, rfl⟩ := step_setIF h
    exact .inl rfl
  | sched =>
    obtain ⟨p, -, -, -, rfl⟩ := step_sched hI h
    by_cases scheduler : t = .scheduler
    · subst scheduler
      exact .inr (.inr (.inl ⟨rfl, rfl, Function.update_self Thread.scheduler none s.entry⟩))
    · exact .inl (Function.update_of_ne scheduler _ _)
  | swtch p =>
    rcases resume_entry (step_swtch h) t with kept | ⟨rfl, fresh, dropped⟩
    · exact .inl kept
    · exact .inr (.inr (.inr ⟨p, rfl, rfl, fresh, dropped⟩))

end Steps

/-! ## Runs -/

section Runs

variable {ptable : L} {s s' s1 : CpuSys L Pid} {e : CpuEvent L Pid} {es : List (CpuEvent L Pid)}

theorem run_cons_of_step (h : s.step ptable e = .ok (some s1)) :
    s.run ptable (e :: es) = s1.run ptable es := by
  simp only [run, h]

theorem run_cons_eq_ok (h : s.run ptable (e :: es) = .ok (some s')) :
    ∃ s1, s.step ptable e = .ok (some s1) ∧ s1.run ptable es = .ok (some s') := by
  cases stepped : s.step ptable e with
  | error f => simp [run, stepped] at h
  | ok r =>
    cases r with
    | none => simp [run, stepped] at h
    | some s1 => exact ⟨s1, rfl, by rwa [run_cons_of_step stepped] at h⟩

omit [DecidableEq L] [DecidableEq Pid] in
theorem boot_inv : (boot : CpuSys L Pid).Inv where
  ncli_nonneg := le_refl 0
  cli pos := absurd pos (lt_irrefl 0)
  entry_running _ recorded := by cases recorded
  saved_entry _ _ _ saved := by cases saved
  running_unsaved _ _ := rfl

theorem Reachable.inv (hs : s.Reachable ptable) : s.Inv := by
  induction hs with
  | boot => exact boot_inv
  | step e _ stepped ih => exact ih.step stepped

/-- A run from a reachable state ends in one. -/
theorem Reachable.run (hs : s.Reachable ptable) :
    ∀ {es : List (CpuEvent L Pid)}, s.run ptable es = .ok (some s') → s'.Reachable ptable := by
  intro es h
  induction es generalizing s with
  | nil =>
    cases h
    exact hs
  | cons e es ih =>
    obtain ⟨s1, stepped, rest⟩ := run_cons_eq_ok h
    exact ih (hs.step e stepped) rest

/-- Along a run, `ncli` moves by the `pushcli` calls made less the `popcli` calls; the
induction is on the run, one `step_ncli` and one `Inv.step` at a time. -/
theorem run_ncli (hI : s.Inv) :
    ∀ {es : List (CpuEvent L Pid)}, s.run ptable es = .ok (some s') →
      s'.cpu.ncli = s.cpu.ncli + cliDepth es := by
  intro es h
  induction es generalizing s with
  | nil =>
    cases h
    simp [cliDepth]
  | cons e es ih =>
    obtain ⟨s1, stepped, rest⟩ := run_cons_eq_ok h
    rw [ih (hI.step stepped) rest, step_ncli hI stepped, cliDepth_cons]
    omega

omit [DecidableEq L] [DecidableEq Pid] in
/-- A `popcli` that matches an earlier `pushcli` returns. -/
theorem popcli_of_inv (hI : s.Inv) (hn : 1 ≤ s.cpu.ncli) : s.popcli = .ok s.popped :=
  popcli_eq hn (hI.cli (by omega))

end Runs

/-! ## A process's critical section -/

section Sections

variable {ptable : L} {s s' s1 : CpuSys L Pid} {e : CpuEvent L Pid} {p : Pid} {v : Bool}

/-- Process `p`'s record is `v`, and while `p` is switched out its `sched` frame holds the
`intena` it saved. -/
structure Kept (p : Pid) (v : Bool) (s : CpuSys L Pid) : Prop where
  record : s.entry (.proc p) = some v
  parked : s.running ≠ .proc p → s.saved p ≠ none

/-- A step taken while `p` is inside its critical section, or switched out, keeps `p`'s
record: the record changes only at the running thread's depth `0` or at a first switch to
`p`, and a switched-out `p` has a saved `intena`. -/
theorem Kept.step (hI : s.Inv) (hk : s.Kept p v) (inside : s.running = .proc p → 0 < s.cpu.ncli)
    (h : s.step ptable e = .ok (some s')) : s'.Kept p v := by
  constructor
  · rcases step_entry hI h (.proc p) with kept | ⟨running, zero, -⟩ | ⟨scheduler, -⟩ |
      ⟨q, same, rfl, fresh, -⟩
    · exact kept.trans hk.record
    · exact absurd zero (by have := inside running.symm; omega)
    · cases scheduler
    · -- the scheduler switches to `p` only when `p` is parked, with a saved `intena`
      cases same
      have sched := (resume_cpu (step_swtch h)).1
      exact absurd fresh (hk.parked (by rw [sched]; exact nofun))
  · intro away
    rcases step_switch hI h with ⟨running, saved⟩ | ⟨q, running, -, -, saved⟩ |
      ⟨q, sched, -, running, -, saved⟩
    · rw [saved]
      exact hk.parked (running ▸ away)
    · by_cases same : q = p
      · subst same
        simp [saved]
      · rw [saved, Function.update_of_ne (Ne.symm same)]
        exact hk.parked (by rw [running]; exact fun eq => same (Thread.proc.inj eq))
    · have other : p ≠ q := fun same => away (by rw [running, same])
      rw [saved p other]
      exact hk.parked (by rw [sched]; exact nofun)

/-- **A process's record survives until its outermost `popcli`**, which restores it: along a
run in which `p`, whenever it runs, stays inside its critical section, until the last step
brings it back to depth `0`; the induction is on the run, one `Kept.step` at a time. -/
theorem Kept.restores (hI : s.Inv) (hk : s.Kept p v) :
    ∀ {es : List (CpuEvent L Pid)}, es ≠ [] → s.run ptable es = .ok (some s') →
      (∀ i < es.length, ∀ si, s.run ptable (es.take i) = .ok (some si) →
        si.running = .proc p → 0 < si.cpu.ncli) →
      s'.running = .proc p → s'.cpu.ncli = 0 → s'.cpu.intr = v := by
  intro es nonempty h inside back out
  induction es generalizing s with
  | nil => exact absurd rfl nonempty
  | cons e es ih =>
    obtain ⟨s1, stepped, rest⟩ := run_cons_eq_ok h
    have here : s.running = .proc p → 0 < s.cpu.ncli := inside 0 (by simp) s rfl
    by_cases last : es = []
    · -- the last step is `p`'s outermost `popcli`: no switch ends at depth `0`
      subst last
      cases rest
      rcases step_switch hI stepped with ⟨same, -⟩ | ⟨q, -, -, running, -⟩ |
        ⟨q, -, -, -, one, -⟩
      · have running : s.running = .proc p := same.symm.trans back
        exact step_restores hI stepped (running ▸ hk.record) (here running) same out
      · rw [running] at back
        cases back
      · omega
    · refine ih (hI.step stepped) (hk.step hI here stepped) last rest ?_
      intro i hi si ran
      refine inside (i + 1) (by simp only [List.length_cons]; omega) si ?_
      rw [List.take_succ_cons, run_cons_of_step stepped]
      exact ran

/-- **The outermost `popcli` restores what the outermost `pushcli` found**, for a process:
from any reachable state where process `p` runs at depth `0`, a step that enters a critical
section, then a run in which `p` runs only inside it, up to `p` back at depth `0`, leaves
the interrupt flag as it was, whatever `sched` calls and other threads came between. -/
theorem section_restores (hs : s.Reachable ptable) (running : s.running = .proc p)
    (zero : s.cpu.ncli = 0) (h : s.step ptable e = .ok (some s1)) (entered : 0 < s1.cpu.ncli)
    {es : List (CpuEvent L Pid)} (ran : s1.run ptable es = .ok (some s'))
    (inside : ∀ i < es.length, ∀ si, s1.run ptable (es.take i) = .ok (some si) →
      si.running = .proc p → 0 < si.cpu.ncli)
    (back : s'.running = .proc p) (out : s'.cpu.ncli = 0) : s'.cpu.intr = s.cpu.intr := by
  have hI := hs.inv
  -- entering a critical section is no switch: those run at depth `1`
  have same : s1.running = s.running := by
    rcases step_switch hI h with ⟨same, -⟩ | ⟨q, -, one, -⟩ | ⟨q, sched, -⟩
    · exact same
    · omega
    · rw [running] at sched
      cases sched
  have recorded := step_records hI h zero entered same
  rw [running] at recorded
  have nonempty : es ≠ [] := by
    rintro rfl
    cases ran
    omega
  exact Kept.restores (hI.step h) ⟨recorded, fun away => absurd (same.trans running) away⟩
    nonempty ran inside back out

end Sections

end CpuSys

/-- **`pushcli` and `popcli` nest**, on one processor: after every run from boot `ncli` is the
number of `pushcli` calls made, those inside `acquire`, `release`, `holding`, `myproc` and
`sched` included, less the `popcli` calls, it is never negative, and interrupts are disabled
while it is positive; a `popcli` that matches an earlier `pushcli` returns; and a process's
outermost `popcli` leaves the interrupt flag as it was before its outermost `pushcli`, across
any `sched` calls in between. -/
theorem pushcli_popcli_nest {L Pid : Type} [DecidableEq L] [DecidableEq Pid] (ptable : L) :
    (∀ (es : List (CpuEvent L Pid)) (s : CpuSys L Pid), CpuSys.boot.run ptable es = .ok (some s) →
      s.cpu.ncli = cliDepth es ∧ 0 ≤ s.cpu.ncli ∧ (0 < s.cpu.ncli → s.cpu.intr = false)) ∧
    (∀ s : CpuSys L Pid, s.Reachable ptable → 1 ≤ s.cpu.ncli → s.popcli = .ok s.popped) ∧
    (∀ (p : Pid) (s s1 s' : CpuSys L Pid) (e : CpuEvent L Pid) (es : List (CpuEvent L Pid)),
      s.Reachable ptable → s.running = .proc p → s.cpu.ncli = 0 →
      s.step ptable e = .ok (some s1) → 0 < s1.cpu.ncli → s1.run ptable es = .ok (some s') →
      (∀ i < es.length, ∀ si, s1.run ptable (es.take i) = .ok (some si) →
        si.running = .proc p → 0 < si.cpu.ncli) →
      s'.running = .proc p → s'.cpu.ncli = 0 → s'.cpu.intr = s.cpu.intr) := by
  refine ⟨fun es s ran => ?_, fun s hs hn => CpuSys.popcli_of_inv hs.inv hn,
    fun p s s1 s' e es hs running zero h entered ran inside back out =>
      CpuSys.section_restores hs running zero h entered ran inside back out⟩
  have hI := (CpuSys.Reachable.boot.run ran).inv
  have depth : s.cpu.ncli = cliDepth es := by
    rw [CpuSys.run_ncli CpuSys.boot_inv ran]
    simp [CpuSys.boot]
  exact ⟨depth, hI.ncli_nonneg, hI.cli⟩

/-- A process that yields with interrupts enabled gets them back: between its `acquire` and
its `release` of `ptable.lock` the scheduler runs with interrupts disabled, records that
in its own `acquire`, and the process's `intena`, saved in `sched`, wins. -/
theorem pushcli_popcli_nest_yield :
    ∃ s s1 s' : CpuSys Unit Unit,
      CpuSys.boot.run () [.setIF true, .acquire (), .swtch (), .release ()] = .ok (some s) ∧
      s.cpu.intr = true ∧ s.step () (.acquire ()) = .ok (some s1) ∧
      s1.run () [.sched, .release (), .setIF false, .acquire (), .swtch (), .release ()] =
        .ok (some s') ∧
      s'.cpu.intr = s.cpu.intr := by
  refine ⟨_, _, _, rfl, rfl, rfl, rfl, ?_⟩
  refine (pushcli_popcli_nest ()).2.2 () _ _ _ (.acquire ())
    [.sched, .release (), .setIF false, .acquire (), .swtch (), .release ()]
    (CpuSys.Reachable.boot.run
      (rfl : CpuSys.boot.run () [.setIF true, .acquire (), .swtch (), .release ()] = _))
    rfl rfl rfl (by decide) rfl ?_ rfl rfl
  intro i hi si ran
  have bound : i < 6 := hi
  interval_cases i <;> (obtain rfl := Option.some.inj (Except.ok.inj ran.symm); decide)

/-- **The processor-wide reading fails**: the scheduler's outermost `pushcli`, in its
`acquire` of `ptable.lock` with interrupts enabled, is matched on this processor by the
`popcli` of a process's `release`, which restores the `intena` that process saved in
`sched`, taken with interrupts disabled. -/
theorem scheduler_intena_lost :
    ∃ s0 s1 s2 s3 : CpuSys Unit Unit,
      CpuSys.boot.run () [.setIF true, .acquire (), .swtch (), .release (), .setIF false,
        .acquire (), .sched, .release (), .setIF true] = .ok (some s0) ∧
      s0.running = .scheduler ∧ s0.cpu.ncli = 0 ∧ s0.cpu.intr = true ∧
      s0.step () (.acquire ()) = .ok (some s1) ∧ s1.cpu.ncli = 1 ∧
      s1.step () (.swtch ()) = .ok (some s2) ∧ s2.cpu.ncli = 1 ∧
      s2.step () (.release ()) = .ok (some s3) ∧ s3.running = .proc () ∧ s3.cpu.ncli = 0 ∧
      s3.cpu.intr = false :=
  ⟨_, _, _, _, rfl, rfl, rfl, rfl, rfl, rfl, rfl, rfl, rfl, rfl, rfl, rfl⟩

end Xv6
