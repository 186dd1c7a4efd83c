import Xv6.Fs.File
import Xv6.Vm.Copyout

/-!
# The process table

`proc.c`'s `ptable` and the calls that change it: `allocproc`, `userinit`, `fork`, `exit`,
`wait`, `kill`, `sleep` and `wakeup1`, and the scheduler's and `yield`'s switches.  A slot's
open files and current directory are those of the file layer (`Files`), indexed by slot.

Memory is outside this module: a call takes what `kalloc` and `copyuvm` returned (a page, or
`0`) as arguments, and the pages a call frees, the trap frame and context it writes, are left
to the layer below.  Each call runs whole, under `ptable.lock`, and `Step` lets any of them
run next; `Reachable` starts from `userinit` on the zeroed table.

* `kill_spec`: `kill(pid)` marks the first slot whose `pid` field is `pid`, whatever its
  state, and changes nothing else;
* `allocproc_killed`: `allocproc` keeps the `killed` flag of the slot it takes;
* `fork_failed_pid`: a `fork` that fails after `allocproc` leaves the new pid on the slot it
  gives back.
-/

namespace Xv6

/-- `NPROC`. -/
def nproc : Nat := 64

instance neZero_nproc : NeZero nproc := ⟨by decide⟩

/-- `KSTACKSIZE`. -/
def kstackSize : UInt32 := 4096

/-- `sizeof(struct trapframe)`: nineteen words. -/
def trapframeSize : UInt32 := 76

/-- `sizeof(struct context)`: five words. -/
def contextSize : UInt32 := 20

/-- `enum procstate`. -/
inductive ProcState where
  | unused
  | embryo
  | sleeping
  | runnable
  | running
  | zombie
  deriving DecidableEq, Repr

namespace Ptable

/-- `void *chan`: nothing, a process (what `wait` sleeps on), or any other object. -/
inductive Chan where
  | none
  | proc (i : Fin nproc)
  | other (a : Nat)
  deriving DecidableEq, Repr

/-- `struct proc`, but for `ofile` and `cwd`, which are the file layer's, and `name`. -/
structure Proc where
  sz : UInt32
  pgdir : UInt32
  kstack : UInt32
  state : ProcState
  pid : Int32
  parent : Option (Fin nproc)
  tf : UInt32
  context : UInt32
  chan : Chan
  killed : Bool
  deriving DecidableEq

/-- A slot of the zeroed table. -/
def Proc.zero : Proc := ⟨0, 0, 0, .unused, 0, none, 0, 0, .none, false⟩

/-- `ptable.proc`, `nextpid`, `initproc`, and the file layer with each slot's descriptors and
current directory. -/
structure Procs where
  proc : Fin nproc → Proc
  nextpid : Int32
  initproc : Option (Fin nproc)
  files : Files (Fin nproc)

namespace Procs

/-- Store slot `i`. -/
def set (t : Procs) (i : Fin nproc) (p : Proc) : Procs :=
  { t with proc := Function.update t.proc i p }

@[simp] theorem set_proc_self (t : Procs) (i : Fin nproc) (p : Proc) : (t.set i p).proc i = p := by
  simp [set]

@[simp] theorem set_proc_of_ne (t : Procs) {i j : Fin nproc} (p : Proc) (h : j ≠ i) :
    (t.set i p).proc j = t.proc j := by
  simp [set, Function.update_of_ne h]

@[simp] theorem set_nextpid (t : Procs) (i : Fin nproc) (p : Proc) :
    (t.set i p).nextpid = t.nextpid := rfl

@[simp] theorem set_initproc (t : Procs) (i : Fin nproc) (p : Proc) :
    (t.set i p).initproc = t.initproc := rfl

@[simp] theorem set_files (t : Procs) (i : Fin nproc) (p : Proc) : (t.set i p).files = t.files := rfl

/-- The table before `userinit`: every slot zero, `nextpid = 1`, no files open. -/
def boot (fs : Fs) : Procs where
  proc := fun _ => Proc.zero
  nextpid := 1
  initproc := none
  files := ⟨fs, fun _ => File.closed, fun _ _ => none, fun _ => fs.cwd⟩

/-- The first slot whose state is `UNUSED`. -/
def firstUnused (t : Procs) : Option (Fin nproc) :=
  (List.finRange nproc).find? fun i => (t.proc i).state = .unused

/-- `allocproc()`, `kstack` being what its `kalloc()` returned: the first `UNUSED` slot, now
`EMBRYO` with the next pid and its trap frame and context laid out at the top of the
kernel stack; `UNUSED` again, with the pid, when `kalloc` failed. -/
def allocproc (t : Procs) (kstack : UInt32) : Option (Fin nproc) × Procs :=
  match t.firstUnused with
  | none => (none, t)
  | some i =>
    let p := { t.proc i with state := .embryo, pid := t.nextpid }
    let t := { t.set i p with nextpid := t.nextpid + 1 }
    if kstack = 0 then (none, t.set i { p with kstack := 0, state := .unused })
    else
      let tf := kstack + kstackSize - trapframeSize
      -- below the trap frame, the return address `trapret`, then the context
      (some i, t.set i { p with kstack, tf, context := tf - 4 - contextSize })

/-- `wakeup1(chan)`: every process asleep on `chan` is `RUNNABLE`. -/
def wakeup1 (t : Procs) (chan : Chan) : Procs :=
  { t with proc := fun i =>
      if (t.proc i).state = .sleeping ∧ (t.proc i).chan = chan then
        { t.proc i with state := .runnable }
      else t.proc i }

/-- The channel of a process pointer: `0` for none. -/
def chanOf : Option (Fin nproc) → Chan
  | none => .none
  | some i => .proc i

/-- `userinit()`, with what `allocproc`'s `kalloc` and `setupkvm` returned: the first process,
`RUNNABLE`, with the root directory as its current directory. -/
def userinit (t : Procs) (kstack pgdir : UInt32) : Except Fault Procs := do
  match t.allocproc kstack with
  | (none, _) => throw .nullDeref
  | (some p, t) =>
    let t := { t with initproc := some p }
    if pgdir = 0 then throw (.panic "userinit: out of memory?")
    let t := t.set p { t.proc p with pgdir, sz := pgSize }
    -- `p->cwd = namei("/")`
    let (fs, ip) ← t.files.fs.iget rootDev rootIno
    let t := { t with files := { t.files with fs, cwd := Function.update t.files.cwd p ip } }
    pure (t.set p { t.proc p with state := .runnable })

/-- `fork`'s loop over the parent's descriptors: each open file `filedup`ed into the child's
slot of the same number. -/
def dupFiles (cur np : Fin nproc) (files : Files (Fin nproc)) (fd : Fin nofile) :
    Except Fault (Files (Fin nproc)) :=
  match files.ofile cur fd with
  | some f => do
    let files ← files.filedup f
    pure (files.setOfile np fd (some f))
  | none => pure files

/-- `fork()` by `cur`, with what `allocproc`'s `kalloc` and `copyuvm` returned: the child's pid,
or `-1` when either failed. -/
def fork (t : Procs) (cur : Fin nproc) (kstack pgdir : UInt32) : Except Fault (Int32 × Procs) := do
  match t.allocproc kstack with
  | (none, t) => pure (-1, t)
  | (some np, t) =>
    if pgdir = 0 then
      -- `kfree(np->kstack); np->kstack = 0; np->state = UNUSED;`
      pure (-1, t.set np { t.proc np with kstack := 0, state := .unused })
    else
      let t := t.set np { t.proc np with pgdir, sz := (t.proc cur).sz, parent := some cur }
      let files ← (List.finRange nofile).foldlM (dupFiles cur np) t.files
      -- `np->cwd = idup(curproc->cwd)`
      let files := { files with
        fs := files.fs.idup (files.cwd cur), cwd := Function.update files.cwd np (files.cwd cur) }
      let t := { t with files }
      pure ((t.proc np).pid, t.set np { t.proc np with state := .runnable })

/-- `exit`'s loop over the descriptors: each open file closed. -/
def closeFiles (cur : Fin nproc) (files : Files (Fin nproc)) (fd : Fin nofile) :
    Except Fault (Files (Fin nproc)) :=
  match files.ofile cur fd with
  | some f => do
    let files ← files.fileclose f
    pure (files.setOfile cur fd none)
  | none => pure files

/-- `exit`'s loop passing `cur`'s children to `initproc`, waking it for a zombie among them. -/
def reparent (cur : Fin nproc) (t : Procs) (q : Fin nproc) : Procs :=
  if (t.proc q).parent = some cur then
    let t := t.set q { t.proc q with parent := t.initproc }
    if (t.proc q).state = .zombie then t.wakeup1 (chanOf t.initproc) else t
  else t

/-- `exit()` by `cur`, up to its `sched()`: files closed, the current directory put, the parent
woken, the children passed to `initproc`, and `cur` a `ZOMBIE`. -/
def exit (t : Procs) (cur : Fin nproc) : Except Fault Procs := do
  if t.initproc = some cur then throw (.panic "init exiting")
  let files ← (List.finRange nofile).foldlM (closeFiles cur) t.files
  let fs ← files.fs.iput (files.cwd cur)
  let t := { t with files := { files with fs } }
  let t := t.wakeup1 (chanOf (t.proc cur).parent)
  let t := (List.finRange nproc).foldl (reparent cur) t
  pure (t.set cur { t.proc cur with state := .zombie })

/-- The first child of `cur` that is a `ZOMBIE`. -/
def zombieChild (t : Procs) (cur : Fin nproc) : Option (Fin nproc) :=
  (List.finRange nproc).find? fun q => (t.proc q).parent = some cur ∧ (t.proc q).state = .zombie

/-- `wait()` by `cur`, one pass of its loop: the first zombie child reaped and its pid, `-1`
with no children or when `cur` was killed, or else `none` with `cur` asleep on itself. -/
def wait (t : Procs) (cur : Fin nproc) : Option Int32 × Procs :=
  match t.zombieChild cur with
  | some q =>
    -- `kfree(p->kstack)` and `freevm(p->pgdir)` free its memory
    let reaped := { t.proc q with
      kstack := 0, pid := 0, parent := Option.none, killed := false, state := .unused }
    (some (t.proc q).pid, t.set q reaped)
  | none =>
    if (List.finRange nproc).all (fun q => (t.proc q).parent ≠ some cur) || (t.proc cur).killed then
      (some (-1), t)
    else (none, t.set cur { t.proc cur with chan := .proc cur, state := .sleeping })

/-- The first slot whose `pid` field is `pid`. -/
def withPid (t : Procs) (pid : Int32) : Option (Fin nproc) :=
  (List.finRange nproc).find? fun i => (t.proc i).pid = pid

/-- `kill(pid)`: mark the first slot with that pid killed, waking it from sleep. -/
def kill (t : Procs) (pid : Int32) : Int32 × Procs :=
  match t.withPid pid with
  | some i =>
    let p := t.proc i
    (0, t.set i { p with killed := true, state := if p.state = .sleeping then .runnable else p.state })
  | none => (-1, t)

/-! ## `kill` -/

theorem withPid_eq_none_iff (t : Procs) (pid : Int32) :
    t.withPid pid = none ↔ ∀ i, (t.proc i).pid ≠ pid := by
  simp [withPid, List.find?_eq_none]

theorem withPid_pid {t : Procs} {pid : Int32} {i : Fin nproc} (h : t.withPid pid = some i) :
    (t.proc i).pid = pid := by
  simpa using List.find?_some h

/-- `kill(pid)` returns `0` exactly when some slot holds `pid`, in whatever state, and then it
changes only the first such slot, which it marks killed. -/
theorem kill_spec (t : Procs) (pid : Int32) :
    ((t.kill pid).1 = 0 ↔ ∃ i, (t.proc i).pid = pid) ∧
    ∀ i, t.withPid pid = some i →
      ((t.kill pid).2.proc i).killed = true ∧ (∀ j, j ≠ i → (t.kill pid).2.proc j = t.proc j) ∧
      (t.kill pid).2.nextpid = t.nextpid ∧ (t.kill pid).2.files = t.files := by
  constructor
  · cases found : t.withPid pid with
    | none =>
      have none := (withPid_eq_none_iff t pid).mp found
      simp only [kill, found]
      exact ⟨fun minus => absurd minus (by decide), fun ⟨i, same⟩ => absurd same (none i)⟩
    | some i =>
      simp only [kill, found, true_iff]
      exact ⟨i, withPid_pid found⟩
  · intro i found
    simp only [kill, found]
    exact ⟨by simp, fun j ne => by simp [ne], rfl, rfl⟩

/-- `kill` wakes a sleeping process and leaves every other state as it was. -/
theorem kill_state_of_ne_sleeping (t : Procs) (pid : Int32) {i : Fin nproc}
    (awake : (t.proc i).state ≠ .sleeping) : ((t.kill pid).2.proc i).state = (t.proc i).state := by
  cases found : t.withPid pid with
  | none => simp [kill, found]
  | some j =>
    by_cases same : i = j
    · subst same
      simp [kill, found, awake]
    · simp [kill, found, same]

/-! ## `allocproc` and `fork` -/

/-- The slot `allocproc` takes was `UNUSED`, and keeps its `killed` flag, on success or not. -/
theorem allocproc_slot {t : Procs} (kstack : UInt32) {i : Fin nproc} (found : t.firstUnused = some i) :
    (t.proc i).state = .unused ∧ ((t.allocproc kstack).2.proc i).killed = (t.proc i).killed ∧
      ((t.allocproc kstack).2.proc i).pid = t.nextpid ∧
      (t.allocproc kstack).2.nextpid = t.nextpid + 1 := by
  have unused : (t.proc i).state = .unused := by
    simpa using List.find?_some found
  refine ⟨unused, ?_⟩
  by_cases fail : kstack = 0 <;> simp [allocproc, found, fail]

theorem allocproc_some {t t' : Procs} {kstack : UInt32} {i : Fin nproc}
    (h : t.allocproc kstack = (some i, t')) : t.firstUnused = some i ∧ kstack ≠ 0 := by
  unfold allocproc at h
  split at h
  · cases h
  · rename_i j found
    split at h
    · cases h
    · have same : j = i := Option.some.inj (Prod.mk.inj h).1
      subst same
      exact ⟨found, by assumption⟩

/-- The child of a `fork` that returns a pid is the slot `allocproc` took, with the `killed`
flag that slot had while `UNUSED`. -/
theorem fork_child_killed {t t' : Procs} {cur : Fin nproc} {kstack pgdir : UInt32} {r : Int32}
    (h : t.fork cur kstack pgdir = .ok (r, t')) (forked : r ≠ -1) :
    ∃ np, t.firstUnused = some np ∧ r = t.nextpid ∧ (t'.proc np).state = .runnable ∧
      (t'.proc np).parent = some cur ∧ (t'.proc np).killed = (t.proc np).killed := by
  unfold fork at h
  split at h
  · exact absurd (Prod.mk.inj (Except.ok.inj h)).1.symm forked
  · rename_i np t₁ alloc
    obtain ⟨found, -⟩ := allocproc_some alloc
    obtain ⟨-, killed, pid, -⟩ := allocproc_slot kstack found
    rw [alloc] at killed pid
    split at h
    · exact absurd (Prod.mk.inj (Except.ok.inj h)).1.symm forked
    · obtain ⟨files, -, h⟩ := except_bind_eq_ok h
      obtain ⟨rfl, rfl⟩ := Prod.mk.inj (Except.ok.inj h)
      exact ⟨np, found, by simpa using pid, by simp, by simp, by simpa using killed⟩

/-- A `fork` whose `copyuvm` fails gives the slot back `UNUSED`, but with the pid `allocproc`
gave it, and `nextpid` moved on. -/
theorem fork_failed_pid {t : Procs} {cur np : Fin nproc} {kstack : UInt32}
    (found : t.firstUnused = some np) (stack : kstack ≠ 0) :
    ∃ t', t.fork cur kstack 0 = .ok (-1, t') ∧ (t'.proc np).state = .unused ∧
      (t'.proc np).pid = t.nextpid ∧ t'.nextpid = t.nextpid + 1 ∧
      ∀ j, j ≠ np → t'.proc j = t.proc j := by
  let t₁ := (t.allocproc kstack).2
  have alloc : t.allocproc kstack = (some np, t₁) := Prod.ext (by simp [allocproc, found, stack]) rfl
  obtain ⟨-, -, pid, next⟩ := allocproc_slot kstack found
  refine ⟨t₁.set np { t₁.proc np with kstack := 0, state := .unused }, ?_, by simp, by simpa using pid,
    by simpa using next, ?_⟩
  · simp only [fork, alloc]
    rfl
  · intro j ne
    rw [set_proc_of_ne _ _ ne]
    simp [t₁, allocproc, found, stack, ne]

end Procs

/-- What the table can do next: the scheduler runs a `RUNNABLE` process, the running one
yields, sleeps or makes one of the calls above, or something wakes a channel. -/
inductive Step : Procs → Procs → Prop
  | scheduler {t : Procs} (i : Fin nproc) (runnable : (t.proc i).state = .runnable) :
      Step t (t.set i { t.proc i with state := .running })
  | yield {t : Procs} (i : Fin nproc) (running : (t.proc i).state = .running) :
      Step t (t.set i { t.proc i with state := .runnable })
  | sleep {t : Procs} (i : Fin nproc) (a : Nat) (running : (t.proc i).state = .running) :
      Step t (t.set i { t.proc i with chan := .other a, state := .sleeping })
  | wakeup {t : Procs} (chan : Chan) : Step t (t.wakeup1 chan)
  | fork {t t' : Procs} (cur : Fin nproc) (kstack pgdir : UInt32) (r : Int32)
      (running : (t.proc cur).state = .running) (call : t.fork cur kstack pgdir = .ok (r, t')) :
      Step t t'
  | exit {t t' : Procs} (cur : Fin nproc) (running : (t.proc cur).state = .running)
      (call : t.exit cur = .ok t') : Step t t'
  | wait {t t' : Procs} (cur : Fin nproc) (r : Option Int32)
      (running : (t.proc cur).state = .running) (call : t.wait cur = (r, t')) : Step t t'
  | kill {t t' : Procs} (cur : Fin nproc) (pid r : Int32)
      (running : (t.proc cur).state = .running) (call : t.kill pid = (r, t')) : Step t t'

/-- The tables the kernel can reach: `userinit` on the zeroed table, then any steps. -/
inductive Reachable : Procs → Prop
  | boot {fs : Fs} {t : Procs} (kstack pgdir : UInt32)
      (init : (Procs.boot fs).userinit kstack pgdir = .ok t) : Reachable t
  | step {t t' : Procs} (reach : Reachable t) (step : Step t t') : Reachable t'

/-! ## The steps as a function

`Call` names a step and what its `kalloc`s returned; `Procs.call` takes it where `Step` can,
so that a run of calls can be evaluated, and `call_step` says each one is a `Step`. -/

/-- A call of the scheduler or of process `cur`, with what its `kalloc` and `copyuvm`
returned. -/
inductive Call where
  | scheduler (i : Fin nproc)
  | yield (i : Fin nproc)
  | sleep (i : Fin nproc) (a : Nat)
  | wakeup (chan : Chan)
  | fork (cur : Fin nproc) (kstack pgdir : UInt32)
  | exit (cur : Fin nproc)
  | wait (cur : Fin nproc)
  | kill (cur : Fin nproc) (pid : Int32)

namespace Procs

/-- The table after the call, or `none` when the process is not in the state the call needs
or the call panics. -/
def call (t : Procs) : Call → Option Procs
  | .scheduler i =>
    if (t.proc i).state = .runnable then some (t.set i { t.proc i with state := .running }) else none
  | .yield i =>
    if (t.proc i).state = .running then some (t.set i { t.proc i with state := .runnable }) else none
  | .sleep i a =>
    if (t.proc i).state = .running then
      some (t.set i { t.proc i with chan := .other a, state := .sleeping })
    else none
  | .wakeup chan => some (t.wakeup1 chan)
  | .fork cur kstack pgdir =>
    if (t.proc cur).state = .running then (t.fork cur kstack pgdir).toOption.map Prod.snd else none
  | .exit cur => if (t.proc cur).state = .running then (t.exit cur).toOption else none
  | .wait cur => if (t.proc cur).state = .running then some (t.wait cur).2 else none
  | .kill cur pid => if (t.proc cur).state = .running then some (t.kill pid).2 else none

/-- The calls one after another, `none` from the first that cannot be taken. -/
def calls (t : Procs) : List Call → Option Procs
  | [] => some t
  | c :: cs => (t.call c).bind fun t => t.calls cs

/-- A call that is taken is a step. -/
theorem call_step {t t' : Procs} {c : Call} (h : t.call c = some t') : Step t t' := by
  cases c with
  | scheduler i =>
    simp only [call, Option.ite_none_right_eq_some, Option.some.injEq] at h
    obtain ⟨runnable, rfl⟩ := h
    exact .scheduler i runnable
  | yield i =>
    simp only [call, Option.ite_none_right_eq_some, Option.some.injEq] at h
    obtain ⟨running, rfl⟩ := h
    exact .yield i running
  | sleep i a =>
    simp only [call, Option.ite_none_right_eq_some, Option.some.injEq] at h
    obtain ⟨running, rfl⟩ := h
    exact .sleep i a running
  | wakeup chan =>
    cases h
    exact .wakeup chan
  | fork cur kstack pgdir =>
    simp only [call, Option.ite_none_right_eq_some, Option.map_eq_some_iff,
      except_toOption_eq_some] at h
    obtain ⟨running, ⟨r, t''⟩, forked, rfl⟩ := h
    exact .fork cur kstack pgdir r running forked
  | exit cur =>
    simp only [call, Option.ite_none_right_eq_some, except_toOption_eq_some] at h
    exact .exit cur h.1 h.2
  | wait cur =>
    simp only [call, Option.ite_none_right_eq_some, Option.some.injEq] at h
    obtain ⟨running, rfl⟩ := h
    exact .wait cur _ running rfl
  | kill cur pid =>
    simp only [call, Option.ite_none_right_eq_some, Option.some.injEq] at h
    obtain ⟨running, rfl⟩ := h
    exact .kill cur pid _ running rfl

end Procs

/-- Calls taken one after another from a reachable table reach a table. -/
theorem Reachable.calls {t t' : Procs} (reach : Reachable t) {cs : List Call}
    (h : t.calls cs = some t') : Reachable t' := by
  induction cs generalizing t with
  | nil =>
    cases h
    exact reach
  | cons c cs ih =>
    obtain ⟨t₁, called, rest⟩ := Option.bind_eq_some_iff.mp h
    exact ih (.step reach (Procs.call_step called)) rest

/-- `userinit` on the zeroed table, then the calls. -/
def replay (fs : Fs) (kstack pgdir : UInt32) (cs : List Call) : Option Procs :=
  ((Procs.boot fs).userinit kstack pgdir).toOption.bind fun t => t.calls cs

theorem replay_eq_some {fs : Fs} {kstack pgdir : UInt32} {cs : List Call} {t : Procs} :
    replay fs kstack pgdir cs = some t ↔
      ∃ t₀, (Procs.boot fs).userinit kstack pgdir = .ok t₀ ∧ t₀.calls cs = some t := by
  simp only [replay, Option.bind_eq_some_iff, except_toOption_eq_some]

theorem Reachable.replay {fs : Fs} {kstack pgdir : UInt32} {cs : List Call} {t : Procs}
    (h : replay fs kstack pgdir cs = some t) : Reachable t := by
  obtain ⟨t₀, init, called⟩ := replay_eq_some.mp h
  exact (Reachable.boot kstack pgdir init).calls called

/-! ## Two runs from boot

`userinit` on a file system with an empty inode cache, its kernel stack and page directory at
`0x803FF000` and `0x803FE000`, puts init in slot `0` with pid `1`; every other slot is still
zero, `pid` field `0` included. -/

/-- A file system whose inode cache is empty, on a zeroed disk. -/
def emptyFs : Fs := ⟨readsb zeroBlock, fun _ => zeroBlock, fun _ => Inode.unused, ⟨0, ninode_pos⟩,
  fun _ => none⟩

/-- Init as the scheduler first runs it. -/
def runInit (t : Procs) : Procs := t.set 0 { t.proc 0 with state := .running }

/-- The run of `kill_zero_marks_child`, checked: init runs, `kill(0)` answers `0`, and the
`fork` after it makes a child that is already killed. -/
def killZeroCheck : Except Fault Procs → Bool
  | .error _ => false
  | .ok t₀ =>
    let t := runInit t₀
    (t₀.proc 0).state == .runnable &&
      decide (∀ i, (t.proc i).state ≠ .unused → (t.proc i).pid ≠ 0) && (t.kill 0).1 == 0 &&
      match (t.kill 0).2.fork 0 0x803FD000 0x803FC000 with
      | .ok (pid, t₂) =>
        pid == 2 && (t₂.proc 1).parent == some 0 && (t₂.proc 1).state == .runnable &&
          (t₂.proc 1).killed
      | .error _ => false

/-- Init calls `kill(0)`: no process but the `UNUSED` slots has pid `0`, yet `kill` answers `0`
and marks slot `1`; init's next `fork` puts its child there, `RUNNABLE` and killed. -/
theorem kill_zero_marks_child :
    ∃ t₀, (Procs.boot emptyFs).userinit 0x803FF000 0x803FE000 = .ok t₀ ∧
      (∀ i, ((runInit t₀).proc i).state ≠ .unused → ((runInit t₀).proc i).pid ≠ 0) ∧
      ((runInit t₀).kill 0).1 = 0 ∧
      ∃ t₂, ((runInit t₀).kill 0).2.fork 0 0x803FD000 0x803FC000 = .ok (2, t₂) ∧ Reachable t₂ ∧
        (t₂.proc 1).parent = some 0 ∧ (t₂.proc 1).state = .runnable ∧ (t₂.proc 1).killed = true := by
  have run : killZeroCheck ((Procs.boot emptyFs).userinit 0x803FF000 0x803FE000) = true := by
    decide
  -- `kill(0)` marks slot `1`, which is still the first `UNUSED` one
  have marked : ((Procs.boot emptyFs).userinit 0x803FF000 0x803FE000).toOption.any (fun t₀ =>
      decide (((runInit t₀).kill 0).2.firstUnused = some 1) && (((runInit t₀).kill 0).2.proc 1).killed) = true := by
    decide
  cases init : (Procs.boot emptyFs).userinit 0x803FF000 0x803FE000 with
  | error e => rw [init] at run; cases run
  | ok t₀ =>
    rw [init] at run marked
    simp only [Except.toOption, Option.any_some, Bool.and_eq_true, decide_eq_true_eq] at marked
    simp only [killZeroCheck, Bool.and_eq_true, beq_iff_eq, decide_eq_true_eq] at run
    obtain ⟨⟨⟨runnable, live⟩, killed⟩, forked⟩ := run
    refine ⟨t₀, rfl, live, killed, ?_⟩
    cases call : ((runInit t₀).kill 0).2.fork 0 0x803FD000 0x803FC000 with
    | error e => rw [call] at forked; cases forked
    | ok r =>
      obtain ⟨pid, t₂⟩ := r
      rw [call] at forked
      simp only [Bool.and_eq_true, beq_iff_eq] at forked
      obtain ⟨⟨⟨rfl, parent⟩, state⟩, -⟩ := forked
      -- the child is that slot, and keeps the flag
      obtain ⟨np, found, -, -, -, inherited⟩ := Procs.fork_child_killed call (by decide)
      obtain rfl : np = 1 := Option.some.inj (found.symm.trans marked.1)
      have child : (t₂.proc 1).killed = true := inherited.trans marked.2
      have booted : Reachable t₀ := .boot _ _ init
      have running : Reachable (runInit t₀) := .step booted (.scheduler 0 runnable)
      have killing : Reachable ((runInit t₀).kill 0).2 :=
        .step running (.kill 0 0 _ (by simp [runInit]) rfl)
      have initRuns : (((runInit t₀).kill 0).2.proc 0).state = .running := by
        rw [Procs.kill_state_of_ne_sleeping _ _ (by simp [runInit])]
        simp [runInit]
      exact ⟨t₂, rfl, .step killing (.fork 0 _ _ _ initRuns call), parent, state, child⟩

/-- The run of `failed_fork_keeps_pid`, checked: init's `fork` gets a kernel stack but
`copyuvm` fails, and `kill` of the pid that fork handed out finds the slot. -/
def failedForkCheck : Except Fault Procs → Bool
  | .error _ => false
  | .ok t₀ =>
    let t := runInit t₀
    (t₀.proc 0).state == .runnable && (t.proc 1).state == .unused && (t.proc 1).pid == 0 &&
      t.nextpid == 2 &&
      match t.fork 0 0x803FD000 0 with
      | .ok (r, t₁) =>
        r == -1 && (t₁.proc 1).state == .unused && (t₁.proc 1).pid == 2 && t₁.nextpid == 3 &&
          (t₁.kill 2).1 == 0 && ((t₁.kill 2).2.proc 1).killed
      | .error _ => false

/-- Init's `fork` fails in `copyuvm` and returns `-1`: slot `1` is `UNUSED` again, but its pid
field is `2` where it was `0`, and `kill(2)` answers `0` and marks it, though no process has
pid `2`. -/
theorem failed_fork_keeps_pid :
    ∃ t₀, (Procs.boot emptyFs).userinit 0x803FF000 0x803FE000 = .ok t₀ ∧
      ((runInit t₀).proc 1).state = .unused ∧ ((runInit t₀).proc 1).pid = 0 ∧
      (runInit t₀).nextpid = 2 ∧
      ∃ t₁, (runInit t₀).fork 0 0x803FD000 0 = .ok (-1, t₁) ∧ Reachable t₁ ∧
        (t₁.proc 1).state = .unused ∧ (t₁.proc 1).pid = 2 ∧ t₁.nextpid = 3 ∧
        (t₁.kill 2).1 = 0 ∧ ((t₁.kill 2).2.proc 1).killed = true := by
  have run : failedForkCheck ((Procs.boot emptyFs).userinit 0x803FF000 0x803FE000) = true := by
    decide
  cases init : (Procs.boot emptyFs).userinit 0x803FF000 0x803FE000 with
  | error e => rw [init] at run; cases run
  | ok t₀ =>
    rw [init] at run
    simp only [failedForkCheck, Bool.and_eq_true, beq_iff_eq] at run
    obtain ⟨⟨⟨⟨runnable, unused⟩, zero⟩, next⟩, forked⟩ := run
    refine ⟨t₀, rfl, unused, zero, next, ?_⟩
    cases call : (runInit t₀).fork 0 0x803FD000 0 with
    | error e => rw [call] at forked; cases forked
    | ok r =>
      obtain ⟨r, t₁⟩ := r
      rw [call] at forked
      simp only [Bool.and_eq_true, beq_iff_eq] at forked
      obtain ⟨⟨⟨⟨⟨rfl, state⟩, pid⟩, next'⟩, killed⟩, marked⟩ := forked
      have running : Reachable (runInit t₀) := .step (.boot _ _ init) (.scheduler 0 runnable)
      exact ⟨t₁, rfl, .step running (.fork 0 _ _ _ (by simp [runInit]) call), state, pid, next',
        killed, marked⟩

end Ptable

end Xv6
