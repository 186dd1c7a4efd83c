import Xv6.Lib.Ring

/-!
# Pipes

`pipe.c`: a pipe is a ring of `PIPESIZE` bytes between the free-running counters `nread` and
`nwrite`, guarded by `p->lock`.  `pipewrite` stores bytes one at a time and, when the ring is
full, wakes the readers and sleeps on `&p->nwrite`; `piperead` sleeps on `&p->nread` while
the pipe is empty and its write end open, then copies what is there and wakes the writers.
`pipeclose` closes one end and wakes the other side.

Any number of processes use one pipe.  A step of process `p` is one stretch of its call
that runs under `p->lock`: from the call's start, or from its return from `sleep`, up to
the next `sleep` or the return.  `sleep` marks the caller `SLEEPING` on its channel under
`ptable.lock` before `p->lock` is free, so no wakeup falls between the two; `wakeup(chan)`
makes every process sleeping on `chan` runnable, and `kill` sets a process's `killed` flag
and makes it runnable if it sleeps.

A process calls `pipewrite` through a write end that is open and `piperead` through an open
read end, and each end is closed once.  That a process inside a call holds its end open is
left to the file layer: the model lets an end close at any time, a superset of the runs.

Three fields record the history and are read by no step: `stored`, every byte `pipewrite`
stored, in order; `taken`, every byte `piperead` copied out, in order; `mine`, the bytes
each process's current `pipewrite` call has stored.
-/

namespace Xv6

/-- `PIPESIZE`. -/
def pipeSize : Nat := 512

theorem pipeSize_dvd : pipeSize ∣ 2 ^ 32 := ⟨2 ^ 23, by decide⟩

/-- `struct pipe`, without its lock. -/
structure Pipe where
  data : Fin pipeSize → UInt8
  nread : UInt32
  nwrite : UInt32
  readopen : Bool
  writeopen : Bool

namespace Pipe

/-- `c % PIPESIZE`. -/
def slot (c : UInt32) : Fin pipeSize := Ring.cell pipeSize_dvd c

/-- `p->nwrite == p->nread + PIPESIZE`. -/
def full (p : Pipe) : Bool := p.nwrite == p.nread + UInt32.ofNat pipeSize

/-- `p->nread == p->nwrite`. -/
def empty (p : Pipe) : Bool := p.nread == p.nwrite

/-- `p->data[p->nwrite++ % PIPESIZE] = b`. -/
def put (p : Pipe) (b : UInt8) : Pipe :=
  { p with data := Function.update p.data (slot p.nwrite) b, nwrite := p.nwrite + 1 }

/-- `p->data[p->nread++ % PIPESIZE]`. -/
def get (p : Pipe) : UInt8 × Pipe := (p.data (slot p.nread), { p with nread := p.nread + 1 })

end Pipe

/-- The channels of the pipe: `&p->nread` and `&p->nwrite`. -/
inductive Chan where
  | nread
  | nwrite
  deriving DecidableEq

/-- Where a process is in a pipe call. -/
inductive PipeCall where
  | idle
  /-- In `pipewrite(p, src, n)` with the first `i` bytes of `src` stored. -/
  | write (src : List UInt8) (i : Nat)
  /-- In `piperead(p, addr, n)`, before its copy loop. -/
  | read (n : Nat)
  deriving DecidableEq

/-- How a stretch of a call under `p->lock` ends. -/
inductive Section where
  /-- `wakeup(wake)` if any, `release(&p->lock)`, `return v`. -/
  | ret (v : Int) (wake : Option Chan)
  /-- `wakeup(wake)` if any, then `sleep(chan, &p->lock)`, to resume the call `c`. -/
  | sleep (wake : Option Chan) (chan : Chan) (c : PipeCall)

/-- `pipewrite`'s loop from byte `i` of `src`, `rest` being the bytes from `i` on: the pipe,
the bytes stored, and how the stretch ends. -/
def pipewriteLoop (killed : Bool) (src : List UInt8) :
    (i : Nat) → (rest : List UInt8) → Pipe → Pipe × List UInt8 × Section
  | _, [], p => (p, [], .ret src.length (some .nread))
  | i, b :: rest, p =>
    if p.full then
      if !p.readopen || killed then (p, [], .ret (-1) none)
      else (p, [], .sleep (some .nread) .nwrite (.write src i))
    else
      let (p', bs, sec) := pipewriteLoop killed src (i + 1) rest (p.put b)
      (p', b :: bs, sec)

/-- `pipewrite(p, src, n)` from byte `i`, by a process whose `killed` flag is `killed`. -/
def pipewrite (killed : Bool) (src : List UInt8) (i : Nat) (p : Pipe) : Pipe × List UInt8 × Section :=
  pipewriteLoop killed src i (src.drop i) p

/-- `piperead`'s copy loop: at most `n` bytes, while the pipe is not empty. -/
def copyLoop : (n : Nat) → Pipe → Pipe × List UInt8
  | 0, p => (p, [])
  | n + 1, p =>
    if p.empty then (p, [])
    else
      let (b, p) := p.get
      let (p', bs) := copyLoop n p
      (p', b :: bs)

/-- `piperead(p, addr, n)` from the test of its `while` loop: the pipe, the bytes copied to
`addr`, and how the stretch ends. -/
def piperead (killed : Bool) (n : Nat) (p : Pipe) : Pipe × List UInt8 × Section :=
  if p.empty ∧ p.writeopen then
    if killed then (p, [], .ret (-1) none)
    else (p, [], .sleep none .nread (.read n))
  else
    let (p, bs) := copyLoop n p
    (p, bs, .ret bs.length (some .nwrite))

/-- A process as the pipe sees it. -/
structure PipeProc where
  call : PipeCall
  /-- `SLEEPING` on this channel. -/
  chan : Option Chan
  killed : Bool

/-- What a process does next. -/
inductive PipeOp where
  | write (src : List UInt8)
  | read (n : Nat)
  /-- Return from `sleep` and go on with the call. -/
  | resume
  /-- `kill` of this process, by any process. -/
  | kill
  /-- `pipeclose(p, 1)`, when the last write file closes. -/
  | closeWrite
  /-- `pipeclose(p, 0)`, when the last read file closes. -/
  | closeRead

/-- One pipe and the processes that use it, with the history fields. -/
structure PipeSys (Pid : Type) where
  pipe : Pipe
  proc : Pid → PipeProc
  stored : List UInt8
  taken : List UInt8
  mine : Pid → List UInt8

namespace PipeSys

variable {Pid : Type} [DecidableEq Pid]

/-- The pipe `pipealloc` returns, on a page holding `data`, before any process uses it. -/
def init (data : Fin pipeSize → UInt8) : PipeSys Pid :=
  ⟨⟨data, 0, 0, true, true⟩, fun _ => ⟨.idle, none, false⟩, [], [], fun _ => []⟩

/-- `wakeup(chan)`. -/
def wakeup (proc : Pid → PipeProc) : Option Chan → Pid → PipeProc
  | none => proc
  | some c => fun q => if (proc q).chan = some c then { proc q with chan := none } else proc q

/-- Process `p` ends a stretch of its call with `sec`, having stored `st` and taken `tk`. -/
def finish (s : PipeSys Pid) (p : Pid) (pipe : Pipe) (st tk : List UInt8) (sec : Section) :
    PipeSys Pid × Option Int :=
  let s := { s with
    pipe := pipe
    stored := s.stored ++ st
    taken := s.taken ++ tk
    mine := Function.update s.mine p (s.mine p ++ st) }
  match sec with
  | .ret v wake =>
    ({ s with proc := wakeup (Function.update s.proc p { s.proc p with call := .idle }) wake },
      some v)
  | .sleep wake chan c =>
    let proc := Function.update (wakeup s.proc wake) p { s.proc p with call := c, chan := some chan }
    ({ s with proc := proc }, none)

section Finish

variable (s : PipeSys Pid) (p : Pid) (pipe : Pipe) (st tk : List UInt8)

@[simp] theorem finish_pipe (sec : Section) : (s.finish p pipe st tk sec).1.pipe = pipe := by
  cases sec <;> rfl

@[simp] theorem finish_stored (sec : Section) :
    (s.finish p pipe st tk sec).1.stored = s.stored ++ st := by
  cases sec <;> rfl

@[simp] theorem finish_taken (sec : Section) :
    (s.finish p pipe st tk sec).1.taken = s.taken ++ tk := by
  cases sec <;> rfl

@[simp] theorem finish_mine (sec : Section) :
    (s.finish p pipe st tk sec).1.mine = Function.update s.mine p (s.mine p ++ st) := by
  cases sec <;> rfl

theorem finish_ret (v : Int) (wake : Option Chan) :
    s.finish p pipe st tk (.ret v wake) =
      ({ s with
          pipe := pipe
          stored := s.stored ++ st
          taken := s.taken ++ tk
          mine := Function.update s.mine p (s.mine p ++ st)
          proc := wakeup (Function.update s.proc p { s.proc p with call := .idle }) wake },
        some v) := rfl

theorem finish_sleep (wake : Option Chan) (chan : Chan) (c : PipeCall) :
    s.finish p pipe st tk (.sleep wake chan c) =
      ({ s with
          pipe := pipe
          stored := s.stored ++ st
          taken := s.taken ++ tk
          mine := Function.update s.mine p (s.mine p ++ st)
          proc := Function.update (wakeup s.proc wake) p
            { s.proc p with call := c, chan := some chan } }, none) := rfl

end Finish

/-- A stretch of call `c` by `p`, from its start or from the return of its `sleep`. -/
def run (s : PipeSys Pid) (p : Pid) : PipeCall → Option (PipeSys Pid × Option Int)
  | .idle => none
  | .write src i =>
    let (pipe, bs, sec) := pipewrite (s.proc p).killed src i s.pipe
    some (s.finish p pipe bs [] sec)
  | .read n =>
    let (pipe, bs, sec) := piperead (s.proc p).killed n s.pipe
    some (s.finish p pipe [] bs sec)

/-- One step of process `p`: the state, and what its call returns if it returns; `none` when
`p` cannot take it. -/
def step (s : PipeSys Pid) (p : Pid) : PipeOp → Option (PipeSys Pid × Option Int)
  | .write src =>
    if (s.proc p).call = .idle ∧ s.pipe.writeopen then
      { s with mine := Function.update s.mine p [] }.run p (.write src 0)
    else none
  | .read n => if (s.proc p).call = .idle ∧ s.pipe.readopen then s.run p (.read n) else none
  | .resume => if (s.proc p).chan = none then s.run p (s.proc p).call else none
  | .kill =>
    let proc := Function.update s.proc p { s.proc p with killed := true, chan := none }
    some ({ s with proc := proc }, none)
  | .closeWrite =>
    if s.pipe.writeopen then
      some ({ s with
        pipe := { s.pipe with writeopen := false }
        proc := wakeup s.proc (some .nread) }, none)
    else none
  | .closeRead =>
    if s.pipe.readopen then
      some ({ s with
        pipe := { s.pipe with readopen := false }
        proc := wakeup s.proc (some .nwrite) }, none)
    else none

/-- The states some interleaving reaches from a new pipe. -/
inductive Reachable : PipeSys Pid → Prop
  | init (data : Fin pipeSize → UInt8) : Reachable (init data)
  | step {s s' : PipeSys Pid} (p : Pid) (op : PipeOp) (r : Option Int) :
      Reachable s → s.step p op = some (s', r) → Reachable s'

/-- The call a step of `p` runs: a new one, or the one `p` is in. -/
def callOf (s : PipeSys Pid) (p : Pid) : PipeOp → PipeCall
  | .write src => .write src 0
  | .read n => .read n
  | .resume => (s.proc p).call
  | _ => .idle

end PipeSys

end Xv6
