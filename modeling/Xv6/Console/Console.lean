import Xv6.Lib.Ring

/-!
# The console's input line discipline

`console.c`: typed characters reach `consoleintr`, which edits the current line in the ring
`input.buf` of `INPUT_BUF` bytes between three free-running counters: `r` (read), `w`
(write: the end of the committed lines) and `e` (edit: the end of the line being typed).
A `'\n'`, a `^D`, or a full ring commits the line (`w = e`) and wakes the readers;
backspace and `^U` move `e` back.  `consoleread` takes committed bytes from `r`, sleeping on
`&input.r` while there are none, up to a `'\n'`, a `^D`, or the count it was asked for; a
`^D` after some bytes is put back (`r--`) for the next read, which then returns 0.

A step of the model is one stretch under `cons.lock`: one `consoleintr` call over the
characters `getc` delivers, or a stretch of one `consoleread` call from its start or from
its return from `sleep` up to the next `sleep` or its return.  The system is written once
over any buffer with the two operations a `LineDevice` gives, so that the ring of the
source and the list-level line discipline of `Xv6.Console.Lines` run the same readers.

Echoing through `consputc`, `procdump` and the inode lock of `consoleread` are left out:
nothing here reads them.
-/

namespace Xv6

/-- `INPUT_BUF`. -/
def inputBuf : Nat := 128

theorem inputBuf_dvd : inputBuf ∣ 2 ^ 32 := ⟨2 ^ 25, by decide⟩

/-- `C(x)`: control-`x`, that is `x - '@'`. -/
def ctrl (x : Char) : UInt8 := UInt8.ofNat (x.toNat - '@'.toNat)

/-- `'\n'`. -/
def newline : UInt8 := 10

/-- `'\r'`. -/
def creturn : UInt8 := 13

/-- `'\x7f'`, the delete key. -/
def delete : UInt8 := 0x7f

/-- `input`, without `cons.lock`. -/
structure Input where
  buf : Fin inputBuf → UInt8
  /-- Read index. -/
  r : UInt32
  /-- Write index. -/
  w : UInt32
  /-- Edit index. -/
  e : UInt32

namespace Input

/-- `x % INPUT_BUF`. -/
def slot (x : UInt32) : Fin inputBuf := Ring.cell inputBuf_dvd x

/-- The zeroed `input` of a booted kernel. -/
def boot : Input := ⟨fun _ => 0, 0, 0, 0⟩

/-- The `C('U')` loop, for at most `k` turns: erase back to `input.w` or to a `'\n'`. -/
def killLine : Nat → Input → Input
  | 0, inp => inp
  | k + 1, inp =>
    if inp.e ≠ inp.w ∧ inp.buf (slot (inp.e - 1)) ≠ newline then
      killLine k { inp with e := inp.e - 1 }
    else inp

/-- One turn of `consoleintr`'s loop, on the character `c`: the input, and whether the turn
commits the line and calls `wakeup(&input.r)`. -/
def intr (inp : Input) (c : UInt8) : Input × Bool :=
  if c = ctrl 'P' then (inp, false)
  else if c = ctrl 'U' then
    -- each turn moves `e` one back, so the loop has stopped after `e - w` turns
    (killLine (inp.e - inp.w).toNat inp, false)
  else if c = ctrl 'H' ∨ c = delete then
    (if inp.e ≠ inp.w then { inp with e := inp.e - 1 } else inp, false)
  else if c ≠ 0 ∧ inp.e - inp.r < UInt32.ofNat inputBuf then
    let c := if c = creturn then newline else c
    let inp := { inp with buf := Function.update inp.buf (slot inp.e) c, e := inp.e + 1 }
    if c = newline ∨ c = ctrl 'D' ∨ inp.e = inp.r + UInt32.ofNat inputBuf then
      ({ inp with w := inp.e }, true)
    else (inp, false)
  else (inp, false)

end Input

/-- `consoleintr(getc)`, `getc` returning the characters `cs` and then `-1`: the input, and
whether it woke `&input.r`. -/
def consoleintr (inp : Input) : List UInt8 → Input × Bool
  | [] => (inp, false)
  | c :: cs =>
    let (inp, wake) := inp.intr c
    let (inp, wake') := consoleintr inp cs
    (inp, wake || wake')

/-- How a stretch of `consoleread` under `cons.lock` ends. -/
inductive ConsEnd where
  /-- `release(&cons.lock)`, `ilock(ip)`, `return v`. -/
  | ret (v : Int)
  /-- `sleep(&input.r, &cons.lock)`, with `n` of the call's `target` bytes still wanted. -/
  | sleep (target n : Nat)
  deriving DecidableEq

/-- `consoleread`'s loop with `n` of `target` bytes still wanted, by a process whose `killed`
flag is `killed`: the input, the bytes copied to `dst`, and how the stretch ends. -/
def consolereadLoop (killed : Bool) (target : Nat) :
    (n : Nat) → Input → Input × List UInt8 × ConsEnd
  | 0, inp => (inp, [], .ret target)
  | n + 1, inp =>
    if inp.r = inp.w then
      if killed then (inp, [], .ret (-1)) else (inp, [], .sleep target (n + 1))
    else
      let c := inp.buf (Input.slot inp.r)
      let inp := { inp with r := inp.r + 1 }
      if c = ctrl 'D' then
        -- `n < target`: save the `^D` for the next read
        let inp := if n + 1 < target then { inp with r := inp.r - 1 } else inp
        (inp, [], .ret ((target : Int) - (n + 1 : Nat)))
      else if c = newline then (inp, [c], .ret ((target : Int) - n))
      else
        let (inp, bs, e) := consolereadLoop killed target n inp
        (inp, c :: bs, e)

/-- What the readers need of an input buffer: `consoleintr` over some characters, and a
stretch of `consoleread`'s loop (`killed`, `target`, `n`). -/
structure LineDevice (D : Type) where
  intr : D → List UInt8 → D × Bool
  read : Bool → Nat → Nat → D → D × List UInt8 × ConsEnd

/-- The ring of `console.c`. -/
def Input.device : LineDevice Input := ⟨consoleintr, consolereadLoop⟩

/-- Where a process is in `consoleread`. -/
inductive ConsCall where
  | idle
  /-- Inside `consoleread` with `n` of `target` bytes still wanted. -/
  | read (target n : Nat)
  deriving DecidableEq

/-- A process as the console sees it. -/
structure ConsProc where
  call : ConsCall
  /-- `SLEEPING` on `&input.r`. -/
  asleep : Bool
  killed : Bool

/-- What happens next. -/
inductive ConsOp where
  /-- An interrupt delivers the characters `cs` to `consoleintr`. -/
  | intr (cs : List UInt8)
  /-- `consoleread(ip, dst, n)`. -/
  | read (n : Nat)
  /-- Return from `sleep` and go on with the call. -/
  | resume
  /-- `kill` of this process, by any process. -/
  | kill

/-- The processes reading the console, with three fields that record the history and are read
by no step: `copied`, every byte copied to a reader's `dst`, in order; `returned`, the bytes of
every call that returned them, in the order the calls returned; `mine`, the bytes the current
call of each process has copied. -/
structure Readers (Pid : Type) where
  proc : Pid → ConsProc
  copied : List UInt8
  returned : List UInt8
  mine : Pid → List UInt8

namespace Readers

variable {Pid : Type}

/-- No process in a call, none killed. -/
def init : Readers Pid := ⟨fun _ => ⟨.idle, false, false⟩, [], [], fun _ => []⟩

/-- `wakeup(&input.r)`. -/
def wakeup (rd : Readers Pid) : Readers Pid :=
  { rd with proc := fun q => { rd.proc q with asleep := false } }

@[simp] theorem wakeup_copied (rd : Readers Pid) : rd.wakeup.copied = rd.copied := rfl
@[simp] theorem wakeup_mine (rd : Readers Pid) : rd.wakeup.mine = rd.mine := rfl
@[simp] theorem wakeup_call (rd : Readers Pid) (q : Pid) :
    (rd.wakeup.proc q).call = (rd.proc q).call := rfl

variable [DecidableEq Pid]

/-- `kill(pid)`: set `killed`, and make the process runnable if it sleeps. -/
def kill (rd : Readers Pid) (p : Pid) : Readers Pid :=
  { rd with proc := Function.update rd.proc p { rd.proc p with killed := true, asleep := false } }

/-- Process `p` enters `consoleread`. -/
def start (rd : Readers Pid) (p : Pid) : Readers Pid :=
  { rd with mine := Function.update rd.mine p [] }

/-- Process `p` ends a stretch of `consoleread` having copied `bs`, the stretch ending with `e`;
and what the call returns, if it returns. -/
def finish (rd : Readers Pid) (p : Pid) (bs : List UInt8) : ConsEnd → Readers Pid × Option Int
  | .ret v =>
    let got := rd.mine p ++ bs
    ({ proc := Function.update rd.proc p { rd.proc p with call := .idle }
       copied := rd.copied ++ bs
       returned := if v = -1 then rd.returned else rd.returned ++ got
       mine := Function.update rd.mine p got }, some v)
  | .sleep target n =>
    ({ proc := Function.update rd.proc p { rd.proc p with call := .read target n, asleep := true }
       copied := rd.copied ++ bs
       returned := rd.returned
       mine := Function.update rd.mine p (rd.mine p ++ bs) }, none)

section Fields

variable (rd : Readers Pid) (p : Pid)

@[simp] theorem kill_copied : (rd.kill p).copied = rd.copied := rfl
@[simp] theorem kill_mine : (rd.kill p).mine = rd.mine := rfl
@[simp] theorem start_copied : (rd.start p).copied = rd.copied := rfl
@[simp] theorem start_proc : (rd.start p).proc = rd.proc := rfl
@[simp] theorem start_mine : (rd.start p).mine = Function.update rd.mine p [] := rfl

@[simp] theorem kill_call (q : Pid) : ((rd.kill p).proc q).call = (rd.proc q).call := by
  by_cases hq : q = p
  · subst hq
    simp [kill]
  · simp [kill, Function.update_of_ne hq]

@[simp] theorem finish_copied (bs : List UInt8) (e : ConsEnd) :
    (rd.finish p bs e).1.copied = rd.copied ++ bs := by
  cases e <;> rfl

@[simp] theorem finish_mine (bs : List UInt8) (e : ConsEnd) :
    (rd.finish p bs e).1.mine = Function.update rd.mine p (rd.mine p ++ bs) := by
  cases e <;> rfl

/-- Other processes' calls are left alone. -/
theorem finish_call_of_ne (bs : List UInt8) (e : ConsEnd) {q : Pid} (hq : q ≠ p) :
    ((rd.finish p bs e).1.proc q).call = (rd.proc q).call := by
  cases e <;> simp [finish, Function.update_of_ne hq]

end Fields

end Readers

/-- The console's input buffer `dev`, of type `D`, and its readers. -/
structure ConsSys (D Pid : Type) where
  dev : D
  readers : Readers Pid

namespace ConsSys

variable {D Pid : Type} [DecidableEq Pid] (dv : LineDevice D)

/-- A buffer `d` before any character or read. -/
def init (d : D) : ConsSys D Pid := ⟨d, Readers.init⟩

/-- A stretch of `consoleread`'s loop by `p`, with `n` of `target` bytes still wanted, from
the readers `rd`: the state, and what the call returns if it returns. -/
def stretch (s : ConsSys D Pid) (rd : Readers Pid) (p : Pid) (killed : Bool) (target n : Nat) :
    ConsSys D Pid × Option Int :=
  let (d, bs, e) := dv.read killed target n s.dev
  let (rd, v) := rd.finish p bs e
  (⟨d, rd⟩, v)

/-- One step of process `p` (for `intr`, of the interrupt handler on its CPU): the state, and
what its call returns if it returns; `none` when `p` cannot take it. -/
def step (s : ConsSys D Pid) (p : Pid) : ConsOp → Option (ConsSys D Pid × Option Int)
  | .intr cs =>
    let (d, wake) := dv.intr s.dev cs
    some (⟨d, if wake then s.readers.wakeup else s.readers⟩, none)
  | .read n =>
    if (s.readers.proc p).call = .idle then
      some (s.stretch dv (s.readers.start p) p (s.readers.proc p).killed n n)
    else none
  | .resume =>
    match s.readers.proc p with
    | ⟨.read target n, false, killed⟩ => some (s.stretch dv s.readers p killed target n)
    | _ => none
  | .kill => some (⟨s.dev, s.readers.kill p⟩, none)

section Steps

variable {dv} {s s' : ConsSys D Pid} {p : Pid} {op : ConsOp} {r : Option Int}

@[simp] theorem stretch_dev (rd : Readers Pid) (killed : Bool) (target n : Nat) :
    (s.stretch dv rd p killed target n).1.dev = (dv.read killed target n s.dev).1 := rfl

@[simp] theorem stretch_readers (rd : Readers Pid) (killed : Bool) (target n : Nat) :
    (s.stretch dv rd p killed target n).1.readers =
      (rd.finish p (dv.read killed target n s.dev).2.1 (dv.read killed target n s.dev).2.2).1 :=
  rfl

@[simp] theorem stretch_ret (rd : Readers Pid) (killed : Bool) (target n : Nat) :
    (s.stretch dv rd p killed target n).2 =
      (rd.finish p (dv.read killed target n s.dev).2.1 (dv.read killed target n s.dev).2.2).2 :=
  rfl

theorem step_intr (cs : List UInt8) :
    s.step dv p (.intr cs) = some (⟨(dv.intr s.dev cs).1,
      if (dv.intr s.dev cs).2 then s.readers.wakeup else s.readers⟩, none) := rfl

/-- What a step can do: `consoleintr` over some characters, the first stretch of a new
`consoleread`, the next stretch of a call woken from its `sleep`, or `kill`. -/
theorem step_cases (h : s.step dv p op = some (s', r)) :
    (∃ cs, op = .intr cs ∧ r = none ∧
      s' = ⟨(dv.intr s.dev cs).1, if (dv.intr s.dev cs).2 then s.readers.wakeup else s.readers⟩) ∨
    (∃ n, op = .read n ∧ (s.readers.proc p).call = .idle ∧
      (s', r) = s.stretch dv (s.readers.start p) p (s.readers.proc p).killed n n) ∨
    (∃ target n, op = .resume ∧ (s.readers.proc p).call = .read target n ∧
      (s.readers.proc p).asleep = false ∧
      (s', r) = s.stretch dv s.readers p (s.readers.proc p).killed target n) ∨
    (op = .kill ∧ r = none ∧ s' = ⟨s.dev, s.readers.kill p⟩) := by
  cases op with
  | intr cs =>
    rw [step_intr, Option.some.injEq, Prod.mk.injEq] at h
    exact .inl ⟨cs, rfl, h.2.symm, h.1.symm⟩
  | read n =>
    by_cases hidle : (s.readers.proc p).call = .idle
    · rw [step, if_pos hidle, Option.some.injEq] at h
      exact .inr (.inl ⟨n, rfl, hidle, h.symm⟩)
    · rw [step, if_neg hidle] at h
      cases h
  | resume =>
    rcases hp : s.readers.proc p with ⟨_ | ⟨target, n⟩, _ | _, killed⟩ <;>
      simp only [step, hp, reduceCtorEq] at h
    rw [Option.some.injEq] at h
    exact .inr (.inr (.inl ⟨target, n, rfl, rfl, rfl, h.symm⟩))
  | kill =>
    rw [step, Option.some.injEq, Prod.mk.injEq] at h
    exact .inr (.inr (.inr ⟨rfl, h.2.symm, h.1.symm⟩))

end Steps

/-- The call a step of `p` runs: a new one, or the one `p` is in. -/
def callOf (s : ConsSys D Pid) (p : Pid) : ConsOp → ConsCall
  | .read n => .read n n
  | .resume => (s.readers.proc p).call
  | _ => .idle

/-- Run steps one after another; `none` if one cannot be taken. -/
def steps (s : ConsSys D Pid) : List (Pid × ConsOp) → Option (ConsSys D Pid)
  | [] => some s
  | (p, op) :: ops =>
    match s.step dv p op with
    | some (s', _) => s'.steps ops
    | none => none

/-- What every step keeps holds after any run. -/
theorem steps_inv {P : ConsSys D Pid → Prop}
    (hstep : ∀ {s s' : ConsSys D Pid} {p : Pid} {op : ConsOp} {r : Option Int},
      P s → s.step dv p op = some (s', r) → P s') :
    ∀ {ops : List (Pid × ConsOp)} {s s' : ConsSys D Pid}, P s → s.steps dv ops = some s' → P s'
  | [], s, s', hs, h => by
    cases h
    exact hs
  | (p, op) :: ops, s, s', hs, h => by
    simp only [steps] at h
    split at h
    · rename_i s1 r hstep1
      exact steps_inv hstep (hstep hs hstep1) h
    · cases h

omit [DecidableEq Pid] in
/-- The call a step runs depends on the readers alone. -/
theorem callOf_congr {E : Type} {s : ConsSys D Pid} {t : ConsSys E Pid}
    (hrd : s.readers = t.readers) (p : Pid) (op : ConsOp) : s.callOf p op = t.callOf p op := by
  cases op <;> simp [callOf, hrd]

end ConsSys

end Xv6
