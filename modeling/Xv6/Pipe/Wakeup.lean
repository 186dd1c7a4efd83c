import Xv6.Pipe.Fifo

/-!
# Sleepers on a pipe

`sleep` and `wakeup` lose no wakeup only if every path that changes what a sleeper waits
for wakes its channel before `p->lock` is free.  `pipewrite` has a path that does not: when
the ring becomes full and the writer has been killed (or the read end is closed), it returns
`-1` at once, without the `wakeup(&p->nread)` that its other two ends issue, although it
may already have stored bytes in this call.

* `killed_write_ends_unheard`: a killed writer with more bytes than free cells fills the
  ring and returns `-1` without waking anyone;
* `killed_writer_leaves_reader_asleep`: a reader asleep on an empty pipe, and a killed
  writer that fills it, leave the reader asleep on `&p->nread` with `PIPESIZE` bytes in the
  pipe and its write end open.
-/

namespace Xv6

open Pipe

/-- What each sleeper on the pipe waits for still holds: a process asleep on `&p->nread`
finds the pipe empty with its write end open, one asleep on `&p->nwrite` finds it full with
its read end open. -/
def PipeSys.SleepersWait {Pid : Type} (s : PipeSys Pid) : Prop :=
  ∀ q, ((s.proc q).chan = some .nread → s.pipe.empty = true ∧ s.pipe.writeopen = true) ∧
    ((s.proc q).chan = some .nwrite → s.pipe.full = true ∧ s.pipe.readopen = true)

/-- A killed writer facing fewer free cells than bytes left stores bytes until the ring is
full, then returns `-1` without waking the readers. -/
theorem killed_write_ends_unheard {src : List UInt8} :
    ∀ {i : Nat} {rest xs : List UInt8} {p : Pipe}, Fifo p xs →
      pipeSize - xs.length < rest.length →
      ∃ p', Fifo p' (xs ++ rest.take (pipeSize - xs.length)) ∧
        pipewriteLoop true src i rest p = (p', rest.take (pipeSize - xs.length), .ret (-1) none)
  | i, [], xs, p, _, hlt => absurd hlt (Nat.not_lt_zero _)
  | i, b :: rest, xs, p, h, hlt => by
    rw [pipewriteLoop]
    by_cases hfull : xs.length = pipeSize
    · -- full: `killed` sends it back at once
      rw [if_pos (h.full_iff.mpr hfull), hfull, Nat.sub_self]
      exact ⟨p, by simpa using h, by simp⟩
    · have room : xs.length < pipeSize := lt_of_le_of_ne h.room hfull
      rw [if_neg (mt h.full_iff.mp hfull)]
      have hlt' : pipeSize - (xs ++ [b]).length < rest.length := by
        simp only [List.length_append, List.length_cons] at hlt ⊢
        omega
      obtain ⟨p', fifo, hrun⟩ :=
        @killed_write_ends_unheard src (i + 1) rest (xs ++ [b]) (p.put b) (h.put room b) hlt'
      have hfree : pipeSize - xs.length = pipeSize - (xs ++ [b]).length + 1 := by
        simp only [List.length_append, List.length_singleton]
        omega
      refine ⟨p', ?_, ?_⟩
      · rw [hfree, List.take_succ_cons]
        simpa using fifo
      · rw [hrun, hfree, List.take_succ_cons]

namespace PipeSys

variable {Pid : Type} [DecidableEq Pid]

/-- Run steps one after another; `none` if one cannot be taken. -/
def steps (s : PipeSys Pid) : List (Pid × PipeOp) → Option (PipeSys Pid)
  | [] => some s
  | (p, op) :: ops =>
    match s.step p op with
    | some (s', _) => s'.steps ops
    | none => none

theorem Reachable.steps {s : PipeSys Pid} (h : s.Reachable) :
    ∀ {ops : List (Pid × PipeOp)} {s' : PipeSys Pid}, s.steps ops = some s' → s'.Reachable
  | [], s', hrun => by
    cases hrun
    exact h
  | (p, op) :: ops, s', hrun => by
    simp only [PipeSys.steps] at hrun
    split at hrun
    · rename_i s1 r hstep
      exact (Reachable.step p op r h hstep).steps hrun
    · cases hrun

end PipeSys

/-- The run below leaves process `0` asleep on `&p->nread` while the pipe holds bytes. -/
def lostWakeupCheck (r : Option (PipeSys (Fin 2))) : Bool :=
  match r with
  | some s => (s.proc ⟨0, Nat.zero_lt_two⟩).chan == some .nread && !s.pipe.empty && s.pipe.writeopen
  | none => false

set_option maxRecDepth 8000 in
/-- Process `0` calls `piperead(p, addr, 1)` on the new pipe and sleeps on `&p->nread`;
process `1` is killed, then calls `pipewrite` with `PIPESIZE + 1` bytes: it stores
`PIPESIZE` of them and returns `-1` at the full ring without `wakeup(&p->nread)`.  With
`p->lock` free, the reader sleeps on `&p->nread` though the pipe is full and its write end
open. -/
theorem killed_writer_leaves_reader_asleep :
    ∃ s : PipeSys (Fin 2), s.Reachable ∧ (s.proc 0).chan = some .nread ∧
      s.pipe.empty = false ∧ s.pipe.writeopen = true ∧ ¬ s.SleepersWait := by
  have run : lostWakeupCheck ((PipeSys.init fun _ => 0).steps
      [(0, .read 1), (1, .kill), (1, .write (List.replicate (pipeSize + 1) 7))]) = true := by
    decide +kernel
  generalize hrun : (PipeSys.init (fun _ => 0) : PipeSys (Fin 2)).steps
    [(0, .read 1), (1, .kill), (1, .write (List.replicate (pipeSize + 1) 7))] = r at run
  cases r with
  | none => cases run
  | some s =>
    simp only [lostWakeupCheck, Bool.and_eq_true, beq_iff_eq, Bool.not_eq_true'] at run
    obtain ⟨⟨asleep, full⟩, opened⟩ := run
    refine ⟨s, (PipeSys.Reachable.init _).steps hrun, asleep, full, opened, fun hwait => ?_⟩
    have := ((hwait 0).1 asleep).1
    rw [full] at this
    cases this

end Xv6
