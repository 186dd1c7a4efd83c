import Xv6.Pipe.Pipe

/-!
# The pipe is a FIFO

Whatever the interleaving of `pipewrite`, `piperead`, `pipeclose` and `kill` by any
processes, and however far the counters run past `2^32`, the pipe holds exactly the bytes
stored and not yet taken, in order (`Fifo`): the bytes the readers took, followed by the
pipe's contents, are the bytes the writers stored.

* `pipewriteLoop_spec`, `piperead_spec`: one stretch of a call under `p->lock`, on a pipe
  holding a FIFO;
* `PipeSys.Inv.step`, `PipeSys.Reachable.inv`: each step keeps the invariant, so every
  reachable state has it;
* `pipe_fifo`: the counters stay at most `PIPESIZE` apart, nothing is lost or duplicated, a
  read of at least one byte returns `0` only from an empty pipe whose write end is closed,
  and a write that returns its count has stored all its bytes.
-/

namespace Xv6

namespace Pipe

/-- The pipe holds the FIFO `xs`: in the cells from `nread` on, with `nwrite` just past it. -/
structure Fifo (p : Pipe) (xs : List UInt8) : Prop where
  holds : Ring.Holds pipeSize_dvd p.data p.nread xs
  count : p.nwrite = p.nread + UInt32.ofNat xs.length
  room : xs.length ≤ pipeSize

theorem lt_two_pow {n : Nat} (h : n ≤ pipeSize) : n < 2 ^ 32 :=
  lt_of_le_of_lt h (by decide)

section

variable {p : Pipe} {xs : List UInt8}

theorem Fifo.full_iff (h : Fifo p xs) : p.full = true ↔ xs.length = pipeSize := by
  rw [full, beq_iff_eq, h.count, add_right_inj]
  exact Ring.ofNat_eq_ofNat_iff (lt_two_pow h.room) (lt_two_pow le_rfl)

theorem Fifo.empty_iff (h : Fifo p xs) : p.empty = true ↔ xs = [] := by
  rw [empty, beq_iff_eq, h.count, eq_comm, Ring.add_ofNat_eq_self_iff (lt_two_pow h.room),
    List.length_eq_zero_iff]

/-- The FIFO depends on the ring and the counters only, not on which ends are open. -/
theorem Fifo.of_ring {p' : Pipe} (h : Fifo p xs) (hdata : p'.data = p.data)
    (hr : p'.nread = p.nread) (hw : p'.nwrite = p.nwrite) : Fifo p' xs := by
  obtain ⟨holds, count, room⟩ := h
  exact ⟨by rw [hdata, hr]; exact holds, by rw [hr, hw]; exact count, room⟩

/-- Storing a byte in a pipe that is not full appends it. -/
theorem Fifo.put (h : Fifo p xs) (room : xs.length < pipeSize) (b : UInt8) :
    Fifo (p.put b) (xs ++ [b]) := by
  refine ⟨?_, ?_, ?_⟩
  · have := h.holds.push pipeSize_dvd room b
    rwa [← h.count] at this
  · simp only [Pipe.put, h.count, List.length_append, List.length_singleton, UInt32.ofNat_add,
      UInt32.ofNat_one, add_assoc]
  · simp only [List.length_append, List.length_singleton]
    omega

/-- Taking a byte from a pipe that is not empty takes its oldest byte. -/
theorem Fifo.get {x : UInt8} (h : Fifo (p) (x :: xs)) : p.get.1 = x ∧ Fifo p.get.2 xs := by
  obtain ⟨first, rest⟩ := h.holds.pop pipeSize_dvd
  refine ⟨first, rest, ?_, ?_⟩
  · simp only [Pipe.get, h.count, List.length_cons, UInt32.ofNat_add, UInt32.ofNat_one]
    rw [add_comm (UInt32.ofNat xs.length) 1, add_assoc]
  · have := h.room
    simp only [List.length_cons] at this
    omega

end

end Pipe

open Pipe

/-- How a stretch of `pipewrite` from byte `i` may end, having stored `bs` of the bytes
`rest` left: it returns the count with every byte stored and wakes the readers, or returns
`-1` without waking anyone, or wakes the readers and sleeps on `&p->nwrite` to go on from
the first byte it has not stored. -/
def WriteEnd (src : List UInt8) (i : Nat) (rest bs : List UInt8) : Section → Prop
  | .ret v w => (v = src.length ∧ bs = rest ∧ w = some .nread) ∨ (v = -1 ∧ w = none)
  | .sleep w chan c => w = some .nread ∧ chan = .nwrite ∧ c = .write src (i + bs.length)

/-- A stretch of `pipewrite` stores a prefix of the bytes left, in order, and leaves the
pipe's ends alone. -/
theorem pipewriteLoop_spec {killed : Bool} {src : List UInt8} :
    ∀ {i : Nat} {rest : List UInt8} {p p' : Pipe} {bs : List UInt8} {sec : Section}
      {xs : List UInt8}, Fifo p xs → pipewriteLoop killed src i rest p = (p', bs, sec) →
      Fifo p' (xs ++ bs) ∧ rest.take bs.length = bs ∧ p'.readopen = p.readopen ∧
        p'.writeopen = p.writeopen ∧ WriteEnd src i rest bs sec
  | i, [], p, p', bs, sec, xs, h, hrun => by
    simp only [pipewriteLoop, Prod.mk.injEq] at hrun
    obtain ⟨rfl, rfl, rfl⟩ := hrun
    exact ⟨by simpa using h, rfl, rfl, rfl, .inl ⟨rfl, rfl, rfl⟩⟩
  | i, b :: rest, p, p', bs, sec, xs, h, hrun => by
    rw [pipewriteLoop] at hrun
    by_cases hfull : p.full = true
    · -- the ring is full: the stretch ends here, having stored nothing
      rw [if_pos hfull] at hrun
      split_ifs at hrun with hexit <;> simp only [Prod.mk.injEq] at hrun <;>
        obtain ⟨rfl, rfl, rfl⟩ := hrun
      · exact ⟨by simpa using h, rfl, rfl, rfl, .inr ⟨rfl, rfl⟩⟩
      · exact ⟨by simpa using h, rfl, rfl, rfl, rfl, rfl, by simp⟩
    · -- room for `b`: store it and go on with the rest
      rw [if_neg hfull] at hrun
      have room : xs.length < pipeSize := lt_of_le_of_ne h.room (mt h.full_iff.mpr hfull)
      rcases hnext : pipewriteLoop killed src (i + 1) rest (p.put b) with ⟨p1, bs1, sec1⟩
      rw [hnext] at hrun
      simp only [Prod.mk.injEq] at hrun
      obtain ⟨rfl, rfl, rfl⟩ := hrun
      obtain ⟨fifo, pre, ro, wo, ends⟩ := pipewriteLoop_spec (h.put room b) hnext
      refine ⟨by simpa using fifo, by simp [pre], ro, wo, ?_⟩
      cases sec1 with
      | ret v w =>
        rcases ends with ⟨hv, rfl, hw⟩ | ⟨hv, hw⟩
        · exact .inl ⟨hv, rfl, hw⟩
        · exact .inr ⟨hv, hw⟩
      | sleep w chan c =>
        obtain ⟨hw, hc, rfl⟩ := ends
        refine ⟨hw, hc, ?_⟩
        simp only [List.length_cons, PipeCall.write.injEq, true_and]
        omega

/-- The copy loop takes the oldest bytes, at most `n` of them. -/
theorem copyLoop_spec : ∀ {n : Nat} {p p' : Pipe} {bs xs : List UInt8},
    Fifo p xs → copyLoop n p = (p', bs) →
      bs = xs.take n ∧ Fifo p' (xs.drop n) ∧ p'.readopen = p.readopen ∧
        p'.writeopen = p.writeopen
  | 0, p, p', bs, xs, h, hrun => by
    simp only [copyLoop, Prod.mk.injEq] at hrun
    obtain ⟨rfl, rfl⟩ := hrun
    exact ⟨rfl, h, rfl, rfl⟩
  | n + 1, p, p', bs, xs, h, hrun => by
    rw [copyLoop] at hrun
    cases xs with
    | nil =>
      rw [if_pos (h.empty_iff.mpr rfl)] at hrun
      simp only [Prod.mk.injEq] at hrun
      obtain ⟨rfl, rfl⟩ := hrun
      exact ⟨rfl, h, rfl, rfl⟩
    | cons x xs =>
      rw [if_neg (by rw [h.empty_iff]; exact List.cons_ne_nil x xs)] at hrun
      obtain ⟨hx, hget⟩ := h.get
      rcases hg : p.get with ⟨b, q⟩
      rw [hg] at hrun hx hget
      dsimp only at hrun hx hget
      rcases hnext : copyLoop n q with ⟨p1, bs1⟩
      rw [hnext] at hrun
      simp only [Prod.mk.injEq] at hrun
      obtain ⟨rfl, rfl⟩ := hrun
      obtain ⟨rfl, fifo, ro, wo⟩ := copyLoop_spec hget hnext
      have hq : q.readopen = p.readopen ∧ q.writeopen = p.writeopen := by
        simp only [Pipe.get, Prod.mk.injEq] at hg
        rw [← hg.2]
        exact ⟨rfl, rfl⟩
      exact ⟨by rw [← hx]; rfl, fifo, ro.trans hq.1, wo.trans hq.2⟩

/-- How a stretch of `piperead` of `n` bytes may end, having taken `bs`: it returns `-1`
without waking anyone, or sleeps on `&p->nread` having taken nothing, or wakes the writers
and returns the count taken, which is `0` for `n > 0` only on an empty pipe whose write end
is closed. -/
def ReadEnd (p : Pipe) (n : Nat) (bs : List UInt8) : Section → Prop
  | .ret v w => (v = -1 ∧ w = none ∧ bs = []) ∨
      (v = bs.length ∧ w = some .nwrite ∧ (0 < n → bs = [] → p.empty = true ∧ p.writeopen = false))
  | .sleep w chan c => w = none ∧ chan = .nread ∧ c = .read n ∧ bs = []

theorem piperead_spec {killed : Bool} {n : Nat} {p p' : Pipe} {bs xs : List UInt8} {sec : Section}
    (h : Fifo p xs) (hrun : piperead killed n p = (p', bs, sec)) :
    bs = xs.take bs.length ∧ Fifo p' (xs.drop bs.length) ∧ p'.readopen = p.readopen ∧
      p'.writeopen = p.writeopen ∧ ReadEnd p n bs sec := by
  rw [piperead] at hrun
  by_cases hwait : p.empty = true ∧ p.writeopen = true
  · rw [if_pos hwait] at hrun
    split_ifs at hrun <;> simp only [Prod.mk.injEq] at hrun <;> obtain ⟨rfl, rfl, rfl⟩ := hrun
    · exact ⟨rfl, by simpa using h, rfl, rfl, .inl ⟨rfl, rfl, rfl⟩⟩
    · exact ⟨rfl, by simpa using h, rfl, rfl, rfl, rfl, rfl, rfl⟩
  · rw [if_neg hwait] at hrun
    rcases hcopy : copyLoop n p with ⟨p1, bs1⟩
    rw [hcopy] at hrun
    simp only [Prod.mk.injEq] at hrun
    obtain ⟨rfl, rfl, rfl⟩ := hrun
    obtain ⟨rfl, fifo, ro, wo⟩ := copyLoop_spec h hcopy
    have hlen : (xs.take n).length = min n xs.length := List.length_take
    refine ⟨?_, ?_, ro, wo, .inr ⟨rfl, rfl, fun hn hnil => ?_⟩⟩
    · rcases le_total n xs.length with hle | hle
      · rw [hlen, min_eq_left hle]
      · rw [hlen, min_eq_right hle, List.take_of_length_le hle, List.take_length]
    · -- the copy loop took `min n |xs|` bytes, and dropping those is dropping `n`
      rcases le_total n xs.length with hle | hle
      · rwa [hlen, min_eq_left hle]
      · rw [hlen, min_eq_right hle, List.drop_length]
        rwa [List.drop_eq_nil_of_le hle] at fifo
    · have hxs : xs = [] := by
        rw [List.take_eq_nil_iff] at hnil
        exact hnil.resolve_left (by omega)
      have hempty : p.empty = true := h.empty_iff.mpr hxs
      exact ⟨hempty, by simpa [hempty] using hwait⟩

/-- The call a process is in after a stretch that ends with this section. -/
def Section.call : Section → PipeCall
  | .ret _ _ => .idle
  | .sleep _ _ c => c

namespace PipeSys

variable {Pid : Type} [DecidableEq Pid]

/-- The bytes stored and not yet taken. -/
def contents (s : PipeSys Pid) : List UInt8 := s.stored.drop s.taken.length

/-- What every reachable state satisfies: the readers took a prefix of what the writers
stored, the pipe holds the rest, and each writer's history matches how far its call is. -/
structure Inv (s : PipeSys Pid) : Prop where
  taken_prefix : s.taken <+: s.stored
  fifo : Fifo s.pipe s.contents
  mine : ∀ q src i, (s.proc q).call = .write src i → s.mine q = src.take i

theorem Inv.init (data : Fin pipeSize → UInt8) : (init data : PipeSys Pid).Inv := by
  refine ⟨List.nil_prefix, ⟨Ring.Holds.nil pipeSize_dvd _ _, rfl, Nat.zero_le _⟩, ?_⟩
  intro q src i hq
  cases hq

/-- `wakeup` changes only whether processes sleep. -/
theorem wakeup_call (proc : Pid → PipeProc) (w : Option Chan) (q : Pid) :
    (wakeup proc w q).call = (proc q).call := by
  cases w with
  | none => rfl
  | some c =>
    simp only [wakeup]
    split_ifs <;> rfl

/-- The end of a stretch that stored `st` and took `tk`, from a pipe holding the contents to
one holding them with `st` appended and `tk` taken from the front. -/
theorem Inv.finish {s : PipeSys Pid} (hI : s.Inv) {p : Pid} {pipe : Pipe} {st tk : List UInt8}
    {sec : Section} (htk : s.contents.take tk.length = tk)
    (hfifo : Fifo pipe ((s.contents ++ st).drop tk.length))
    (hmine : ∀ (src : List UInt8) (i : Nat), sec.call = .write src i →
      s.mine p ++ st = src.take i) :
    (s.finish p pipe st tk sec).1.Inv := by
  obtain ⟨pre, fifo, mine⟩ := hI
  have hstored : s.taken ++ s.contents = s.stored := List.prefix_iff_eq_append.mp pre
  have hcontents : (s.finish p pipe st tk sec).1.contents = (s.contents ++ st).drop tk.length := by
    simp only [contents, finish_stored, finish_taken]
    rw [List.length_append, ← List.drop_drop, List.drop_append_of_le_length pre.length_le]
  have hsplit : tk ++ s.contents.drop tk.length = s.contents := by
    have := List.take_append_drop tk.length s.contents
    rwa [htk] at this
  refine ⟨?_, ?_, ?_⟩
  · simp only [finish_stored, finish_taken]
    exact ⟨s.contents.drop tk.length ++ st, by
      rw [List.append_assoc, ← List.append_assoc tk, hsplit, ← List.append_assoc, hstored]⟩
  · rw [hcontents, finish_pipe]
    exact hfifo
  · intro q src i hq
    cases sec with
    | ret v w =>
      simp only [finish_ret, wakeup_call] at hq ⊢
      by_cases hqp : q = p
      · subst hqp
        simp at hq
      · rw [Function.update_of_ne hqp] at hq ⊢
        exact mine q src i hq
    | sleep w chan c =>
      simp only [finish_sleep] at hq ⊢
      by_cases hqp : q = p
      · subst hqp
        simp only [Function.update_self] at hq ⊢
        exact hmine src i hq
      · rw [Function.update_of_ne hqp, wakeup_call] at hq
        rw [Function.update_of_ne hqp]
        exact mine q src i hq

/-- A stretch of `pipewrite` by `p` from byte `i`, when `p`'s history is the first `i`
bytes. -/
theorem Inv.run_write {s : PipeSys Pid} (hI : s.Inv) {p : Pid} {src : List UInt8} {i : Nat}
    (hmine : s.mine p = src.take i) :
    ∀ {t : PipeSys Pid × Option Int}, s.run p (.write src i) = some t → t.1.Inv := by
  intro t ht
  simp only [run] at ht
  rcases hw : pipewrite (s.proc p).killed src i s.pipe with ⟨pipe, bs, sec⟩
  rw [hw] at ht
  cases ht
  obtain ⟨fifo, pre, -, -, ends⟩ := pipewriteLoop_spec hI.fifo hw
  refine hI.finish (by simp) (by simpa using fifo) ?_
  intro src' i' hc
  cases sec with
  | ret v w => cases hc
  | sleep w chan c =>
    obtain ⟨-, -, rfl⟩ := ends
    cases hc
    rw [hmine, List.take_add, pre]

/-- A stretch of `piperead` by `p`. -/
theorem Inv.run_read {s : PipeSys Pid} (hI : s.Inv) {p : Pid} {n : Nat} :
    ∀ {t : PipeSys Pid × Option Int}, s.run p (.read n) = some t → t.1.Inv := by
  intro t ht
  simp only [run] at ht
  rcases hr : piperead (s.proc p).killed n s.pipe with ⟨pipe, bs, sec⟩
  rw [hr] at ht
  cases ht
  obtain ⟨htk, fifo, -, -, ends⟩ := piperead_spec hI.fifo hr
  refine hI.finish htk.symm (by simpa using fifo) ?_
  intro src i hc
  cases sec with
  | ret v w => cases hc
  | sleep w chan c =>
    obtain ⟨-, -, rfl, -⟩ := ends
    cases hc

/-- A stretch of the call `p` is in, or of a new one. -/
theorem Inv.run_call {s : PipeSys Pid} (hI : s.Inv) {p : Pid} {t : PipeSys Pid × Option Int}
    (ht : s.run p (s.proc p).call = some t) : t.1.Inv := by
  cases hc : (s.proc p).call with
  | idle => rw [hc] at ht; cases ht
  | write src i => rw [hc] at ht; exact hI.run_write (hI.mine p src i hc) ht
  | read n => rw [hc] at ht; exact hI.run_read ht

/-- Changing only whether processes sleep, or are killed, and which ends are open, keeps the
invariant. -/
theorem Inv.of_calls {s s' : PipeSys Pid} (hI : s.Inv) (hpipe : Fifo s'.pipe s'.contents)
    (hst : s'.stored = s.stored) (htk : s'.taken = s.taken) (hmine : s'.mine = s.mine)
    (hcall : ∀ q, (s'.proc q).call = (s.proc q).call) : s'.Inv := by
  refine ⟨by rw [hst, htk]; exact hI.taken_prefix, hpipe, fun q src i hq => ?_⟩
  rw [hmine]
  exact hI.mine q src i ((hcall q).symm.trans hq)

/-- Every step keeps the invariant. -/
theorem Inv.step {s : PipeSys Pid} (hI : s.Inv) {p : Pid} {op : PipeOp}
    {t : PipeSys Pid × Option Int} (ht : s.step p op = some t) : t.1.Inv := by
  cases op with
  | write src =>
    simp only [PipeSys.step] at ht
    split_ifs at ht with hidle
    -- the new call starts with an empty history
    have hI' : ({ s with mine := Function.update s.mine p [] } : PipeSys Pid).Inv := by
      refine ⟨hI.taken_prefix, hI.fifo, fun q src' i hq => ?_⟩
      by_cases hqp : q = p
      · subst hqp
        rw [hidle.1] at hq
        cases hq
      · dsimp only at hq ⊢
        rw [Function.update_of_ne hqp]
        exact hI.mine q src' i hq
    exact hI'.run_write (by simp) ht
  | read n =>
    simp only [PipeSys.step] at ht
    split_ifs at ht
    exact hI.run_read ht
  | resume =>
    simp only [PipeSys.step] at ht
    split_ifs at ht
    exact hI.run_call ht
  | kill =>
    simp only [PipeSys.step, Option.some.injEq] at ht
    subst ht
    refine hI.of_calls hI.fifo rfl rfl rfl fun q => ?_
    by_cases hqp : q = p
    · subst hqp
      simp
    · simp [Function.update_of_ne hqp]
  | closeWrite =>
    simp only [PipeSys.step] at ht
    split_ifs at ht
    simp only [Option.some.injEq] at ht
    subst ht
    exact hI.of_calls (hI.fifo.of_ring rfl rfl rfl) rfl rfl rfl (wakeup_call _ _)
  | closeRead =>
    simp only [PipeSys.step] at ht
    split_ifs at ht
    simp only [Option.some.injEq] at ht
    subst ht
    exact hI.of_calls (hI.fifo.of_ring rfl rfl rfl) rfl rfl rfl (wakeup_call _ _)

theorem Reachable.inv {s : PipeSys Pid} (h : s.Reachable) : s.Inv := by
  induction h with
  | init data => exact Inv.init data
  | step p op r _ hstep ih => exact ih.step hstep

/-- A stretch that returns `v` from the read `p` is in reads `0` bytes of `n > 0` only from an
empty pipe whose write end is closed. -/
theorem read_ret {s : PipeSys Pid} (hfifo : Fifo s.pipe s.contents) {p : Pid} {n : Nat}
    {s' : PipeSys Pid}
    {v : Int} (ht : s.run p (.read n) = some (s', some v)) (hn : 0 < n) (hv : v = 0) :
    s.pipe.empty = true ∧ s.pipe.writeopen = false := by
  simp only [run] at ht
  rcases hr : piperead (s.proc p).killed n s.pipe with ⟨pipe, bs, sec⟩
  rw [hr] at ht
  obtain ⟨-, -, -, -, ends⟩ := piperead_spec hfifo hr
  cases sec with
  | sleep w chan c => cases ht
  | ret v' w =>
    simp only [finish_ret, Option.some.injEq, Prod.mk.injEq] at ht
    obtain ⟨-, rfl⟩ := ht
    rcases ends with ⟨hv', -, -⟩ | ⟨hv', -, hzero⟩
    · omega
    · exact hzero hn (List.length_eq_zero_iff.mp (by omega))

/-- A stretch that returns anything but `-1` from the write `p` is in, from byte `i` with the
first `i` bytes stored, returns the count and has stored every byte. -/
theorem write_ret {s : PipeSys Pid} {p : Pid} {src : List UInt8} {i : Nat} (hfifo : Fifo s.pipe s.contents)
    (hmine : s.mine p = src.take i) {s' : PipeSys Pid} {v : Int}
    (ht : s.run p (.write src i) = some (s', some v)) (hv : v ≠ -1) :
    v = src.length ∧ s'.mine p = src := by
  simp only [run] at ht
  rcases hw : pipewrite (s.proc p).killed src i s.pipe with ⟨pipe, bs, sec⟩
  rw [hw] at ht
  obtain ⟨-, -, -, -, ends⟩ := pipewriteLoop_spec hfifo hw
  cases sec with
  | sleep w chan c => cases ht
  | ret v' w =>
    simp only [finish_ret, Option.some.injEq, Prod.mk.injEq] at ht
    obtain ⟨rfl, rfl⟩ := ht
    rcases ends with ⟨hv', hbs, -⟩ | ⟨hv', -⟩
    · refine ⟨hv', ?_⟩
      simp only [Function.update_self, hmine, hbs, List.take_append_drop]
    · exact absurd hv' hv

/-- A step that runs a call runs a stretch of it from a state with the same pipe and
histories, in which the caller's history is how far its call is. -/
theorem Inv.step_run {s : PipeSys Pid} (hI : s.Inv) {p : Pid} {op : PipeOp}
    {t : PipeSys Pid × Option Int} (ht : s.step p op = some t) (hc : s.callOf p op ≠ .idle) :
    ∃ s0 : PipeSys Pid, s0.run p (s.callOf p op) = some t ∧ s0.pipe = s.pipe ∧
      s0.contents = s.contents ∧
        ∀ src i, s.callOf p op = .write src i → s0.mine p = src.take i := by
  cases op with
  | write src =>
    simp only [PipeSys.step] at ht
    split_ifs at ht
    refine ⟨_, ht, rfl, rfl, fun src' i hw => ?_⟩
    cases hw
    simp
  | read n =>
    simp only [PipeSys.step] at ht
    split_ifs at ht
    exact ⟨s, ht, rfl, rfl, fun src i hw => by cases hw⟩
  | resume =>
    simp only [PipeSys.step] at ht
    split_ifs at ht
    exact ⟨s, ht, rfl, rfl, fun src i hw => hI.mine p src i hw⟩
  | kill => exact absurd rfl hc
  | closeWrite => exact absurd rfl hc
  | closeRead => exact absurd rfl hc

end PipeSys

/-- Whatever the interleaving of `pipewrite`, `piperead`, `pipeclose` and `kill` by any
processes on a pipe: `nwrite - nread` (mod `2^32`) stays within `[0, PIPESIZE]`; the bytes
the readers took, followed by what the pipe holds, are the bytes the writers stored, in
order; a `piperead` of `n > 0` bytes returns `0` only when the pipe is empty and its write end
closed; and a `pipewrite` that returns anything but `-1` returns its count, having stored all
its bytes. -/
theorem pipe_fifo {Pid : Type} [DecidableEq Pid] {s : PipeSys Pid} (h : s.Reachable) :
    (s.pipe.nwrite - s.pipe.nread).toNat ≤ pipeSize ∧ s.taken ++ s.contents = s.stored ∧
    (∀ p op s' v n, s.step p op = some (s', some v) → s.callOf p op = .read n → 0 < n →
      v = 0 → s.pipe.empty = true ∧ s.pipe.writeopen = false) ∧
    (∀ p op s' v src i, s.step p op = some (s', some v) → s.callOf p op = .write src i →
      v ≠ -1 → v = src.length ∧ s'.mine p = src) := by
  have hI := h.inv
  refine ⟨?_, List.prefix_iff_eq_append.mp hI.taken_prefix, ?_, ?_⟩
  · rw [hI.fifo.count, add_sub_cancel_left, UInt32.toNat_ofNat_of_lt' (lt_two_pow hI.fifo.room)]
    exact hI.fifo.room
  · intro p op s' v n ht hc hn hv
    obtain ⟨s0, hrun, hpipe, hcontents, -⟩ := hI.step_run ht (by rw [hc]; exact fun h => by cases h)
    rw [hc] at hrun
    rw [← hpipe]
    exact PipeSys.read_ret (by rw [hpipe, hcontents]; exact hI.fifo) hrun hn hv
  · intro p op s' v src i ht hc hv
    obtain ⟨s0, hrun, hpipe, hcontents, hmine⟩ :=
      hI.step_run ht (by rw [hc]; exact fun h => by cases h)
    rw [hc] at hrun
    exact PipeSys.write_ret (by rw [hpipe, hcontents]; exact hI.fifo) (hmine src i hc) hrun hv

/-- A reader finds the pipe empty and sleeps; a writer stores three bytes and wakes it; the
reader takes them, and the write end is closed. -/
theorem pipe_fifo_handoff :
    ∃ s : PipeSys Bool, s.Reachable ∧ s.taken = [1, 2, 3] ∧ s.pipe.writeopen = false ∧
      ((s.pipe.nwrite - s.pipe.nread).toNat ≤ pipeSize ∧ s.taken ++ s.contents = s.stored ∧
      (∀ p op s' v n, s.step p op = some (s', some v) → s.callOf p op = .read n → 0 < n →
        v = 0 → s.pipe.empty = true ∧ s.pipe.writeopen = false) ∧
      (∀ p op s' v src i, s.step p op = some (s', some v) → s.callOf p op = .write src i →
        v ≠ -1 → v = src.length ∧ s'.mine p = src)) := by
  obtain ⟨s, run, handed⟩ : ∃ s : PipeSys Bool, s.Reachable ∧ s.taken = [1, 2, 3] ∧
      s.pipe.writeopen = false :=
    ⟨_, .step false .closeWrite none (.step true .resume (some 3)
      (.step false (.write [1, 2, 3]) (some 3) (.step true (.read 4) none (.init fun _ => 0) rfl)
      rfl) rfl) rfl, by decide⟩
  exact ⟨s, run, handed.1, handed.2, pipe_fifo run⟩
end Xv6
