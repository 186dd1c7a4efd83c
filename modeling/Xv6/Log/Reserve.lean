import Xv6.Param
import Xv6.Lib.WeightedSum
import Mathlib.Logic.Relation
import Mathlib.Algebra.Order.BigOperators.Group.Finset
import Mathlib.Algebra.BigOperators.Ring.Finset

/-!
# Reserving log space: `begin_op`, `log_write` and `end_op`

Every file-system call brackets its writes with `begin_op` and `end_op`, and `log_write`
records each block it changes in `log.lh`.  `begin_op` admits an operation only while the
log can hold `MAXOPBLOCKS` more blocks for every operation in progress; the last `end_op`
commits.  Any number of processes interleave these steps (`Machine.act`), each step atomic
under `log.lock`.

* `Machine.Inv`: the invariant of every reachable state: `log.outstanding` counts the
  operations in progress, `committing` is set exactly while one process commits and then no
  operation is in progress, and `n` plus every operation's unused reservation is at most
  `LOGSIZE - 2`.
* `Machine.reachable_inv`: every reachable state keeps it.
* `Machine.logWrite_panic_of_reachable`: in a reachable state, `end_op` never panics and
  `log_write` within an operation's budget panics only as `too big a transaction`, when
  `n = LOGSIZE - 2` and the block is already logged, a case its absorption loop would
  have taken without a new slot.
* `relog_at_capacity_panics`: a schedule of three processes that reaches that case.
-/

namespace Xv6

/-- The fields of `struct log` that `begin_op`, `end_op` and `log_write` read and write:
`log.size`, `log.outstanding`, `log.committing`, and `log.lh.block[0 .. log.lh.n)`. -/
structure LogCtl where
  size : Nat
  outstanding : Int
  committing : Bool
  block : List Nat
  deriving DecidableEq, Repr

namespace LogCtl

/-- `begin_op`: sleep (`none`) while a commit runs, or while one more operation's
`MAXOPBLOCKS` might exhaust the log; otherwise one more outstanding operation. -/
def beginOp (l : LogCtl) : Option LogCtl :=
  if l.committing then none
  else if (l.block.length : Int) + (l.outstanding + 1) * maxOpBlocks > (logSize : Int) - 2 then
    none
  else some { l with outstanding := l.outstanding + 1 }

/-- `end_op` up to its call of `commit`: one operation fewer, and the last one out sets
`committing` and commits (`true`). -/
def endOp (l : LogCtl) : Except Fault (LogCtl × Bool) :=
  let l := { l with outstanding := l.outstanding - 1 }
  if l.committing then .error (.panic "log.committing")
  else if l.outstanding = 0 then .ok ({ l with committing := true }, true)
  else .ok (l, false)

/-- The committing `end_op` after `commit`, which leaves `log.lh.n = 0`: `committing = 0`. -/
def commitDone (l : LogCtl) : LogCtl := { l with block := [], committing := false }

/-- `log_write(b)`: the capacity checks, then absorption: a block already logged keeps its
slot, a new one takes slot `n`. -/
def logWrite (l : LogCtl) (blockno : Nat) : Except Fault LogCtl :=
  if l.block.length ≥ logSize ∨ (l.block.length : Int) ≥ (l.size : Int) - 1 - 1 then
    .error (.panic "too big a transaction")
  else if l.outstanding < 1 then .error (.panic "log_write outside of trans")
  else if blockno ∈ l.block then .ok l
  else .ok { l with block := l.block ++ [blockno] }

/-! ### What each routine requires and changes -/

theorem beginOp_some {l c : LogCtl} (h : l.beginOp = some c) :
    l.committing = false ∧
    (l.block.length : Int) + (l.outstanding + 1) * maxOpBlocks ≤ (logSize : Int) - 2 ∧
    c = { l with outstanding := l.outstanding + 1 } := by
  unfold beginOp at h
  split at h
  · cases h
  · rename_i notCommitting
    split at h
    · cases h
    · rename_i fits
      exact ⟨by simpa using notCommitting, by omega, (Option.some.inj h).symm⟩

theorem endOp_ok {l c : LogCtl} {doCommit : Bool} (h : l.endOp = .ok (c, doCommit)) :
    l.committing = false ∧ doCommit = decide (l.outstanding - 1 = 0) ∧
    c = { l with outstanding := l.outstanding - 1, committing := doCommit } := by
  unfold endOp at h
  dsimp only at h
  split at h
  · cases h
  · rename_i notCommitting
    have idle : l.committing = false := by simpa using notCommitting
    split at h
    · rename_i last
      obtain ⟨rfl, rfl⟩ := Prod.mk.inj (Except.ok.inj h)
      exact ⟨idle, by simp only [last, decide_true], rfl⟩
    · rename_i notLast
      obtain ⟨rfl, rfl⟩ := Prod.mk.inj (Except.ok.inj h)
      exact ⟨idle, by simp only [notLast, decide_false], by rw [← idle]⟩

/-- A `log_write` that returns found room below both bounds, ran inside an operation, and
added the block unless it was already logged. -/
theorem logWrite_ok {l c : LogCtl} {b : Nat} (h : l.logWrite b = .ok c) :
    l.block.length < logSize ∧ (l.block.length : Int) < (l.size : Int) - 1 - 1 ∧
    1 ≤ l.outstanding ∧
    c = if b ∈ l.block then l else { l with block := l.block ++ [b] } := by
  unfold logWrite at h
  split at h
  · cases h
  · rename_i room
    split at h
    · cases h
    · rename_i inside
      refine ⟨by omega, by omega, by omega, ?_⟩
      split at h
      · rename_i logged
        rw [if_pos logged]
        exact (Except.ok.inj h).symm
      · rename_i fresh
        rw [if_neg fresh]
        exact (Except.ok.inj h).symm

/-- `log_write` inside an operation panics exactly when `n` has reached either bound,
whether or not the block is already logged. -/
theorem logWrite_error {l : LogCtl} {b : Nat} {f : Fault} (inside : 1 ≤ l.outstanding)
    (h : l.logWrite b = .error f) :
    f = .panic "too big a transaction" ∧
      (l.block.length ≥ logSize ∨ (l.block.length : Int) ≥ (l.size : Int) - 1 - 1) := by
  unfold logWrite at h
  split at h
  · rename_i full
    exact ⟨(Except.error.inj h).symm, full⟩
  · split at h
    · omega
    · split at h <;> cases h

theorem endOp_error {l : LogCtl} {f : Fault} (h : l.endOp = .error f) :
    l.committing = true ∧ f = .panic "log.committing" := by
  unfold endOp at h
  dsimp only at h
  split at h
  · rename_i set
    exact ⟨set, (Except.error.inj h).symm⟩
  · split at h <;> cases h

end LogCtl

/-- Where a process stands in the log's protocol. -/
inductive Phase where
  /-- Outside any file-system operation, or asleep in `begin_op`. -/
  | idle
  /-- Between `begin_op` and `end_op`, having logged the distinct blocks `logged`. -/
  | inOp (logged : List Nat)
  /-- The last `end_op`, running `commit`. -/
  | committing
  deriving DecidableEq, Repr

namespace Phase

/-- `1` for an operation in progress: what `log.outstanding` counts. -/
def active : Phase → Int
  | .inOp _ => 1
  | _ => 0

/-- `1` for the process running `commit`. -/
def commits : Phase → Int
  | .committing => 1
  | _ => 0

/-- What is left of an operation's reservation: `MAXOPBLOCKS` less the blocks it has
logged. -/
def reserved : Phase → Int
  | .inOp L => maxOpBlocks - L.length
  | _ => 0

@[simp] theorem active_idle : idle.active = 0 := rfl
@[simp] theorem active_inOp (L : List Nat) : (inOp L).active = 1 := rfl
@[simp] theorem active_committing : committing.active = 0 := rfl
@[simp] theorem commits_idle : idle.commits = 0 := rfl
@[simp] theorem commits_inOp (L : List Nat) : (inOp L).commits = 0 := rfl
@[simp] theorem commits_committing : committing.commits = 1 := rfl
@[simp] theorem reserved_idle : idle.reserved = 0 := rfl
@[simp] theorem reserved_inOp (L : List Nat) : (inOp L).reserved = maxOpBlocks - L.length := rfl
@[simp] theorem reserved_committing : committing.reserved = 0 := rfl

theorem active_nonneg (p : Phase) : 0 ≤ p.active := by
  cases p <;> simp only [active] <;> omega

theorem commits_nonneg (p : Phase) : 0 ≤ p.commits := by
  cases p <;> simp only [commits] <;> omega

theorem commits_eq_zero_iff (p : Phase) : p.commits = 0 ↔ p ≠ .committing := by
  cases p <;> simp [commits]

end Phase

/-- The log's fields and every process's phase. -/
structure Machine (ι : Type*) where
  ctl : LogCtl
  proc : ι → Phase

/-- What a process does next. -/
inductive Action (ι : Type*) where
  | beginOp (i : ι)
  | logWrite (i : ι) (blockno : Nat)
  | endOp (i : ι)
  | commit (i : ι)
  deriving DecidableEq, Repr

namespace Machine

variable {ι : Type*}

/-- The log as `mkfs` and `initlog` leave it (`log.size = nlog = LOGSIZE`), every process
idle. -/
def init : Machine ι := ⟨⟨logSize, 0, false, []⟩, fun _ => .idle⟩

section Steps

variable [DecidableEq ι]

/-- One step of process `i`, under `log.lock`: `.ok none` when it cannot run (the process
is elsewhere in the protocol, `begin_op` sleeps, or the operation would log more than
`MAXOPBLOCKS` distinct blocks), `.error` when the kernel panics. -/
def act (m : Machine ι) : Action ι → Except Fault (Option (Machine ι))
  | .beginOp i =>
      match m.proc i, m.ctl.beginOp with
      | .idle, some c => .ok (some ⟨c, Function.update m.proc i (.inOp [])⟩)
      | _, _ => .ok none
  | .logWrite i b =>
      match m.proc i with
      | .inOp L =>
          if b ∈ L ∨ L.length < maxOpBlocks then
            (m.ctl.logWrite b).map fun c =>
              some ⟨c, Function.update m.proc i (.inOp (if b ∈ L then L else L ++ [b]))⟩
          else .ok none
      | _ => .ok none
  | .endOp i =>
      match m.proc i with
      | .inOp _ => (m.ctl.endOp).map fun r =>
          some ⟨r.1, Function.update m.proc i (if r.2 then .committing else .idle)⟩
      | _ => .ok none
  | .commit i =>
      match m.proc i with
      | .committing => .ok (some ⟨m.ctl.commitDone, Function.update m.proc i .idle⟩)
      | _ => .ok none

/-- A step of some process. -/
def Step (m m' : Machine ι) : Prop := ∃ a, m.act a = .ok (some m')

/-- The states the log reaches from boot. -/
def Reachable (m : Machine ι) : Prop := Relation.ReflTransGen Step init m

/-- Some process's next step panics. -/
def Panics (m : Machine ι) (f : Fault) : Prop := ∃ a, m.act a = .error f

/-- A schedule: the actions in order, until one cannot run or panics. -/
def run (m : Machine ι) : List (Action ι) → Except Fault (Option (Machine ι))
  | [] => .ok (some m)
  | a :: as =>
      match m.act a with
      | .ok (some m') => m'.run as
      | .ok none => .ok none
      | .error f => .error f

/-! ## What each step requires and changes -/

theorem act_beginOp {m m' : Machine ι} {i : ι} (h : m.act (.beginOp i) = .ok (some m')) :
    m.proc i = .idle ∧ ∃ c, m.ctl.beginOp = some c ∧
      m' = ⟨c, Function.update m.proc i (.inOp [])⟩ := by
  simp only [act] at h
  split at h
  · rename_i c idle admitted
    exact ⟨idle, c, admitted, (Option.some.inj (Except.ok.inj h)).symm⟩
  · cases h

theorem act_logWrite {m m' : Machine ι} {i : ι} {b : Nat}
    (h : m.act (.logWrite i b) = .ok (some m')) :
    ∃ L, m.proc i = .inOp L ∧ (b ∈ L ∨ L.length < maxOpBlocks) ∧ ∃ c, m.ctl.logWrite b = .ok c ∧
      m' = ⟨c, Function.update m.proc i (.inOp (if b ∈ L then L else L ++ [b]))⟩ := by
  simp only [act] at h
  split at h
  · rename_i L inOp
    split at h
    · rename_i budget
      cases hw : m.ctl.logWrite b with
      | error f => rw [hw] at h; cases h
      | ok c =>
          rw [hw] at h
          exact ⟨L, inOp, budget, c, rfl, (Option.some.inj (Except.ok.inj h)).symm⟩
    · cases h
  · cases h

theorem act_endOp {m m' : Machine ι} {i : ι} (h : m.act (.endOp i) = .ok (some m')) :
    ∃ L, m.proc i = .inOp L ∧ ∃ c doCommit, m.ctl.endOp = .ok (c, doCommit) ∧
      m' = ⟨c, Function.update m.proc i (if doCommit then .committing else .idle)⟩ := by
  simp only [act] at h
  split at h
  · rename_i L inOp
    cases he : m.ctl.endOp with
    | error f => rw [he] at h; cases h
    | ok r =>
        rw [he] at h
        exact ⟨L, inOp, r.1, r.2, rfl, (Option.some.inj (Except.ok.inj h)).symm⟩
  · cases h

theorem act_commit {m m' : Machine ι} {i : ι} (h : m.act (.commit i) = .ok (some m')) :
    m.proc i = .committing ∧ m' = ⟨m.ctl.commitDone, Function.update m.proc i .idle⟩ := by
  simp only [act] at h
  split at h
  · rename_i committing
    exact ⟨committing, (Option.some.inj (Except.ok.inj h)).symm⟩
  · cases h

theorem act_logWrite_error {m : Machine ι} {i : ι} {b : Nat} {f : Fault}
    (h : m.act (.logWrite i b) = .error f) :
    ∃ L, m.proc i = .inOp L ∧ (b ∈ L ∨ L.length < maxOpBlocks) ∧ m.ctl.logWrite b = .error f := by
  simp only [act] at h
  split at h
  · rename_i L inOp
    split at h
    · rename_i budget
      cases hw : m.ctl.logWrite b with
      | error f' =>
          rw [hw] at h
          exact ⟨L, inOp, budget, (Except.error.inj h) ▸ rfl⟩
      | ok c => rw [hw] at h; cases h
    · cases h
  · cases h

theorem act_endOp_error {m : Machine ι} {i : ι} {f : Fault} (h : m.act (.endOp i) = .error f) :
    ∃ L, m.proc i = .inOp L ∧ m.ctl.endOp = .error f := by
  simp only [act] at h
  split at h
  · rename_i L inOp
    cases he : m.ctl.endOp with
    | error f' =>
        rw [he] at h
        exact ⟨L, inOp, (Except.error.inj h) ▸ rfl⟩
    | ok r => rw [he] at h; cases h
  · cases h

/-- `begin_op` and the end of a commit never panic. -/
theorem act_error {m : Machine ι} {a : Action ι} {f : Fault} (h : m.act a = .error f) :
    (∃ i b, a = .logWrite i b) ∨ ∃ i, a = .endOp i := by
  cases a with
  | beginOp i =>
      simp only [act] at h
      split at h <;> cases h
  | logWrite i b => exact .inl ⟨i, b, rfl⟩
  | endOp i => exact .inr ⟨i, rfl⟩
  | commit i =>
      simp only [act] at h
      split at h <;> cases h

/-- A schedule that panics reaches, step by step, a state whose next step panics. -/
theorem run_error {m : Machine ι} {as : List (Action ι)} {f : Fault} (h : m.run as = .error f) :
    ∃ m', Relation.ReflTransGen Step m m' ∧ m'.Panics f := by
  induction as generalizing m with
  | nil => cases h
  | cons a as ih =>
      unfold run at h
      split at h
      · rename_i m' stepped
        obtain ⟨m'', reach, panics⟩ := ih h
        exact ⟨m'', Relation.ReflTransGen.head ⟨a, stepped⟩ reach, panics⟩
      · cases h
      · rename_i f' panicked
        obtain rfl := Except.error.inj h
        exact ⟨m, Relation.ReflTransGen.refl, a, panicked⟩

end Steps

/-! ## The invariant -/

section Invariant

variable [Fintype ι]

/-- The invariant of the log's reservations. -/
structure Inv (m : Machine ι) : Prop where
  /-- `log.size` as `mkfs` wrote it. -/
  size : m.ctl.size = logSize
  /-- `log.outstanding` counts the operations in progress. -/
  outstanding : m.ctl.outstanding = ∑ i, (m.proc i).active
  /-- `committing` is set exactly while one process commits. -/
  committing : (if m.ctl.committing then 1 else 0 : Int) = ∑ i, (m.proc i).commits
  /-- While a process commits, no operation is in progress. -/
  alone : ∀ i j, m.proc i = .committing → (m.proc j).active = 0
  /-- An operation's blocks are distinct, at most `MAXOPBLOCKS`, and logged. -/
  logged : ∀ i L, m.proc i = .inOp L →
    L.Nodup ∧ L.length ≤ maxOpBlocks ∧ ∀ b ∈ L, b ∈ m.ctl.block
  /-- `n` and every operation's unused reservation fit in `LOGSIZE - 2`. -/
  reserve : (m.ctl.block.length : Int) + ∑ i, (m.proc i).reserved ≤ (logSize : Int) - 2

variable {m m' : Machine ι}

theorem inv_init : Inv (init : Machine ι) where
  size := rfl
  outstanding := by simp [init, Phase.active]
  committing := by simp [init, Phase.commits]
  alone := fun i _ h => by cases h
  logged := fun i L h => by cases h
  reserve := by simp [init, Phase.reserved, logSize, maxOpBlocks]

/-- No process commits while `committing` is clear. -/
theorem Inv.not_committing (inv : Inv m) (clear : m.ctl.committing = false) (j : ι) :
    m.proc j ≠ .committing := by
  have zero : ∑ i, (m.proc i).commits = 0 := by
    rw [← inv.committing, clear]
    rfl
  rw [← Phase.commits_eq_zero_iff]
  exact (Finset.sum_eq_zero_iff_of_nonneg (fun i _ => (m.proc i).commits_nonneg)).mp zero j
    (Finset.mem_univ j)

/-- `committing` is clear while an operation is in progress. -/
theorem Inv.committing_false (inv : Inv m) {i : ι} {L : List Nat} (hi : m.proc i = .inOp L) :
    m.ctl.committing = false := by
  by_contra notClear
  have set : m.ctl.committing = true := by simpa using notClear
  have count : ∑ j, (m.proc j).commits = 1 := by
    rw [← inv.committing, set]
    rfl
  obtain ⟨j, -, hj⟩ := Finset.exists_ne_zero_of_sum_ne_zero (by omega : ∑ j, (m.proc j).commits ≠ 0)
  have active := inv.alone j i (by by_contra h; exact hj ((Phase.commits_eq_zero_iff _).mpr h))
  rw [hi] at active
  cases active

theorem Inv.reserved_nonneg (inv : Inv m) (j : ι) : 0 ≤ (m.proc j).reserved := by
  cases hj : m.proc j with
  | inOp L =>
      have := (inv.logged j L hj).2.1
      simp only [Phase.reserved]
      omega
  | idle => exact le_refl 0
  | committing => exact le_refl 0

/-- The reservations left are at most `MAXOPBLOCKS` for each operation in progress. -/
theorem Inv.reserved_le (inv : Inv m) :
    ∑ j, (m.proc j).reserved ≤ maxOpBlocks * m.ctl.outstanding := by
  rw [inv.outstanding, Finset.mul_sum]
  apply Finset.sum_le_sum
  intro j _
  cases m.proc j <;> simp only [Phase.reserved, Phase.active] <;> omega

/-! ## Every step keeps the invariant -/

variable [DecidableEq ι]

/-- `begin_op` admits an operation with a whole reservation, which its check makes fit. -/
theorem Inv.beginOp (inv : Inv m) {i : ι} (h : m.act (.beginOp i) = .ok (some m')) :
    Inv m' := by
  obtain ⟨idle, c, admitted, rfl⟩ := act_beginOp h
  obtain ⟨clear, fits, rfl⟩ := LogCtl.beginOp_some admitted
  have left := inv.reserved_le
  have reserve := inv.reserve
  refine ⟨inv.size, ?_, ?_, fun i' j hi' => ?_, fun i' L hi' => ?_, ?_⟩
  · dsimp only
    rw [WeightedSum.sum_comp_update, ← inv.outstanding, idle, Phase.active_inOp,
      Phase.active_idle, sub_zero]
  · dsimp only
    rw [WeightedSum.sum_comp_update, ← inv.committing, idle, Phase.commits_inOp,
      Phase.commits_idle, sub_zero, add_zero]
  · dsimp only at hi'
    by_cases same : i' = i
    · subst same
      simp only [Function.update_self] at hi'
      cases hi'
    · rw [Function.update_of_ne same] at hi'
      exact absurd hi' (inv.not_committing clear i')
  · dsimp only at hi'
    by_cases same : i' = i
    · subst same
      simp only [Function.update_self, Phase.inOp.injEq] at hi'
      subst hi'
      exact ⟨List.nodup_nil, Nat.zero_le _, fun b hb => nomatch hb⟩
    · rw [Function.update_of_ne same] at hi'
      exact inv.logged i' L hi'
  · dsimp only
    rw [WeightedSum.sum_comp_update, idle, Phase.reserved_inOp, Phase.reserved_idle,
      List.length_nil, Nat.cast_zero, sub_zero, sub_zero]
    unfold logSize maxOpBlocks at fits left reserve ⊢
    omega

/-- `log_write` of a new block takes a slot and uses one unit of the operation's
reservation; a block already logged takes neither. -/
theorem Inv.logWrite (inv : Inv m) {i : ι} {b : Nat} (h : m.act (.logWrite i b) = .ok (some m')) :
    Inv m' := by
  obtain ⟨L, inOp, budget, c, written, rfl⟩ := act_logWrite h
  obtain ⟨-, -, -, hc⟩ := LogCtl.logWrite_ok written
  obtain ⟨nodup, bound, sub⟩ := inv.logged i L inOp
  have fields : c.size = m.ctl.size ∧ c.outstanding = m.ctl.outstanding ∧
      c.committing = m.ctl.committing ∧
      c.block = if b ∈ m.ctl.block then m.ctl.block else m.ctl.block ++ [b] := by
    rw [hc]
    split <;> exact ⟨rfl, rfl, rfl, rfl⟩
  obtain ⟨size, outstanding, committing, block⟩ := fields
  have kept : ∀ x ∈ m.ctl.block, x ∈ c.block := fun x hx => by
    rw [block]
    split
    · exact hx
    · exact List.mem_append_left _ hx
  have added : b ∈ c.block := by
    rw [block]
    split
    · assumption
    · exact List.mem_append_right _ List.mem_cons_self
  refine ⟨size.trans inv.size, ?_, ?_, fun i' j hi' => ?_, fun i' L' hi' => ?_, ?_⟩
  · dsimp only
    rw [WeightedSum.sum_comp_update, ← inv.outstanding, inOp, outstanding]
    simp only [Phase.active_inOp, sub_self, add_zero]
  · dsimp only
    rw [WeightedSum.sum_comp_update, ← inv.committing, inOp, committing]
    simp only [Phase.commits_inOp, sub_self, add_zero]
  · dsimp only at hi'
    by_cases same : i' = i
    · subst same
      simp only [Function.update_self] at hi'
      cases hi'
    · rw [Function.update_of_ne same] at hi'
      have active := inv.alone i' i hi'
      rw [inOp] at active
      cases active
  · dsimp only at hi'
    by_cases same : i' = i
    · subst same
      simp only [Function.update_self, Phase.inOp.injEq] at hi'
      subst hi'
      split
      · exact ⟨nodup, bound, fun x hx => kept x (sub x hx)⟩
      · rename_i fresh
        have room := budget.resolve_left fresh
        refine ⟨List.nodup_append.mpr ⟨nodup, List.nodup_singleton b, ?_⟩, ?_, ?_⟩
        · intro x hx y hy hxy
          rw [List.mem_singleton] at hy
          rw [hxy, hy] at hx
          exact fresh hx
        · rw [List.length_append, List.length_singleton]
          omega
        · intro x hx
          rcases List.mem_append.mp hx with hx | hx
          · exact kept x (sub x hx)
          · rw [List.mem_singleton.mp hx]
            exact added
    · rw [Function.update_of_ne same] at hi'
      obtain ⟨nodup', bound', sub'⟩ := inv.logged i' L' hi'
      exact ⟨nodup', bound', fun x hx => kept x (sub' x hx)⟩
  · dsimp only
    have reserve := inv.reserve
    rw [WeightedSum.sum_comp_update, inOp, block]
    by_cases logged : b ∈ m.ctl.block
    · rw [if_pos logged]
      split
      · simp only [sub_self, add_zero]
        exact reserve
      · simp only [Phase.reserved_inOp, List.length_append, List.length_singleton]
        push_cast
        omega
    · have fresh : b ∉ L := fun hb => logged (sub b hb)
      rw [if_neg logged, if_neg fresh]
      simp only [Phase.reserved_inOp, List.length_append, List.length_singleton]
      push_cast
      omega

/-- `end_op` gives back what is left of the reservation; the last one out commits while no
operation is in progress. -/
theorem Inv.endOp (inv : Inv m) {i : ι} (h : m.act (.endOp i) = .ok (some m')) : Inv m' := by
  obtain ⟨L, inOp, c, doCommit, ended, rfl⟩ := act_endOp h
  obtain ⟨clear, last, rfl⟩ := LogCtl.endOp_ok ended
  have none : ∑ j, (m.proc j).commits = 0 := by
    rw [← inv.committing, clear]
    rfl
  have phase : (if doCommit then Phase.committing else .idle).active = 0 := by
    split <;> rfl
  -- the operations in progress afterwards number `outstanding - 1`
  have active : ∑ j, (Function.update m.proc i
      (if doCommit then Phase.committing else .idle) j).active = m.ctl.outstanding - 1 := by
    rw [WeightedSum.sum_comp_update, ← inv.outstanding, inOp, phase]
    rfl
  refine ⟨inv.size, active.symm, ?_, fun i' j hi' => ?_, fun i' L' hi' => ?_, ?_⟩
  · dsimp only
    rw [WeightedSum.sum_comp_update, none, inOp]
    cases doCommit <;> rfl
  · dsimp only at hi'
    by_cases same : i' = i
    · subst same
      rw [Function.update_self] at hi'
      have commits : doCommit = true := by
        cases doCommit
        · cases hi'
        · rfl
      have zero : m.ctl.outstanding - 1 = 0 := of_decide_eq_true (last ▸ commits)
      exact (Finset.sum_eq_zero_iff_of_nonneg (fun k _ => Phase.active_nonneg _)).mp
        (active.trans zero) j (Finset.mem_univ j)
    · rw [Function.update_of_ne same] at hi'
      exact absurd hi' (inv.not_committing clear i')
  · dsimp only at hi'
    by_cases same : i' = i
    · subst same
      rw [Function.update_self] at hi'
      cases doCommit <;> cases hi'
    · rw [Function.update_of_ne same] at hi'
      exact inv.logged i' L' hi'
  · dsimp only
    have reserve := inv.reserve
    have nonneg := inv.reserved_nonneg i
    rw [WeightedSum.sum_comp_update, inOp]
    rw [inOp] at nonneg
    have gone : (if doCommit then Phase.committing else .idle).reserved = 0 := by
      split <;> rfl
    rw [gone]
    omega

/-- The commit empties the log, and hands `committing` back. -/
theorem Inv.commit (inv : Inv m) {i : ι} (h : m.act (.commit i) = .ok (some m')) : Inv m' := by
  obtain ⟨committing, rfl⟩ := act_commit h
  have set : m.ctl.committing = true := by
    by_contra notSet
    exact inv.not_committing (by simpa using notSet) i committing
  have one : ∑ j, (m.proc j).commits = 1 := by
    rw [← inv.committing, set]
    rfl
  have idle : ∀ j, (m.proc j).active = 0 := fun j => inv.alone i j committing
  have none : ∑ j, (Function.update m.proc i .idle j).commits = 0 := by
    rw [WeightedSum.sum_comp_update, one, committing]
    rfl
  refine ⟨inv.size, ?_, none.symm, fun i' j hi' => ?_, fun i' L hi' => ?_, ?_⟩
  · dsimp only
    rw [WeightedSum.sum_comp_update, ← inv.outstanding, committing, Phase.active_idle,
      Phase.active_committing, sub_self, add_zero]
    rfl
  · have zero := (Finset.sum_eq_zero_iff_of_nonneg (fun k _ => Phase.commits_nonneg _)).mp none
      i' (Finset.mem_univ i')
    dsimp only at hi'
    rw [hi'] at zero
    cases zero
  · dsimp only at hi'
    by_cases same : i' = i
    · subst same
      rw [Function.update_self] at hi'
      cases hi'
    · rw [Function.update_of_ne same] at hi'
      have active := idle i'
      rw [hi'] at active
      cases active
  · dsimp only
    have left := inv.reserved_le
    have out : m.ctl.outstanding = 0 := by
      rw [inv.outstanding]
      exact Finset.sum_eq_zero fun j _ => idle j
    rw [WeightedSum.sum_comp_update, committing]
    simp only [LogCtl.commitDone, List.length_nil, Nat.cast_zero, Phase.reserved_idle,
      Phase.reserved_committing, sub_self, add_zero, zero_add, out, mul_zero] at left ⊢
    unfold logSize maxOpBlocks
    omega

theorem Inv.step (inv : Inv m) (h : Step m m') : Inv m' := by
  obtain ⟨a, ha⟩ := h
  cases a with
  | beginOp i => exact inv.beginOp ha
  | logWrite i b => exact inv.logWrite ha
  | endOp i => exact inv.endOp ha
  | commit i => exact inv.commit ha

/-- Every reachable state keeps the invariant. -/
theorem reachable_inv (h : m.Reachable) : Inv m := by
  induction h with
  | refl => exact inv_init
  | tail _ step ih => exact ih.step step

/-! ## What every reachable state satisfies -/

/-- **Reservations in every reachable state.**  While `committing` is set no operation is
in progress; `n ≤ LOGSIZE - 2`; and the one panic any step can reach is `log_write`'s
`too big a transaction`, at `n = LOGSIZE - 2`, for a block the operation has already
logged, which absorption would have kept in its slot. -/
theorem reachable_panics (h : m.Reachable) :
    (m.ctl.committing = true → m.ctl.outstanding = 0) ∧
    m.ctl.block.length ≤ logSize - 2 ∧
    ∀ f, m.Panics f → f = .panic "too big a transaction" ∧ m.ctl.block.length = logSize - 2 ∧
      ∃ i L b, m.proc i = .inOp L ∧ b ∈ L ∧ m.act (.logWrite i b) = .error f := by
  have inv := reachable_inv h
  have reserve := inv.reserve
  have nonneg : ∀ j ∈ Finset.univ, 0 ≤ (m.proc j).reserved := fun j _ => inv.reserved_nonneg j
  have within : (m.ctl.block.length : Int) ≤ (logSize : Int) - 2 := by
    have := Finset.sum_nonneg nonneg
    omega
  refine ⟨fun set => ?_, by unfold logSize maxOpBlocks at within ⊢; omega, fun f ⟨a, ha⟩ => ?_⟩
  · obtain ⟨j, -, hj⟩ := Finset.exists_ne_zero_of_sum_ne_zero
      (show ∑ j, (m.proc j).commits ≠ 0 by rw [← inv.committing, set]; decide)
    have committing : m.proc j = .committing := by
      by_contra other
      exact hj ((Phase.commits_eq_zero_iff _).mpr other)
    rw [inv.outstanding]
    exact Finset.sum_eq_zero fun k _ => inv.alone j k committing
  rcases act_error ha with ⟨i, b, rfl⟩ | ⟨i, rfl⟩
  · obtain ⟨L, inOp, budget, written⟩ := act_logWrite_error ha
    have inside : 1 ≤ m.ctl.outstanding := by
      rw [inv.outstanding]
      have := Finset.single_le_sum (fun j _ => (m.proc j).active_nonneg) (Finset.mem_univ i)
      rw [inOp, Phase.active_inOp] at this
      exact this
    obtain ⟨rfl, full⟩ := LogCtl.logWrite_error inside written
    have size := inv.size
    have mine := Finset.single_le_sum nonneg (Finset.mem_univ i)
    rw [inOp, Phase.reserved_inOp] at mine
    have boundary : m.ctl.block.length = logSize - 2 := by
      simp only [logSize, maxOpBlocks] at within full size ⊢
      omega
    have exhausted : ¬L.length < maxOpBlocks := by
      simp only [logSize, maxOpBlocks] at within boundary mine reserve ⊢
      omega
    exact ⟨rfl, boundary, i, L, b, inOp, budget.resolve_right exhausted, ha⟩
  · obtain ⟨L, inOp, ended⟩ := act_endOp_error ha
    have clear := inv.committing_false inOp
    rw [(LogCtl.endOp_error ended).1] at clear
    cases clear

end Invariant

end Machine

/-! ## A schedule that reaches the panic -/

/-- Three processes: A (`0`) begins and logs blocks `1 .. 8`; B (`1`) begins; A ends;
C (`2`) begins, both admissions seeing `8 + 2 * 10 = 28`; B logs `11 .. 20` and C logs
`21 .. 30`, which brings `n` to `28`; C logs block `21` again. -/
def relogSchedule : List (Action (Fin 3)) :=
  [.beginOp 0] ++ (List.range 8).map (fun k => .logWrite 0 (k + 1)) ++
    [.beginOp 1, .endOp 0, .beginOp 2] ++
    (List.range 10).map (fun k => .logWrite 1 (k + 11)) ++
    (List.range 10).map (fun k => .logWrite 2 (k + 21)) ++ [.logWrite 2 21]

/-- Every operation of `relogSchedule` stays within `MAXOPBLOCKS` distinct blocks, yet C's
second `log_write` of block `21` panics. -/
theorem relog_at_capacity_panics :
    (Machine.init : Machine (Fin 3)).run relogSchedule =
        .error (.panic "too big a transaction") ∧
      ∃ m : Machine (Fin 3), m.Reachable ∧ m.Panics (.panic "too big a transaction") := by
  have schedule : (Machine.init : Machine (Fin 3)).run relogSchedule =
      .error (.panic "too big a transaction") := rfl
  obtain ⟨m, reach, panics⟩ := Machine.run_error schedule
  exact ⟨schedule, m, reach, panics⟩

end Xv6
