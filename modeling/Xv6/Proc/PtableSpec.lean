import Xv6.Proc.Ptable

/-!
# What each call does to the process table

One lemma per call of `proc.c`, stating its effect on every slot's state, parent, pid and
channel, and on `nextpid` and `initproc`; the invariants of `Xv6.Proc.PtableInv` are proved
from these and never unfold a call.

* `allocproc_eq`, `fork_eq`: `fork` changes nothing, or takes the first `UNUSED` slot with
  the next pid, leaving it `UNUSED` when a page was missing and `RUNNABLE` with the caller as
  parent otherwise;
* `exit_eq`: `exit` passes the caller's children to `initproc`, wakes the sleepers on the
  caller's parent and, when one of the children is a `ZOMBIE`, those on `initproc`, and makes
  the caller a `ZOMBIE`; the loop over the table is `foldl_reparent_parent` and
  `foldl_reparent_state`;
* `wait_eq`: `wait` reaps the first `ZOMBIE` child, answers `-1`, or sleeps on the caller.
-/

namespace Xv6

namespace Ptable

namespace Procs

variable {t t' : Procs} {i j q cur : Fin nproc}

/-! ## Finding slots -/

theorem firstUnused_state (h : t.firstUnused = some i) : (t.proc i).state = .unused := by
  simpa using List.find?_some h

theorem zombieChild_spec (h : t.zombieChild cur = some q) :
    (t.proc q).parent = some cur ∧ (t.proc q).state = .zombie := by
  simpa using List.find?_some h

theorem zombieChild_eq_none (h : t.zombieChild cur = none) (q : Fin nproc) :
    (t.proc q).parent = some cur → (t.proc q).state ≠ .zombie := by
  simp only [zombieChild, List.find?_eq_none, List.mem_finRange, decide_eq_true_eq, true_implies,
    not_and] at h
  exact h q

/-! ## `wakeup1` and `reparent` -/

@[simp] theorem wakeup1_initproc (t : Procs) (chan : Chan) : (t.wakeup1 chan).initproc = t.initproc :=
  rfl

@[simp] theorem wakeup1_nextpid (t : Procs) (chan : Chan) : (t.wakeup1 chan).nextpid = t.nextpid :=
  rfl

@[simp] theorem wakeup1_files (t : Procs) (chan : Chan) : (t.wakeup1 chan).files = t.files := rfl

/-- `wakeup1` changes only states: each field lemma below reads one field of a slot. -/
theorem wakeup1_proc (t : Procs) (chan : Chan) (j : Fin nproc) :
    (t.wakeup1 chan).proc j = if (t.proc j).state = .sleeping ∧ (t.proc j).chan = chan then
      { t.proc j with state := .runnable } else t.proc j := rfl

@[simp] theorem wakeup1_parent (t : Procs) (chan : Chan) (j : Fin nproc) :
    ((t.wakeup1 chan).proc j).parent = (t.proc j).parent := by
  rw [wakeup1_proc]
  split <;> rfl

@[simp] theorem wakeup1_pid (t : Procs) (chan : Chan) (j : Fin nproc) :
    ((t.wakeup1 chan).proc j).pid = (t.proc j).pid := by
  rw [wakeup1_proc]
  split <;> rfl

@[simp] theorem wakeup1_chan (t : Procs) (chan : Chan) (j : Fin nproc) :
    ((t.wakeup1 chan).proc j).chan = (t.proc j).chan := by
  rw [wakeup1_proc]
  split <;> rfl

theorem wakeup1_state (t : Procs) (chan : Chan) (j : Fin nproc) :
    ((t.wakeup1 chan).proc j).state =
      if (t.proc j).state = .sleeping ∧ (t.proc j).chan = chan then .runnable else (t.proc j).state := by
  rw [wakeup1_proc]
  split <;> rfl

@[simp] theorem reparent_initproc (t : Procs) (q : Fin nproc) :
    (reparent cur t q).initproc = t.initproc := by
  unfold reparent
  dsimp only
  split_ifs <;> rfl

@[simp] theorem reparent_nextpid (t : Procs) (q : Fin nproc) :
    (reparent cur t q).nextpid = t.nextpid := by
  unfold reparent
  dsimp only
  split_ifs <;> rfl

@[simp] theorem reparent_pid (t : Procs) (q j : Fin nproc) :
    ((reparent cur t q).proc j).pid = (t.proc j).pid := by
  unfold reparent
  dsimp only
  by_cases hj : j = q <;> split_ifs <;> simp [hj]

@[simp] theorem reparent_chan (t : Procs) (q j : Fin nproc) :
    ((reparent cur t q).proc j).chan = (t.proc j).chan := by
  unfold reparent
  dsimp only
  by_cases hj : j = q <;> split_ifs <;> simp [hj]

theorem reparent_parent (t : Procs) (q j : Fin nproc) :
    ((reparent cur t q).proc j).parent =
      if j = q ∧ (t.proc q).parent = some cur then t.initproc else (t.proc j).parent := by
  unfold reparent
  dsimp only
  by_cases hj : j = q
  · subst hj
    split_ifs <;> simp_all
  · split_ifs <;> simp_all

/-- One turn of `exit`'s loop wakes the sleepers on `initproc` exactly when the slot it looks
at is a `ZOMBIE` child of the caller. -/
theorem reparent_state (t : Procs) (q j : Fin nproc) :
    ((reparent cur t q).proc j).state =
      if ((t.proc q).parent = some cur ∧ (t.proc q).state = .zombie) ∧
          ((t.proc j).state = .sleeping ∧ (t.proc j).chan = chanOf t.initproc) then .runnable
      else (t.proc j).state := by
  unfold reparent
  dsimp only
  by_cases hp : (t.proc q).parent = some cur
  · have hq : ((t.set q { t.proc q with parent := t.initproc }).proc q).state = (t.proc q).state := by
      simp
    by_cases hz : (t.proc q).state = .zombie
    · rw [if_pos hp, hq, if_pos hz, wakeup1_state]
      by_cases hj : j = q
      · subst hj
        simp [hz]
      · simp [hj, hp, hz]
    · rw [if_pos hp, hq, if_neg hz]
      by_cases hj : j = q
      · subst hj
        simp [hz]
      · simp [hj, hz]
  · simp [hp]

/-- `exit`'s loop keeps `initproc`, `nextpid`, and every slot's pid and channel. -/
theorem foldl_reparent_keeps (l : List (Fin nproc)) :
    (l.foldl (reparent cur) t).initproc = t.initproc ∧ (l.foldl (reparent cur) t).nextpid = t.nextpid ∧
      ∀ j, ((l.foldl (reparent cur) t).proc j).pid = (t.proc j).pid ∧
        ((l.foldl (reparent cur) t).proc j).chan = (t.proc j).chan := by
  induction l generalizing t with
  | nil => exact ⟨rfl, rfl, fun _ => ⟨rfl, rfl⟩⟩
  | cons q l ih =>
    obtain ⟨init, next, slots⟩ := @ih (reparent cur t q)
    exact ⟨by simp [init], by simp [next], fun j => by simp [slots j]⟩

/-- `exit`'s loop over any list of slots, while `initproc` is not the caller: each child of
the caller in the list is passed to `initproc`. -/
theorem foldl_reparent_parent (hinit : t.initproc ≠ some cur) (l : List (Fin nproc)) (j : Fin nproc) :
    ((l.foldl (reparent cur) t).proc j).parent =
      if j ∈ l ∧ (t.proc j).parent = some cur then t.initproc else (t.proc j).parent := by
  induction l generalizing t with
  | nil => simp
  | cons q l ih =>
    rw [List.foldl_cons, ih (by rwa [reparent_initproc]), reparent_initproc, reparent_parent]
    by_cases hj : j = q
    · subst hj
      by_cases hp : (t.proc j).parent = some cur <;> simp [hp, hinit]
    · simp [hj]

/-- A `ZOMBIE` child of the caller in the list, and the loop has woken the sleepers on
`initproc`: the loop's `wakeup1` calls over the list, stated on the slots before it. -/
theorem foldl_reparent_state (hinit : t.initproc ≠ some cur) (l : List (Fin nproc)) (j : Fin nproc) :
    ((l.foldl (reparent cur) t).proc j).state =
      if ((t.proc j).state = .sleeping ∧ (t.proc j).chan = chanOf t.initproc) ∧
          ∃ q ∈ l, (t.proc q).parent = some cur ∧ (t.proc q).state = .zombie then .runnable
      else (t.proc j).state := by
  induction l generalizing t with
  | nil => simp
  | cons q l ih =>
    rw [List.foldl_cons, ih (by rwa [reparent_initproc]), reparent_initproc, reparent_state,
      reparent_chan]
    -- the zombie children the rest of the loop finds are those it found before this turn,
    -- but for the slot of this turn, which has been passed to `initproc`
    have rest : (∃ q' ∈ l, ((reparent cur t q).proc q').parent = some cur ∧
        ((reparent cur t q).proc q').state = .zombie) ∨
        ((t.proc q).parent = some cur ∧ (t.proc q).state = .zombie) ↔
        ∃ q' ∈ q :: l, (t.proc q').parent = some cur ∧ (t.proc q').state = .zombie := by
      simp only [reparent_parent, reparent_state, List.mem_cons, exists_eq_or_imp]
      constructor
      · rintro (⟨q', mem, hp, hz⟩ | here)
        · right
          refine ⟨q', mem, ?_, ?_⟩
          · split_ifs at hp with h
            · exact absurd hp hinit
            · exact hp
          · split_ifs at hz
            simp_all
        · exact .inl here
      · rintro (here | ⟨q', mem, hp, hz⟩)
        · exact .inr here
        · by_cases same : q' = q
          · subst same
            exact .inr ⟨hp, hz⟩
          · left
            refine ⟨q', mem, by simp [same, hp], ?_⟩
            simp [hz]
    by_cases wake : ((t.proc q).parent = some cur ∧ (t.proc q).state = .zombie) ∧
        ((t.proc j).state = .sleeping ∧ (t.proc j).chan = chanOf t.initproc)
    · rw [if_pos wake, ite_self, if_pos ⟨wake.2, rest.mp (.inr wake.1)⟩]
    · rw [if_neg wake]
      by_cases sleeper : (t.proc j).state = .sleeping ∧ (t.proc j).chan = chanOf t.initproc
      · have here : ¬((t.proc q).parent = some cur ∧ (t.proc q).state = .zombie) :=
          fun here => wake ⟨here, sleeper⟩
        simp only [sleeper, true_and]
        exact if_congr ⟨fun found => rest.mp (.inl found), fun found => (rest.mpr found).resolve_right here⟩
          rfl rfl
      · simp [sleeper]

/-! ## `allocproc`, `userinit` and `fork` -/

/-- `allocproc` with no `UNUSED` slot changes nothing; otherwise it takes the first one,
gives it the next pid and moves `nextpid` on, leaving it `EMBRYO`, or `UNUSED` when `kalloc`
failed. -/
theorem allocproc_eq {kstack : UInt32} {r : Option (Fin nproc)} (h : t.allocproc kstack = (r, t')) :
    (t.firstUnused = none ∧ r = none ∧ t' = t) ∨
    ∃ i, t.firstUnused = some i ∧ t'.nextpid = t.nextpid + 1 ∧ t'.initproc = t.initproc ∧
      t'.files = t.files ∧ (∀ j, j ≠ i → t'.proc j = t.proc j) ∧ (t'.proc i).pid = t.nextpid ∧
      (t'.proc i).parent = (t.proc i).parent ∧
      ((r = none ∧ (t'.proc i).state = .unused) ∨ (r = some i ∧ (t'.proc i).state = .embryo)) := by
  unfold allocproc at h
  split at h
  · rename_i none
    obtain ⟨rfl, rfl⟩ := Prod.mk.inj h
    exact .inl ⟨none, rfl, rfl⟩
  · rename_i i found
    refine .inr ⟨i, found, ?_⟩
    split at h <;> obtain ⟨rfl, rfl⟩ := Prod.mk.inj h
    · exact ⟨rfl, rfl, rfl, fun j ne => by simp [ne], by simp, by simp, .inl ⟨rfl, by simp⟩⟩
    · exact ⟨rfl, rfl, rfl, fun j ne => by simp [ne], by simp, by simp, .inr ⟨rfl, by simp⟩⟩

/-- `userinit` makes the first `UNUSED` slot `initproc`, `RUNNABLE` with the next pid. -/
theorem userinit_eq {kstack pgdir : UInt32} (h : t.userinit kstack pgdir = .ok t') :
    ∃ i, t.firstUnused = some i ∧ t'.initproc = some i ∧ t'.nextpid = t.nextpid + 1 ∧
      (∀ j, j ≠ i → t'.proc j = t.proc j) ∧ (t'.proc i).state = .runnable ∧
      (t'.proc i).parent = (t.proc i).parent ∧ (t'.proc i).pid = t.nextpid := by
  unfold userinit at h
  split at h
  · cases h
  · rename_i i t₁ alloc
    obtain ⟨-, none, -⟩ | ⟨i', found, next, -, -, other, pid, parent, ⟨none, -⟩ | ⟨same, -⟩⟩ :=
      allocproc_eq alloc
    · cases none
    · cases none
    · cases same
      split at h
      · cases h
      · obtain ⟨got, -, h⟩ := except_bind_eq_ok h
        cases Except.ok.inj h
        exact ⟨_, found, rfl, next, fun j ne => by simp [ne, other j ne], by simp, by simp [parent],
          by simp [pid]⟩

/-- `fork` changes nothing in the table when no slot is `UNUSED`; otherwise it takes the first
`UNUSED` slot with the next pid and moves `nextpid` on, and the slot is `UNUSED` again, its
parent as it was, when a page was missing, or `RUNNABLE` with the caller as parent, and its
pid returned. -/
theorem fork_eq {kstack pgdir : UInt32} {r : Int32} (h : t.fork cur kstack pgdir = .ok (r, t')) :
    t'.initproc = t.initproc ∧
    (t'.proc = t.proc ∧ t'.nextpid = t.nextpid ∨
      ∃ np, t.firstUnused = some np ∧ t'.nextpid = t.nextpid + 1 ∧
        (∀ j, j ≠ np → t'.proc j = t.proc j) ∧ (t'.proc np).pid = t.nextpid ∧
        (((t'.proc np).state = .unused ∧ (t'.proc np).parent = (t.proc np).parent) ∨
          ((t'.proc np).state = .runnable ∧ (t'.proc np).parent = some cur))) := by
  unfold fork at h
  split at h
  · rename_i t₁ alloc
    cases Except.ok.inj h
    obtain ⟨-, -, rfl⟩ | ⟨i, found, next, init, -, other, pid, parent, ⟨-, unused⟩ | ⟨none, -⟩⟩ :=
      allocproc_eq alloc
    · exact ⟨rfl, .inl ⟨rfl, rfl⟩⟩
    · exact ⟨init, .inr ⟨i, found, next, other, pid, .inl ⟨unused, parent⟩⟩⟩
    · cases none
  · rename_i np t₁ alloc
    obtain ⟨-, none, -⟩ | ⟨i, found, next, init, -, other, pid, parent, ⟨none, -⟩ | ⟨same, -⟩⟩ :=
      allocproc_eq alloc
    · cases none
    · cases none
    · cases same
      split at h
      · cases Except.ok.inj h
        exact ⟨init, .inr ⟨np, found, next, fun j ne => by simp [ne, other j ne], by simp [pid],
          .inl ⟨by simp, by simp [parent]⟩⟩⟩
      · obtain ⟨files, -, h⟩ := except_bind_eq_ok h
        cases (Prod.mk.inj (Except.ok.inj h)).2
        exact ⟨init, .inr ⟨np, found, next, fun j ne => by simp [ne, other j ne], by simp [pid],
          .inr ⟨by simp, by simp⟩⟩⟩

/-! ## `exit` and `wait` -/

/-- What `exit` does to the table: each slot keeps its pid and channel; the caller's
children are `initproc`'s; the caller is a `ZOMBIE`; and every other process asleep on the
caller's parent, or on `initproc` when one of the caller's children is a `ZOMBIE`, is
`RUNNABLE`. -/
theorem exit_eq (h : t.exit cur = .ok t') :
    t.initproc ≠ some cur ∧ t'.initproc = t.initproc ∧ t'.nextpid = t.nextpid ∧
    ∀ j, (t'.proc j).pid = (t.proc j).pid ∧ (t'.proc j).chan = (t.proc j).chan ∧
      (t'.proc j).parent =
        (if (t.proc j).parent = some cur then t.initproc else (t.proc j).parent) ∧
      (t'.proc j).state =
        if j = cur then .zombie
        else if (t.proc j).state = .sleeping ∧ ((t.proc j).chan = chanOf (t.proc cur).parent ∨
            ((t.proc j).chan = chanOf t.initproc ∧
              ∃ q, (t.proc q).parent = some cur ∧ (t.proc q).state = .zombie)) then .runnable
        else (t.proc j).state := by
  unfold exit at h
  split at h
  · cases h
  · rename_i notInit
    obtain ⟨files, -, h⟩ := except_bind_eq_ok h
    obtain ⟨fs, -, h⟩ := except_bind_eq_ok h
    cases Except.ok.inj h
    dsimp only
    -- the table `exit`'s loop starts from: files closed and the parent woken
    obtain ⟨t₁, ht₁⟩ : ∃ t₁ : Procs, t₁ = ({ t with files := { files with fs } }.wakeup1
        (chanOf (t.proc cur).parent)) := ⟨_, rfl⟩
    rw [← ht₁]
    have woken : t₁.initproc = t.initproc ∧ t₁.nextpid = t.nextpid := by
      rw [ht₁]
      exact ⟨rfl, rfl⟩
    have slots₁ (j : Fin nproc) : (t₁.proc j).pid = (t.proc j).pid ∧ (t₁.proc j).chan = (t.proc j).chan ∧
        (t₁.proc j).parent = (t.proc j).parent := by
      rw [ht₁]
      exact ⟨wakeup1_pid _ _ j, wakeup1_chan _ _ j, wakeup1_parent _ _ j⟩
    have init₁ : t₁.initproc ≠ some cur := by rwa [woken.1]
    have wake₁ (j : Fin nproc) : (t₁.proc j).state = if (t.proc j).state = .sleeping ∧
        (t.proc j).chan = chanOf (t.proc cur).parent then .runnable else (t.proc j).state := by
      rw [ht₁, wakeup1_state]
    obtain ⟨init, next, slots⟩ := @foldl_reparent_keeps t₁ cur (List.finRange nproc)
    refine ⟨notInit, by simp [init, woken.1], by simp [next, woken.2], fun j => ⟨?_, ?_, ?_, ?_⟩⟩
    · obtain rfl | hj := eq_or_ne j cur
      · simp [(slots j).1, (slots₁ j).1]
      · simp [hj, (slots j).1, (slots₁ j).1]
    · obtain rfl | hj := eq_or_ne j cur
      · simp [(slots j).2, (slots₁ j).2.1]
      · simp [hj, (slots j).2, (slots₁ j).2.1]
    · by_cases hj : j = cur
      · subst hj
        simp [foldl_reparent_parent init₁, woken.1, (slots₁ j).2.2]
      · simp [set_proc_of_ne _ _ hj, foldl_reparent_parent init₁, woken.1, (slots₁ j).2.2]
    · by_cases hj : j = cur
      · simp [hj]
      · rw [set_proc_of_ne _ _ hj, foldl_reparent_state init₁, if_neg hj, wake₁]
        -- the loop's test reads the slots after the first `wakeup1`, which leaves `ZOMBIE`s be
        have zombies : (∃ q ∈ List.finRange nproc, (t₁.proc q).parent = some cur ∧
            (t₁.proc q).state = .zombie) ↔
            ∃ q, (t.proc q).parent = some cur ∧ (t.proc q).state = .zombie := by
          simp only [List.mem_finRange, true_and, (slots₁ _).2.2, wake₁]
          refine exists_congr fun q => and_congr_right fun _ => ?_
          split_ifs with h <;> simp_all
        simp only [zombies, (slots₁ j).2.1, woken.1]
        by_cases first : (t.proc j).state = .sleeping ∧ (t.proc j).chan = chanOf (t.proc cur).parent
        · simp [first]
        · rw [if_neg first]
          by_cases asleep : (t.proc j).state = .sleeping
          · simp only [asleep, true_and]
            have other : (t.proc j).chan ≠ chanOf (t.proc cur).parent := fun h => first ⟨asleep, h⟩
            simp [other]
          · simp [asleep]

/-- `wait` reaps the first `ZOMBIE` child and answers its pid; with none it answers `-1`
and changes nothing, or puts the caller to sleep on its own slot. -/
theorem wait_eq {r : Option Int32} (h : t.wait cur = (r, t')) :
    (∃ q, t.zombieChild cur = some q ∧ r = some (t.proc q).pid ∧
      t' = t.set q { t.proc q with
        kstack := 0, pid := 0, parent := Option.none, killed := false, state := .unused }) ∨
    (t.zombieChild cur = none ∧ r = some (-1) ∧ t' = t) ∨
    (t.zombieChild cur = none ∧ r = none ∧
      t' = t.set cur { t.proc cur with chan := .proc cur, state := .sleeping }) := by
  unfold wait at h
  split at h
  · rename_i q found
    obtain ⟨rfl, rfl⟩ := Prod.mk.inj h
    exact .inl ⟨q, found, rfl, rfl⟩
  · rename_i none
    split at h <;> obtain ⟨rfl, rfl⟩ := Prod.mk.inj h
    · exact .inr (.inl ⟨none, rfl, rfl⟩)
    · exact .inr (.inr ⟨none, rfl, rfl⟩)

end Procs

end Ptable

end Xv6
