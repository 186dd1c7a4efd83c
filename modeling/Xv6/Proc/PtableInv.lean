import Xv6.Proc.PtableSpec

/-!
# Invariants of the process table

Over every run of `Step` from `userinit` (`Reachable.inv`):

* every process but `initproc` has a parent, a parent is `RUNNABLE`, `RUNNING` or
  `SLEEPING` and never the child itself, and `initproc` has no parent: a `ZOMBIE` has no
  children, and every `ZOMBIE` has a parent that can still `wait` for it;
* a process asleep on a process's slot is asleep in `wait` on its own, and none of its
  children is a `ZOMBIE`: `exit` wakes the parent that waits for it before it becomes a
  `ZOMBIE`, and `initproc` when it passes it a `ZOMBIE`;
* while `nextpid` has not wrapped (a run of `Unwrapped` steps), every used slot's pid is
  positive and below `nextpid`, and no two slots share a nonzero pid (`PidInv.run`).

The steps that move processes only between `RUNNABLE`, `RUNNING` and `SLEEPING` are
`Shuffle`s and are handled once; a slot that is given back is handled by `Inv.free`.
-/

namespace Xv6

/-- The states in which a process can be a parent: `RUNNABLE`, `RUNNING` or `SLEEPING`. -/
def ProcState.Live (s : ProcState) : Prop := s = .runnable ∨ s = .running ∨ s = .sleeping

instance (s : ProcState) : Decidable s.Live := inferInstanceAs (Decidable (_ ∨ _ ∨ _))

theorem ProcState.Live.ne_unused {s : ProcState} (h : s.Live) : s ≠ .unused := by
  rcases h with rfl | rfl | rfl <;> decide

theorem ProcState.Live.ne_zombie {s : ProcState} (h : s.Live) : s ≠ .zombie := by
  rcases h with rfl | rfl | rfl <;> decide

namespace Ptable

open Procs

/-! ## Steps that only move processes between the live states -/

/-- A step that moves processes only between `RUNNABLE`, `RUNNING` and `SLEEPING` on a
channel that is no process's slot, and changes no parent, pid, `nextpid` or `initproc`. -/
structure Shuffle (t t' : Procs) : Prop where
  initproc : t'.initproc = t.initproc
  nextpid : t'.nextpid = t.nextpid
  parent : ∀ j, (t'.proc j).parent = (t.proc j).parent
  pid : ∀ j, (t'.proc j).pid = (t.proc j).pid
  state : ∀ j, ((t'.proc j).state = (t.proc j).state ∧ (t'.proc j).chan = (t.proc j).chan) ∨
    ((t.proc j).state.Live ∧ (t'.proc j).state.Live ∧
      ((t'.proc j).state = .sleeping → ∀ r, (t'.proc j).chan ≠ .proc r))

namespace Shuffle

variable {t t' : Procs} {j : Fin nproc}

theorem refl (t : Procs) : Shuffle t t :=
  ⟨rfl, rfl, fun _ => rfl, fun _ => rfl, fun _ => .inl ⟨rfl, rfl⟩⟩

theorem live (h : Shuffle t t') (live : (t.proc j).state.Live) : (t'.proc j).state.Live := by
  rcases h.state j with ⟨same, -⟩ | ⟨-, live', -⟩
  · rwa [same]
  · exact live'

theorem used_iff (h : Shuffle t t') : (t'.proc j).state ≠ .unused ↔ (t.proc j).state ≠ .unused := by
  rcases h.state j with ⟨same, -⟩ | ⟨live, live', -⟩
  · rw [same]
  · exact ⟨fun _ => live.ne_unused, fun _ => live'.ne_unused⟩

theorem zombie (h : Shuffle t t') (z : (t'.proc j).state = .zombie) : (t.proc j).state = .zombie := by
  rcases h.state j with ⟨same, -⟩ | ⟨-, live', -⟩
  · rwa [← same]
  · exact absurd z live'.ne_zombie

theorem sleeping (h : Shuffle t t') {r : Fin nproc} (asleep : (t'.proc j).state = .sleeping)
    (chan : (t'.proc j).chan = .proc r) : (t.proc j).state = .sleeping ∧ (t.proc j).chan = .proc r := by
  rcases h.state j with ⟨same, same'⟩ | ⟨-, -, other⟩
  · exact ⟨same ▸ asleep, same' ▸ chan⟩
  · exact absurd chan (other asleep r)

end Shuffle

/-- Storing into one slot a process with the same parent and pid, moved between the live
states or left in its state. -/
theorem shuffle_set {t : Procs} {i : Fin nproc} {p : Proc} (parent : p.parent = (t.proc i).parent)
    (pid : p.pid = (t.proc i).pid)
    (state : (p.state = (t.proc i).state ∧ p.chan = (t.proc i).chan) ∨
      ((t.proc i).state.Live ∧ p.state.Live ∧ (p.state = .sleeping → ∀ r, p.chan ≠ .proc r))) :
    Shuffle t (t.set i p) where
  initproc := rfl
  nextpid := rfl
  parent j := by
    obtain rfl | hj := eq_or_ne j i
    · simpa using parent
    · simp [hj]
  pid j := by
    obtain rfl | hj := eq_or_ne j i
    · simpa using pid
    · simp [hj]
  state j := by
    obtain rfl | hj := eq_or_ne j i
    · simpa using state
    · simp [hj]

theorem shuffle_wakeup1 (t : Procs) (chan : Chan) : Shuffle t (t.wakeup1 chan) where
  initproc := rfl
  nextpid := rfl
  parent := wakeup1_parent t chan
  pid := wakeup1_pid t chan
  state j := by
    rw [wakeup1_state, wakeup1_chan]
    split_ifs with woken
    · exact .inr ⟨.inr (.inr woken.1), .inl rfl, fun h => absurd h (by decide)⟩
    · exact .inl ⟨rfl, rfl⟩

theorem shuffle_kill (t : Procs) (pid : Int32) : Shuffle t (t.kill pid).2 := by
  unfold kill
  split
  · rename_i i found
    refine shuffle_set rfl rfl ?_
    by_cases asleep : (t.proc i).state = .sleeping
    · exact .inr ⟨.inr (.inr asleep), by simp [asleep, ProcState.Live], by simp [asleep]⟩
    · exact .inl ⟨by simp [asleep], rfl⟩
  · exact Shuffle.refl t

/-! ## The parent links -/

/-- The process table's invariant: `initproc` is a live process without a parent; every
parent link goes from a used slot to another slot, whose process is live; every used slot but
`initproc` has a parent; and a process asleep on a slot is asleep in `wait` on its own, with
no `ZOMBIE` child. -/
structure Procs.Inv (t : Procs) : Prop where
  init : ∃ ι, t.initproc = some ι ∧ (t.proc ι).parent = none ∧ (t.proc ι).state.Live
  parent : ∀ q r, (t.proc q).parent = some r →
    r ≠ q ∧ (t.proc q).state ≠ .unused ∧ (t.proc r).state.Live
  orphan : ∀ q, (t.proc q).state ≠ .unused → t.initproc ≠ some q → (t.proc q).parent ≠ none
  waiting : ∀ q r, (t.proc q).state = .sleeping → (t.proc q).chan = .proc r →
    r = q ∧ ∀ c, (t.proc c).parent = some q → (t.proc c).state ≠ .zombie

namespace Procs.Inv

variable {t t' : Procs}

/-- An `UNUSED` slot is nobody's child. -/
theorem unused_parent (hI : t.Inv) {q : Fin nproc} (unused : (t.proc q).state = .unused) :
    (t.proc q).parent = none := by
  cases hp : (t.proc q).parent with
  | none => rfl
  | some r => exact absurd unused (hI.parent q r hp).2.1

theorem init_live (hI : t.Inv) {q : Fin nproc} (h : t.initproc = some q) : (t.proc q).state.Live := by
  obtain ⟨ι, hι, -, live⟩ := hI.init
  rw [hι] at h
  cases h
  exact live

/-- A process that is not live is nobody's parent. -/
theorem childless (hI : t.Inv) {q : Fin nproc} (dead : ¬(t.proc q).state.Live) (x : Fin nproc) :
    (t.proc x).parent ≠ some q :=
  fun hp => dead (hI.parent x q hp).2.2

theorem shuffle (hI : t.Inv) (h : Shuffle t t') : t'.Inv where
  init := by
    obtain ⟨ι, hι, none, live⟩ := hI.init
    exact ⟨ι, h.initproc ▸ hι, (h.parent ι).trans none, h.live live⟩
  parent q r hp := by
    rw [h.parent] at hp
    obtain ⟨ne, used, live⟩ := hI.parent q r hp
    exact ⟨ne, h.used_iff.mpr used, h.live live⟩
  orphan q used notInit := by
    rw [h.parent]
    exact hI.orphan q (h.used_iff.mp used) (h.initproc ▸ notInit)
  waiting q r asleep chan := by
    obtain ⟨asleep₀, chan₀⟩ := h.sleeping asleep chan
    obtain ⟨rfl, none⟩ := hI.waiting q r asleep₀ chan₀
    exact ⟨rfl, fun c hc z => none c ((h.parent c).symm.trans hc) (h.zombie z)⟩

/-- A slot given back: `UNUSED` and nobody's child, where it was nobody's parent and not
`initproc`; no other slot changes. -/
theorem free (hI : t.Inv) {q : Fin nproc} (init : t'.initproc = t.initproc)
    (other : ∀ j, j ≠ q → t'.proc j = t.proc j) (childless : ∀ x, (t.proc x).parent ≠ some q)
    (notInit : t.initproc ≠ some q) (unused : (t'.proc q).state = .unused)
    (none : (t'.proc q).parent = none) : t'.Inv where
  init := by
    obtain ⟨ι, hι, ιnone, live⟩ := hI.init
    have ne : ι ≠ q := fun same => notInit (same ▸ hι)
    exact ⟨ι, init.trans hι, by rwa [other ι ne], by rwa [other ι ne]⟩
  parent x r hp := by
    obtain rfl | hx := eq_or_ne x q
    · rw [none] at hp
      cases hp
    · rw [other x hx] at hp ⊢
      have hr : r ≠ q := fun same => childless x (same ▸ hp)
      rw [other r hr]
      exact hI.parent x r hp
  orphan x used notInit' := by
    obtain rfl | hx := eq_or_ne x q
    · exact absurd unused used
    · rw [other x hx] at used ⊢
      exact hI.orphan x used (init ▸ notInit')
  waiting x r asleep chan := by
    obtain rfl | hx := eq_or_ne x q
    · rw [unused] at asleep
      cases asleep
    · rw [other x hx] at asleep chan
      obtain ⟨rfl, zombies⟩ := hI.waiting x r asleep chan
      refine ⟨rfl, fun c hc => ?_⟩
      obtain rfl | hc' := eq_or_ne c q
      · rw [none] at hc
        cases hc
      · rw [other c hc'] at hc ⊢
        exact zombies c hc

/-- A slot that was `UNUSED`, now `RUNNABLE` with a running parent; no other slot changes. -/
theorem spawn (hI : t.Inv) {np cur : Fin nproc} (init : t'.initproc = t.initproc)
    (other : ∀ j, j ≠ np → t'.proc j = t.proc j) (fresh : (t.proc np).state = .unused)
    (running : (t.proc cur).state = .running) (runnable : (t'.proc np).state = .runnable)
    (parent : (t'.proc np).parent = some cur) : t'.Inv where
  init := by
    obtain ⟨ι, hι, none, live⟩ := hI.init
    have ne : ι ≠ np := fun same => live.ne_unused (same ▸ fresh)
    exact ⟨ι, init.trans hι, by rwa [other ι ne], by rwa [other ι ne]⟩
  parent x r hp := by
    have ne : cur ≠ np := fun same => by simp [same, fresh] at running
    obtain rfl | hx := eq_or_ne x np
    · rw [parent] at hp
      cases hp
      exact ⟨ne, by simp [runnable], by rw [other _ ne, running]; exact .inr (.inl rfl)⟩
    · rw [other x hx] at hp ⊢
      obtain ⟨ne', used, live⟩ := hI.parent x r hp
      have hr : r ≠ np := fun same => live.ne_unused (same ▸ fresh)
      exact ⟨ne', used, by rwa [other r hr]⟩
  orphan x used notInit := by
    obtain rfl | hx := eq_or_ne x np
    · simp [parent]
    · rw [other x hx] at used ⊢
      exact hI.orphan x used (init ▸ notInit)
  waiting x r asleep chan := by
    obtain rfl | hx := eq_or_ne x np
    · rw [runnable] at asleep
      cases asleep
    · rw [other x hx] at asleep chan
      obtain ⟨rfl, zombies⟩ := hI.waiting x r asleep chan
      refine ⟨rfl, fun c hc => ?_⟩
      obtain rfl | hc' := eq_or_ne c np
      · simp [runnable]
      · rw [other c hc'] at hc ⊢
        exact zombies c hc

theorem fork (hI : t.Inv) {cur : Fin nproc} {kstack pgdir : UInt32} {r : Int32}
    (running : (t.proc cur).state = .running) (h : t.fork cur kstack pgdir = .ok (r, t')) :
    t'.Inv := by
  obtain ⟨init, ⟨same, next⟩ | ⟨np, found, -, other, -, ⟨unused, parent⟩ | ⟨runnable, parent⟩⟩⟩ :=
    fork_eq h
  · exact hI.shuffle ⟨init, next, fun j => by rw [same], fun j => by rw [same],
      fun j => .inl ⟨by rw [same], by rw [same]⟩⟩
  · -- no page for the child: the slot is given back as it was taken
    have fresh := firstUnused_state found
    exact hI.free init other (hI.childless (by simp [fresh, ProcState.Live]))
      (fun same => (hI.init_live same).ne_unused fresh) unused (parent.trans (hI.unused_parent fresh))
  · exact hI.spawn init other (firstUnused_state found) running runnable parent

/-- What `exit` leaves of the other slots' states: as they were, or woken from sleep, and a
process still asleep was neither on the caller's parent nor, when a child of the caller is
a `ZOMBIE`, on `initproc`. -/
theorem exit_moved {cur p ι : Fin nproc} (h : t.exit cur = .ok t') (hp : (t.proc cur).parent = some p)
    (hι : t.initproc = some ι) {j : Fin nproc} (hj : j ≠ cur) :
    ((t'.proc j).state = (t.proc j).state ∨
      ((t.proc j).state = .sleeping ∧ (t'.proc j).state = .runnable)) ∧
    ((t'.proc j).state = .sleeping → (t.proc j).state = .sleeping ∧ (t.proc j).chan ≠ .proc p ∧
      ((t.proc j).chan = .proc ι → ∀ q, (t.proc q).parent = some cur → (t.proc q).state ≠ .zombie)) := by
  obtain ⟨-, -, -, slots⟩ := exit_eq h
  rw [(slots j).2.2.2, if_neg hj, hp, hι]
  split_ifs with woken
  · exact ⟨.inr ⟨woken.1, rfl⟩, fun h => absurd h (by decide)⟩
  · refine ⟨.inl rfl, fun asleep => ⟨asleep, fun chan => woken ⟨asleep, .inl chan⟩,
      fun chan q hq z => woken ⟨asleep, .inr ⟨chan, q, hq, z⟩⟩⟩⟩

theorem exit (hI : t.Inv) {cur : Fin nproc} (running : (t.proc cur).state = .running)
    (h : t.exit cur = .ok t') : t'.Inv := by
  obtain ⟨notInit, init, -, slots⟩ := exit_eq h
  obtain ⟨ι, hι, ιnone, ιlive⟩ := hI.init
  have ιcur : ι ≠ cur := fun same => notInit (same ▸ hι)
  obtain ⟨p, hp⟩ := Option.ne_none_iff_exists'.mp
    (hI.orphan cur (by simp [running]) notInit)
  have parent' (j : Fin nproc) : (t'.proc j).parent =
      if (t.proc j).parent = some cur then some ι else (t.proc j).parent := by
    rw [(slots j).2.2.1, hι]
  have moved {j} (hj : j ≠ cur) := exit_moved h hp hι hj
  -- a slot used after `exit` was used before, and a live process stays live
  have used {j} (used' : (t'.proc j).state ≠ .unused) : (t.proc j).state ≠ .unused := by
    obtain rfl | hj := eq_or_ne j cur
    · simp [running]
    · rcases (moved hj).1 with same | ⟨asleep, -⟩
      · rwa [← same]
      · simp [asleep]
  have live {j} (hj : j ≠ cur) (live : (t.proc j).state.Live) : (t'.proc j).state.Live := by
    rcases (moved hj).1 with same | ⟨-, woken⟩
    · rwa [same]
    · rw [woken]
      exact .inl rfl
  have used' {j} (used : (t.proc j).state ≠ .unused) : (t'.proc j).state ≠ .unused := by
    obtain rfl | hj := eq_or_ne j cur
    · simp [(slots j).2.2.2]
    · rcases (moved hj).1 with same | ⟨-, woken⟩
      · rwa [same]
      · simp [woken]
  refine ⟨⟨ι, init.trans hι, by simp [parent', ιnone], live ιcur ιlive⟩, ?_, ?_, ?_⟩
  · intro q r hq
    rw [parent'] at hq
    split_ifs at hq with toCur
    · -- a child of the caller, now `initproc`'s
      cases hq
      refine ⟨fun same => ?_, used' (hI.parent q cur toCur).2.1, live ιcur ιlive⟩
      rw [← same, ιnone] at toCur
      cases toCur
    · obtain ⟨ne, usedq, liver⟩ := hI.parent q r hq
      have hr : r ≠ cur := fun same => toCur (same ▸ hq)
      exact ⟨ne, used' usedq, live hr liver⟩
  · intro q usedq notInit'
    rw [parent']
    split_ifs
    · exact Option.some_ne_none ι
    · exact hI.orphan q (used usedq) (init ▸ notInit')
  · intro q r asleep chan
    have hq : q ≠ cur := fun same => by simp [same, (slots cur).2.2.2] at asleep
    obtain ⟨asleep₀, notParent, notInitChan⟩ := (moved hq).2 asleep
    rw [(slots q).2.1] at chan
    obtain ⟨rfl, zombies⟩ := hI.waiting q r asleep₀ chan
    refine ⟨rfl, fun c hc z => ?_⟩
    rw [parent'] at hc
    split_ifs at hc with toCur
    · -- `c` was the caller's: `q` is `initproc`, and was woken if `c` is a `ZOMBIE`
      cases hc
      obtain rfl | hc' := eq_or_ne c cur
      · exact (hI.parent c c toCur).1 rfl
      · rcases (moved hc').1 with same | ⟨-, woken⟩
        · exact notInitChan chan c toCur (same ▸ z)
        · simp [woken] at z
    · obtain rfl | hc' := eq_or_ne c cur
      · -- `c` is the caller and `q` its parent, which `exit` woke
        rw [hp] at hc
        cases hc
        exact notParent chan
      · rcases (moved hc').1 with same | ⟨-, woken⟩
        · exact zombies c hc (same ▸ z)
        · simp [woken] at z

theorem wait (hI : t.Inv) {cur : Fin nproc} {res : Option Int32}
    (running : (t.proc cur).state = .running) (h : t.wait cur = (res, t')) : t'.Inv := by
  rcases wait_eq h with ⟨q, found, -, rfl⟩ | ⟨-, -, rfl⟩ | ⟨none, -, rfl⟩
  · -- the reaped `ZOMBIE` is nobody's parent and not `initproc`
    obtain ⟨-, zombie⟩ := zombieChild_spec found
    have dead : ¬(t.proc q).state.Live := fun live => live.ne_zombie zombie
    exact hI.free rfl (fun j ne => by simp [ne]) (hI.childless dead)
      (fun same => dead (hI.init_live same)) (by simp) (by simp)
  · exact hI
  · -- asleep on its own slot, with no `ZOMBIE` child
    set p : Proc := { t.proc cur with chan := .proc cur, state := .sleeping } with hp
    have sleeper : (t.set cur p).proc cur = p := by simp
    have others (j : Fin nproc) (hj : j ≠ cur) : (t.set cur p).proc j = t.proc j := by simp [hj]
    have stateOf (c : Fin nproc) (z : ((t.set cur p).proc c).state = .zombie) :
        (t.proc c).state = .zombie := by
      obtain rfl | hc := eq_or_ne c cur
      · simp [hp] at z
      · rwa [others c hc] at z
    have parentOf (c : Fin nproc) : ((t.set cur p).proc c).parent = (t.proc c).parent := by
      obtain rfl | hc := eq_or_ne c cur
      · simp [hp]
      · rw [others c hc]
    have liveOf (c : Fin nproc) (live : (t.proc c).state.Live) : ((t.set cur p).proc c).state.Live := by
      obtain rfl | hc := eq_or_ne c cur
      · simp [hp, ProcState.Live]
      · rwa [others c hc]
    obtain ⟨ι, hι, ιnone, ιlive⟩ := hI.init
    refine ⟨⟨ι, hι, (parentOf ι).trans ιnone, liveOf ι ιlive⟩, ?_, ?_, ?_⟩
    · intro q r hq
      rw [parentOf] at hq
      obtain ⟨ne, used, liver⟩ := hI.parent q r hq
      refine ⟨ne, ?_, liveOf r liver⟩
      obtain rfl | hj := eq_or_ne q cur
      · simp [hp]
      · rwa [others q hj]
    · intro q used notInit
      rw [parentOf]
      obtain rfl | hj := eq_or_ne q cur
      · exact hI.orphan q (by simp [running]) notInit
      · rw [others q hj] at used
        exact hI.orphan q used notInit
    · intro q r asleep chan
      obtain rfl | hj := eq_or_ne q cur
      · rw [sleeper] at chan
        cases chan
        exact ⟨rfl, fun c hc z => zombieChild_eq_none none c ((parentOf c).symm.trans hc) (stateOf c z)⟩
      · rw [others q hj] at asleep chan
        obtain ⟨rfl, zombies⟩ := hI.waiting q r asleep chan
        exact ⟨rfl, fun c hc z => zombies c ((parentOf c).symm.trans hc) (stateOf c z)⟩

/-- Every step keeps the invariant. -/
theorem step (hI : t.Inv) (h : Step t t') : t'.Inv := by
  cases h with
  | scheduler i runnable =>
    exact hI.shuffle (shuffle_set rfl rfl (.inr ⟨.inl runnable, .inr (.inl rfl), by simp⟩))
  | yield i running =>
    exact hI.shuffle (shuffle_set rfl rfl (.inr ⟨.inr (.inl running), .inl rfl, by simp⟩))
  | sleep i a running =>
    exact hI.shuffle (shuffle_set rfl rfl (.inr ⟨.inr (.inl running), .inr (.inr rfl), by simp⟩))
  | wakeup chan => exact hI.shuffle (shuffle_wakeup1 t chan)
  | fork cur kstack pgdir r running call => exact hI.fork running call
  | exit cur running call => exact hI.exit running call
  | wait cur r running call => exact hI.wait running call
  | kill cur pid r running call =>
    rw [show t' = (t.kill pid).2 by rw [call]]
    exact hI.shuffle (shuffle_kill t pid)

end Procs.Inv

/-- `userinit` on the zeroed table makes `initproc` the one used slot, with no parent. -/
theorem boot_inv {fs : Fs} {t : Procs} {kstack pgdir : UInt32}
    (h : (Procs.boot fs).userinit kstack pgdir = .ok t) : t.Inv := by
  obtain ⟨i, -, init, -, other, runnable, parent, -⟩ := userinit_eq h
  have zero (j : Fin nproc) (hj : j ≠ i) : t.proc j = Proc.zero := other j hj
  refine ⟨⟨i, init, parent, by simp [runnable, ProcState.Live]⟩, ?_, ?_, ?_⟩
  · intro q r hq
    obtain rfl | hj := eq_or_ne q i
    · rw [parent] at hq
      cases hq
    · rw [zero q hj] at hq
      cases hq
  · intro q used notInit
    obtain rfl | hj := eq_or_ne q i
    · exact absurd init notInit
    · exact absurd (by rw [zero q hj]; rfl) used
  · intro q r asleep _
    obtain rfl | hj := eq_or_ne q i
    · rw [runnable] at asleep
      cases asleep
    · rw [zero q hj] at asleep
      cases asleep

theorem Reachable.inv {t : Procs} (h : Reachable t) : t.Inv := by
  induction h with
  | boot kstack pgdir init => exact boot_inv init
  | step _ step ih => exact ih.step step

/-! ## Pids -/

/-- A step after which `nextpid` is still positive: along a run of these steps `nextpid` has
not wrapped, since it starts at `1` and moves by one. -/
def Unwrapped (t t' : Procs) : Prop := Step t t' ∧ 0 < t'.nextpid.toInt

/-- A step gives out at most one pid: `nextpid` as it was, or moved on by one. -/
theorem Step.nextpid_or {t t' : Procs} (h : Step t t') :
    t'.nextpid = t.nextpid ∨ t'.nextpid = t.nextpid + 1 := by
  cases h with
  | fork cur kstack pgdir r running call =>
    obtain ⟨-, ⟨-, next⟩ | ⟨np, -, next, -⟩⟩ := fork_eq call
    · exact .inl next
    · exact .inr next
  | exit cur running call => exact .inl (exit_eq call).2.2.1
  | wait cur r running call =>
    rcases wait_eq call with ⟨q, -, -, rfl⟩ | ⟨-, -, rfl⟩ | ⟨-, -, rfl⟩ <;> exact .inl rfl
  | kill cur pid r running call =>
    rw [show t' = (t.kill pid).2 by rw [call]]
    exact .inl (shuffle_kill t pid).nextpid
  | scheduler | yield | sleep | wakeup => exact .inl rfl

/-- A positive counter below `2^31 - 1` moved by one does not wrap. -/
theorem toInt_add_one_of_lt {a : Int32} (pos : 0 < a.toInt) (room : a.toInt + 1 < 2 ^ 31) :
    (a + 1).toInt = a.toInt + 1 := by
  rw [Int32.toInt_add]
  simp only [Int32.toInt_one, Int.bmod_def]
  split_ifs <;> omega

/-- Calls from a table with `nextpid` positive, fewer than it lacks of `2^31`, are a run that
does not wrap `nextpid`. -/
theorem Procs.calls_unwrapped {cs : List Call} : ∀ {t t' : Procs}, t.calls cs = some t' →
    0 < t.nextpid.toInt → t.nextpid.toInt + cs.length < 2 ^ 31 →
    Relation.ReflTransGen Unwrapped t t' := by
  induction cs with
  | nil =>
    intro t t' h _ _
    cases h
    exact .refl
  | cons c cs ih =>
    intro t t' h pos room
    obtain ⟨t₁, called, rest⟩ := Option.bind_eq_some_iff.mp h
    have step := call_step called
    simp only [List.length_cons] at room
    have next : t₁.nextpid.toInt = t.nextpid.toInt ∨ t₁.nextpid.toInt = t.nextpid.toInt + 1 := by
      rcases step.nextpid_or with same | succ
      · exact .inl (by rw [same])
      · exact .inr (by rw [succ]; exact toInt_add_one_of_lt pos (by omega))
    have pos₁ : 0 < t₁.nextpid.toInt := by omega
    exact .head ⟨step, pos₁⟩ (ih rest pos₁ (by omega))

/-- The pids: `nextpid` is positive, a nonzero pid is positive and below it, no two slots
share a nonzero pid, and a used slot's pid is not `0`. -/
structure Procs.PidInv (t : Procs) : Prop where
  next : 0 < t.nextpid.toInt
  below : ∀ i, (t.proc i).pid ≠ 0 → 0 < (t.proc i).pid.toInt ∧ (t.proc i).pid.toInt < t.nextpid.toInt
  unique : ∀ i j, (t.proc i).pid ≠ 0 → (t.proc i).pid = (t.proc j).pid → i = j
  used : ∀ i, (t.proc i).state ≠ .unused → (t.proc i).pid ≠ 0

/-- A positive counter moved by one that is still positive has not wrapped. -/
theorem toInt_add_one {a : Int32} (pos : 0 < a.toInt) (pos' : 0 < (a + 1).toInt) :
    (a + 1).toInt = a.toInt + 1 := by
  rw [Int32.toInt_add] at *
  have := Int32.toInt_lt a
  simp only [Int32.toInt_one, Int.bmod_def] at *
  split_ifs at * <;> omega

namespace Procs.PidInv

variable {t t' : Procs}

/-- A step that gives out no pid: `nextpid` as it was, and each slot keeps its pid and was
used if it is, or has pid `0` and is `UNUSED`. -/
theorem keep (hP : t.PidInv) (next : t'.nextpid = t.nextpid)
    (slots : ∀ j, ((t'.proc j).pid = (t.proc j).pid ∧
      ((t'.proc j).state ≠ .unused → (t.proc j).state ≠ .unused)) ∨
      ((t'.proc j).pid = 0 ∧ (t'.proc j).state = .unused)) : t'.PidInv where
  next := next ▸ hP.next
  below i nz := by
    rcases slots i with ⟨same, -⟩ | ⟨zero, -⟩
    · rw [same] at nz ⊢
      rw [next]
      exact hP.below i nz
    · exact absurd zero nz
  unique i j nz same := by
    rcases slots i with ⟨si, -⟩ | ⟨zero, -⟩
    · rcases slots j with ⟨sj, -⟩ | ⟨zero', -⟩
      · rw [si, sj] at same
        rw [si] at nz
        exact hP.unique i j nz same
      · exact absurd (same.trans zero') nz
    · exact absurd zero nz
  used i u := by
    rcases slots i with ⟨same, back⟩ | ⟨-, unused⟩
    · rw [same]
      exact hP.used i (back u)
    · exact absurd unused u

theorem shuffle (hP : t.PidInv) (h : Shuffle t t') : t'.PidInv :=
  hP.keep h.nextpid fun j => .inl ⟨h.pid j, h.used_iff.mp⟩

/-- A step that gives slot `np` the pid `nextpid` and moves `nextpid` on, without wrapping. -/
theorem alloc (hP : t.PidInv) {np : Fin nproc} (next : t'.nextpid = t.nextpid + 1)
    (pos : 0 < t'.nextpid.toInt) (other : ∀ j, j ≠ np → t'.proc j = t.proc j)
    (pid : (t'.proc np).pid = t.nextpid) : t'.PidInv := by
  have succ : t'.nextpid.toInt = t.nextpid.toInt + 1 := by
    rw [next] at pos ⊢
    exact toInt_add_one hP.next pos
  have fresh : t.nextpid ≠ 0 := fun zero => by simpa [zero] using hP.next
  -- every pid given out before is below the one given now
  have older {j} (hj : j ≠ np) (nz : (t'.proc j).pid ≠ 0) : (t'.proc j).pid ≠ t.nextpid := by
    rw [other j hj] at nz ⊢
    intro same
    have := (hP.below j nz).2
    rw [same] at this
    exact lt_irrefl _ this
  refine ⟨pos, fun i nz => ?_, fun i j nz same => ?_, fun i u => ?_⟩
  · obtain rfl | hi := eq_or_ne i np
    · rw [pid, succ]
      exact ⟨hP.next, Int.lt_succ _⟩
    · rw [other i hi] at nz ⊢
      obtain ⟨lo, hi'⟩ := hP.below i nz
      exact ⟨lo, by omega⟩
  · obtain rfl | hi := eq_or_ne i np
    · by_contra hj
      exact older (Ne.symm hj) (same ▸ nz) (same.symm.trans pid)
    · obtain rfl | hj := eq_or_ne j np
      · exact absurd (same.trans pid) (older hi nz)
      · rw [other i hi, other j hj] at same
        rw [other i hi] at nz
        exact hP.unique i j nz same
  · obtain rfl | hi := eq_or_ne i np
    · rw [pid]
      exact fresh
    · rw [other i hi] at u ⊢
      exact hP.used i u

/-- Every step after which `nextpid` is still positive keeps the pid invariant. -/
theorem step (hP : t.PidInv) (h : Step t t') (pos : 0 < t'.nextpid.toInt) : t'.PidInv := by
  cases h with
  | scheduler i runnable =>
    exact hP.shuffle (shuffle_set rfl rfl (.inr ⟨.inl runnable, .inr (.inl rfl), by simp⟩))
  | yield i running =>
    exact hP.shuffle (shuffle_set rfl rfl (.inr ⟨.inr (.inl running), .inl rfl, by simp⟩))
  | sleep i a running =>
    exact hP.shuffle (shuffle_set rfl rfl (.inr ⟨.inr (.inl running), .inr (.inr rfl), by simp⟩))
  | wakeup chan => exact hP.shuffle (shuffle_wakeup1 t chan)
  | fork cur kstack pgdir r running call =>
    obtain ⟨-, ⟨same, next⟩ | ⟨np, -, next, other, pid, -⟩⟩ := fork_eq call
    · exact hP.keep next fun j => .inl ⟨by rw [same], by rw [same]; exact id⟩
    · exact hP.alloc next pos other pid
  | exit cur running call =>
    obtain ⟨-, -, next, slots⟩ := exit_eq call
    refine hP.keep next fun j => .inl ⟨(slots j).1, fun u => ?_⟩
    obtain rfl | hj := eq_or_ne j cur
    · simp [running]
    · rw [(slots j).2.2.2, if_neg hj] at u
      split_ifs at u with woken
      · simp [woken.1]
      · exact u
  | wait cur r running call =>
    rcases wait_eq call with ⟨q, -, -, rfl⟩ | ⟨-, -, rfl⟩ | ⟨-, -, rfl⟩
    · refine hP.keep rfl fun j => ?_
      obtain rfl | hj := eq_or_ne j q
      · exact .inr ⟨by simp, by simp⟩
      · exact .inl ⟨by simp [hj], by simp [hj]⟩
    · exact hP
    · refine hP.keep rfl fun j => .inl ?_
      obtain rfl | hj := eq_or_ne j cur
      · exact ⟨by simp, fun _ => by simp [running]⟩
      · exact ⟨by simp [hj], by simp [hj]⟩
  | kill cur pid r running call =>
    rw [show t' = (t.kill pid).2 by rw [call]]
    exact hP.shuffle (shuffle_kill t pid)

/-- `userinit` on the zeroed table gives `initproc` pid `1`, every other slot pid `0`. -/
theorem boot {fs : Fs} {kstack pgdir : UInt32} (h : (Procs.boot fs).userinit kstack pgdir = .ok t) :
    t.PidInv := by
  obtain ⟨i, -, -, next, other, -, -, pid⟩ := userinit_eq h
  have zero (j : Fin nproc) (hj : j ≠ i) : t.proc j = Proc.zero := other j hj
  have one : (Procs.boot fs).nextpid = 1 := rfl
  rw [one] at next pid
  refine ⟨by rw [next]; decide, fun j nz => ?_, fun j k nz same => ?_, fun j u => ?_⟩
  · obtain rfl | hj := eq_or_ne j i
    · rw [pid, next]
      decide
    · exact absurd (by rw [zero j hj]; rfl) nz
  · obtain rfl | hj := eq_or_ne j i
    · obtain rfl | hk := eq_or_ne k j
      · rfl
      · rw [zero k hk, pid] at same
        cases same
    · exact absurd (by rw [zero j hj]; rfl) nz
  · obtain rfl | hj := eq_or_ne j i
    · rw [pid]
      decide
    · exact absurd (by rw [zero j hj]; rfl) u

theorem run {t₀ : Procs} (h₀ : t₀.PidInv) (run : Relation.ReflTransGen Unwrapped t₀ t) : t.PidInv := by
  induction run with
  | refl => exact h₀
  | tail _ step ih => exact ih.step step.1 step.2

end Procs.PidInv

/-! ## Two runs from boot -/

/-- The run of `ptable_wait_no_lost_wakeup_fork`, checked: init runs and forks a child into
slot `1`, and its `wait` finds no `ZOMBIE` child and sleeps on slot `0`. -/
def waitSleepCheck : Except Fault Procs → Bool
  | .error _ => false
  | .ok t₀ =>
    (t₀.proc 0).state == .runnable &&
      match (runInit t₀).fork 0 0x803FD000 0x803FC000 with
      | .ok (_, t₂) =>
        (t₂.proc 0).state == .running && (t₂.wait 0).1 == none &&
          ((t₂.wait 0).2.proc 0).state == .sleeping && ((t₂.wait 0).2.proc 0).chan == .proc 0
      | .error _ => false

end Ptable

open Ptable

/-- **The process tree.**  In every table the kernel reaches from `userinit`, `initproc` is a
process without a parent that is neither `UNUSED` nor a `ZOMBIE`; every parent link goes from
a used slot to another slot whose process is neither `UNUSED` nor a `ZOMBIE`, so a `ZOMBIE`
has no children and an `UNUSED` slot is nobody's child; and every used slot but `initproc`
has a parent. -/
theorem ptable_parents_live {t : Procs} (ht : Reachable t) :
    (∃ ι, t.initproc = some ι ∧ (t.proc ι).parent = none ∧ (t.proc ι).state ≠ .unused ∧
      (t.proc ι).state ≠ .zombie) ∧
    (∀ q r, (t.proc q).parent = some r → r ≠ q ∧ (t.proc q).state ≠ .unused ∧
      (t.proc r).state ≠ .unused ∧ (t.proc r).state ≠ .zombie) ∧
    (∀ q, (t.proc q).state ≠ .unused → t.initproc ≠ some q → ∃ r, (t.proc q).parent = some r) := by
  have hI := ht.inv
  obtain ⟨ι, hι, none, live⟩ := hI.init
  refine ⟨⟨ι, hι, none, live.ne_unused, live.ne_zombie⟩, fun q r hq => ?_, fun q used notInit => ?_⟩
  · obtain ⟨ne, used, liver⟩ := hI.parent q r hq
    exact ⟨ne, used, liver.ne_unused, liver.ne_zombie⟩
  · exact Option.ne_none_iff_exists'.mp (hI.orphan q used notInit)

/-- Init forks a child, the child forks a grandchild and exits: the child is a `ZOMBIE` and
the grandchild has passed to init. -/
theorem ptable_parents_live_reparented :
    ∃ t : Procs, Reachable t ∧ (t.proc 1).state = .zombie ∧ (t.proc 2).parent = some 0 ∧
      ((∃ ι, t.initproc = some ι ∧ (t.proc ι).parent = none ∧ (t.proc ι).state ≠ .unused ∧
        (t.proc ι).state ≠ .zombie) ∧
      (∀ q r, (t.proc q).parent = some r → r ≠ q ∧ (t.proc q).state ≠ .unused ∧
        (t.proc r).state ≠ .unused ∧ (t.proc r).state ≠ .zombie) ∧
      (∀ q, (t.proc q).state ≠ .unused → t.initproc ≠ some q → ∃ r, (t.proc q).parent = some r)) := by
  have ran : (replay emptyFs 0x803FF000 0x803FE000 [.scheduler 0, .fork 0 0x803FD000 0x803FC000,
      .scheduler 1, .fork 1 0x803FB000 0x803FA000, .exit 1]).any (fun t =>
        (t.proc 1).state = .zombie && (t.proc 2).parent = some 0) = true := by
    decide +kernel
  obtain ⟨t, ran, facts⟩ := (Option.any_eq_true _ _).mp ran
  simp only [Bool.and_eq_true, decide_eq_true_eq] at facts
  exact ⟨t, .replay ran, facts.1, facts.2, ptable_parents_live (.replay ran)⟩

/-- **No lost wakeup in `wait`.**  In every table the kernel reaches from `userinit`, a
process asleep on a process's slot is asleep on its own, in `wait`, and none of its children
is a `ZOMBIE`: a child that exits wakes it, and so does a `ZOMBIE` passed to it by an
`exit`. -/
theorem ptable_wait_no_lost_wakeup {t : Procs} (ht : Reachable t) {q r : Fin nproc}
    (asleep : (t.proc q).state = .sleeping) (chan : (t.proc q).chan = .proc r) :
    r = q ∧ ∀ c, (t.proc c).parent = some q → (t.proc c).state ≠ .zombie :=
  ht.inv.waiting q r asleep chan

/-- Init forks a child and waits: asleep on its own slot, with no `ZOMBIE` child. -/
theorem ptable_wait_no_lost_wakeup_fork :
    ∃ t : Procs, Reachable t ∧ (t.proc 0).state = .sleeping ∧ (t.proc 0).chan = .proc 0 ∧
      ∀ c, (t.proc c).parent = some 0 → (t.proc c).state ≠ .zombie := by
  have run : waitSleepCheck ((Procs.boot emptyFs).userinit 0x803FF000 0x803FE000) = true := by
    decide
  cases init : (Procs.boot emptyFs).userinit 0x803FF000 0x803FE000 with
  | error e =>
    rw [init] at run
    cases run
  | ok t₀ =>
    rw [init] at run
    simp only [waitSleepCheck, Bool.and_eq_true, beq_iff_eq] at run
    obtain ⟨runnable, forked⟩ := run
    cases call : (runInit t₀).fork 0 0x803FD000 0x803FC000 with
    | error e =>
      rw [call] at forked
      cases forked
    | ok res =>
      obtain ⟨pid, t₂⟩ := res
      rw [call] at forked
      simp only [Bool.and_eq_true, beq_iff_eq] at forked
      obtain ⟨⟨⟨running, slept⟩, asleep⟩, chan⟩ := forked
      have booted : Reachable (runInit t₀) := .step (.boot _ _ init) (.scheduler 0 runnable)
      have forking : Reachable t₂ := .step booted (.fork 0 _ _ _ (by simp [runInit]) call)
      have waiting : Reachable (t₂.wait 0).2 := .step forking (.wait 0 _ running rfl)
      exact ⟨_, waiting, asleep, chan, (ptable_wait_no_lost_wakeup waiting asleep chan).2⟩

/-- **Pids name processes.**  Along every run from `userinit` in which `nextpid` stays
positive, that is, has not wrapped: every used slot's pid is positive and below `nextpid`, no
two slots share a nonzero pid, and so `kill` of a used slot's pid marks that slot killed and
changes no other. -/
theorem ptable_pids_unique {fs : Fs} {kstack pgdir : UInt32} {t₀ t : Procs}
    (boot : (Procs.boot fs).userinit kstack pgdir = .ok t₀)
    (run : Relation.ReflTransGen Unwrapped t₀ t) :
    (∀ i, (t.proc i).state ≠ .unused →
      0 < (t.proc i).pid.toInt ∧ (t.proc i).pid.toInt < t.nextpid.toInt) ∧
    (∀ i j, (t.proc i).pid ≠ 0 → (t.proc i).pid = (t.proc j).pid → i = j) ∧
    (∀ i, (t.proc i).state ≠ .unused → ((t.kill (t.proc i).pid).2.proc i).killed = true ∧
      ∀ j, j ≠ i → (t.kill (t.proc i).pid).2.proc j = t.proc j) := by
  have hP := (Procs.PidInv.boot boot).run run
  refine ⟨fun i used => hP.below i (hP.used i used), hP.unique, fun i used => ?_⟩
  -- the first slot with the pid is the only one
  obtain ⟨i', found⟩ := Option.ne_none_iff_exists'.mp
    (fun none => (Procs.withPid_eq_none_iff t _).mp none i rfl)
  have same : i' = i := hP.unique i' i (by rw [Procs.withPid_pid found]; exact hP.used i used)
    (Procs.withPid_pid found)
  subst same
  obtain ⟨killed, others, -, -⟩ := (Procs.kill_spec t _).2 i' found
  exact ⟨killed, others⟩

/-- Init forks a child, which exits and is reaped; init forks twice more, and slot `1` is used
again with pid `3`, slot `2` with pid `4`. -/
theorem ptable_pids_unique_reused :
    ∃ t₀ t : Procs, (Procs.boot emptyFs).userinit 0x803FF000 0x803FE000 = .ok t₀ ∧
      Relation.ReflTransGen Unwrapped t₀ t ∧ (t.proc 1).pid = 3 ∧ (t.proc 2).pid = 4 ∧
      ((∀ i, (t.proc i).state ≠ .unused →
        0 < (t.proc i).pid.toInt ∧ (t.proc i).pid.toInt < t.nextpid.toInt) ∧
      (∀ i j, (t.proc i).pid ≠ 0 → (t.proc i).pid = (t.proc j).pid → i = j) ∧
      (∀ i, (t.proc i).state ≠ .unused → ((t.kill (t.proc i).pid).2.proc i).killed = true ∧
        ∀ j, j ≠ i → (t.kill (t.proc i).pid).2.proc j = t.proc j)) := by
  have ran : (replay emptyFs 0x803FF000 0x803FE000 [.scheduler 0, .fork 0 0x803FD000 0x803FC000,
      .scheduler 1, .exit 1, .wait 0, .fork 0 0x803FB000 0x803FA000,
      .fork 0 0x803F9000 0x803F8000]).any (fun t =>
        (t.proc 1).pid = 3 && (t.proc 2).pid = 4) = true := by
    decide +kernel
  obtain ⟨t, ran, facts⟩ := (Option.any_eq_true _ _).mp ran
  simp only [Bool.and_eq_true, decide_eq_true_eq] at facts
  obtain ⟨t₀, init, called⟩ := replay_eq_some.mp ran
  have next : t₀.nextpid = 2 := by
    obtain ⟨-, -, -, next, -⟩ := Procs.userinit_eq init
    exact next
  have run := Procs.calls_unwrapped called (by rw [next]; decide) (by rw [next]; decide)
  exact ⟨t₀, t, init, run, facts.1, facts.2, ptable_pids_unique init run⟩
end Xv6
