import Xv6.Bio.Cache

/-!
# The IDE driver and the memory disk

`ide.c` serves `iderw(b)` through a queue: the request is appended to `idequeue`, the disk
is started on it when it is the head, and the caller sleeps until `ideintr`, on the disk's
interrupt, has finished the head, woken its owner and started the next.  `memide.c`'s
`iderw` does the same work at once on a disk in memory.  Between requests `bio.c` may change
any buffer no process waits for.

`Ide` is the driver with the controller: the command `idestart` issued, carried out on the
disk when its interrupt arrives, and each process's place in `iderw`.  Two history fields,
read by no step, record the requests in the order they arrived and were finished.

* `Inv.step`: the queue is the requests not yet finished, in arrival order and without
  repeats, the controller works on its head, and every waiting process holds its buffer;
* `intr_refines`: finishing the head changes its buffer and disk 1 exactly as `memide.c`'s
  `iderw` of that buffer, and nothing else;
* `ide_refines_memide`: both hold in every run whose buffers are for device 1, and no request
  or interrupt panics;
* `ide_serves_disk0`: a request for device 0 is served from drive 0, where `memide.c` panics.
-/

namespace Xv6

namespace Ide

/-- What `idestart` asked of the controller: the drive (`b->dev & 1`), the block, and for a
write (`B_DIRTY`) the data `outsl` sent. -/
structure Cmd where
  drive : Nat
  blockno : Nat
  write : Option Block

/-- The command `idestart(b)` issues for the buffer `x`. -/
def cmdOf {Pid : Type} (x : Buf Pid) : Cmd :=
  ⟨x.dev % 2, x.blockno, if x.dirty then some x.data else none⟩

/-- The controller carries out `c` on the disks: a write reaches its block, and a read finds
what the block holds. -/
def Cmd.run (c : Cmd) (disk : Nat → Nat → Block) : (Nat → Nat → Block) × Block :=
  match c.write with
  | some d => (Function.update disk c.drive (Function.update (disk c.drive) c.blockno d), d)
  | none => (disk, disk c.drive c.blockno)

/-- Where a process is in `iderw`: not in it, or waiting for its buffer `b`. -/
inductive Phase where
  | idle
  | waiting (b : Fin nbuf)
  deriving DecidableEq

end Ide

/-- The driver: the buffers, `idequeue` through the `qnext` fields, both drives, the
controller's command, `havedisk1`, each process's phase, and the history fields. -/
structure Ide (Pid : Type) where
  buf : Fin nbuf → Buf Pid
  queue : List (Fin nbuf)
  disk : Nat → Nat → Block
  cmd : Option Ide.Cmd
  havedisk1 : Bool
  proc : Pid → Ide.Phase
  arrived : List (Fin nbuf)
  done : List (Fin nbuf)

namespace Ide

variable {Pid : Type}

/-- `idestart(b)`. -/
def idestart (s : Ide Pid) (b : Fin nbuf) : Except Fault (Ide Pid) :=
  if fsSize ≤ (s.buf b).blockno then .error (.panic "incorrect blockno")
  else .ok { s with cmd := some (cmdOf (s.buf b)) }

/-- The buffer `ideintr` finishes: `insl`'s `data` for a read, then `b->flags |= B_VALID;
b->flags &= ~B_DIRTY;`. -/
def finish (x : Buf Pid) (data : Block) : Buf Pid :=
  let x := if x.dirty then x else { x with data }
  { x with valid := true, dirty := false }

/-- `ideintr()`, `data` being what the controller read: the head is finished, its owner
woken, and the disk started on the next. -/
def ideintr (s : Ide Pid) (data : Block) : Except Fault (Ide Pid) :=
  match s.queue with
  | [] => .ok s
  | b :: rest =>
    let s := { s with
      queue := rest, done := s.done ++ [b], buf := Function.update s.buf b (finish (s.buf b) data) }
    match rest with
    | [] => .ok s
    | b' :: _ => s.idestart b'

/-- The interrupt of the finished command `c`. -/
def intr (s : Ide Pid) (c : Cmd) : Except Fault (Ide Pid) :=
  ideintr { s with disk := (c.run s.disk).1, cmd := none } (c.run s.disk).2

/-! ## What one step does -/

/-- A request the driver holds for `p`: the buffer locked by `p`, and not `B_VALID` alone. -/
structure Request (x : Buf Pid) (p : Pid) : Prop where
  locked : x.locked = true
  owner : x.pid = some p
  pending : ¬(x.valid = true ∧ x.dirty = false)

@[simp] theorem finish_locked (x : Buf Pid) (data : Block) : (finish x data).locked = x.locked := by
  by_cases dirty : x.dirty <;> simp [finish, dirty]

@[simp] theorem finish_pid (x : Buf Pid) (data : Block) : (finish x data).pid = x.pid := by
  by_cases dirty : x.dirty <;> simp [finish, dirty]

@[simp] theorem finish_dev (x : Buf Pid) (data : Block) : (finish x data).dev = x.dev := by
  by_cases dirty : x.dirty <;> simp [finish, dirty]

@[simp] theorem finish_blockno (x : Buf Pid) (data : Block) :
    (finish x data).blockno = x.blockno := by
  by_cases dirty : x.dirty <;> simp [finish, dirty]

@[simp] theorem finish_valid (x : Buf Pid) (data : Block) : (finish x data).valid = true := by
  by_cases dirty : x.dirty <;> simp [finish, dirty]

@[simp] theorem finish_dirty (x : Buf Pid) (data : Block) : (finish x data).dirty = false := by
  by_cases dirty : x.dirty <;> simp [finish, dirty]

/-- The interrupt finishes the head, and starts the disk on the next. -/
theorem intr_eq_ok {s s' : Ide Pid} {c : Cmd} {b : Fin nbuf} {rest : List (Fin nbuf)}
    (queue : s.queue = b :: rest) (h : s.intr c = .ok s') :
    s'.queue = rest ∧ s'.done = s.done ++ [b] ∧ s'.arrived = s.arrived ∧ s'.proc = s.proc ∧
      s'.havedisk1 = s.havedisk1 ∧ s'.disk = (c.run s.disk).1 ∧
      s'.buf = Function.update s.buf b (finish (s.buf b) (c.run s.disk).2) ∧
      s'.cmd = rest.head?.map fun b' => cmdOf (s'.buf b') := by
  unfold intr ideintr at h
  dsimp only at h
  simp only [queue] at h
  cases rest with
  | nil =>
    obtain rfl := Except.ok.inj h
    exact ⟨rfl, rfl, rfl, rfl, rfl, rfl, rfl, rfl⟩
  | cons b' rest =>
    simp only [idestart] at h
    split_ifs at h with big
    obtain rfl := Except.ok.inj h
    exact ⟨rfl, rfl, rfl, rfl, rfl, rfl, rfl, rfl⟩

/-- The command the controller runs for a request of device 1 reaches disk 1 only, and reads
what `memide.c` would. -/
theorem run_cmdOf {x : Buf Pid} (dev : x.dev = 1) (disk : Nat → Nat → Block) :
    (cmdOf x).run disk =
      (Function.update disk 1 (if x.dirty then Function.update (disk 1) x.blockno x.data else disk 1),
        if x.dirty then x.data else disk 1 x.blockno) := by
  by_cases dirty : x.dirty
  · simp [Cmd.run, cmdOf, dirty, dev]
  · simp [Cmd.run, cmdOf, dirty, dev]

/-! ## The invariant -/

/-- What every run keeps: the requests arrived are those finished and then those queued, the
queue has no repeats and the controller works on its head; every queued buffer is the
request of a process waiting for it, and every waiting process holds its buffer, which is
queued or finished.  The last two fields are the run's own: buffers for device 1 below
`FSSIZE`, and disk 1 present. -/
structure Inv (s : Ide Pid) : Prop where
  fifo : s.arrived = s.done ++ s.queue
  nodup : s.queue.Nodup
  head : s.cmd = s.queue.head?.map fun b => cmdOf (s.buf b)
  queued : ∀ b ∈ s.queue, ∃ p, s.proc p = .waiting b ∧ Request (s.buf b) p
  waiting : ∀ p b, s.proc p = .waiting b →
    (s.buf b).locked = true ∧ (s.buf b).pid = some p ∧
      (b ∈ s.queue ∨ (s.buf b).valid = true ∧ (s.buf b).dirty = false)
  disk1 : ∀ b, (s.buf b).dev = 1 ∧ (s.buf b).blockno < fsSize
  present : s.havedisk1 = true

/-- The command is the head's, so a busy controller means a queued request. -/
theorem Inv.busy {s : Ide Pid} (inv : s.Inv) {c : Cmd} (busy : s.cmd = some c) :
    ∃ b rest, s.queue = b :: rest ∧ c = cmdOf (s.buf b) := by
  have head := inv.head
  rw [busy] at head
  cases hq : s.queue with
  | nil => rw [hq] at head; cases head
  | cons b rest =>
    rw [hq] at head
    exact ⟨b, rest, rfl, Option.some.inj head⟩

theorem Inv.intr {s s' : Ide Pid} (inv : s.Inv) {c : Cmd} (busy : s.cmd = some c)
    (h : s.intr c = .ok s') : s'.Inv := by
  obtain ⟨b, rest, hq, -⟩ := inv.busy busy
  obtain ⟨queue, done, arrived, proc, present, -, buf, cmd⟩ := intr_eq_ok hq h
  have nodup := inv.nodup
  rw [hq, List.nodup_cons] at nodup
  have kept : ∀ b', b' ≠ b → s'.buf b' = s.buf b' := fun b' ne => by
    rw [buf, Function.update_of_ne ne]
  constructor
  · rw [arrived, done, queue, inv.fifo, hq, List.append_assoc, List.singleton_append]
  · rw [queue]; exact nodup.2
  · rw [queue]; exact cmd
  · intro b' mem
    rw [queue] at mem
    have ne : b' ≠ b := fun same => nodup.1 (same ▸ mem)
    obtain ⟨q, waiting, owned⟩ := inv.queued b' (by rw [hq]; exact List.mem_cons_of_mem b mem)
    exact ⟨q, by rwa [proc], by rwa [kept b' ne]⟩
  · intro q b' waiting
    rw [proc] at waiting
    obtain ⟨locked, owner, place⟩ := inv.waiting q b' waiting
    by_cases same : b' = b
    · subst same
      simp [buf, locked, owner]
    · rw [kept b' same, queue]
      rw [hq, List.mem_cons] at place
      exact ⟨locked, owner, place.imp_left (·.resolve_left same)⟩
  · intro b'
    by_cases same : b' = b
    · subst same; simpa [buf] using inv.disk1 b'
    · rw [kept b' same]; exact inv.disk1 b'
  · rw [present]; exact inv.present

/-- The interrupt of a busy controller goes through. -/
theorem intr_ok {s : Ide Pid} (inv : s.Inv) {c : Cmd} (busy : s.cmd = some c) :
    ∃ s', s.intr c = .ok s' := by
  obtain ⟨b, rest, hq, -⟩ := inv.busy busy
  unfold intr ideintr
  dsimp only
  simp only [hq]
  cases rest with
  | nil => exact ⟨_, rfl⟩
  | cons b' rest =>
    have small : ¬ fsSize ≤ (Function.update s.buf b (finish (s.buf b) (c.run s.disk).2) b').blockno := by
      by_cases same : b' = b
      · subst same; simpa using (inv.disk1 b').2
      · rw [Function.update_of_ne same]; exact Nat.not_le.mpr (inv.disk1 b').2
    simp [idestart, small]

/-- An idle process's buffer is not queued: the queued one's owner waits for it. -/
theorem Inv.not_queued {s : Ide Pid} (inv : s.Inv) {p : Pid} {b : Fin nbuf}
    (idle : s.proc p = .idle) (request : Request (s.buf b) p) : b ∉ s.queue := by
  intro mem
  obtain ⟨q, waiting, owned⟩ := inv.queued b mem
  have same : q = p := Option.some.inj (owned.owner.symm.trans request.owner)
  rw [same, idle] at waiting
  cases waiting

/-! ## Requests -/

variable [DecidableEq Pid]

/-- `iderw(b)` by `p`, up to its `sleep`: the checks, `b` appended to the queue, and the disk
started when `b` is its head. -/
def iderw (s : Ide Pid) (p : Pid) (b : Fin nbuf) : Except Fault (Ide Pid) :=
  let x := s.buf b
  if !(x.locked && x.pid == some p) then .error (.panic "iderw: buf not locked")
  else if x.valid && !x.dirty then .error (.panic "iderw: nothing to do")
  else if x.dev ≠ 0 && !s.havedisk1 then .error (.panic "iderw: ide disk 1 not present")
  else
    -- `b->qnext = 0` and the walk to the end of the queue: an append
    let s := { s with queue := s.queue ++ [b], arrived := s.arrived ++ [b] }
    let started := if s.queue.head? = some b then s.idestart b else .ok s
    -- the flags are not `B_VALID` alone, so `sleep(b, &idelock)`
    started.map fun s => { s with proc := Function.update s.proc p (.waiting b) }

/-- What the driver can do next: a process starts `iderw`, the controller finishes its
command, a process whose buffer is `B_VALID` alone leaves `iderw`'s loop, or, between
requests, `bio.c` changes a buffer no process waits for (`brelse` unlocks it, `acquiresleep`
locks it for a process, a write dirties it, `bget` retags it), keeping it for device 1 below
`FSSIZE`. -/
inductive Step : Ide Pid → Ide Pid → Prop
  | iderw {s s' : Ide Pid} (p : Pid) (b : Fin nbuf) (idle : s.proc p = .idle)
      (call : s.iderw p b = .ok s') : Step s s'
  | intr {s s' : Ide Pid} (c : Cmd) (busy : s.cmd = some c) (call : s.intr c = .ok s') : Step s s'
  | wake {s : Ide Pid} (p : Pid) (b : Fin nbuf) (waiting : s.proc p = .waiting b)
      (valid : (s.buf b).valid = true) (clean : (s.buf b).dirty = false) :
      Step s { s with proc := Function.update s.proc p .idle }
  | touch {s : Ide Pid} (b : Fin nbuf) (x : Buf Pid) (free : ∀ p, s.proc p ≠ .waiting b)
      (dev : x.dev = 1) (small : x.blockno < fsSize) :
      Step s { s with buf := Function.update s.buf b x }

/-- `iderw` appends its buffer and changes no buffer and no disk. -/
theorem iderw_eq_ok {s s' : Ide Pid} {p : Pid} {b : Fin nbuf} (h : s.iderw p b = .ok s') :
    Request (s.buf b) p ∧ s'.queue = s.queue ++ [b] ∧ s'.arrived = s.arrived ++ [b] ∧
      s'.done = s.done ∧ s'.buf = s.buf ∧ s'.disk = s.disk ∧ s'.havedisk1 = s.havedisk1 ∧
      s'.proc = Function.update s.proc p (.waiting b) ∧
      s'.cmd = if (s.queue ++ [b]).head? = some b then some (cmdOf (s.buf b)) else s.cmd := by
  unfold iderw at h
  dsimp only at h
  split_ifs at h with unheld nothing absent started
  all_goals have request : Request (s.buf b) p :=
    ⟨by simp_all, by simp_all, by simpa using nothing⟩
  · -- `b` is the head: `idestart(b)`
    simp only [idestart] at h
    split_ifs at h with big
    · cases h
    · obtain rfl := Except.ok.inj h
      exact ⟨request, rfl, rfl, rfl, rfl, rfl, rfl, rfl, by rw [if_pos started]⟩
  · obtain rfl := Except.ok.inj h
    exact ⟨request, rfl, rfl, rfl, rfl, rfl, rfl, rfl, by rw [if_neg started]⟩

theorem Inv.iderw {s s' : Ide Pid} (inv : s.Inv) {p : Pid} {b : Fin nbuf}
    (idle : s.proc p = .idle) (h : s.iderw p b = .ok s') : s'.Inv := by
  obtain ⟨request, queue, arrived, done, buf, -, present, proc, cmd⟩ := iderw_eq_ok h
  have fresh := inv.not_queued idle request
  have other : ∀ q b', s.proc q = .waiting b' → q ≠ p := by
    rintro q b' waiting rfl
    rw [idle] at waiting
    cases waiting
  constructor
  · rw [arrived, done, queue, inv.fifo, List.append_assoc]
  · rw [queue]
    exact inv.nodup.append (List.nodup_singleton b) (List.disjoint_singleton.mpr fresh)
  · rw [cmd, queue, buf]
    cases hq : s.queue with
    | nil => simp
    | cons x rest =>
      have ne : x ≠ b := fun same => fresh (by rw [hq, same]; exact List.mem_cons_self)
      have head := inv.head
      rw [hq] at head
      simp [head, ne]
  · intro b' mem
    rw [queue, List.mem_append, List.mem_singleton] at mem
    rcases mem with queued | rfl
    · obtain ⟨q, waiting, owned⟩ := inv.queued b' queued
      refine ⟨q, ?_, by rwa [buf]⟩
      rw [proc, Function.update_of_ne (other q b' waiting), waiting]
    · exact ⟨p, by simp [proc], by rwa [buf]⟩
  · intro q b' waiting
    rw [buf, queue, List.mem_append]
    by_cases same : q = p
    · subst same
      rw [proc, Function.update_self] at waiting
      cases waiting
      exact ⟨request.locked, request.owner, .inl (.inr List.mem_cons_self)⟩
    · rw [proc, Function.update_of_ne same] at waiting
      obtain ⟨locked, owner, place⟩ := inv.waiting q b' waiting
      exact ⟨locked, owner, place.imp_left .inl⟩
  · rw [buf]; exact inv.disk1
  · rw [present]; exact inv.present

theorem Inv.wake {s : Ide Pid} (inv : s.Inv) {p : Pid} {b : Fin nbuf}
    (waiting : s.proc p = .waiting b) (valid : (s.buf b).valid = true)
    (clean : (s.buf b).dirty = false) : Inv { s with proc := Function.update s.proc p .idle } := by
  -- the process leaving is no queued buffer's owner: a queued buffer is not yet finished
  have other : ∀ q b', b' ∈ s.queue → s.proc q = .waiting b' → q ≠ p := by
    rintro q b' mem waiting' rfl
    rw [waiting] at waiting'
    cases waiting'
    obtain ⟨q, -, owned⟩ := inv.queued b mem
    exact owned.pending ⟨valid, clean⟩
  refine ⟨inv.fifo, inv.nodup, inv.head, ?_, ?_, inv.disk1, inv.present⟩
  · intro b' mem
    obtain ⟨q, waiting', owned⟩ := inv.queued b' mem
    refine ⟨q, ?_, owned⟩
    dsimp only
    rw [Function.update_of_ne (other q b' mem waiting'), waiting']
  · intro q b' waiting'
    by_cases same : q = p
    · subst same
      simp at waiting'
    · dsimp only at waiting'
      rw [Function.update_of_ne same] at waiting'
      exact inv.waiting q b' waiting'

omit [DecidableEq Pid] in
theorem Inv.touch {s : Ide Pid} (inv : s.Inv) {b : Fin nbuf} {x : Buf Pid}
    (free : ∀ p, s.proc p ≠ .waiting b) (dev : x.dev = 1) (small : x.blockno < fsSize) :
    Inv { s with buf := Function.update s.buf b x } := by
  -- a queued buffer has a process waiting for it, so `b` is not queued
  have fresh : b ∉ s.queue := fun mem => by
    obtain ⟨p, waiting, -⟩ := inv.queued b mem
    exact free p waiting
  have kept : ∀ b' ∈ s.queue, Function.update s.buf b x b' = s.buf b' := fun b' mem =>
    Function.update_of_ne (fun same => fresh (by rw [← same]; exact mem)) _ _
  refine ⟨inv.fifo, inv.nodup, ?_, ?_, ?_, ?_, inv.present⟩
  · dsimp only
    rw [inv.head]
    cases hq : s.queue with
    | nil => rfl
    | cons b' rest =>
      rw [hq] at kept
      simp [kept b' List.mem_cons_self]
  · intro b' mem
    dsimp only
    rw [kept b' mem]
    exact inv.queued b' mem
  · intro q b' waiting
    have ne : b' ≠ b := fun same => free q (by rw [← same]; exact waiting)
    dsimp only
    rw [Function.update_of_ne ne]
    exact inv.waiting q b' waiting
  · intro b'
    dsimp only
    by_cases same : b' = b
    · subst same
      rw [Function.update_self]
      exact ⟨dev, small⟩
    · rw [Function.update_of_ne same]
      exact inv.disk1 b'

theorem Inv.step {s s' : Ide Pid} (inv : s.Inv) (step : Step s s') : s'.Inv := by
  cases step with
  | iderw p b idle call => exact inv.iderw idle call
  | intr c busy call => exact inv.intr busy call
  | wake p b waiting valid clean => exact inv.wake waiting valid clean
  | touch b x free dev small => exact inv.touch free dev small

/-! ## The memory disk -/

/-- `disksize`: the blocks of the image `mkfs` writes. -/
def disksize : Nat := fsSize

/-- `memide.c`'s `iderw(b)` by `p` on the memory disk `memdisk`. -/
def memideIderw (p : Pid) (memdisk : Nat → Block) (x : Buf Pid) :
    Except Fault ((Nat → Block) × Buf Pid) :=
  if !(x.locked && x.pid == some p) then .error (.panic "iderw: buf not locked")
  else if x.valid && !x.dirty then .error (.panic "iderw: nothing to do")
  else if x.dev ≠ 1 then .error (.panic "iderw: request not for disk 1")
  else if disksize ≤ x.blockno then .error (.panic "iderw: block out of range")
  else if x.dirty then
    .ok (Function.update memdisk x.blockno x.data, { x with dirty := false, valid := true })
  else .ok (memdisk, { x with data := memdisk x.blockno, valid := true })

/-- `memide.c`'s `iderw` of a buffer the driver holds for `p`, for device 1 below `FSSIZE`:
a write stores the data, a read fetches the block, and the buffer ends `B_VALID` alone. -/
theorem memideIderw_of_request {p : Pid} {x : Buf Pid} (request : Request x p) (dev : x.dev = 1)
    (small : x.blockno < fsSize) (memdisk : Nat → Block) :
    memideIderw p memdisk x =
      .ok (if x.dirty then Function.update memdisk x.blockno x.data else memdisk,
        finish x (memdisk x.blockno)) := by
  have held : (x.locked && x.pid == some p) = true := by simp [request.locked, request.owner]
  have todo : (x.valid && !x.dirty) = false := by
    have := request.pending
    cases hv : x.valid <;> cases hd : x.dirty <;> simp_all
  have inRange : ¬ disksize ≤ x.blockno := by unfold disksize; omega
  simp only [memideIderw, held, todo, dev, inRange, Bool.not_true, Bool.false_eq_true, if_false,
    ne_eq, not_true_eq_false]
  by_cases dirty : x.dirty
  · simp [dirty, finish, dev]
  · simp [dirty, finish, dev]

/-- Finishing the head of the queue is `memide.c`'s `iderw` of that buffer, by the process
waiting for it, on disk 1: the other buffers and the other drive are untouched, and the head
joins the finished requests. -/
theorem intr_refines {s s' : Ide Pid} (inv : s.Inv) {c : Cmd} (busy : s.cmd = some c)
    (h : s.intr c = .ok s') :
    ∃ b p, s.queue.head? = some b ∧ s.proc p = .waiting b ∧
      memideIderw p (s.disk 1) (s.buf b) = .ok (s'.disk 1, s'.buf b) ∧
      (∀ b', b' ≠ b → s'.buf b' = s.buf b') ∧ (∀ d, d ≠ 1 → s'.disk d = s.disk d) ∧
      s'.done = s.done ++ [b] := by
  obtain ⟨b, rest, hq, rfl⟩ := inv.busy busy
  obtain ⟨-, done, -, -, -, disk, buf, -⟩ := intr_eq_ok hq h
  obtain ⟨p, waiting, request⟩ := inv.queued b (by rw [hq]; exact List.mem_cons_self)
  obtain ⟨dev, small⟩ := inv.disk1 b
  have run := run_cmdOf dev s.disk
  refine ⟨b, p, by rw [hq]; rfl, waiting, ?_, fun b' ne => by rw [buf, Function.update_of_ne ne],
    fun d ne => by rw [disk, run]; exact Function.update_of_ne ne _ _, done⟩
  rw [memideIderw_of_request request dev small, disk, buf, run]
  by_cases dirty : (s.buf b).dirty
  · simp [dirty, finish]
  · simp [dirty]

/-! ## No panic -/

/-- A request for a buffer the caller holds, not `B_VALID` alone, goes through. -/
theorem iderw_ok {s : Ide Pid} (inv : s.Inv) {p : Pid} {b : Fin nbuf}
    (request : Request (s.buf b) p) : ∃ s', s.iderw p b = .ok s' := by
  have held : ((s.buf b).locked && (s.buf b).pid == some p) = true := by
    simp [request.locked, request.owner]
  have todo : ((s.buf b).valid && !(s.buf b).dirty) = false := by
    have := request.pending
    cases hv : (s.buf b).valid <;> cases hd : (s.buf b).dirty <;> simp_all
  have small : ¬ fsSize ≤ (s.buf b).blockno := Nat.not_le.mpr (inv.disk1 b).2
  unfold iderw
  simp only [held, todo, inv.present, Bool.not_true, Bool.and_false, Bool.false_eq_true, if_false]
  split
  · simp [idestart, small, Except.map]
  · exact ⟨_, rfl⟩

/-! ## Runs -/

/-- The runs of the driver: from no request pending, every buffer for device 1 below `FSSIZE` and
disk 1 present, any interleaving of steps. -/
inductive Reachable : Ide Pid → Prop
  | init {s : Ide Pid} (idle : ∀ p, s.proc p = .idle) (empty : s.queue = []) (quiet : s.cmd = none)
      (history : s.arrived = s.done) (disk1 : ∀ b, (s.buf b).dev = 1 ∧ (s.buf b).blockno < fsSize)
      (present : s.havedisk1 = true) : Reachable s
  | step {s s' : Ide Pid} (reach : Reachable s) (step : Step s s') : Reachable s'

theorem Reachable.inv {s : Ide Pid} (reach : Reachable s) : s.Inv := by
  induction reach with
  | init idle empty quiet history disk1 present =>
    refine ⟨by simp [history, empty], by simp [empty], by simp [empty, quiet], by simp [empty], ?_,
      disk1, present⟩
    intro p b waiting
    rw [idle] at waiting
    cases waiting
  | step _ step ih => exact ih.step step

/-- In every run of requests for device 1: the queue holds the requests not yet finished, in
the order they arrived and each once, the controller works on its head, and a waiting process
holds its buffer, which is queued or finished; the interrupt then finishes the head exactly
as `memide.c`'s `iderw` would; and neither a request nor an interrupt panics. -/
theorem ide_refines_memide {s : Ide Pid} (reach : Reachable s) :
    s.Inv ∧
    (∀ c s', s.cmd = some c → s.intr c = .ok s' →
      ∃ b p, s.queue.head? = some b ∧ s.proc p = .waiting b ∧
        memideIderw p (s.disk 1) (s.buf b) = .ok (s'.disk 1, s'.buf b) ∧
        (∀ b', b' ≠ b → s'.buf b' = s.buf b') ∧ (∀ d, d ≠ 1 → s'.disk d = s.disk d) ∧
        s'.done = s.done ++ [b]) ∧
    (∀ c, s.cmd = some c → ∃ s', s.intr c = .ok s') ∧
    (∀ p b, s.proc p = .idle → Request (s.buf b) p →
      ∃ s', s.iderw p b = .ok s' ∧ s'.buf = s.buf ∧ s'.disk = s.disk) := by
  have inv := reach.inv
  refine ⟨inv, fun c s' busy h => intr_refines inv busy h, fun c busy => intr_ok inv busy, ?_⟩
  intro p b idle request
  obtain ⟨s', call⟩ := iderw_ok inv request
  obtain ⟨-, -, -, -, buf, disk, -⟩ := iderw_eq_ok call
  exact ⟨s', call, buf, disk⟩

/-! ## One process -/

/-- The first buffer. -/
def buf0 : Fin nbuf := ⟨0, nbuf_pos⟩

/-- One process holding every buffer, each for device `dev`, block 0 and not yet read; no
request, both drives zero. -/
def lockedAll (dev : Nat) : Ide Unit where
  buf := fun _ => { (Buf.zero : Buf Unit) with dev, locked := true, pid := some () }
  queue := []
  disk := fun _ _ => zeroBlock
  cmd := none
  havedisk1 := true
  proc := fun _ => .idle
  arrived := []
  done := []

/-- Buffer `buf0` as the process dirties it after its first request: `B_VALID` and `B_DIRTY`,
every byte `7`. -/
def dirtied : Buf Unit :=
  { (lockedAll 1).buf buf0 with valid := true, dirty := true, data := fun _ => 7 }

/-- The process reads `buf0`, is woken, dirties it and asks again: the second request is queued
behind the finished first, the controller writes the `7`s, and its interrupt finishes the
request as `memide.c` would. -/
theorem ide_refines_memide_rewrite :
    ∃ s : Ide Unit, Reachable s ∧ s.done = [buf0] ∧ s.queue = [buf0] ∧
      s.cmd = some (cmdOf dirtied) ∧ ((s.intr (cmdOf dirtied)).toOption.any fun s' =>
        s'.disk 1 0 ⟨0, by decide⟩ = 7 && (s'.buf buf0).dirty = false) = true ∧
      (s.Inv ∧
      (∀ c s', s.cmd = some c → s.intr c = .ok s' →
        ∃ b p, s.queue.head? = some b ∧ s.proc p = .waiting b ∧
          memideIderw p (s.disk 1) (s.buf b) = .ok (s'.disk 1, s'.buf b) ∧
          (∀ b', b' ≠ b → s'.buf b' = s.buf b') ∧ (∀ d, d ≠ 1 → s'.disk d = s.disk d) ∧
          s'.done = s.done ++ [b]) ∧
      (∀ c, s.cmd = some c → ∃ s', s.intr c = .ok s') ∧
      (∀ p b, s.proc p = .idle → Request (s.buf b) p →
        ∃ s', s.iderw p b = .ok s' ∧ s'.buf = s.buf ∧ s'.disk = s.disk)) := by
  have booted : Reachable (lockedAll 1) :=
    .init (fun _ => rfl) rfl rfl rfl (fun _ => ⟨rfl, show 0 < fsSize by decide⟩) rfl
  obtain ⟨s, run, facts⟩ : ∃ s : Ide Unit, Reachable s ∧ (s.done = [buf0] ∧ s.queue = [buf0] ∧
      s.cmd = some (cmdOf dirtied) ∧ ((s.intr (cmdOf dirtied)).toOption.any fun s' =>
        s'.disk 1 0 ⟨0, by decide⟩ = 7 && (s'.buf buf0).dirty = false) = true) :=
    ⟨_, .step (.step (.step (.step (.step booted (.iderw () buf0 rfl rfl))
      (.intr _ rfl rfl)) (.wake () buf0 rfl rfl rfl))
      (.touch buf0 dirtied (by decide) rfl (by decide))) (.iderw () buf0 rfl rfl),
      rfl, rfl, rfl, by decide⟩
  exact ⟨s, run, facts.1, facts.2.1, facts.2.2.1, facts.2.2.2, ide_refines_memide run⟩
/-- A request for device 0 while disk 1 is present: `memide.c`'s `iderw` panics, while `ide.c`
queues it, starts drive 0 on it and finishes it. -/
theorem ide_serves_disk0 :
    memideIderw () (fun _ => zeroBlock) ((lockedAll 0).buf buf0) =
        .error (.panic "iderw: request not for disk 1") ∧
      ∃ s₁ s₂, (lockedAll 0).iderw () buf0 = .ok s₁ ∧ s₁.cmd = some (cmdOf ((lockedAll 0).buf buf0)) ∧
        (cmdOf ((lockedAll 0).buf buf0)).drive = 0 ∧ s₁.intr (cmdOf ((lockedAll 0).buf buf0)) = .ok s₂ ∧
        (s₂.buf buf0).valid = true ∧ s₂.queue = [] ∧ s₂.done = [buf0] :=
  ⟨rfl, _, _, rfl, rfl, rfl, rfl, rfl, rfl, rfl⟩

end Ide

end Xv6
