import Mathlib.Data.Fintype.Fin
import Mathlib.Data.Fintype.List
import Xv6.Param
import Xv6.Lib.DList

/-!
# The buffer cache

`bio.c`'s cache of `NBUF` buffers.  Each `struct buf` carries its block's tag `(dev,
blockno)`, the flags `B_VALID` and `B_DIRTY`, a sleep-lock, a reference count and the
block's data; the list pointers of all buffers and of `bcache.head` are kept apart, as two
functions of the list's nodes (`Node`, with `none` for the head), so that the list code
edits them as `DList` sees them.

`bget` runs under `bcache.lock` and ends by handing the buffer to `acquiresleep`, where the
caller may sleep; its two scans are `DList.walk`s, forward from `head.next` for the block
and backward from `head.prev` for a buffer to recycle.  `brelse` releases the sleep-lock
and then, under `bcache.lock`, drops the reference and moves an unreferenced buffer to the
front.  `iderw` is the disk request as it completes (the disks map each tag to its block): a dirty buffer is written, any other
one read, and either way the buffer ends valid and clean.

* `BCache.lookup_eq`, `BCache.recycle_eq`: on a ring the scans find the first tagged buffer
  from the front, and the first free one from the back;
* `BCache.ring_binit`, `BCache.ring_moveToFront`: `binit` builds a ring of every buffer,
  and `brelse`'s splice keeps one.
-/

namespace Xv6

/-- A node of the buffer list: a buffer, or `none` for `bcache.head`. -/
abbrev Node := Option (Fin nbuf)

/-- `struct buf` without its list pointers: `flags` as its two bits, the sleep-lock as its
`locked` and `pid` (`none` for the `0` an unheld lock stores). -/
structure Buf (Pid : Type) where
  valid : Bool
  dirty : Bool
  dev : Nat
  blockno : Nat
  locked : Bool
  pid : Option Pid
  refcnt : Nat
  data : Block

/-- The block a buffer holds, `(b->dev, b->blockno)`. -/
def Buf.tag {Pid : Type} (x : Buf Pid) : Nat × Nat := (x.dev, x.blockno)

/-- The zero-filled `struct buf` of the static `bcache`. -/
def Buf.zero {Pid : Type} : Buf Pid := ⟨false, false, 0, 0, false, none, 0, zeroBlock⟩

/-- `bcache`: the buffers, and the `next` and `prev` fields of the head and of every buffer. -/
structure BCache (Pid : Type) where
  buf : Fin nbuf → Buf Pid
  next : Node → Node
  prev : Node → Node

namespace BCache

variable {Pid : Type}

/-- The list holds every buffer once, in the order `l` from the head. -/
def Ring (c : BCache Pid) (l : List (Fin nbuf)) : Prop :=
  DList.Linked c.next c.prev none l none ∧ l.Nodup ∧ ∀ b, b ∈ l

/-- Set one buffer's fields. -/
def setBuf (c : BCache Pid) (b : Fin nbuf) (x : Buf Pid) : BCache Pid :=
  { c with buf := Function.update c.buf b x }

/-- `b->next = bcache.head.next; b->prev = &bcache.head; bcache.head.next->prev = b;
bcache.head.next = b;` -/
def pushFront (c : BCache Pid) (b : Fin nbuf) : BCache Pid :=
  let c := { c with next := Function.update c.next (some b) (c.next none) }
  let c := { c with prev := Function.update c.prev (some b) none }
  let c := { c with prev := Function.update c.prev (c.next none) (some b) }
  { c with next := Function.update c.next none (some b) }

/-- `binit`: the head linked to itself, then each buffer in turn pushed to the front. -/
def binit : BCache Pid :=
  let c : BCache Pid := ⟨fun _ => Buf.zero, fun _ => none, fun _ => none⟩
  let c := { c with prev := Function.update c.prev none none }
  let c := { c with next := Function.update c.next none none }
  (List.finRange nbuf).foldl pushFront c

/-- Does the buffer carry the tag `(dev, blockno)`? -/
def tagged (c : BCache Pid) (dev blockno : Nat) (b : Fin nbuf) : Bool :=
  (c.buf b).dev == dev && (c.buf b).blockno == blockno

/-- Could `bget` recycle the buffer: `b->refcnt == 0 && (b->flags & B_DIRTY) == 0`? -/
def free (c : BCache Pid) (b : Fin nbuf) : Bool :=
  (c.buf b).refcnt == 0 && !(c.buf b).dirty

/-- `bget`'s first loop, from `bcache.head.next` along `next`. -/
def lookup (c : BCache Pid) (dev blockno : Nat) : Option (Fin nbuf) :=
  DList.walk c.next (c.tagged dev blockno) nbuf (c.next none)

/-- `bget`'s second loop, from `bcache.head.prev` along `prev`. -/
def recycle (c : BCache Pid) : Option (Fin nbuf) :=
  DList.walk c.prev c.free nbuf (c.prev none)

/-- `bget(dev, blockno)` up to `release(&bcache.lock)`: the cached buffer with one more
reference, or an unused clean buffer retagged with `flags = 0` and one reference.  The
caller then sleeps in `acquiresleep(&b->lock)`. -/
def bget (c : BCache Pid) (dev blockno : Nat) : Except Fault (BCache Pid × Fin nbuf) :=
  match c.lookup dev blockno with
  | some b => .ok (c.setBuf b { c.buf b with refcnt := (c.buf b).refcnt + 1 }, b)
  | none =>
    match c.recycle with
    | some b =>
      .ok (c.setBuf b { c.buf b with dev, blockno, valid := false, dirty := false, refcnt := 1 }, b)
    | none => .error (.panic "bget: no buffers")

/-- `holdingsleep(&b->lock)` for process `p`. -/
def holding [DecidableEq Pid] (c : BCache Pid) (p : Pid) (b : Fin nbuf) : Bool :=
  (c.buf b).locked && (c.buf b).pid == some p

/-- `acquiresleep(&b->lock)` by `p`: `none` while the lock is held, when `p` sleeps. -/
def acquiresleep (c : BCache Pid) (p : Pid) (b : Fin nbuf) : Option (BCache Pid) :=
  if (c.buf b).locked then none
  else some (c.setBuf b { c.buf b with locked := true, pid := some p })

/-- `iderw(b)` by `p`, as the request completes: the disk, and the buffer valid and clean. -/
def iderw [DecidableEq Pid] (p : Pid) (disk : Nat × Nat → Block) (x : Buf Pid) :
    Except Fault ((Nat × Nat → Block) × Buf Pid) :=
  if !(x.locked && x.pid == some p) then .error (.panic "iderw: buf not locked")
  else if x.valid && !x.dirty then .error (.panic "iderw: nothing to do")
  else if fsSize ≤ x.blockno then .error (.panic "incorrect blockno")
  else if x.dirty then
    .ok (Function.update disk x.tag x.data, { x with valid := true, dirty := false })
  else .ok (disk, { x with data := disk x.tag, valid := true, dirty := false })

/-- `bread`'s rest, once `acquiresleep` has returned: `if((b->flags & B_VALID) == 0) iderw(b);` -/
def breadFill [DecidableEq Pid] (c : BCache Pid) (p : Pid) (disk : Nat × Nat → Block) (b : Fin nbuf) :
    Except Fault ((Nat × Nat → Block) × BCache Pid) :=
  if (c.buf b).valid then .ok (disk, c)
  else do
    let (disk, x) ← iderw p disk (c.buf b)
    return (disk, c.setBuf b x)

/-- `bwrite(b)` by `p`: `b->flags |= B_DIRTY; iderw(b);` -/
def bwrite [DecidableEq Pid] (c : BCache Pid) (p : Pid) (disk : Nat × Nat → Block) (b : Fin nbuf) :
    Except Fault ((Nat × Nat → Block) × BCache Pid) :=
  if !c.holding p b then .error (.panic "bwrite")
  else do
    let (disk, x) ← iderw p disk { c.buf b with dirty := true }
    return (disk, c.setBuf b x)

/-- What `log_write(b)` does to the buffer: `b->flags |= B_DIRTY`, which keeps `bget` from
recycling it until the log has installed it. -/
def logWrite (c : BCache Pid) (b : Fin nbuf) : BCache Pid :=
  c.setBuf b { c.buf b with dirty := true }

/-- `brelse(b)` by `p`, up to `releasesleep(&b->lock)`. -/
def brelse [DecidableEq Pid] (c : BCache Pid) (p : Pid) (b : Fin nbuf) : Except Fault (BCache Pid) :=
  if !c.holding p b then .error (.panic "brelse")
  else .ok (c.setBuf b { c.buf b with locked := false, pid := none })

/-- `b->next->prev = b->prev; b->prev->next = b->next;` -/
def unlink (c : BCache Pid) (b : Fin nbuf) : BCache Pid :=
  let c := { c with prev := Function.update c.prev (c.next (some b)) (c.prev (some b)) }
  { c with next := Function.update c.next (c.prev (some b)) (c.next (some b)) }

/-- `brelse`'s splice: `b` off the list, then first. -/
def moveToFront (c : BCache Pid) (b : Fin nbuf) : BCache Pid := (c.unlink b).pushFront b

/-- `brelse`'s rest, under `bcache.lock`: `b->refcnt--`, and an unreferenced buffer moves
to the front. -/
def brelseFinish (c : BCache Pid) (b : Fin nbuf) : BCache Pid :=
  let c := c.setBuf b { c.buf b with refcnt := (c.buf b).refcnt - 1 }
  if (c.buf b).refcnt = 0 then c.moveToFront b else c

/-! ## Field lemmas -/

@[simp] theorem setBuf_buf (c : BCache Pid) (b : Fin nbuf) (x : Buf Pid) :
    (c.setBuf b x).buf = Function.update c.buf b x := rfl

@[simp] theorem setBuf_next (c : BCache Pid) (b : Fin nbuf) (x : Buf Pid) :
    (c.setBuf b x).next = c.next := rfl

@[simp] theorem setBuf_prev (c : BCache Pid) (b : Fin nbuf) (x : Buf Pid) :
    (c.setBuf b x).prev = c.prev := rfl

@[simp] theorem pushFront_buf (c : BCache Pid) (b : Fin nbuf) : (c.pushFront b).buf = c.buf := rfl

@[simp] theorem moveToFront_buf (c : BCache Pid) (b : Fin nbuf) :
    (c.moveToFront b).buf = c.buf := rfl

theorem unlink_next (c : BCache Pid) (b : Fin nbuf) : (c.unlink b).next =
    Function.update c.next (Function.update c.prev (c.next (some b)) (c.prev (some b)) (some b))
      (c.next (some b)) := rfl

theorem unlink_prev (c : BCache Pid) (b : Fin nbuf) :
    (c.unlink b).prev = Function.update c.prev (c.next (some b)) (c.prev (some b)) := rfl

/-- A field that a change of buffer `x` keeps is kept for every buffer. -/
theorem setBuf_apply {α : Type*} {c : BCache Pid} {x : Fin nbuf} (y : Buf Pid) (f : Buf Pid → α)
    (hy : f y = f (c.buf x)) (a : Fin nbuf) : f ((c.setBuf x y).buf a) = f (c.buf a) := by
  by_cases ha : a = x
  · subst ha
    simpa using hy
  · simp [Function.update_of_ne ha]

theorem setBuf_of_ne {c : BCache Pid} {x a : Fin nbuf} (y : Buf Pid) (ha : a ≠ x) :
    (c.setBuf x y).buf a = c.buf a := by
  simp [Function.update_of_ne ha]

@[simp] theorem setBuf_setBuf {c : BCache Pid} {x : Fin nbuf} (y z : Buf Pid) :
    (c.setBuf x y).setBuf x z = c.setBuf x z := by
  simp [setBuf]

@[simp] theorem moveToFront_tagged (c : BCache Pid) (b : Fin nbuf) :
    (c.moveToFront b).tagged = c.tagged := rfl

theorem brelseFinish_buf (c : BCache Pid) (b : Fin nbuf) :
    (c.brelseFinish b).buf = (c.setBuf b { c.buf b with refcnt := (c.buf b).refcnt - 1 }).buf := by
  unfold brelseFinish
  dsimp only
  split <;> rfl

@[simp] theorem setBuf_self {c : BCache Pid} {x : Fin nbuf} (y : Buf Pid) : (c.setBuf x y).buf x = y := by
  simp

theorem tagged_iff (c : BCache Pid) (dev blockno : Nat) (b : Fin nbuf) :
    c.tagged dev blockno b = true ↔ (c.buf b).tag = (dev, blockno) := by
  simp [tagged, Buf.tag]

theorem ring_setBuf {c : BCache Pid} {l : List (Fin nbuf)} (h : c.Ring l) (b : Fin nbuf)
    (x : Buf Pid) : (c.setBuf b x).Ring l := h

/-! ## What each operation does -/

theorem bget_eq_ok {c c' : BCache Pid} {dev blockno : Nat} {b : Fin nbuf}
    (h : c.bget dev blockno = .ok (c', b)) :
    (c.lookup dev blockno = some b ∧
      c' = c.setBuf b { c.buf b with refcnt := (c.buf b).refcnt + 1 }) ∨
    (c.lookup dev blockno = none ∧ c.recycle = some b ∧
      c' = c.setBuf b { c.buf b with dev, blockno, valid := false, dirty := false, refcnt := 1 }) := by
  unfold bget at h
  split at h
  · rename_i b' hl
    simp only [Except.ok.injEq, Prod.mk.injEq] at h
    obtain ⟨rfl, rfl⟩ := h
    exact .inl ⟨hl, rfl⟩
  · rename_i hl
    split at h
    · rename_i b' hr
      simp only [Except.ok.injEq, Prod.mk.injEq] at h
      obtain ⟨rfl, rfl⟩ := h
      exact .inr ⟨hl, hr, rfl⟩
    · cases h

theorem acquiresleep_eq_some {c c' : BCache Pid} {p : Pid} {b : Fin nbuf}
    (h : c.acquiresleep p b = some c') :
    (c.buf b).locked = false ∧ c' = c.setBuf b { c.buf b with locked := true, pid := some p } := by
  unfold acquiresleep at h
  split at h
  · cases h
  · rename_i hl
    exact ⟨by simpa using hl, (Option.some.inj h).symm⟩

theorem holding_iff [DecidableEq Pid] {c : BCache Pid} {p : Pid} {b : Fin nbuf} :
    c.holding p b = true ↔ (c.buf b).locked = true ∧ (c.buf b).pid = some p := by
  simp [holding]

/-- A read request on a held buffer. -/
theorem iderw_read [DecidableEq Pid] {p : Pid} {disk : Nat × Nat → Block} {x : Buf Pid}
    (hl : x.locked = true) (hp : x.pid = some p) (hv : x.valid = false) (hd : x.dirty = false)
    (hb : x.blockno < fsSize) :
    iderw p disk x = .ok (disk, { x with data := disk x.tag, valid := true, dirty := false }) := by
  simp [iderw, hl, hp, hv, hd, Nat.not_le.mpr hb]

/-- A write request on a held buffer. -/
theorem iderw_write [DecidableEq Pid] {p : Pid} {disk : Nat × Nat → Block} {x : Buf Pid}
    (hl : x.locked = true) (hp : x.pid = some p) (hd : x.dirty = true) (hb : x.blockno < fsSize) :
    iderw p disk x = .ok (Function.update disk x.tag x.data, { x with valid := true, dirty := false }) := by
  simp [iderw, hl, hp, hd, Nat.not_le.mpr hb]

theorem iderw_blockno [DecidableEq Pid] {p : Pid} {disk : Nat × Nat → Block} {x : Buf Pid}
    (hb : fsSize ≤ x.blockno) : ∃ e, iderw p disk x = .error e := by
  unfold iderw
  split_ifs <;> exact ⟨_, rfl⟩

/-- The rest of `bread` on a buffer `p` has just locked, which is dirty only if valid. -/
theorem breadFill_eq_ok [DecidableEq Pid] {c c' : BCache Pid} {p : Pid} {b : Fin nbuf}
    {disk disk' : Nat × Nat → Block} (h : c.breadFill p disk b = .ok (disk', c'))
    (hheld : c.holding p b = true) (hdirty : (c.buf b).dirty = true → (c.buf b).valid = true) :
    disk' = disk ∧ ((c.buf b).valid = true ∧ c' = c ∨ (c.buf b).valid = false ∧
      c' = c.setBuf b { c.buf b with data := disk (c.buf b).tag, valid := true, dirty := false }) := by
  unfold breadFill at h
  split at h
  · rename_i hv
    simp only [Except.ok.injEq, Prod.mk.injEq] at h
    exact ⟨h.1.symm, .inl ⟨hv, h.2.symm⟩⟩
  · rename_i hv
    have hv' : (c.buf b).valid = false := by simpa using hv
    have hd : (c.buf b).dirty = false := by
      cases hd : (c.buf b).dirty
      · rfl
      · simp [hdirty hd] at hv'
    obtain ⟨hl, hp⟩ := holding_iff.mp hheld
    by_cases hbn : fsSize ≤ (c.buf b).blockno
    · obtain ⟨e, he⟩ := @iderw_blockno Pid _ p disk (c.buf b) hbn
      simp [he] at h
    · rw [iderw_read hl hp hv' hd (Nat.lt_of_not_le hbn)] at h
      simp only [except_ok_bind, except_pure, Except.ok.injEq, Prod.mk.injEq] at h
      exact ⟨h.1.symm, .inr ⟨hv', h.2.symm⟩⟩

theorem bwrite_eq_ok [DecidableEq Pid] {c c' : BCache Pid} {p : Pid} {b : Fin nbuf}
    {disk disk' : Nat × Nat → Block} (h : c.bwrite p disk b = .ok (disk', c')) :
    c.holding p b = true ∧ disk' = Function.update disk (c.buf b).tag (c.buf b).data ∧
      c' = c.setBuf b { c.buf b with valid := true, dirty := false } := by
  unfold bwrite at h
  split at h
  · cases h
  · rename_i hheld
    have hheld' : c.holding p b = true := by simpa using hheld
    obtain ⟨hl, hp⟩ := holding_iff.mp hheld'
    by_cases hbn : fsSize ≤ (c.buf b).blockno
    · obtain ⟨e, he⟩ := @iderw_blockno Pid _ p disk { c.buf b with dirty := true } hbn
      simp [he] at h
    · have hw := @iderw_write Pid _ p disk { c.buf b with dirty := true } hl hp rfl (Nat.lt_of_not_le hbn)
      dsimp only at h hw
      rw [hw] at h
      simp only [except_ok_bind, except_pure, Except.ok.injEq, Prod.mk.injEq] at h
      exact ⟨hheld', h.1.symm, h.2.symm⟩

theorem brelse_eq_ok [DecidableEq Pid] {c c' : BCache Pid} {p : Pid} {b : Fin nbuf}
    (h : c.brelse p b = .ok c') :
    c.holding p b = true ∧ c' = c.setBuf b { c.buf b with locked := false, pid := none } := by
  unfold brelse at h
  split at h
  · cases h
  · rename_i hheld
    exact ⟨by simpa using hheld, (Except.ok.inj h).symm⟩

/-! ## The list -/

theorem Ring.length_le {c : BCache Pid} {l : List (Fin nbuf)} (h : c.Ring l) :
    l.length ≤ nbuf := by
  simpa using h.2.1.length_le_card

/-- The forward scan finds the first buffer from the front with the tag. -/
theorem lookup_eq {c : BCache Pid} {l : List (Fin nbuf)} (h : c.Ring l) (dev blockno : Nat) :
    c.lookup dev blockno = l.find? (c.tagged dev blockno) :=
  DList.walk_eq_find h.1 h.length_le

/-- The backward scan finds the first free buffer from the back. -/
theorem recycle_eq {c : BCache Pid} {l : List (Fin nbuf)} (h : c.Ring l) :
    c.recycle = l.reverse.find? c.free :=
  DList.walk_eq_find h.1.reverse (by simpa using h.length_le)

theorem linked_pushFront {c : BCache Pid} {l : List (Fin nbuf)} {b : Fin nbuf}
    (h : DList.Linked c.next c.prev none l none) (hl : l.Nodup) (hb : b ∉ l) :
    DList.Linked (c.pushFront b).next (c.pushFront b).prev none (b :: l) none := by
  have hne : (none : Node) ≠ some b := by simp
  simpa only [pushFront, Function.update_of_ne hne] using DList.linked_pushFront h hl hb

theorem foldl_pushFront_buf (c : BCache Pid) (bs : List (Fin nbuf)) :
    (bs.foldl pushFront c).buf = c.buf := by
  induction bs generalizing c with
  | nil => rfl
  | cons b bs ih => exact ih _

/-- Every buffer is zero-filled after `binit`. -/
theorem binit_buf (b : Fin nbuf) : (binit : BCache Pid).buf b = Buf.zero := by
  unfold binit
  rw [foldl_pushFront_buf]

/-- Pushing the buffers `bs` in turn onto a path from the head to itself. -/
theorem linked_foldl_pushFront {c : BCache Pid} {l bs : List (Fin nbuf)}
    (h : DList.Linked c.next c.prev none l none) (hnd : (bs ++ l).Nodup) :
    DList.Linked (bs.foldl pushFront c).next (bs.foldl pushFront c).prev none (bs.reverse ++ l) none := by
  induction bs generalizing c l with
  | nil => exact h
  | cons b bs ih =>
    obtain ⟨hb, hnd'⟩ := List.nodup_cons.mp hnd
    rw [List.foldl_cons, List.reverse_cons, List.append_assoc, List.singleton_append]
    exact ih (linked_pushFront h (hnd'.sublist (by simp)) fun hm => hb (List.mem_append_right _ hm))
      (List.nodup_middle.mpr (List.nodup_cons.mpr ⟨hb, hnd'⟩))

/-- `binit` leaves every buffer on the list, the last one first. -/
theorem ring_binit : (binit : BCache Pid).Ring (List.finRange nbuf).reverse := by
  have hnd : (List.finRange nbuf).Nodup := List.nodup_finRange nbuf
  refine ⟨?_, List.nodup_reverse.mpr hnd, fun b => List.mem_reverse.mpr (List.mem_finRange b)⟩
  have h := @linked_foldl_pushFront Pid ⟨fun _ => Buf.zero, Function.update (fun _ => none) none none,
    Function.update (fun _ => none) none none⟩ [] (List.finRange nbuf) ⟨rfl, rfl⟩
    (by rwa [List.append_nil])
  rw [List.append_nil] at h
  exact h

/-- `brelse`'s splice keeps the ring, with `b` first. -/
theorem ring_moveToFront {c : BCache Pid} {l : List (Fin nbuf)} (h : c.Ring l) (b : Fin nbuf) :
    (c.moveToFront b).Ring (b :: l.erase b) := by
  obtain ⟨hlink, hnd, hall⟩ := h
  obtain ⟨l₁, l₂, rfl⟩ := List.append_of_mem (hall b)
  have hb₁ : b ∉ l₁ := fun hm => (List.nodup_append.mp hnd).2.2 b hm b List.mem_cons_self rfl
  have herase : (l₁ ++ b :: l₂).erase b = l₁ ++ l₂ := by
    rw [List.erase_append_right _ hb₁, List.erase_cons_head]
  rw [herase]
  -- `b`'s successor is not `b`, so the first write leaves `b->prev` as it was
  have hnext : c.next (some b) ≠ some b := by
    rcases (DList.linked_append.mp hlink).2.nxt_mem with e | ⟨a, ha, e⟩ <;> rw [e]
    · simp
    · rintro ⟨⟩
      exact (List.nodup_cons.mp (List.nodup_append.mp hnd).2.1).1 ha
  have hprev : Function.update c.prev (c.next (some b)) (c.prev (some b)) (some b) = c.prev (some b) := by
    rw [Function.update_of_ne hnext.symm]
  have hunlink : DList.Linked (c.unlink b).next (c.unlink b).prev none (l₁ ++ l₂) none := by
    rw [unlink_next, unlink_prev, hprev]
    exact DList.linked_unlink hlink hnd (by simp) (by simp)
  have hnd' : (l₁ ++ l₂).Nodup := hnd.sublist (by simp)
  have hb : b ∉ l₁ ++ l₂ := fun hm => (List.nodup_middle.mp hnd |> List.nodup_cons.mp).1 hm
  refine ⟨?_, List.nodup_cons.mpr ⟨hb, hnd'⟩, fun a => ?_⟩
  · exact linked_pushFront hunlink hnd' hb
  · by_cases hab : a = b
    · simp [hab]
    · have := hall a
      simp only [List.mem_append, List.mem_cons] at this
      simp only [List.mem_cons, List.mem_append]
      tauto

end BCache

end Xv6
