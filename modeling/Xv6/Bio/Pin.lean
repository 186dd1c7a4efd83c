import Xv6.Bio.Coherence

/-!
# A logged buffer stays in the cache

`log_write` sets `B_DIRTY` on its buffer so that `bget` will not recycle it before the log
has written it home: the recycling scan takes only a buffer with `refcnt == 0` and
`B_DIRTY` clear.  Only `bwrite` clears the flag (through `iderw`), and in the kernel only
`log.c` calls `bwrite`, while it commits.

* `BCache.Pinned`: a buffer holding a given block with `B_DIRTY` set;
* `Bio.Pinned.step`: every step of any process other than a `bwrite` of that buffer keeps it
  so, in every state of the invariant: `bget`'s recycling skips it, and a `wake` finds it
  valid and does not read it again;
* `Bio.Pinned.steps`: so does every run of such steps, and no state of the run recycles it.
-/

namespace Xv6

namespace BCache

variable {Pid : Type}

/-- Buffer `b` holds block `t` with `B_DIRTY` set. -/
def Pinned (c : BCache Pid) (b : Fin nbuf) (t : Nat × Nat) : Prop :=
  (c.buf b).dirty = true ∧ (c.buf b).tag = t

variable {c : BCache Pid} {b : Fin nbuf} {t : Nat × Nat}

/-- The recycling scan of `bget` never returns a pinned buffer. -/
theorem Pinned.not_recycled (hp : c.Pinned b t) : c.recycle ≠ some b := by
  intro recycled
  have free : c.free b = true := DList.walk_some recycled
  simp [BCache.free, hp.1] at free

/-- Setting a buffer's fields keeps a pinned buffer pinned, when it keeps the buffer's tag
and does not clear a `B_DIRTY` flag it finds set. -/
theorem Pinned.setBuf (hp : c.Pinned b t) {x : Fin nbuf} {y : Buf Pid}
    (dirty : (c.buf x).dirty = true → y.dirty = true) (tag : y.tag = (c.buf x).tag) :
    (c.setBuf x y).Pinned b t := by
  by_cases same : b = x
  · subst same
    rw [Pinned, setBuf_self]
    exact ⟨dirty hp.1, tag.trans hp.2⟩
  · rw [Pinned, setBuf_of_ne _ same]
    exact hp

end BCache

namespace Bio

variable {Pid : Type} [DecidableEq Pid]
variable {s s' : Bio Pid} {p : Pid} {b : Fin nbuf} {t : Nat × Nat}

/-- `log_write` pins its buffer to the block it holds. -/
theorem logWrite_pins (h : s.step p (.logWrite b) = some (.ok s')) :
    s'.cache.Pinned b (s.cache.buf b).tag := by
  obtain ⟨-, -, rfl⟩ := step_logWrite h
  rw [BCache.Pinned, BCache.logWrite, BCache.setBuf_self]
  exact ⟨rfl, rfl⟩

variable [Fintype Pid]

/-- **One step keeps a pinned buffer pinned**, unless it is a `bwrite` of that buffer.  Each
step but `bread` sets the fields of one buffer and keeps its tag; `wake` reads only an
invalid buffer from disk, and a dirty one is valid; `bread` recycles only a clean one. -/
theorem Pinned.step (hI : s.Inv) (hp : s.cache.Pinned b t) {op : BufOp}
    (h : s.step p op = some (.ok s')) (unwritten : op ≠ .bwrite b) : s'.cache.Pinned b t := by
  cases op with
  | bread dev blockno =>
    obtain ⟨-, c, z, hget, rfl⟩ := step_bread h
    rcases BCache.bget_eq_ok hget with ⟨-, rfl⟩ | ⟨-, recycled, rfl⟩
    · exact hp.setBuf (fun d => d) rfl
    · -- the recycled buffer is clean, so it is another buffer
      have other : b ≠ z := fun same => hp.not_recycled (same ▸ recycled)
      rw [BCache.Pinned, BCache.setBuf_of_ne _ other]
      exact hp
  | wake =>
    obtain ⟨x, -, -, y, -, -, rfl, -, -, ydirty, ytag, -⟩ := hI.wake_eq h
    exact hp.setBuf (fun d => ydirty.trans d) ytag
  | write x data =>
    obtain ⟨-, -, rfl⟩ := step_write h
    exact hp.setBuf (fun d => d) rfl
  | bwrite x =>
    have other : b ≠ x := fun same => unwritten (same ▸ rfl)
    obtain ⟨-, disk, c, written, rfl⟩ := step_bwrite h
    obtain ⟨-, -, rfl⟩ := BCache.bwrite_eq_ok written
    rw [BCache.Pinned, BCache.setBuf_of_ne _ other]
    exact hp
  | logWrite x =>
    obtain ⟨-, -, rfl⟩ := step_logWrite h
    exact hp.setBuf (fun _ => rfl) rfl
  | brelse x =>
    obtain ⟨-, -, c, released, rfl⟩ := step_brelse h
    obtain ⟨-, rfl⟩ := BCache.brelse_eq_ok released
    exact hp.setBuf (fun d => d) rfl
  | release =>
    obtain ⟨x, -, rfl⟩ := step_release h
    rw [BCache.Pinned, BCache.brelseFinish_buf]
    exact hp.setBuf (fun d => d) rfl

/-- **A run keeps a pinned buffer pinned**, when none of its steps is a `bwrite` of that
buffer, and the invariant with it: the induction is on the run, one `Pinned.step` and one
`Inv.step` at a time. -/
theorem Pinned.steps (hI : s.Inv) (hp : s.cache.Pinned b t) :
    ∀ {ops : List (Pid × BufOp)}, (∀ x ∈ ops, x.2 ≠ .bwrite b) →
      s.steps ops = some (.ok s') → s'.cache.Pinned b t ∧ s'.Inv := by
  intro ops unwritten h
  induction ops generalizing s with
  | nil =>
    cases h
    exact ⟨hp, hI⟩
  | cons x ops ih =>
    obtain ⟨q, op⟩ := x
    obtain ⟨s1, stepped, rest⟩ := steps_cons_eq_ok h
    exact ih (hI.step stepped) (Pinned.step hI hp stepped (unwritten _ List.mem_cons_self))
      (fun y hy => unwritten y (List.mem_cons_of_mem _ hy)) rest

/-- **Pinned until written.**  From any reachable state, after `log_write` of a buffer, every
run of any processes' steps with no `bwrite` of that buffer ends with the buffer still
holding its block with `B_DIRTY` set, so that `bget`'s recycling scan passes it by. -/
theorem logWrite_pinned_steps {s1 : Bio Pid} (hs : s.Reachable)
    (h : s.step p (.logWrite b) = some (.ok s1)) {ops : List (Pid × BufOp)}
    (unwritten : ∀ x ∈ ops, x.2 ≠ .bwrite b) (ran : s1.steps ops = some (.ok s')) :
    s'.cache.Pinned b (s.cache.buf b).tag ∧ s'.cache.recycle ≠ some b := by
  obtain ⟨pinned, -⟩ := Pinned.steps (hs.inv.step h) (logWrite_pins h) unwritten ran
  exact ⟨pinned, pinned.not_recycled⟩

end Bio

end Xv6
