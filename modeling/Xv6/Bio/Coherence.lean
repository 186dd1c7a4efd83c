import Mathlib.Algebra.Order.BigOperators.Group.Finset
import Xv6.Lib.WeightedSum
import Xv6.Bio.Step

/-!
# Coherence of the buffer cache

`Bio.Inv` is what every reachable state of the interleaved processes satisfies:

* the buffers form one ring through `bcache.head` (`ring`);
* `refcnt` counts the processes between `bget` and `acquiresleep` or between
  `releasesleep` and the end of `brelse` on the buffer, plus its holder (`refcnt_eq`);
* a held or dirty buffer is valid, and a changed buffer is held (`valid_of_locked`,
  `valid_of_dirty`, `locked_of_pending`);
* every buffer other than the one `bget`'s first loop finds for its own tag is unused:
  unreferenced and invalid (`unused`).  Before `bget` has tagged them all buffers carry
  `(0, 0)`, so a tag may name several buffers; the invariant says which of them counts;
* a valid buffer holds its block's latest data, a valid, clean and unchanged one agrees
  with the disk, and a block no valid buffer holds has its latest data on disk
  (`data_latest`, `disk_data`, `disk_latest`).  `log_write`'s `B_DIRTY` is what keeps the
  second true across recycling: `bget` takes only clean buffers.

`Reachable.inv` proves it by one lemma per step; `bcache_coherent` reads the claims off
it.
-/

namespace Xv6

namespace BCache

variable {Pid : Type}

/-- Every buffer other than the one `bget`'s first loop finds for its tag is unreferenced
and invalid. -/
def Unused (c : BCache Pid) : Prop :=
  ∀ b, c.lookup (c.buf b).dev (c.buf b).blockno ≠ some b →
    (c.buf b).refcnt = 0 ∧ (c.buf b).valid = false

theorem tagged_setBuf {c : BCache Pid} {b : Fin nbuf} {x : Buf Pid} (hx : x.tag = (c.buf b).tag)
    (dev blockno : Nat) : (c.setBuf b x).tagged dev blockno = c.tagged dev blockno := by
  obtain ⟨hdev, hno⟩ := Prod.mk.inj hx
  funext a
  by_cases hab : a = b
  · subst hab
    simp [tagged, hdev, hno]
  · simp [tagged, Function.update_of_ne hab]

theorem lookup_setBuf {c : BCache Pid} {b : Fin nbuf} {x : Buf Pid} (hx : x.tag = (c.buf b).tag)
    (dev blockno : Nat) : (c.setBuf b x).lookup dev blockno = c.lookup dev blockno := by
  simp only [lookup, setBuf_next, tagged_setBuf hx]

/-- A change to the buffer `bget` finds for its tag that keeps the tag. -/
theorem Unused.setBuf {c : BCache Pid} (h : c.Unused) {b : Fin nbuf} {x : Buf Pid}
    (hx : x.tag = (c.buf b).tag) (hb : c.lookup (c.buf b).dev (c.buf b).blockno = some b) :
    (c.setBuf b x).Unused := by
  intro a ha
  rw [lookup_setBuf hx] at ha
  by_cases hab : a = b
  · subst hab
    obtain ⟨hdev, hno⟩ := Prod.mk.inj hx
    simp only [setBuf_buf, Function.update_self, hdev, hno] at ha
    exact absurd hb ha
  · simp only [setBuf_buf, Function.update_of_ne hab] at ha ⊢
    exact h a ha

/-- `bget`'s first loop returns a buffer with the tag it looks for. -/
theorem tag_of_lookup {c : BCache Pid} {dev blockno : Nat} {b : Fin nbuf}
    (hb : c.lookup dev blockno = some b) : (c.buf b).tag = (dev, blockno) :=
  (tagged_iff c dev blockno b).mp (DList.walk_some hb)

end BCache

namespace Bio

variable {Pid : Type} [DecidableEq Pid] [Fintype Pid]

/-- The references to `b` held by processes in `bread` or `brelse`. -/
def refs (s : Bio Pid) (b : Fin nbuf) : ℤ := ∑ p, ((s.proc p).refs b : ℤ)

/-- What every reachable state satisfies. -/
structure Inv (s : Bio Pid) : Prop where
  ring : ∃ l, s.cache.Ring l
  refcnt_eq : ∀ b, ((s.cache.buf b).refcnt : ℤ) = s.refs b + if (s.cache.buf b).locked then 1 else 0
  valid_of_locked : ∀ b, (s.cache.buf b).locked = true → (s.cache.buf b).valid = true
  valid_of_dirty : ∀ b, (s.cache.buf b).dirty = true → (s.cache.buf b).valid = true
  locked_of_pending : ∀ b, s.pending b = true → (s.cache.buf b).locked = true
  reading_tag : ∀ p b dev blockno, s.proc p = .reading b dev blockno →
    (s.cache.buf b).tag = (dev, blockno)
  assigned_unique : ∀ b b', s.assigned b = true → b' ≠ b → (s.cache.buf b').tag ≠ (s.cache.buf b).tag
  unused : s.cache.Unused
  data_latest : ∀ b, (s.cache.buf b).valid = true → (s.cache.buf b).data = s.latest (s.cache.buf b).tag
  disk_data : ∀ b, (s.cache.buf b).valid = true → (s.cache.buf b).dirty = false →
    s.pending b = false → s.disk (s.cache.buf b).tag = (s.cache.buf b).data
  disk_latest : ∀ t, (∀ b, (s.cache.buf b).tag = t → (s.cache.buf b).valid = false) →
    s.disk t = s.latest t

theorem refs_nonneg (s : Bio Pid) (b : Fin nbuf) : 0 ≤ s.refs b :=
  Finset.sum_nonneg fun _ _ => Int.natCast_nonneg _

theorem proc_refs_le (s : Bio Pid) (p : Pid) (b : Fin nbuf) : ((s.proc p).refs b : ℤ) ≤ s.refs b :=
  Finset.single_le_sum (f := fun q => ((s.proc q).refs b : ℤ)) (fun _ _ => Int.natCast_nonneg _)
    (Finset.mem_univ p)

/-- The count after one process moves from phase `s.proc p` to `v`. -/
theorem refs_of_proc {s s' : Bio Pid} {p : Pid} {v : BufPhase} (h : s'.proc = Function.update s.proc p v)
    (b : Fin nbuf) : s'.refs b = s.refs b + (v.refs b - (s.proc p).refs b) := by
  rw [refs, h]
  exact WeightedSum.sum_comp_update (fun w => (w.refs b : ℤ)) s.proc p v

namespace Inv

variable {s : Bio Pid} (hI : s.Inv)
include hI

theorem refcnt_pos_of_locked {b : Fin nbuf} (hl : (s.cache.buf b).locked = true) :
    0 < (s.cache.buf b).refcnt := by
  have := hI.refcnt_eq b
  rw [if_pos hl] at this
  have := s.refs_nonneg b
  omega

theorem refcnt_pos_of_proc {p : Pid} {b : Fin nbuf} (hp : (s.proc p).refs b = 1) :
    0 < (s.cache.buf b).refcnt := by
  have h1 := hI.refcnt_eq b
  have h2 := s.proc_refs_le p b
  rw [hp] at h2
  split at h1 <;> omega

theorem unlocked_of_refcnt {b : Fin nbuf} (h0 : (s.cache.buf b).refcnt = 0) :
    (s.cache.buf b).locked = false := by
  cases hl : (s.cache.buf b).locked
  · rfl
  · exact absurd h0 (Nat.pos_iff_ne_zero.mp (hI.refcnt_pos_of_locked hl))

/-- A referenced or valid buffer is the one `bget` finds for its tag. -/
theorem lookup_self {b : Fin nbuf} (h : 0 < (s.cache.buf b).refcnt ∨ (s.cache.buf b).valid = true) :
    s.cache.lookup (s.cache.buf b).dev (s.cache.buf b).blockno = some b := by
  by_contra hne
  obtain ⟨h0, hv⟩ := hI.unused b hne
  rcases h with h | h
  · omega
  · simp [hv] at h

/-- Two buffers that `bget` finds for their tags and that share a tag are one. -/
theorem eq_of_lookup {b b' : Fin nbuf}
    (hb : s.cache.lookup (s.cache.buf b).dev (s.cache.buf b).blockno = some b)
    (hb' : s.cache.lookup (s.cache.buf b').dev (s.cache.buf b').blockno = some b')
    (ht : (s.cache.buf b).tag = (s.cache.buf b').tag) : b = b' := by
  obtain ⟨hdev, hno⟩ := Prod.mk.inj ht
  rw [hdev, hno, hb'] at hb
  exact (Option.some.inj hb).symm

/-- At most one valid buffer holds a block. -/
theorem eq_of_valid {b b' : Fin nbuf} (hb : (s.cache.buf b).valid = true)
    (hb' : (s.cache.buf b').valid = true) (ht : (s.cache.buf b).tag = (s.cache.buf b').tag) : b = b' :=
  hI.eq_of_lookup (hI.lookup_self (.inr hb)) (hI.lookup_self (.inr hb')) ht

end Inv

/-! ## Each step keeps the invariant -/

section Steps

variable {s s' : Bio Pid} {p : Pid}

/-- A process changes the data of a buffer it holds: the block's latest data. -/
theorem Inv.write {x : Fin nbuf} {data : Block} (hI : s.Inv)
    (h : s.step p (.write x data) = some (.ok s')) : s'.Inv := by
  obtain ⟨-, hheld, rfl⟩ := step_write h
  obtain ⟨hl, -⟩ := BCache.holding_iff.mp hheld
  have hv := hI.valid_of_locked x hl
  have hx := hI.lookup_self (.inl (hI.refcnt_pos_of_locked hl))
  -- no other valid buffer holds `x`'s block, so no other one's data goes stale
  have only : ∀ b ≠ x, (s.cache.buf b).valid = true → (s.cache.buf b).tag ≠ (s.cache.buf x).tag :=
    fun b hb hvb ht => hb (hI.eq_of_valid hvb hv ht)
  have htag : ∀ a, ((s.cache.setBuf x { s.cache.buf x with data }).buf a).tag = (s.cache.buf a).tag := by
    intro a
    by_cases ha : a = x
    · subst ha
      simp [Buf.tag]
    · simp [Function.update_of_ne ha]
  obtain ⟨l, hring⟩ := hI.ring
  refine ⟨⟨l, hring⟩, fun b => ?_, fun b hlb => ?_, fun b hdb => ?_, fun b hpb => ?_,
    fun q b dev blockno hq => ?_, fun b b' hab hne => ?_, hI.unused.setBuf rfl hx,
    fun b hvb => ?_, fun b hvb hdb hpb => ?_, fun t ht => ?_⟩
  · by_cases hb : b = x
    · subst hb
      simpa [refs] using hI.refcnt_eq b
    · simpa [refs, Function.update_of_ne hb] using hI.refcnt_eq b
  · by_cases hb : b = x
    · subst hb
      simpa using hv
    · simp only [BCache.setBuf_buf, Function.update_of_ne hb] at hlb ⊢
      exact hI.valid_of_locked b hlb
  · by_cases hb : b = x
    · subst hb
      simpa using hv
    · simp only [BCache.setBuf_buf, Function.update_of_ne hb] at hdb ⊢
      exact hI.valid_of_dirty b hdb
  · by_cases hb : b = x
    · subst hb
      simpa using hl
    · simp only [BCache.setBuf_buf, Function.update_of_ne hb] at hpb ⊢
      exact hI.locked_of_pending b hpb
  · by_cases hb : b = x
    · subst hb
      simpa [Buf.tag] using hI.reading_tag q b dev blockno hq
    · simpa [Function.update_of_ne hb] using hI.reading_tag q b dev blockno hq
  · dsimp only at hab ⊢
    rw [htag, htag]
    exact hI.assigned_unique b b' hab hne
  · dsimp only at hvb ⊢
    rw [htag]
    by_cases hb : b = x
    · subst hb
      simp
    · simp only [BCache.setBuf_buf, Function.update_of_ne hb] at hvb ⊢
      rw [Function.update_of_ne (only b hb hvb)]
      exact hI.data_latest b hvb
  · by_cases hb : b = x
    · subst hb
      simp at hpb
    · simp only [BCache.setBuf_buf, Function.update_of_ne hb] at hvb hdb hpb ⊢
      exact hI.disk_data b hvb hdb hpb
  · dsimp only at ht ⊢
    by_cases htx : t = (s.cache.buf x).tag
    · subst htx
      have := ht x (htag x)
      simp [hv] at this
    · rw [Function.update_of_ne htx]
      refine hI.disk_latest t fun b hbt => ?_
      have := ht b (by rw [htag]; exact hbt)
      by_cases hb : b = x
      · subst hb
        simpa using this
      · simpa [Function.update_of_ne hb] using this

/-- `log_write` marks a held buffer dirty: it stays valid, and `bget` will not take it. -/
theorem Inv.logWrite {x : Fin nbuf} (hI : s.Inv) (h : s.step p (.logWrite x) = some (.ok s')) :
    s'.Inv := by
  obtain ⟨-, hheld, rfl⟩ := step_logWrite h
  obtain ⟨hl, -⟩ := BCache.holding_iff.mp hheld
  have hv := hI.valid_of_locked x hl
  have hx := hI.lookup_self (.inl (hI.refcnt_pos_of_locked hl))
  obtain ⟨l, hring⟩ := hI.ring
  unfold BCache.logWrite
  set y : Buf Pid := { s.cache.buf x with dirty := true }
  refine ⟨⟨l, hring⟩, fun b => ?_, fun b hlb => ?_, fun b hdb => ?_, fun b hpb => ?_,
    fun q b dev blockno hq => ?_, fun b b' hab hne => ?_, hI.unused.setBuf rfl hx,
    fun b hvb => ?_, fun b hvb hdb hpb => ?_, fun t ht => ?_⟩ <;> dsimp only at *
  · rw [BCache.setBuf_apply y Buf.refcnt rfl, BCache.setBuf_apply y Buf.locked rfl]
    exact hI.refcnt_eq b
  · rw [BCache.setBuf_apply y Buf.locked rfl] at hlb
    rw [BCache.setBuf_apply y Buf.valid rfl]
    exact hI.valid_of_locked b hlb
  · rw [BCache.setBuf_apply y Buf.valid rfl]
    by_cases hb : b = x
    · subst hb
      exact hv
    · rw [BCache.setBuf_of_ne _ hb] at hdb
      exact hI.valid_of_dirty b hdb
  · rw [BCache.setBuf_apply y Buf.locked rfl]
    by_cases hb : b = x
    · subst hb
      simp at hpb
    · rw [Function.update_of_ne hb] at hpb
      exact hI.locked_of_pending b hpb
  · rw [BCache.setBuf_apply y Buf.tag rfl]
    exact hI.reading_tag q b dev blockno hq
  · rw [BCache.setBuf_apply y Buf.tag rfl, BCache.setBuf_apply y Buf.tag rfl]
    exact hI.assigned_unique b b' hab hne
  · rw [BCache.setBuf_apply y Buf.valid rfl] at hvb
    rw [BCache.setBuf_apply y Buf.data rfl, BCache.setBuf_apply y Buf.tag rfl]
    exact hI.data_latest b hvb
  · by_cases hb : b = x
    · subst hb
      simp at hdb
    · rw [BCache.setBuf_of_ne _ hb] at hvb hdb ⊢
      rw [Function.update_of_ne hb] at hpb
      exact hI.disk_data b hvb hdb hpb
  · refine hI.disk_latest t fun b hbt => ?_
    have := ht b (by rwa [BCache.setBuf_apply y Buf.tag rfl])
    rwa [BCache.setBuf_apply y Buf.valid rfl] at this

/-- `bwrite` writes a held buffer to its block and leaves it valid and clean. -/
theorem Inv.bwrite {x : Fin nbuf} (hI : s.Inv) (h : s.step p (.bwrite x) = some (.ok s')) :
    s'.Inv := by
  obtain ⟨-, disk, c, hw, rfl⟩ := step_bwrite h
  obtain ⟨hheld, rfl, rfl⟩ := BCache.bwrite_eq_ok hw
  obtain ⟨hl, -⟩ := BCache.holding_iff.mp hheld
  have hv := hI.valid_of_locked x hl
  have hx := hI.lookup_self (.inl (hI.refcnt_pos_of_locked hl))
  have only : ∀ b ≠ x, (s.cache.buf b).valid = true → (s.cache.buf b).tag ≠ (s.cache.buf x).tag :=
    fun b hb hvb ht => hb (hI.eq_of_valid hvb hv ht)
  set y : Buf Pid := { s.cache.buf x with valid := true, dirty := false }
  -- the buffer is valid already, so the write keeps `valid` for every buffer
  have hvalid : ∀ a, ((s.cache.setBuf x y).buf a).valid = (s.cache.buf a).valid :=
    BCache.setBuf_apply y Buf.valid hv.symm
  obtain ⟨l, hring⟩ := hI.ring
  refine ⟨⟨l, hring⟩, fun b => ?_, fun b hlb => ?_, fun b hdb => ?_, fun b hpb => ?_,
    fun q b dev blockno hq => ?_, fun b b' hab hne => ?_, hI.unused.setBuf rfl hx,
    fun b hvb => ?_, fun b hvb hdb hpb => ?_, fun t ht => ?_⟩ <;> dsimp only at *
  · rw [BCache.setBuf_apply y Buf.refcnt rfl, BCache.setBuf_apply y Buf.locked rfl]
    exact hI.refcnt_eq b
  · rw [BCache.setBuf_apply y Buf.locked rfl] at hlb
    rw [hvalid]
    exact hI.valid_of_locked b hlb
  · rw [hvalid]
    by_cases hb : b = x
    · subst hb
      exact hv
    · rw [BCache.setBuf_of_ne _ hb] at hdb
      exact hI.valid_of_dirty b hdb
  · rw [BCache.setBuf_apply y Buf.locked rfl]
    by_cases hb : b = x
    · subst hb
      simp at hpb
    · rw [Function.update_of_ne hb] at hpb
      exact hI.locked_of_pending b hpb
  · rw [BCache.setBuf_apply y Buf.tag rfl]
    exact hI.reading_tag q b dev blockno hq
  · rw [BCache.setBuf_apply y Buf.tag rfl, BCache.setBuf_apply y Buf.tag rfl]
    exact hI.assigned_unique b b' hab hne
  · rw [hvalid] at hvb
    rw [BCache.setBuf_apply y Buf.data rfl, BCache.setBuf_apply y Buf.tag rfl]
    exact hI.data_latest b hvb
  · rw [BCache.setBuf_apply y Buf.data rfl, BCache.setBuf_apply y Buf.tag rfl]
    by_cases hb : b = x
    · subst hb
      simp
    · rw [hvalid] at hvb
      rw [BCache.setBuf_of_ne _ hb] at hdb
      rw [Function.update_of_ne hb] at hpb
      rw [Function.update_of_ne (only b hb hvb)]
      exact hI.disk_data b hvb hdb hpb
  · by_cases htx : t = (s.cache.buf x).tag
    · subst htx
      have := ht x (by rw [BCache.setBuf_apply y Buf.tag rfl])
      rw [hvalid, hv] at this
      cases this
    · rw [Function.update_of_ne htx]
      refine hI.disk_latest t fun b hbt => ?_
      rw [← hvalid]
      exact ht b (by rwa [BCache.setBuf_apply y Buf.tag rfl])

/-- `brelse` up to `releasesleep`: the lock's reference passes to the releasing process. -/
theorem Inv.brelse {x : Fin nbuf} (hI : s.Inv) (h : s.step p (.brelse x) = some (.ok s')) :
    s'.Inv := by
  obtain ⟨hidle, hclean, c, hr, rfl⟩ := step_brelse h
  obtain ⟨hheld, rfl⟩ := BCache.brelse_eq_ok hr
  obtain ⟨hl, -⟩ := BCache.holding_iff.mp hheld
  have hx := hI.lookup_self (.inl (hI.refcnt_pos_of_locked hl))
  obtain ⟨l, hring⟩ := hI.ring
  set y : Buf Pid := { s.cache.buf x with locked := false, pid := none }
  refine ⟨⟨l, hring⟩, fun b => ?_, fun b hlb => ?_, fun b hdb => ?_, fun b hpb => ?_,
    fun q b dev blockno hq => ?_, fun b b' hab hne => ?_, hI.unused.setBuf rfl hx,
    fun b hvb => ?_, fun b hvb hdb hpb => ?_, fun t ht => ?_⟩ <;> dsimp only at *
  · rw [BCache.setBuf_apply y Buf.refcnt rfl]
    have hcount := hI.refcnt_eq b
    rw [refs_of_proc (s := s) rfl, hidle]
    by_cases hb : b = x
    · subst hb
      have hyl : y.locked = false := rfl
      simp only [BCache.setBuf_self, hl, hyl, if_true, Bool.false_eq_true, if_false,
        BufPhase.refs] at hcount ⊢
      omega
    · simp only [BCache.setBuf_of_ne _ hb, Ne.symm hb, if_false, BufPhase.refs] at hcount ⊢
      omega
  · by_cases hb : b = x
    · subst hb
      simp at hlb
    · rw [BCache.setBuf_of_ne _ hb] at hlb ⊢
      exact hI.valid_of_locked b hlb
  · rw [BCache.setBuf_apply y Buf.dirty rfl] at hdb
    rw [BCache.setBuf_apply y Buf.valid rfl]
    exact hI.valid_of_dirty b hdb
  · by_cases hb : b = x
    · subst hb
      rw [hclean] at hpb
      cases hpb
    · rw [BCache.setBuf_of_ne _ hb]
      exact hI.locked_of_pending b hpb
  · by_cases hq' : q = p
    · subst hq'
      simp at hq
    · rw [Function.update_of_ne hq'] at hq
      rw [BCache.setBuf_apply y Buf.tag rfl]
      exact hI.reading_tag q b dev blockno hq
  · rw [BCache.setBuf_apply y Buf.tag rfl, BCache.setBuf_apply y Buf.tag rfl]
    exact hI.assigned_unique b b' hab hne
  · rw [BCache.setBuf_apply y Buf.valid rfl] at hvb
    rw [BCache.setBuf_apply y Buf.data rfl, BCache.setBuf_apply y Buf.tag rfl]
    exact hI.data_latest b hvb
  · rw [BCache.setBuf_apply y Buf.valid rfl] at hvb
    rw [BCache.setBuf_apply y Buf.dirty rfl] at hdb
    rw [BCache.setBuf_apply y Buf.data rfl, BCache.setBuf_apply y Buf.tag rfl]
    exact hI.disk_data b hvb hdb hpb
  · refine hI.disk_latest t fun b hbt => ?_
    have := ht b (by rwa [BCache.setBuf_apply y Buf.tag rfl])
    rwa [BCache.setBuf_apply y Buf.valid rfl] at this

/-- What the rest of `bread` does: the buffer ends locked by `p` and valid, read from disk
if it was invalid. -/
theorem Inv.wake_eq (hI : s.Inv) (h : s.step p .wake = some (.ok s')) :
    ∃ x dev blockno y, s.proc p = .reading x dev blockno ∧ (s.cache.buf x).locked = false ∧
      s' = { s with cache := s.cache.setBuf x y, proc := Function.update s.proc p .idle } ∧
      y.locked = true ∧ y.valid = true ∧ y.dirty = (s.cache.buf x).dirty ∧
      y.tag = (s.cache.buf x).tag ∧ y.refcnt = (s.cache.buf x).refcnt ∧
      ((s.cache.buf x).valid = true → y.data = (s.cache.buf x).data) ∧
      ((s.cache.buf x).valid = false → y.data = s.disk (s.cache.buf x).tag) := by
  obtain ⟨x, dev, blockno, c, disk, c', hp, hacq, hfill, rfl⟩ := step_wake h
  obtain ⟨hunl, rfl⟩ := BCache.acquiresleep_eq_some hacq
  have hheld : (s.cache.setBuf x { s.cache.buf x with locked := true, pid := some p }).holding p x = true := by
    simp [BCache.holding]
  obtain ⟨rfl, hc'⟩ := BCache.breadFill_eq_ok hfill hheld (by simpa using hI.valid_of_dirty x)
  refine ⟨x, dev, blockno, ?_⟩
  rcases hc' with ⟨hv, rfl⟩ | ⟨hv, rfl⟩
  · exact ⟨_, hp, hunl, rfl, rfl, by simpa using hv, rfl, rfl, rfl, fun _ => rfl, by simp at hv; simp [hv]⟩
  · simp only [BCache.setBuf_self, BCache.setBuf_setBuf] at hv ⊢
    have hd : (s.cache.buf x).dirty = false := by
      cases hd : (s.cache.buf x).dirty
      · rfl
      · simp [hI.valid_of_dirty x hd] at hv
    exact ⟨_, hp, hunl, rfl, rfl, rfl, hd.symm, rfl, rfl, by simp [hv], fun _ => rfl⟩

/-- The rest of `bread`: the process takes the lock, and an invalid buffer is read from
its block, which no valid buffer holds. -/
theorem Inv.wake (hI : s.Inv) (h : s.step p .wake = some (.ok s')) : s'.Inv := by
  obtain ⟨x, dev, blockno, y, hp, hunl, rfl, hyl, hyv, hyd, hytag, hyref, hydata⟩ := hI.wake_eq h
  have hpos := hI.refcnt_pos_of_proc (p := p) (b := x) (by simp [hp, BufPhase.refs])
  have hx := hI.lookup_self (.inl hpos)
  obtain ⟨l, hring⟩ := hI.ring
  refine ⟨⟨l, hring⟩, fun b => ?_, fun b hlb => ?_, fun b hdb => ?_, fun b hpb => ?_,
    fun q b dev' blockno' hq => ?_, fun b b' hab hne => ?_, hI.unused.setBuf hytag hx,
    fun b hvb => ?_, fun b hvb hdb hpb => ?_, fun t ht => ?_⟩ <;> dsimp only at *
  · have hcount := hI.refcnt_eq b
    rw [refs_of_proc (s := s) rfl, hp]
    by_cases hb : b = x
    · subst hb
      simp only [BCache.setBuf_self, hyl, hyref, hunl, if_true, Bool.false_eq_true, if_false,
        BufPhase.refs] at hcount ⊢
      omega
    · simp only [BCache.setBuf_of_ne _ hb, BufPhase.refs, Ne.symm hb, if_false] at hcount ⊢
      omega
  · by_cases hb : b = x
    · subst hb
      simpa using hyv
    · rw [BCache.setBuf_of_ne _ hb] at hlb ⊢
      exact hI.valid_of_locked b hlb
  · by_cases hb : b = x
    · subst hb
      simpa using hyv
    · rw [BCache.setBuf_of_ne _ hb] at hdb ⊢
      exact hI.valid_of_dirty b hdb
  · by_cases hb : b = x
    · subst hb
      simpa using hyl
    · rw [BCache.setBuf_of_ne _ hb]
      exact hI.locked_of_pending b hpb
  · by_cases hq' : q = p
    · subst hq'
      simp at hq
    · rw [Function.update_of_ne hq'] at hq
      rw [BCache.setBuf_apply y Buf.tag hytag]
      exact hI.reading_tag q b dev' blockno' hq
  · rw [BCache.setBuf_apply y Buf.tag hytag, BCache.setBuf_apply y Buf.tag hytag]
    exact hI.assigned_unique b b' hab hne
  · by_cases hb : b = x
    · subst hb
      simp only [BCache.setBuf_self, hytag]
      cases hv : (s.cache.buf b).valid
      · -- no valid buffer holds the block: `bget` would have found it, not `b`
        rw [hydata.2 hv]
        refine hI.disk_latest _ fun a ha => ?_
        by_contra hva
        have hab : a = b := hI.eq_of_lookup (hI.lookup_self (.inr (by simpa using hva))) hx ha
        subst hab
        exact hva hv
      · rw [hydata.1 hv]
        exact hI.data_latest b hv
    · rw [BCache.setBuf_of_ne _ hb] at hvb ⊢
      exact hI.data_latest b hvb
  · by_cases hb : b = x
    · subst hb
      simp only [BCache.setBuf_self, hytag] at hdb ⊢
      cases hv : (s.cache.buf b).valid
      · rw [hydata.2 hv]
      · rw [hydata.1 hv]
        exact hI.disk_data b hv (hyd ▸ hdb) hpb
    · rw [BCache.setBuf_of_ne _ hb] at hvb hdb ⊢
      exact hI.disk_data b hvb hdb hpb
  · refine hI.disk_latest t fun a ha => ?_
    by_cases hax : a = x
    · subst hax
      have := ht a (by simpa [hytag] using ha)
      simp [hyv] at this
    · have := ht a (by rwa [BCache.setBuf_of_ne _ hax])
      rwa [BCache.setBuf_of_ne _ hax] at this

/-- `bget` finds the block's buffer and takes one more reference to it. -/
theorem Inv.bget_hit {dev blockno : Nat} {x : Fin nbuf} (hI : s.Inv) (hidle : s.proc p = .idle)
    (hlook : s.cache.lookup dev blockno = some x) :
    (⟨s.cache.setBuf x { s.cache.buf x with refcnt := (s.cache.buf x).refcnt + 1 }, s.disk,
      Function.update s.proc p (.reading x dev blockno), s.latest, s.assigned, s.pending⟩ : Bio Pid).Inv := by
  have htx := BCache.tag_of_lookup hlook
  have hx : s.cache.lookup (s.cache.buf x).dev (s.cache.buf x).blockno = some x := by
    obtain ⟨hdev, hno⟩ := Prod.mk.inj htx
    rw [hdev, hno, hlook]
  set y : Buf Pid := { s.cache.buf x with refcnt := (s.cache.buf x).refcnt + 1 }
  obtain ⟨l, hring⟩ := hI.ring
  refine ⟨⟨l, hring⟩, fun b => ?_, fun b hlb => ?_, fun b hdb => ?_, fun b hpb => ?_,
    fun q b dev' blockno' hq => ?_, fun b b' hab hne => ?_, hI.unused.setBuf rfl hx,
    fun b hvb => ?_, fun b hvb hdb hpb => ?_, fun t ht => ?_⟩ <;> dsimp only at *
  · have hcount := hI.refcnt_eq b
    rw [refs_of_proc (s := s) rfl, hidle, BCache.setBuf_apply y Buf.locked rfl]
    by_cases hb : b = x
    · subst hb
      have hyr : y.refcnt = (s.cache.buf b).refcnt + 1 := rfl
      simp only [BCache.setBuf_self, BufPhase.refs, if_true, hyr] at hcount ⊢
      push_cast
      omega
    · simp only [BCache.setBuf_of_ne _ hb, BufPhase.refs, Ne.symm hb, if_false] at hcount ⊢
      omega
  · rw [BCache.setBuf_apply y Buf.locked rfl] at hlb
    rw [BCache.setBuf_apply y Buf.valid rfl]
    exact hI.valid_of_locked b hlb
  · rw [BCache.setBuf_apply y Buf.dirty rfl] at hdb
    rw [BCache.setBuf_apply y Buf.valid rfl]
    exact hI.valid_of_dirty b hdb
  · rw [BCache.setBuf_apply y Buf.locked rfl]
    exact hI.locked_of_pending b hpb
  · rw [BCache.setBuf_apply y Buf.tag rfl]
    by_cases hq' : q = p
    · subst hq'
      simp only [Function.update_self, BufPhase.reading.injEq] at hq
      obtain ⟨rfl, rfl, rfl⟩ := hq
      exact htx
    · rw [Function.update_of_ne hq'] at hq
      exact hI.reading_tag q b dev' blockno' hq
  · rw [BCache.setBuf_apply y Buf.tag rfl, BCache.setBuf_apply y Buf.tag rfl]
    exact hI.assigned_unique b b' hab hne
  · rw [BCache.setBuf_apply y Buf.valid rfl] at hvb
    rw [BCache.setBuf_apply y Buf.data rfl, BCache.setBuf_apply y Buf.tag rfl]
    exact hI.data_latest b hvb
  · rw [BCache.setBuf_apply y Buf.valid rfl] at hvb
    rw [BCache.setBuf_apply y Buf.dirty rfl] at hdb
    rw [BCache.setBuf_apply y Buf.data rfl, BCache.setBuf_apply y Buf.tag rfl]
    exact hI.disk_data b hvb hdb hpb
  · refine hI.disk_latest t fun a ha => ?_
    have := ht a (by rwa [BCache.setBuf_apply y Buf.tag rfl])
    rwa [BCache.setBuf_apply y Buf.valid rfl] at this

/-- `bget` finds no buffer for the block and recycles the least recently used buffer that is
unreferenced and clean; the block it held, if valid, is on disk. -/
theorem Inv.bget_recycle {dev blockno : Nat} {z : Fin nbuf} (hI : s.Inv) (hidle : s.proc p = .idle)
    (hlook : s.cache.lookup dev blockno = none) (hrec : s.cache.recycle = some z) :
    (⟨s.cache.setBuf z { s.cache.buf z with dev, blockno, valid := false, dirty := false, refcnt := 1 },
      s.disk, Function.update s.proc p (.reading z dev blockno), s.latest,
      Function.update s.assigned z true, s.pending⟩ : Bio Pid).Inv := by
  obtain ⟨l, hring⟩ := hI.ring
  have hfree : (s.cache.buf z).refcnt = 0 ∧ (s.cache.buf z).dirty = false := by
    simpa [BCache.free] using DList.walk_some hrec
  -- no buffer holds the block
  have hnone : ∀ a, (s.cache.buf a).tag ≠ (dev, blockno) := by
    intro a ha
    rw [BCache.lookup_eq hring, List.find?_eq_none] at hlook
    exact hlook a (hring.2.2 a) ((BCache.tagged_iff _ _ _ _).mpr ha)
  have hunl := hI.unlocked_of_refcnt hfree.1
  have hpend : s.pending z = false := by
    cases hp : s.pending z
    · rfl
    · simp [hI.locked_of_pending z hp] at hunl
  -- nobody is in `bread` or `brelse` on the recycled buffer
  have hproc : ∀ q, (s.proc q).refs z = 0 := by
    have hcount := hI.refcnt_eq z
    rw [hfree.1, hunl] at hcount
    have h0 : s.refs z = 0 := by simpa using hcount.symm
    intro q
    have := (Finset.sum_eq_zero_iff_of_nonneg (fun q _ => Int.natCast_nonneg ((s.proc q).refs z))).mp
      h0 q (Finset.mem_univ q)
    omega
  set y : Buf Pid := { s.cache.buf z with dev, blockno, valid := false, dirty := false, refcnt := 1 }
  have hyt : y.tag = (dev, blockno) := rfl
  have hydev : y.dev = dev := rfl
  have hyno : y.blockno = blockno := rfl
  have hother : ∀ a ≠ z, ((s.cache.setBuf z y).buf a) = s.cache.buf a := fun a ha =>
    BCache.setBuf_of_ne y ha
  refine ⟨⟨l, hring⟩, fun b => ?_, fun b hlb => ?_, fun b hdb => ?_, fun b hpb => ?_,
    fun q b dev' blockno' hq => ?_, fun b b' hab hne => ?_, fun b hb => ?_,
    fun b hvb => ?_, fun b hvb hdb hpb => ?_, fun t ht => ?_⟩ <;> dsimp only at *
  · have hcount := hI.refcnt_eq b
    rw [refs_of_proc (s := s) rfl, hidle]
    by_cases hb : b = z
    · subst hb
      have hyr : y.refcnt = 1 := rfl
      have hyl : y.locked = false := hunl
      simp only [BCache.setBuf_self, BufPhase.refs, if_true, hfree.1, hunl, hyr, hyl,
        Bool.false_eq_true, if_false] at hcount ⊢
      omega
    · simp only [hother b hb, BufPhase.refs, Ne.symm hb, if_false] at hcount ⊢
      omega
  · by_cases hb : b = z
    · subst hb
      simp [y, hunl] at hlb
    · rw [hother b hb] at hlb ⊢
      exact hI.valid_of_locked b hlb
  · by_cases hb : b = z
    · subst hb
      simp [y] at hdb
    · rw [hother b hb] at hdb ⊢
      exact hI.valid_of_dirty b hdb
  · by_cases hb : b = z
    · subst hb
      rw [hpend] at hpb
      cases hpb
    · rw [hother b hb]
      exact hI.locked_of_pending b hpb
  · by_cases hq' : q = p
    · subst hq'
      simp only [Function.update_self, BufPhase.reading.injEq] at hq
      obtain ⟨rfl, rfl, rfl⟩ := hq
      simp [hyt]
    · rw [Function.update_of_ne hq'] at hq
      have hbz : b ≠ z := by
        rintro rfl
        have := hproc q
        simp [hq, BufPhase.refs] at this
      rw [hother b hbz]
      exact hI.reading_tag q b dev' blockno' hq
  · by_cases hb : b = z
    · subst hb
      rw [BCache.setBuf_self, hother b' hne, hyt]
      exact hnone b'
    · rw [Function.update_of_ne hb] at hab
      rw [hother b hb]
      by_cases hb' : b' = z
      · subst hb'
        rw [BCache.setBuf_self, hyt]
        exact fun h => hnone b h.symm
      · rw [hother b' hb']
        exact hI.assigned_unique b b' hab hne
  · -- the recycled buffer is the only one with the new tag; the others keep what `bget` finds
    have hring' : (s.cache.setBuf z y).Ring l := hring
    by_cases hb' : b = z
    · subst hb'
      refine absurd ?_ hb
      rw [BCache.setBuf_self, hydev, hyno, BCache.lookup_eq hring']
      refine DList.find?_eq_of_unique (hring.2.2 b) ((BCache.tagged_iff _ _ _ _).mpr (by simp [hyt]))
        fun a _ ha => ?_
      by_contra hab
      rw [BCache.tagged_iff, hother a hab] at ha
      exact hnone a ha
    · rw [hother b hb'] at hb ⊢
      refine hI.unused b fun hfind => hb ?_
      rw [BCache.lookup_eq hring'] at hb ⊢
      rw [BCache.lookup_eq hring] at hfind
      refine DList.find?_of_imp (fun a ha => ?_) ((BCache.tagged_iff _ _ _ _).mpr ?_) hfind
      · by_cases haz : a = z
        · subst haz
          rw [BCache.tagged_iff, BCache.setBuf_self, hyt] at ha
          exact absurd ha.symm (hnone b)
        · rwa [BCache.tagged_iff, hother a haz, ← BCache.tagged_iff] at ha
      · rw [hother b hb']
        rfl
  · by_cases hb : b = z
    · subst hb
      simp [y] at hvb
    · rw [hother b hb] at hvb ⊢
      exact hI.data_latest b hvb
  · by_cases hb : b = z
    · subst hb
      simp [y] at hvb
    · rw [hother b hb] at hvb hdb ⊢
      exact hI.disk_data b hvb hdb hpb
  · by_cases hzt : (s.cache.buf z).tag = t
    · subst hzt
      cases hvz : (s.cache.buf z).valid
      · refine hI.disk_latest _ fun a ha => ?_
        by_cases haz : a = z
        · subst haz
          exact hvz
        · have := ht a (by rw [hother a haz]; exact ha)
          rwa [hother a haz] at this
      · -- a valid, clean buffer is recycled only once its data is on disk
        rw [hI.disk_data z hvz hfree.2 hpend]
        exact hI.data_latest z hvz
    · refine hI.disk_latest t fun a ha => ?_
      have haz : a ≠ z := by
        rintro rfl
        exact hzt ha
      have := ht a (by rw [hother a haz]; exact ha)
      rwa [hother a haz] at this

/-- `bget`, either way. -/
theorem Inv.bread {dev blockno : Nat} (hI : s.Inv) (h : s.step p (.bread dev blockno) = some (.ok s')) :
    s'.Inv := by
  obtain ⟨hidle, c, z, hget, rfl⟩ := step_bread h
  rcases BCache.bget_eq_ok hget with ⟨hlook, rfl⟩ | ⟨hlook, hrec, rfl⟩
  · simpa [hlook] using hI.bget_hit hidle hlook
  · simpa [hlook] using hI.bget_recycle hidle hlook hrec

/-- The rest of `brelse`: one reference fewer, and an unreferenced buffer moves to the
front of the list.  A buffer that `bget` finds for its tag stays the one it finds. -/
theorem Inv.release (hI : s.Inv) (h : s.step p .release = some (.ok s')) : s'.Inv := by
  obtain ⟨x, hp, rfl⟩ := step_release h
  have hpos := hI.refcnt_pos_of_proc (p := p) (b := x) (by simp [hp, BufPhase.refs])
  have hx := hI.lookup_self (.inl hpos)
  set y : Buf Pid := { s.cache.buf x with refcnt := (s.cache.buf x).refcnt - 1 }
  have hbuf : (s.cache.brelseFinish x).buf = (s.cache.setBuf x y).buf := BCache.brelseFinish_buf s.cache x
  obtain ⟨l, hring⟩ := hI.ring
  -- the list afterwards; a buffer `bget` does not find for its tag is not `x`, and was not
  -- found before
  obtain ⟨l', hring', hfound⟩ : ∃ l', (s.cache.brelseFinish x).Ring l' ∧ ∀ b,
      (s.cache.brelseFinish x).lookup (s.cache.buf b).dev (s.cache.buf b).blockno ≠ some b →
        b ≠ x ∧ s.cache.lookup (s.cache.buf b).dev (s.cache.buf b).blockno ≠ some b := by
    unfold BCache.brelseFinish
    dsimp only
    split
    · have hring₂ := BCache.ring_moveToFront (BCache.ring_setBuf hring x y) x
      refine ⟨_, hring₂, fun b hb => ?_⟩
      rw [BCache.lookup_eq hring₂, BCache.moveToFront_tagged, BCache.tagged_setBuf (x := y) rfl] at hb
      have hbx : b ≠ x := by
        rintro rfl
        exact hb (List.find?_cons_of_pos ((BCache.tagged_iff _ _ _ _).mpr rfl))
      refine ⟨hbx, fun hold => hb ?_⟩
      by_cases ht : (s.cache.buf b).tag = (s.cache.buf x).tag
      · exact absurd (hI.eq_of_lookup hold hx ht) hbx
      · have hnx : s.cache.tagged (s.cache.buf b).dev (s.cache.buf b).blockno x = false := by
          cases htx : s.cache.tagged (s.cache.buf b).dev (s.cache.buf b).blockno x
          · rfl
          · exact absurd ((BCache.tagged_iff _ _ _ _).mp htx).symm ht
        rw [List.find?_cons_of_neg (by simp [hnx]), DList.find?_erase_of_not hnx,
          ← BCache.lookup_eq hring]
        exact hold
    · refine ⟨l, hring, fun b hb => ?_⟩
      rw [BCache.lookup_setBuf (x := y) rfl] at hb
      exact ⟨fun hbx => hb (hbx ▸ hx), hb⟩
  refine ⟨⟨l', hring'⟩, fun b => ?_, fun b hlb => ?_, fun b hdb => ?_, fun b hpb => ?_,
    fun q b dev' blockno' hq => ?_, fun b b' hab hne => ?_, fun b hb => ?_,
    fun b hvb => ?_, fun b hvb hdb hpb => ?_, fun t ht => ?_⟩ <;> dsimp only at * <;>
    simp only [hbuf] at *
  · have hcount := hI.refcnt_eq b
    rw [refs_of_proc (s := s) rfl, hp, BCache.setBuf_apply y Buf.locked rfl]
    by_cases hb : b = x
    · subst hb
      have hyr : y.refcnt = (s.cache.buf b).refcnt - 1 := rfl
      simp only [BCache.setBuf_self, BufPhase.refs, if_true, hyr] at hcount ⊢
      omega
    · simp only [BCache.setBuf_of_ne _ hb, BufPhase.refs, Ne.symm hb, if_false] at hcount ⊢
      omega
  · rw [BCache.setBuf_apply y Buf.locked rfl] at hlb
    rw [BCache.setBuf_apply y Buf.valid rfl]
    exact hI.valid_of_locked b hlb
  · rw [BCache.setBuf_apply y Buf.dirty rfl] at hdb
    rw [BCache.setBuf_apply y Buf.valid rfl]
    exact hI.valid_of_dirty b hdb
  · rw [BCache.setBuf_apply y Buf.locked rfl]
    exact hI.locked_of_pending b hpb
  · by_cases hq' : q = p
    · subst hq'
      simp at hq
    · rw [Function.update_of_ne hq'] at hq
      rw [BCache.setBuf_apply y Buf.tag rfl]
      exact hI.reading_tag q b dev' blockno' hq
  · rw [BCache.setBuf_apply y Buf.tag rfl, BCache.setBuf_apply y Buf.tag rfl]
    exact hI.assigned_unique b b' hab hne
  · rw [BCache.setBuf_apply y Buf.dev rfl, BCache.setBuf_apply y Buf.blockno rfl] at hb
    obtain ⟨hbx, hold⟩ := hfound b hb
    rw [BCache.setBuf_of_ne _ hbx]
    exact hI.unused b hold
  · rw [BCache.setBuf_apply y Buf.valid rfl] at hvb
    rw [BCache.setBuf_apply y Buf.data rfl, BCache.setBuf_apply y Buf.tag rfl]
    exact hI.data_latest b hvb
  · rw [BCache.setBuf_apply y Buf.valid rfl] at hvb
    rw [BCache.setBuf_apply y Buf.dirty rfl] at hdb
    rw [BCache.setBuf_apply y Buf.data rfl, BCache.setBuf_apply y Buf.tag rfl]
    exact hI.disk_data b hvb hdb hpb
  · refine hI.disk_latest t fun a ha => ?_
    have := ht a (by rwa [BCache.setBuf_apply y Buf.tag rfl])
    rwa [BCache.setBuf_apply y Buf.valid rfl] at this

/-- Every step keeps the invariant. -/
theorem Inv.step (hI : s.Inv) {op : BufOp} (h : s.step p op = some (.ok s')) : s'.Inv := by
  cases op with
  | bread dev blockno => exact hI.bread h
  | wake => exact hI.wake h
  | write b data => exact hI.write h
  | bwrite b => exact hI.bwrite h
  | logWrite b => exact hI.logWrite h
  | brelse b => exact hI.brelse h
  | release => exact hI.release h

end Steps

/-- After `binit` every buffer is unreferenced and invalid, and each block's latest data is
what the disk holds. -/
theorem Inv.boot (disk : Nat × Nat → Block) : (boot disk : Bio Pid).Inv where
  ring := ⟨_, BCache.ring_binit⟩
  refcnt_eq b := by
    simp [Bio.boot, refs, BufPhase.refs, BCache.binit_buf, Buf.zero]
  valid_of_locked b := by simp [Bio.boot, BCache.binit_buf, Buf.zero]
  valid_of_dirty b := by simp [Bio.boot, BCache.binit_buf, Buf.zero]
  locked_of_pending b := by simp [Bio.boot]
  reading_tag q b dev blockno := by simp [Bio.boot]
  assigned_unique b b' := by simp [Bio.boot]
  unused b _ := by simp [Bio.boot, BCache.binit_buf, Buf.zero]
  data_latest b := by simp [Bio.boot, BCache.binit_buf, Buf.zero]
  disk_data b := by simp [Bio.boot, BCache.binit_buf, Buf.zero]
  disk_latest t _ := rfl

theorem Reachable.inv {s : Bio Pid} (h : s.Reachable) : s.Inv := by
  induction h with
  | boot disk => exact Inv.boot disk
  | step p op _ hstep ih => exact ih.step hstep

/-- Only `bget`'s recycling changes a buffer's tag, and only that of an unreferenced buffer
that is not dirty. -/
theorem Inv.retag {s s' : Bio Pid} {p : Pid} {op : BufOp} (hI : s.Inv)
    (h : s.step p op = some (.ok s')) (b : Fin nbuf)
    (hb : (s'.cache.buf b).tag ≠ (s.cache.buf b).tag) :
    (s.cache.buf b).refcnt = 0 ∧ (s.cache.buf b).dirty = false := by
  -- every other step changes one buffer and keeps its tag
  have keep : ∀ x (y : Buf Pid), y.tag = (s.cache.buf x).tag →
      ((s.cache.setBuf x y).buf b).tag ≠ (s.cache.buf b).tag → False :=
    fun x y hy hne => hne (BCache.setBuf_apply y Buf.tag hy b)
  cases op with
  | bread dev blockno =>
    obtain ⟨-, c, z, hget, rfl⟩ := step_bread h
    rcases BCache.bget_eq_ok hget with ⟨-, rfl⟩ | ⟨-, hrec, rfl⟩
    · exact (keep _ _ (by rfl) hb).elim
    · by_cases hbz : b = z
      · subst hbz
        simpa [BCache.free] using DList.walk_some hrec
      · exact absurd (by rw [BCache.setBuf_of_ne _ hbz]) hb
  | wake =>
    obtain ⟨x, -, -, y, -, -, rfl, -, -, -, hytag, -⟩ := hI.wake_eq h
    exact (keep x y hytag hb).elim
  | write x data =>
    obtain ⟨-, -, rfl⟩ := step_write h
    exact (keep _ _ (by rfl) hb).elim
  | bwrite x =>
    obtain ⟨-, disk, c, hw, rfl⟩ := step_bwrite h
    obtain ⟨-, -, rfl⟩ := BCache.bwrite_eq_ok hw
    exact (keep _ _ (by rfl) hb).elim
  | logWrite x =>
    obtain ⟨-, -, rfl⟩ := step_logWrite h
    exact (keep _ _ (by rfl) hb).elim
  | brelse x =>
    obtain ⟨-, -, c, hr, rfl⟩ := step_brelse h
    obtain ⟨-, rfl⟩ := BCache.brelse_eq_ok hr
    exact (keep _ _ (by rfl) hb).elim
  | release =>
    obtain ⟨x, -, rfl⟩ := step_release h
    dsimp only at hb
    rw [BCache.brelseFinish_buf] at hb
    exact (keep _ _ (by rfl) hb).elim

/-! ## The cache's guarantees -/

/-- When a process's `bread(dev, blockno)` returns, its buffer carries the tag
`(dev, blockno)` and the data last written to that block through any buffer, whether or not
the write has reached the disk. -/
def ReadsLatest (s : Bio Pid) : Prop :=
  ∀ p b dev blockno s', s.proc p = .reading b dev blockno → s.step p .wake = some (.ok s') →
    (s'.cache.buf b).tag = (dev, blockno) ∧ (s'.cache.buf b).data = s'.latest (dev, blockno)

/-- Two buffers share a tag only while `bget` has assigned neither of them. -/
def TagsDistinct (s : Bio Pid) : Prop :=
  ∀ b b', b ≠ b' → (s.cache.buf b).tag = (s.cache.buf b').tag →
    s.assigned b = false ∧ s.assigned b' = false

/-- No step retags a buffer with a reference or with `B_DIRTY` set. -/
def RetagsFree (s : Bio Pid) : Prop :=
  ∀ p op s', s.step p op = some (.ok s') → ∀ b, (s'.cache.buf b).tag ≠ (s.cache.buf b).tag →
    (s.cache.buf b).refcnt = 0 ∧ (s.cache.buf b).dirty = false

theorem Inv.readsLatest {s : Bio Pid} (hI : s.Inv) : s.ReadsLatest := by
  intro p b dev blockno s' hp h
  have hI' := hI.step h
  obtain ⟨x, dev', blockno', y, hx, -, rfl, -, hyv, -, hytag, -⟩ := hI.wake_eq h
  rw [hp] at hx
  obtain ⟨rfl, rfl, rfl⟩ := BufPhase.reading.inj hx
  have htag : y.tag = (dev, blockno) := hytag.trans (hI.reading_tag p b dev blockno hp)
  have hdata := hI'.data_latest b (by simpa using hyv)
  simp only [BCache.setBuf_self] at hdata ⊢
  exact ⟨htag, hdata.trans (congrArg _ htag)⟩

theorem Inv.tagsDistinct {s : Bio Pid} (hI : s.Inv) : s.TagsDistinct := by
  intro b b' hne ht
  constructor
  · cases hb : s.assigned b
    · rfl
    · exact absurd ht.symm (hI.assigned_unique b b' hb (Ne.symm hne))
  · cases hb' : s.assigned b'
    · rfl
    · exact absurd ht (hI.assigned_unique b' b hb' hne)

end Bio

/-- The buffer cache is coherent in every state that an interleaving of `bread`, `bwrite`,
`log_write` and `brelse` calls reaches from `binit`, with each process changing only a buffer
it holds and marking each change with `bwrite` or `log_write` before `brelse`: `bread`
returns the block's latest data, buffers that `bget` has tagged carry distinct tags,
recycling takes only unreferenced clean buffers, and the list holds every buffer once. -/
theorem bcache_coherent {Pid : Type} [DecidableEq Pid] [Fintype Pid] {s : Bio Pid}
    (h : s.Reachable) : s.ReadsLatest ∧ s.TagsDistinct ∧ s.RetagsFree ∧ ∃ l, s.cache.Ring l := by
  have hI := h.inv
  exact ⟨hI.readsLatest, hI.tagsDistinct, fun _ _ _ hstep b hb => hI.retag hstep b hb, hI.ring⟩

/-- Two processes share a block: the first reads block `5` of device `1` into buffer `0`,
changes it, writes it back and releases it; the second's `bread` then finds the buffer by its tag
and will read the new data. -/
theorem bcache_coherent_shared :
    ∃ s : Bio Bool, s.Reachable ∧ s.proc true = .reading ⟨0, by decide⟩ 1 5 ∧
      s.latest (1, 5) ⟨0, by decide⟩ = 7 ∧ s.disk (1, 5) ⟨0, by decide⟩ = 7 ∧
      (s.ReadsLatest ∧ s.TagsDistinct ∧ s.RetagsFree ∧ ∃ l, s.cache.Ring l) := by
  obtain ⟨s, run, shared⟩ : ∃ s : Bio Bool, s.Reachable ∧ (s.proc true = .reading ⟨0, by decide⟩ 1 5 ∧
      s.latest (1, 5) ⟨0, by decide⟩ = 7 ∧ s.disk (1, 5) ⟨0, by decide⟩ = 7) :=
    ⟨_, .step true (.bread 1 5) (.step false .release (.step false (.brelse ⟨0, by decide⟩)
      (.step false (.bwrite ⟨0, by decide⟩) (.step false (.write ⟨0, by decide⟩ fun _ => 7)
      (.step false .wake (.step false (.bread 1 5) (.boot fun _ => zeroBlock) rfl) rfl) rfl) rfl)
      rfl) rfl) rfl, by decide⟩
  exact ⟨s, run, shared.1, shared.2.1, shared.2.2, bcache_coherent run⟩

end Xv6
