import Xv6.Log.Recover
import Xv6.Lib.WeightedSum
import Mathlib.Algebra.BigOperators.Fin

/-!
# What the log checksum detects

`write_checksum` and `check_checksum` add `(j+1) * data[j]` over every byte `j` of the blocks
`log.start+1 .. log.start+n` in a 32-bit word, and compare the remainders modulo `BSIZE`.
Modulo `512` the word holds the weighted sum of those bytes (`Sys.blocksSum_emod`), so the
library's `WeightedSum.total_update_emod_eq_iff` decides which changes the comparison sees:

* `Sys.checkChecksum_setByte`: after `write_checksum`, a change of byte `j` of a summed block
  from `a` to `b` leaves `check_checksum` true exactly when `512` divides `(j+1) * (b - a)`;
* `Sys.commit_detects_byte_iff`: for the data blocks `log.start+2 .. log.start+n`, `commit`
  then stops with its checksum panic exactly when `512` does not divide it;
* `Sys.missed_last_byte`: a change of the last byte of a data block, whose weight is `512`,
  passes.
-/

namespace Xv6
namespace Sys

/-! ## The sums, block by block -/

theorem blocksSum_succ (view : Disk) (first n : Nat) :
    blocksSum view first (n + 1) = addBlock (blocksSum view first n) (view (first + n)) := by
  unfold blocksSum
  rw [List.range_succ, List.foldl_append, List.foldl_cons, List.foldl_nil]

theorem sumBlocks_succ (s : Sys) (first n : Nat) :
    s.sumBlocks first (n + 1) = (do
      let acc ← s.sumBlocks first n
      let blk ← s.bread (first + n)
      pure (addBlock acc blk)) := by
  unfold sumBlocks
  rw [List.range_succ, List.foldlM_append]
  simp only [List.foldlM_cons, List.foldlM_nil, bind_pure]

/-- The checksum loop reads the blocks `first .. first+n-1`: it returns their sum when they
all lie below `FSSIZE`, and stops with `idestart`'s panic otherwise. -/
theorem sumBlocks_eq (s : Sys) (first n : Nat) :
    s.sumBlocks first n = if first + n ≤ fsSize ∨ n = 0 then .ok (blocksSum s.view first n)
      else .error (.panic "incorrect blockno") := by
  induction n with
  | zero =>
      rw [if_pos (Or.inr rfl)]
      rfl
  | succ n ih =>
      rw [sumBlocks_succ, ih, blocksSum_succ]
      by_cases inRange : first + (n + 1) ≤ fsSize
      · rw [if_pos (Or.inl (by omega)), except_ok_bind, bread_of_lt _ (by omega),
          except_ok_bind, if_pos (Or.inl inRange)]
        rfl
      · have outside : ¬(first + (n + 1) ≤ fsSize ∨ n + 1 = 0) := by omega
        rw [if_neg outside]
        split
        · rename_i readable
          have past : ¬first + n < fsSize := by omega
          rw [except_ok_bind, bread, if_neg past, except_error_bind]
        · rw [except_error_bind]

/-- Modulo `512`, `addBlock` adds the block's weighted byte sum. -/
theorem addBlock_emod (acc : UInt32) (blk : Block) :
    (addBlock acc blk).toNat % bsize =
      (acc.toNat + ∑ j : Fin bsize, (j.val + 1) * (blk j).toNat) % bsize := by
  rw [addBlock, WeightedSum.foldl_uint32_emod _ _ _ (by decide), Fin.sum_univ_def]

/-- Modulo `512`, the checksum loops compute the weighted byte sum of their blocks. -/
theorem blocksSum_emod_range (view : Disk) (first n : Nat) :
    (blocksSum view first n).toNat % bsize =
      (∑ i ∈ Finset.range n, ∑ j : Fin bsize, (j.val + 1) * (view (first + i) j).toNat) %
        bsize := by
  induction n with
  | zero => rfl
  | succ n ih =>
      rw [blocksSum_succ, addBlock_emod, Nat.add_mod, ih, ← Nat.add_mod,
        Finset.sum_range_succ]

/-! ## The checksum as a weighted sum -/

/-- The weight the checksum loops give byte `j` of every block: `j + 1`. -/
def byteWeight (n : Nat) (p : Fin n × Fin bsize) : ℤ := p.2.val + 1

/-- The bytes of the blocks `first .. first+n-1`, by block and position. -/
def logBytes (view : Disk) (first n : Nat) (p : Fin n × Fin bsize) : ℤ :=
  (view (first + p.1) p.2).toNat

/-- Modulo `512`, the checksum loops compute `WeightedSum.total` of the blocks' bytes. -/
theorem blocksSum_emod (view : Disk) (first n : Nat) :
    ((blocksSum view first n).toNat : ℤ) % bsize =
      WeightedSum.total (byteWeight n) (logBytes view first n) % bsize := by
  have range := congrArg (fun x : Nat => (x : ℤ)) (blocksSum_emod_range view first n)
  simp only [Int.natCast_mod, Nat.cast_sum, Nat.cast_mul, Nat.cast_add, Nat.cast_one] at range
  rw [range, WeightedSum.total, Fintype.sum_prod_type,
    ← Fin.sum_univ_eq_sum_range (fun i => ∑ j : Fin bsize,
      ((j.val : ℤ) + 1) * ((view (first + i) j).toNat : ℤ)) n]
  rfl

/-- Two checksums agree modulo `BSIZE` when their values do. -/
theorem uint32_emod_eq_iff (x y : UInt32) :
    x % UInt32.ofNat bsize = y % UInt32.ofNat bsize ↔
      (x.toNat : ℤ) % bsize = (y.toNat : ℤ) % bsize := by
  rw [← UInt32.toNat_inj, UInt32.toNat_mod, UInt32.toNat_mod,
    show (UInt32.ofNat bsize).toNat = 512 from rfl, show bsize = 512 from rfl]
  omega

/-! ## A byte changed after `write_checksum` -/

/-- Byte `j` of block `b`, as `bread` returns it, changed to `v`. -/
def setByte (s : Sys) (b : Nat) (j : Fin bsize) (v : UInt8) : Sys :=
  { s with view := Function.update s.view b (Function.update (s.view b) j v) }

@[simp] theorem setByte_log (s : Sys) (b : Nat) (j : Fin bsize) (v : UInt8) :
    (s.setByte b j v).log = s.log := rfl

/-- Changing byte `j` of the `i`-th summed block changes one position of `logBytes`. -/
theorem logBytes_setByte (s : Sys) {first n i : Nat} (hi : i < n) (j : Fin bsize) (v : UInt8) :
    logBytes (s.setByte (first + i) j v).view first n =
      Function.update (logBytes s.view first n) (⟨i, hi⟩, j) (v.toNat : ℤ) := by
  funext p
  obtain ⟨k, l⟩ := p
  by_cases hk : k.val = i
  · obtain rfl : k = ⟨i, hi⟩ := Fin.ext hk
    by_cases hl : l = j
    · subst hl
      simp only [logBytes, setByte, Function.update_self]
    · have hne : ((⟨i, hi⟩ : Fin n), l) ≠ (⟨i, hi⟩, j) := fun h => hl (Prod.mk.inj h).2
      simp only [logBytes, setByte, Function.update_self, Function.update_of_ne hl,
        Function.update_of_ne hne]
  · have hne : (k, l) ≠ (⟨i, hi⟩, j) := fun h => hk (by rw [(Prod.mk.inj h).1])
    have hb : first + k.val ≠ first + i := by omega
    simp only [logBytes, setByte, Function.update_of_ne hb, Function.update_of_ne hne]

/-- What `write_checksum` leaves when it returns: the blocks it summed lie below `FSSIZE`,
`log.checksum` holds their sum modulo `BSIZE`, and only the checksum block changed. -/
theorem writeChecksum_ok {s s₁ : Sys} (h : s.writeChecksum = .ok s₁) :
    (s.log.start + 1 + s.log.lh.n.toNat ≤ fsSize ∨ s.log.lh.n.toNat = 0) ∧
    s₁.log.start = s.log.start ∧ s₁.log.lh = s.log.lh ∧
    s₁.log.checksum = blocksSum s.view (s.log.start + 1) s.log.lh.n.toNat % UInt32.ofNat bsize ∧
    ∀ b ≠ s.log.start, s₁.view b = s.view b := by
  unfold writeChecksum at h
  rw [sumBlocks_eq] at h
  split at h
  · rename_i readable
    rw [except_ok_bind] at h
    obtain ⟨blk, -, h⟩ := except_bind_eq_ok h
    obtain ⟨_, -, h⟩ := except_bind_eq_ok h
    obtain rfl := Except.ok.inj h
    exact ⟨readable, rfl, rfl, rfl, fun b hb => Function.update_of_ne hb _ _⟩
  · cases h

/-- `check_checksum` after `write_checksum` and a change of byte `j` of a summed block
`log.start+i` to `v`: true exactly when `512` divides the weighted change. -/
theorem checkChecksum_setByte {s s₁ : Sys} (h : s.writeChecksum = .ok s₁) {i : Nat}
    (hi : 1 ≤ i) (hin : i ≤ s.log.lh.n.toNat) (j : Fin bsize) (v : UInt8) :
    (s₁.setByte (s.log.start + i) j v).checkChecksum = .ok (decide ((bsize : ℤ) ∣
      (j.val + 1) * ((v.toNat : ℤ) - (s₁.view (s.log.start + i) j).toNat))) := by
  obtain ⟨readable, start₁, lh₁, checksum₁, kept⟩ := writeChecksum_ok h
  have fits : s.log.start + 1 + s.log.lh.n.toNat ≤ fsSize := readable.resolve_right (by omega)
  have block : s.log.start + i = s.log.start + 1 + (i - 1) := by omega
  -- `write_checksum` summed the blocks as they still are, the checksum block aside
  have sameSum : blocksSum s.view (s.log.start + 1) s.log.lh.n.toNat =
      blocksSum s₁.view (s.log.start + 1) s.log.lh.n.toNat :=
    blocksSum_congr (fun k _ => (kept _ (by omega)).symm)
  unfold checkChecksum
  rw [setByte_log, start₁, lh₁, sumBlocks_of_le _ fits, except_ok_bind, except_pure,
    checksum₁, sameSum, block]
  congr 1
  rw [Bool.eq_iff_iff, beq_iff_eq, decide_eq_true_iff, uint32_emod_eq_iff, blocksSum_emod,
    blocksSum_emod, logBytes_setByte s₁ (by omega : i - 1 < s.log.lh.n.toNat), eq_comm,
    WeightedSum.total_update_emod_eq_iff]
  rfl

/-- `commit` after `check_checksum`: it stops with its checksum panic exactly when the
check is false; a true check goes on to routines whose faults are log faults. -/
theorem commitChecked_panic_iff {s : Sys} {b : Bool} (hc : s.checkChecksum = .ok b) :
    s.commitChecked = .error (.panic "log checksum has a missmatch") ↔ b = false := by
  unfold commitChecked
  rw [hc, except_ok_bind]
  cases b with
  | false => exact ⟨fun _ => rfl, fun _ => rfl⟩
  | true =>
      refine ⟨fun h => ?_, fun h => Bool.noConfusion h⟩
      rw [if_pos rfl] at h
      have fault : LogFault (.panic "log checksum has a missmatch") := by
        rcases except_bind_eq_error h with hw | ⟨s₂, -, h⟩
        · exact writeHead_fault hw
        rcases except_bind_eq_error h with hi | ⟨s₃, -, hw⟩
        · exact installTrans_fault hi
        · exact writeHead_fault hw
      exact absurd fault (by unfold LogFault; decide)

/-- **What the checksum detects.**  After `write_checksum`, byte `j` of a data block
`log.start+i`, `2 ≤ i ≤ n`, changed to `v`: `check_checksum` returns false, and `commit`
stops with its checksum panic, exactly when `512` does not divide `j + 1` times the change. -/
theorem commit_detects_byte_iff {s s₁ : Sys} (h : s.writeChecksum = .ok s₁) {i : Nat}
    (hi : 2 ≤ i) (hin : i ≤ s.log.lh.n.toNat) (j : Fin bsize) (v : UInt8) :
    ((s₁.setByte (s.log.start + i) j v).checkChecksum = .ok false ↔
      ¬(bsize : ℤ) ∣ (j.val + 1) * ((v.toNat : ℤ) - (s₁.view (s.log.start + i) j).toNat)) ∧
    ((s₁.setByte (s.log.start + i) j v).commitChecked =
        .error (.panic "log checksum has a missmatch") ↔
      ¬(bsize : ℤ) ∣ (j.val + 1) * ((v.toNat : ℤ) - (s₁.view (s.log.start + i) j).toNat)) := by
  have check := checkChecksum_setByte h (by omega) hin j v
  rw [commitChecked_panic_iff check, check, Except.ok.injEq]
  exact ⟨decide_eq_false_iff_not, decide_eq_false_iff_not⟩

end Sys

/-! ## A change the checksum misses -/

/-- A log of two blocks at `log.start = 2` over a zeroed disk. -/
def zeroLog : Sys where
  log := ⟨2, 30, 0, ⟨2, fun _ => 0⟩⟩
  view := fun _ => zeroBlock
  writes := []

theorem commit_detects_byte_iff_zeroLog :
    let s₁ := (zeroLog.setChecksum (Sys.blocksSum zeroLog.view 3 2 % UInt32.ofNat bsize)).bwrite 2
      ((zeroLog.view 2).setWord 0 (Sys.blocksSum zeroLog.view 3 2 % UInt32.ofNat bsize))
    ((s₁.setByte (2 + 2) ⟨0, by decide⟩ 1).checkChecksum = .ok false ↔
      ¬(bsize : ℤ) ∣ (0 + 1) * (((1 : UInt8).toNat : ℤ) - (s₁.view (2 + 2) ⟨0, by decide⟩).toNat)) ∧
    ((s₁.setByte (2 + 2) ⟨0, by decide⟩ 1).commitChecked =
        .error (.panic "log checksum has a missmatch") ↔
      ¬(bsize : ℤ) ∣ (0 + 1) * (((1 : UInt8).toNat : ℤ) - (s₁.view (2 + 2) ⟨0, by decide⟩).toNat)) :=
  Sys.commit_detects_byte_iff (Sys.writeChecksum_of_le zeroLog (by decide)) (i := 2) (by decide)
    (by decide) ⟨0, by decide⟩ 1

/-- After `write_checksum`, the last byte of data block `log.start+2` changed from `0` to
`1`: its weight is `512`, and `check_checksum` still returns true. -/
theorem missed_last_byte :
    ∃ s₁, zeroLog.writeChecksum = .ok s₁ ∧ s₁.view 4 ⟨511, by decide⟩ ≠ 1 ∧
      (s₁.setByte 4 ⟨511, by decide⟩ 1).checkChecksum = .ok true := by
  have written := Sys.writeChecksum_of_le zeroLog (by decide)
  refine ⟨_, written, by decide, ?_⟩
  have check := Sys.checkChecksum_setByte written (i := 2) (by decide) (by decide)
    ⟨511, by decide⟩ 1
  exact check.trans (congrArg Except.ok (by decide))

end Xv6
