import Xv6.Log.Disk
import Mathlib.Data.List.Nodup

/-!
# What `commit` writes

For a transaction of `n` distinct home blocks outside the log region, `commit` issues
exactly the single-block writes `Sys.commitWrites` lists, in that order
(`Sys.commit_eq`):

1. the `n` log copies of `write_log` (`Sys.logCopies`): block `log.start+2+i` gets the
   cached contents of home block `i`;
2. the checksum block of `write_checksum`, whose first word is `Sys.txnChecksum`, the sum
   of the `n` blocks from `log.start+1` as `write_log` leaves them;
3. the header that commits (`write_head` with `log.lh.n = n`);
4. the `n` home blocks of `install_trans` (`Sys.installs`);
5. the header that clears the log (`write_head` with `log.lh.n = 0`).

`Sys.foldlM_range_of_writes` is the loop rule the three loops share: a loop whose
iteration `i` issues one write, computed from the state the earlier iterations leave,
issues the list of those writes.
-/

namespace Xv6
namespace Sys

/-! ## Runs of `bwrite` -/

/-- `s` after the writes `ws`, issued in order. -/
def bwriteAll (s : Sys) (ws : List (Nat × Block)) : Sys :=
  { s with view := Writes.apply ws s.view, writes := s.writes ++ ws }

@[simp] theorem bwriteAll_log (s : Sys) (ws : List (Nat × Block)) :
    (s.bwriteAll ws).log = s.log := rfl

@[simp] theorem bwriteAll_view (s : Sys) (ws : List (Nat × Block)) :
    (s.bwriteAll ws).view = Writes.apply ws s.view := rfl

@[simp] theorem bwriteAll_writes (s : Sys) (ws : List (Nat × Block)) :
    (s.bwriteAll ws).writes = s.writes ++ ws := rfl

theorem bwriteAll_nil (s : Sys) : s.bwriteAll [] = s := by
  rcases s with ⟨log, view, writes⟩
  simp only [bwriteAll, Writes.apply_nil, List.append_nil]

theorem bwriteAll_append (s : Sys) (ws vs : List (Nat × Block)) :
    (s.bwriteAll ws).bwriteAll vs = s.bwriteAll (ws ++ vs) := by
  simp only [bwriteAll, Writes.apply_append, List.append_assoc]

theorem bwrite_eq_bwriteAll (s : Sys) (b : Nat) (blk : Block) :
    s.bwrite b blk = s.bwriteAll [(b, blk)] := rfl

/-- The loop rule: when iteration `i`, run from the state the iterations before it leave,
issues the single write `w i`, the loop issues the writes `w 0, …, w (n-1)`. -/
theorem foldlM_range_of_writes {body : Sys → Nat → Except Fault Sys} (s : Sys)
    (w : Nat → Nat × Block) (n : Nat)
    (step : ∀ i < n, body (s.bwriteAll ((List.range i).map w)) i =
      .ok ((s.bwriteAll ((List.range i).map w)).bwrite (w i).1 (w i).2)) :
    (List.range n).foldlM body s = .ok (s.bwriteAll ((List.range n).map w)) := by
  induction n with
  | zero => simp only [List.range_zero, List.foldlM_nil, List.map_nil, bwriteAll_nil, except_pure]
  | succ n ih =>
      rw [List.range_succ, List.foldlM_append, ih (fun i hi => step i (by omega)),
        except_ok_bind, List.foldlM_cons, step n (by omega), except_ok_bind, List.foldlM_nil,
        except_pure, bwrite_eq_bwriteAll, bwriteAll_append, List.map_append]
      rfl

/-! ## Transactions -/

/-- A transaction `commit` is given: `log.lh` holds `n = homes.length` distinct block
numbers, below `FSSIZE` and outside the blocks `log.start .. log.start+n+1` that commit
writes in the log region, and those log blocks lie below `FSSIZE`.  `n ≤ LOGSIZE - 2` is
what the panic check of `log_write` keeps. -/
structure Txn (s : Sys) (homes : List Nat) : Prop where
  count : s.log.lh.n = homes.length
  pos : 0 < homes.length
  fits : homes.length ≤ logSize - 2
  slots : ∀ (k : Fin logSize) (hk : k.val < homes.length), s.log.lh.block k = homes[k.val]
  nodup : homes.Nodup
  homes_lt : ∀ h ∈ homes, h < fsSize
  homes_out : ∀ h ∈ homes, h < s.log.start ∨ s.log.start + 2 + homes.length ≤ h
  region : s.log.start + 2 + homes.length ≤ fsSize

/-- The copies `write_log` makes. -/
def logCopies (s : Sys) (homes : List Nat) : List (Nat × Block) :=
  (List.range homes.length).map fun i => (s.log.start + i + 1 + 1, s.view (homes.getD i 0))

/-- The checksum `write_checksum` computes and stores for the transaction. -/
def txnChecksum (s : Sys) (homes : List Nat) : UInt32 :=
  blocksSum (Writes.apply (s.logCopies homes) s.view) (s.log.start + 1) homes.length %
    UInt32.ofNat bsize

/-- The header block `write_head` builds on `buf` for the header `lh`, once every slot it
fills lies below `LOGSIZE`. -/
def headerBlock (buf : Block) (lh : LogHeader) : Block :=
  (List.range lh.n.toNat).foldl
    (fun hb i => if h : i < logSize then hb.setInt (slotWord ⟨i, h⟩) (lh.block ⟨i, h⟩) else hb)
    (buf.setInt 0 lh.n)

theorem slotWord_ne_zero (k : Fin logSize) : slotWord k ≠ 0 := by
  intro h
  have := congrArg Fin.val h
  simp only [slotWord, Fin.val_zero] at this
  omega

theorem slotWord_injective {k k' : Fin logSize} (h : slotWord k = slotWord k') : k = k' := by
  have := congrArg Fin.val h
  simp only [slotWord] at this
  exact Fin.ext (by omega)

/-- The slot-filling loop of `write_head` leaves the count word alone, and leaves slot `k`
holding `lh.block k` once it has passed `k`. -/
theorem headerLoop_int (lh : LogHeader) (b : Block) (m : Nat) :
    ((List.range m).foldl (fun hb i => if h : i < logSize then
        hb.setInt (slotWord ⟨i, h⟩) (lh.block ⟨i, h⟩) else hb) b).int 0 = b.int 0 ∧
    ∀ k : Fin logSize, k.val < m → -2 ^ 31 ≤ lh.block k → lh.block k < 2 ^ 31 →
      ((List.range m).foldl (fun hb i => if h : i < logSize then
        hb.setInt (slotWord ⟨i, h⟩) (lh.block ⟨i, h⟩) else hb) b).int (slotWord k) = lh.block k := by
  induction m with
  | zero => exact ⟨rfl, fun k hk => absurd hk (Nat.not_lt_zero _)⟩
  | succ m ih =>
      obtain ⟨countKept, slotsKept⟩ := ih
      rw [List.range_succ, List.foldl_append, List.foldl_cons, List.foldl_nil]
      by_cases hm : m < logSize
      · rw [dif_pos hm]
        refine ⟨by rw [Block.setInt_int_of_ne _ _ (slotWord_ne_zero _).symm, countKept],
          fun k hk lo hi => ?_⟩
        by_cases hkm : k = ⟨m, hm⟩
        · subst hkm
          exact Block.setInt_int_self _ _ lo hi
        · rw [Block.setInt_int_of_ne _ _ (fun h => hkm (slotWord_injective h))]
          have hne : k.val ≠ m := fun h => hkm (Fin.ext h)
          exact slotsKept k (by omega) lo hi
      · rw [dif_neg hm]
        exact ⟨countKept, fun k hk => slotsKept k (by have := k.isLt; omega)⟩

/-- The header `write_head` writes reads back as the count and the first `n` slots. -/
theorem headerBlock_int (buf : Block) (lh : LogHeader) (lo : -2 ^ 31 ≤ lh.n)
    (hi : lh.n < 2 ^ 31) :
    (headerBlock buf lh).int 0 = lh.n ∧
    ∀ k : Fin logSize, k.val < lh.n.toNat → -2 ^ 31 ≤ lh.block k → lh.block k < 2 ^ 31 →
      (headerBlock buf lh).int (slotWord k) = lh.block k := by
  obtain ⟨countKept, slotsSet⟩ := headerLoop_int lh (buf.setInt 0 lh.n) lh.n.toNat
  exact ⟨by rw [headerBlock, countKept, Block.setInt_int_self _ _ lo hi], slotsSet⟩

/-- The installation writes of `install_trans`: home block `i` gets `v i`, the contents of
its log block. -/
def installs (homes : List Nat) (v : Nat → Block) : List (Nat × Block) :=
  (List.range homes.length).map fun i => (homes.getD i 0, v i)

/-- Every write `commit` issues for the transaction, in order. -/
def commitWrites (s : Sys) (homes : List Nat) : List (Nat × Block) :=
  let v1 := Writes.apply (s.logCopies homes) s.view
  let header := headerBlock (s.view (s.log.start + 1)) s.log.lh
  s.logCopies homes ++
    [(s.log.start, (v1 s.log.start).setWord 0 (s.txnChecksum homes)),
     (s.log.start + 1, header)] ++
    installs homes (fun i => s.view (homes.getD i 0)) ++
    [(s.log.start + 1, headerBlock header { s.log.lh with n := 0 })]

/-! ## The transaction's block numbers -/

namespace Txn

variable {s : Sys} {homes : List Nat} (t : Txn s homes)
include t

theorem slot_lt {i : Nat} (hi : i < homes.length) : i < logSize := by
  have := t.fits
  unfold logSize maxOpBlocks at *
  omega

omit t in
theorem home_mem {i : Nat} (hi : i < homes.length) : homes.getD i 0 ∈ homes := by
  rw [List.getD_eq_getElem _ _ hi]
  exact List.getElem_mem hi

theorem home_lt {i : Nat} (hi : i < homes.length) : homes.getD i 0 < fsSize :=
  t.homes_lt _ (home_mem hi)

/-- A home block is none of the blocks `commit` writes in the log region. -/
theorem home_ne_log {i : Nat} (hi : i < homes.length) {j : Nat} (hj : j ≤ homes.length + 1) :
    homes.getD i 0 ≠ s.log.start + j := by
  rcases t.homes_out _ (home_mem hi) with below | above <;> omega

/-- `log.lh.block[i]`, as `bread` receives it, is home block `i`. -/
theorem toUint_block {i : Nat} (hi : i < homes.length) (h : i < logSize) :
    toUint (s.log.lh.block ⟨i, h⟩) = homes.getD i 0 := by
  rw [t.slots ⟨i, h⟩ hi, ← List.getD_eq_getElem _ 0 hi]
  apply toUint_ofNat
  have := t.home_lt hi
  unfold fsSize at this
  omega

theorem count_toNat : s.log.lh.n.toNat = homes.length := by
  rw [t.count, Int.toNat_natCast]

/-- Distinct slots hold distinct home blocks. -/
theorem home_inj {i j : Nat} (hi : i < homes.length) (hj : j < homes.length)
    (h : homes.getD i 0 = homes.getD j 0) : i = j := by
  rw [List.getD_eq_getElem _ _ hi, List.getD_eq_getElem _ _ hj] at h
  exact (List.Nodup.getElem_inj_iff t.nodup).mp h

end Txn

/-! ## The routines, one by one -/

theorem writeLog_eq {s : Sys} {homes : List Nat} (t : Txn s homes) :
    s.writeLog = .ok (s.bwriteAll (s.logCopies homes)) := by
  unfold writeLog logCopies
  rw [t.count_toNat]
  apply foldlM_range_of_writes
  intro i hi
  have hslot := t.slot_lt hi
  have logLt : s.log.start + i + 1 + 1 < fsSize := by have := t.region; omega
  -- the earlier copies went to log blocks, so the home block still reads as cached
  have homeKept : Writes.apply ((List.range i).map fun i =>
      (s.log.start + i + 1 + 1, s.view (homes.getD i 0))) s.view (homes.getD i 0) =
      s.view (homes.getD i 0) := by
    apply Writes.apply_of_forall_ne
    intro w hw heq
    obtain ⟨j, hj, rfl⟩ := List.mem_map.mp hw
    have hj' := List.mem_range.mp hj
    exact t.home_ne_log hi (j := j + 2) (by omega) (by rw [← heq]; omega)
  have homeNe : homes.getD i 0 ≠ s.log.start + i + 1 + 1 :=
    t.home_ne_log hi (j := i + 2) (by omega) |> fun h => by omega
  simp only [bread_of_lt _ logLt, except_ok_bind, slot_of_lt hslot, bwriteAll_log,
    t.toUint_block hi hslot, bread2_of_ne _ homeNe, bread_of_lt _ (t.home_lt hi),
    bwriteAll_view, homeKept, except_pure]


/-- The checksum `write_checksum` computes from the cache: the `log.lh.n` blocks from
`log.start+1`, summed, modulo `BSIZE`. -/
def storedChecksum (s : Sys) : UInt32 :=
  blocksSum s.view (s.log.start + 1) s.log.lh.n.toNat % UInt32.ofNat bsize

/-- `write_checksum` when the blocks it sums lie below `FSSIZE`. -/
theorem writeChecksum_of_le (s : Sys) (hle : s.log.start + 1 + s.log.lh.n.toNat ≤ fsSize) :
    s.writeChecksum = .ok ((s.setChecksum s.storedChecksum).bwrite s.log.start
      ((s.view s.log.start).setWord 0 s.storedChecksum)) := by
  have startLt : s.log.start < fsSize := by omega
  unfold writeChecksum
  simp only [sumBlocks_of_le _ hle, except_ok_bind, setChecksum_log_start, bread_of_lt _ startLt,
    bwrite_log, setChecksum_view, except_pure]
  rfl

/-- `check_checksum` right after `write_checksum` sums the same blocks again: the checksum
block `log.start` is not among them. -/
theorem checkChecksum_of_le (s : Sys) (hle : s.log.start + 1 + s.log.lh.n.toNat ≤ fsSize)
    (blk : Block) :
    ((s.setChecksum s.storedChecksum).bwrite s.log.start blk).checkChecksum = .ok true := by
  have sameSum : blocksSum (Function.update s.view s.log.start blk) (s.log.start + 1)
      s.log.lh.n.toNat = blocksSum s.view (s.log.start + 1) s.log.lh.n.toNat := by
    apply blocksSum_congr
    intro i _
    exact Function.update_of_ne (by omega) _ _
  unfold checkChecksum
  simp only [bwrite_log, setChecksum_log_start, setChecksum_log_lh, sumBlocks_of_le _ hle,
    except_ok_bind, bwrite_view, setChecksum_view, sameSum, setChecksum_log_checksum,
    except_pure]
  rw [storedChecksum, beq_self_eq_true]

/-- After the copies, the checksum `write_checksum` computes is the transaction's. -/
theorem storedChecksum_logCopies {s : Sys} {homes : List Nat} (t : Txn s homes) :
    (s.bwriteAll (s.logCopies homes)).storedChecksum = s.txnChecksum homes := by
  simp only [storedChecksum, txnChecksum, bwriteAll_view, bwriteAll_log, t.count_toNat]

/-- `write_checksum` after the copies: the transaction's checksum, in `log.checksum` and in
the first word of block `log.start`. -/
theorem writeChecksum_eq {s : Sys} {homes : List Nat} (t : Txn s homes) :
    (s.bwriteAll (s.logCopies homes)).writeChecksum =
      .ok (((s.bwriteAll (s.logCopies homes)).setChecksum (s.txnChecksum homes)).bwrite
        s.log.start
        ((Writes.apply (s.logCopies homes) s.view s.log.start).setWord 0 (s.txnChecksum homes))) := by
  have sumFits : s.log.start + 1 + (s.bwriteAll (s.logCopies homes)).log.lh.n.toNat ≤ fsSize := by
    rw [bwriteAll_log, t.count_toNat]
    have := t.region
    omega
  rw [writeChecksum_of_le (s.bwriteAll (s.logCopies homes)) sumFits,
    storedChecksum_logCopies t]
  rfl

/-- `write_head` with every filled slot below `LOGSIZE`. -/
theorem writeHead_eq (s : Sys) (hn : s.log.lh.n.toNat ≤ logSize)
    (hlt : s.log.start + 1 < fsSize) :
    s.writeHead =
      .ok (s.bwrite (s.log.start + 1) (headerBlock (s.view (s.log.start + 1)) s.log.lh)) := by
  unfold writeHead headerBlock
  rw [bread_of_lt _ hlt, except_ok_bind, foldlM_except_ok]
  · rfl
  · intro i hi hb
    have hslot : i < logSize := by have := List.mem_range.mp hi; omega
    rw [slot_of_lt hslot, except_ok_bind, dif_pos hslot]
    rfl

/-- The log copies leave block `log.start+2+i` holding home block `i`'s cached contents. -/
theorem logCopies_apply {s : Sys} {homes : List Nat} (d : Disk) {i : Nat}
    (hi : i < homes.length) :
    Writes.apply (s.logCopies homes) d (s.log.start + i + 1 + 1) = s.view (homes.getD i 0) := by
  unfold logCopies
  exact Writes.apply_map_of_injOn (a := fun i => s.log.start + i + 1 + 1)
    (v := fun i => s.view (homes.getD i 0)) List.nodup_range
    (fun y _ z _ hyz => by omega) (List.mem_range.mpr hi) d

/-- `check_checksum` right after `write_checksum` sums the same blocks again. -/
theorem checkChecksum_eq_true {s : Sys} {homes : List Nat} (t : Txn s homes) (blk : Block) :
    (((s.bwriteAll (s.logCopies homes)).setChecksum (s.txnChecksum homes)).bwrite
      s.log.start blk).checkChecksum = .ok true := by
  have sumFits : s.log.start + 1 + (s.bwriteAll (s.logCopies homes)).log.lh.n.toNat ≤ fsSize := by
    rw [bwriteAll_log, t.count_toNat]
    have := t.region
    omega
  have checked := checkChecksum_of_le (s.bwriteAll (s.logCopies homes)) sumFits blk
  rwa [storedChecksum_logCopies t] at checked

/-- `install_trans` from a state whose log block `log.start+2+i` holds `v i`. -/
theorem installTrans_eq {s s3 : Sys} {homes : List Nat} (t : Txn s homes) {v : Nat → Block}
    (hlh : s3.log.lh = s.log.lh) (hstart : s3.log.start = s.log.start)
    (hcopies : ∀ i < homes.length, s3.view (s.log.start + i + 1 + 1) = v i) :
    s3.installTrans = .ok (s3.bwriteAll (installs homes v)) := by
  unfold installTrans installs
  rw [hlh, t.count_toNat]
  apply foldlM_range_of_writes
  intro i hi
  have hslot := t.slot_lt hi
  have logLt : s.log.start + i + 1 + 1 < fsSize := by have := t.region; omega
  -- the earlier installations went to home blocks, so the log copy is still there
  have copyKept : Writes.apply ((List.range i).map fun i => (homes.getD i 0, v i)) s3.view
      (s.log.start + i + 1 + 1) = v i := by
    rw [Writes.apply_of_forall_ne, hcopies i hi]
    intro w hw heq
    obtain ⟨j, hj, rfl⟩ := List.mem_map.mp hw
    have hj' := List.mem_range.mp hj
    dsimp only at heq
    exact t.home_ne_log (i := j) (by omega) (j := i + 2) (by omega) (by omega)
  have homeNe : homes.getD i 0 ≠ s.log.start + i + 1 + 1 :=
    t.home_ne_log hi (j := i + 2) (by omega) |> fun h => by omega
  simp only [bwriteAll_log, hstart, hlh, bread_of_lt _ logLt, except_ok_bind, bwriteAll_view,
    copyKept, slot_of_lt hslot, t.toUint_block hi hslot, bread2_of_ne _ homeNe,
    bread_of_lt _ (t.home_lt hi), except_pure]

/-! ## The whole of `commit` -/

/-- The header block is not among the log copies. -/
theorem logCopies_header {s : Sys} {homes : List Nat} (d : Disk) :
    Writes.apply (s.logCopies homes) d (s.log.start + 1) = d (s.log.start + 1) := by
  apply Writes.apply_of_forall_ne
  intro w hw heq
  obtain ⟨i, -, rfl⟩ := List.mem_map.mp (by simpa only [logCopies] using hw)
  dsimp only at heq
  omega

/-- **What `commit` writes**: for a transaction, `commit` returns, the writes it issued
are `commitWrites`, in order, and it leaves `log.lh.n = 0`. -/
theorem commit_eq {s : Sys} {homes : List Nat} (t : Txn s homes) :
    ∃ s', s.commit = .ok s' ∧ s'.writes = s.writes ++ s.commitWrites homes ∧
      s'.log.lh.n = 0 := by
  have hpos : 0 < s.log.lh.n := by
    rw [t.count]
    exact_mod_cast t.pos
  have headerLt : s.log.start + 1 < fsSize := by have := t.region; omega
  have hfits : s.log.lh.n.toNat ≤ logSize := by
    rw [t.count_toNat]
    have := t.fits
    omega
  -- after `write_log` and `write_checksum`
  let c := s.txnChecksum homes
  let ck := (Writes.apply (s.logCopies homes) s.view s.log.start).setWord 0 c
  let s2 := ((s.bwriteAll (s.logCopies homes)).setChecksum c).bwrite s.log.start ck
  let hdr := headerBlock (s.view (s.log.start + 1)) s.log.lh
  have start2 : s2.log.start = s.log.start := rfl
  have lh2 : s2.log.lh = s.log.lh := rfl
  have head2 : s2.writeHead = .ok (s2.bwrite (s.log.start + 1) hdr) := by
    have cached : s2.view (s.log.start + 1) = s.view (s.log.start + 1) := by
      simp only [s2, bwrite_view, setChecksum_view, bwriteAll_view]
      rw [Function.update_of_ne (by omega), logCopies_header]
    rw [writeHead_eq s2 (by rw [lh2]; exact hfits) (by rw [start2]; exact headerLt), start2,
      cached, lh2]
  -- after the header that commits, `install_trans`
  let s3 := s2.bwrite (s.log.start + 1) hdr
  let inst := installs homes (fun i => s.view (homes.getD i 0))
  have install3 : s3.installTrans = .ok (s3.bwriteAll inst) := by
    refine installTrans_eq t (show s3.log.lh = s.log.lh from rfl)
      (show s3.log.start = s.log.start from rfl) ?_
    intro i hi
    simp only [s3, s2, bwrite_view, setChecksum_view, bwriteAll_view]
    rw [Function.update_of_ne (by omega), Function.update_of_ne (by omega), logCopies_apply _ hi]
  -- the header that clears the log
  let s4 := (s3.bwriteAll inst).setN 0
  have start4 : s4.log.start = s.log.start := rfl
  have lh4 : s4.log.lh = { s.log.lh with n := 0 } := rfl
  have head4 : s4.writeHead =
      .ok (s4.bwrite (s.log.start + 1) (headerBlock hdr { s.log.lh with n := 0 })) := by
    have cached : s4.view (s.log.start + 1) = hdr := by
      simp only [s4, s3, setN_view, bwriteAll_view, bwrite_view]
      rw [Writes.apply_of_forall_ne, Function.update_self]
      intro w hw heq
      obtain ⟨i, hi, rfl⟩ := List.mem_map.mp (by simpa only [inst, installs] using hw)
      exact t.home_ne_log (List.mem_range.mp hi) (j := 1) (by omega) heq
    rw [writeHead_eq s4 (by rw [lh4]; simp) (by rw [start4]; exact headerLt), start4, cached,
      lh4]
  refine ⟨s4.bwrite (s.log.start + 1) (headerBlock hdr { s.log.lh with n := 0 }), ?_, ?_, rfl⟩
  · unfold commit commitChecked
    rw [if_pos hpos, writeLog_eq t, except_ok_bind, writeChecksum_eq t, except_ok_bind,
      checkChecksum_eq_true t, except_ok_bind, if_pos rfl, head2, except_ok_bind, install3,
      except_ok_bind]
    exact head4
  · simp only [s4, s3, s2, commitWrites, bwrite_writes, setN_writes, bwriteAll_writes,
      setChecksum_writes, List.append_assoc, List.cons_append, List.nil_append]
    rfl

end Sys

end Xv6
