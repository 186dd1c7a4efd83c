import Xv6.Log.Crash
import Xv6.Log.Reserve
import Xv6.Bio.Cache

/-!
# A commit without a crash

`commit` run to its end on the log that `log_write` calls built: what it leaves on the
disk, in `log.lh` and in the buffers' `B_DIRTY` flags.

* `Machine.reachable_nodup`: in every state the log reaches, the logged block numbers are
  distinct, since `log_write` appends only a block it does not hold;
* `Sys.Txn.of_reachable`: a reachable log whose blocks lie below `FSSIZE` and outside the
  log region `[log.start, log.start+log.size)` is a transaction of `commit`;
* `Sys.commit_installs`: `commit` then returns, every logged home block on disk holds its
  cached contents, the header on disk and `log.lh.n` are `0`, the logged buffers are clean,
  and every block outside the home blocks and the log region is as it was;
* `Sys.commit_logged_header`: `log_write` takes any block number, and a transaction that
  logged the header block `log.start+1` has that block installed and then overwritten by
  the `write_head` that clears the log; `header_logged_not_installed` runs one.
-/

namespace Xv6

/-! ## `B_DIRTY` -/

namespace BCache

variable {Pid : Type} [DecidableEq Pid]

/-- `iderw` returns its buffer clean. -/
theorem iderw_clean {p : Pid} {disk disk' : Nat × Nat → Block} {x y : Buf Pid}
    (h : iderw p disk x = .ok (disk', y)) : y.dirty = false := by
  unfold iderw at h
  split_ifs at h <;> cases h <;> rfl

/-- `bwrite` returns its buffer clean: `iderw` wrote the block and cleared `B_DIRTY`. -/
theorem bwrite_clean {c c' : BCache Pid} {p : Pid} {disk disk' : Nat × Nat → Block}
    {b : Fin nbuf} (h : c.bwrite p disk b = .ok (disk', c')) : (c'.buf b).dirty = false := by
  unfold bwrite at h
  split at h
  · cases h
  · obtain ⟨⟨disk'', x⟩, written, ret⟩ := except_bind_eq_ok h
    cases ret
    rw [setBuf_self]
    exact iderw_clean written

end BCache

/-- The `B_DIRTY` flag of each block's cached buffer after the disk writes `ws`, from the
flags `dirty` before them: each write is a `bwrite` of that block's buffer, which returns it
clean (`BCache.bwrite_clean`), and a block no write names keeps its flag. -/
def dirtyAfter (dirty : Nat → Bool) (ws : List (Nat × Block)) (b : Nat) : Bool :=
  dirty b && !(ws.map Prod.fst).contains b

theorem dirtyAfter_of_mem {dirty : Nat → Bool} {ws : List (Nat × Block)} {b : Nat}
    {blk : Block} (hw : (b, blk) ∈ ws) : dirtyAfter dirty ws b = false := by
  have named : (ws.map Prod.fst).contains b = true :=
    List.elem_eq_true_of_mem (List.mem_map_of_mem hw)
  simp only [dirtyAfter, named, Bool.not_true, Bool.and_false]

/-- A block that no write names keeps its flag. -/
theorem dirtyAfter_of_forall_ne {dirty : Nat → Bool} {ws : List (Nat × Block)} {b : Nat}
    (h : ∀ w ∈ ws, w.1 ≠ b) : dirtyAfter dirty ws b = dirty b := by
  have unnamed : b ∉ ws.map Prod.fst := fun named => by
    obtain ⟨w, hw, rfl⟩ := List.mem_map.mp named
    exact h w hw rfl
  have named : (ws.map Prod.fst).contains b = false := by simpa using unnamed
  simp only [dirtyAfter, named, Bool.not_false, Bool.and_true]

/-! ## The logged blocks of a reachable log -/

namespace Machine

variable {ι : Type*} [DecidableEq ι] {m m' : Machine ι}

/-- One step keeps the logged blocks distinct: `log_write` appends only a block it does not
hold, the committing process empties the list, and the other steps leave it. -/
theorem nodup_step (nd : m.ctl.block.Nodup) (h : Step m m') : m'.ctl.block.Nodup := by
  obtain ⟨a, ha⟩ := h
  cases a with
  | beginOp i =>
    obtain ⟨-, c, admitted, rfl⟩ := act_beginOp ha
    obtain ⟨-, -, rfl⟩ := LogCtl.beginOp_some admitted
    exact nd
  | logWrite i b =>
    obtain ⟨L, -, -, c, written, rfl⟩ := act_logWrite ha
    obtain ⟨-, -, -, rfl⟩ := LogCtl.logWrite_ok written
    by_cases logged : b ∈ m.ctl.block
    · rw [if_pos logged]
      exact nd
    · rw [if_neg logged]
      exact List.Nodup.append nd (List.nodup_singleton b)
        (List.disjoint_singleton.mpr logged)
  | endOp i =>
    obtain ⟨L, -, c, doCommit, ended, rfl⟩ := act_endOp ha
    obtain ⟨-, -, rfl⟩ := LogCtl.endOp_ok ended
    exact nd
  | commit i =>
    obtain ⟨-, rfl⟩ := act_commit ha
    exact List.nodup_nil

/-- In every reachable state the logged blocks are distinct. -/
theorem reachable_nodup (h : m.Reachable) : m.ctl.block.Nodup := by
  induction h with
  | refl => exact List.nodup_nil
  | tail _ step ih => exact nodup_step ih step

/-- A schedule run from a reachable state, to its end, reaches a reachable state. -/
theorem run_reachable {as : List (Action ι)} (hm : m.Reachable) (h : m.run as = .ok (some m')) :
    m'.Reachable := by
  induction as generalizing m with
  | nil =>
    obtain rfl := Option.some.inj (Except.ok.inj h)
    exact hm
  | cons a as ih =>
    unfold run at h
    split at h
    · rename_i next stepped
      exact ih (hm.tail ⟨a, stepped⟩) h
    · cases h
    · cases h

end Machine

namespace Sys

/-- The disk routines' `struct log` holds the log `l` that `begin_op`, `log_write` and
`end_op` keep: the same `log.size`, and in `log.lh` the logged blocks. -/
structure Holds (s : Sys) (l : LogCtl) : Prop where
  size : s.log.size = l.size
  count : s.log.lh.n = l.block.length
  slots : ∀ (k : Fin logSize) (hk : k.val < l.block.length), s.log.lh.block k = l.block[k.val]

/-- Where the logged blocks lie: below `FSSIZE`, as every block `bread` gave a buffer for
does, and outside the log region, which itself lies below `FSSIZE`. -/
structure Placed (s : Sys) (homes : List Nat) : Prop where
  homes_lt : ∀ h ∈ homes, h < fsSize
  homes_out : ∀ h ∈ homes, h < s.log.start ∨ s.log.start + s.log.size ≤ h
  region : s.log.start + s.log.size ≤ fsSize

/-- A log held in `struct log`, with distinct blocks, at least one, room for the header and
checksum blocks in `log.size`, within the panic bound of `log_write`, and placed outside
the log region, is a transaction of `commit`. -/
theorem Txn.of_holds {s : Sys} {l : LogCtl} (hs : s.Holds l) (nd : l.block.Nodup)
    (pos : l.block ≠ []) (room : l.block.length + 2 ≤ l.size) (fits : l.block.length ≤ logSize - 2)
    (placed : s.Placed l.block) : Txn s l.block := by
  have size := hs.size
  exact {
    count := hs.count
    pos := List.length_pos_of_ne_nil pos
    fits := fits
    slots := hs.slots
    nodup := nd
    homes_lt := placed.homes_lt
    homes_out := fun h hh => (placed.homes_out h hh).imp id fun above => by omega
    region := by have := placed.region; omega }

section Reachable

variable {ι : Type*} [Fintype ι] [DecidableEq ι] {m : Machine ι}

/-- A reachable log leaves room for the header and checksum blocks in `log.size`. -/
theorem room_of_reachable (hm : m.Reachable) : m.ctl.block.length + 2 ≤ m.ctl.size := by
  have within := (Machine.reachable_panics hm).2.1
  have size := (Machine.reachable_inv hm).size
  rw [size]
  unfold logSize maxOpBlocks at within ⊢
  omega

/-- A reachable log with a block logged, held in `struct log` and placed outside the log
region, is a transaction of `commit`. -/
theorem Txn.of_reachable (hm : m.Reachable) {s : Sys} (hs : s.Holds m.ctl)
    (pos : m.ctl.block ≠ []) (placed : s.Placed m.ctl.block) : Txn s m.ctl.block :=
  Txn.of_holds hs (Machine.reachable_nodup hm) pos (room_of_reachable hm)
    (Machine.reachable_panics hm).2.1 placed

end Reachable

/-! ## The disk `commit` leaves -/

section Installed

variable {s : Sys} {homes : List Nat}

theorem commitWrites_length (s : Sys) (homes : List Nat) :
    (s.commitWrites homes).length = 2 * homes.length + 3 := by
  simp only [commitWrites_eq, List.length_append, List.length_cons, logCopies_length,
    installs_length, List.length_nil]
  omega

/-- Where `commit`'s writes land: a home block, or a block of the log region up to the last
log copy. -/
theorem commitWrites_block {w : Nat × Block} (hw : w ∈ s.commitWrites homes) :
    w.1 ∈ homes ∨ s.log.start ≤ w.1 ∧ w.1 ≤ s.log.start + homes.length + 1 := by
  rw [commitWrites_eq] at hw
  rcases List.mem_append.mp hw with copy | rest
  · obtain ⟨i, hi, rfl⟩ := List.mem_map.mp (by simpa only [logCopies] using copy)
    have := List.mem_range.mp hi
    exact .inr ⟨by dsimp only; omega, by dsimp only; omega⟩
  · simp only [List.mem_cons, List.mem_append, List.not_mem_nil, or_false] at rest
    rcases rest with rfl | rfl | inst | rfl
    · exact .inr ⟨le_rfl, by dsimp only; omega⟩
    · exact .inr ⟨by dsimp only; omega, by dsimp only; omega⟩
    · obtain ⟨i, hi, rfl⟩ := List.mem_map.mp (by simpa only [installs] using inst)
      exact .inl (Txn.home_mem (List.mem_range.mp hi))
    · exact .inr ⟨by dsimp only; omega, by dsimp only; omega⟩

/-- The frame of `commit`: a block that is neither a home block nor one `commit` writes in
the log region keeps its contents. -/
theorem commitWrites_of_outside {b : Nat} (hb : b ∉ homes)
    (out : b < s.log.start ∨ s.log.start + homes.length + 2 ≤ b) (d : Disk) :
    Writes.apply (s.commitWrites homes) d b = d b := by
  apply Writes.apply_of_forall_ne
  intro w hw heq
  rcases commitWrites_block hw with home | ⟨lo, hi⟩
  · exact hb (heq ▸ home)
  · omega

/-- The disk after all of `commit` is the disk a crash after its last write leaves. -/
theorem apply_commitWrites (d : Disk) :
    Writes.apply (s.commitWrites homes) d = s.crashDisk homes d (2 * homes.length + 3) := by
  rw [crashDisk, List.take_of_length_le (le_of_eq (commitWrites_length s homes))]

variable (t : Txn s homes) (d : Disk)
include t

/-- Every home block ends holding its cached contents. -/
theorem commitWrites_home {h : Nat} (hh : h ∈ homes) :
    Writes.apply (s.commitWrites homes) d h = s.view h := by
  obtain ⟨i, hi, rfl⟩ := List.mem_iff_getElem.mp hh
  rw [← List.getD_eq_getElem _ 0 hi, apply_commitWrites, crashDisk_home t d hi,
    if_pos (by omega)]

/-- The header block ends with count `0`. -/
theorem commitWrites_header :
    (Writes.apply (s.commitWrites homes) d (s.log.start + 1)).int 0 = 0 := by
  rw [apply_commitWrites, crashDisk_header t d, if_neg (by omega), if_neg (by omega)]
  exact clearHeader_int s

omit t d in
/-- Every home block's buffer ends clean: `install_trans` wrote it. -/
theorem commitWrites_clean (dirty : Nat → Bool) {h : Nat} (hh : h ∈ homes) :
    dirtyAfter dirty (s.commitWrites homes) h = false := by
  obtain ⟨i, hi, rfl⟩ := List.mem_iff_getElem.mp hh
  have installed : (homes.getD i 0, s.view (homes.getD i 0)) ∈ s.commitWrites homes := by
    rw [commitWrites_eq]
    refine List.mem_append_right _ (List.mem_cons_of_mem _ (List.mem_cons_of_mem _
      (List.mem_append_left _ ?_)))
    exact List.mem_map.mpr ⟨i, List.mem_range.mpr hi, rfl⟩
  rw [← List.getD_eq_getElem _ 0 hi]
  exact dirtyAfter_of_mem installed

end Installed

/-- **A commit without a crash.**  For every log that `begin_op`, `log_write` and `end_op`
calls reach, with at least one block logged, held in `struct log`, and with the logged
blocks below `FSSIZE` and outside the log region: `commit` returns (so `check_checksum`
returned `1`) having issued `commitWrites`, and on any disk it started from, every logged
home block ends holding its cached contents, the header's count and `log.lh.n` are `0`,
every logged buffer is clean, and every block outside the home blocks and the log region
is unchanged. -/
theorem commit_installs {ι : Type*} [Fintype ι] [DecidableEq ι] {m : Machine ι}
    (hm : m.Reachable) {s : Sys} (hs : s.Holds m.ctl) (pos : m.ctl.block ≠ [])
    (placed : s.Placed m.ctl.block) (d : Disk) (dirty : Nat → Bool) :
    ∃ s', s.commit = .ok s' ∧ s'.writes = s.writes ++ s.commitWrites m.ctl.block ∧
      s'.log.lh.n = 0 ∧
      (Writes.apply (s.commitWrites m.ctl.block) d (s.log.start + 1)).int 0 = 0 ∧
      (∀ h ∈ m.ctl.block, Writes.apply (s.commitWrites m.ctl.block) d h = s.view h ∧
        dirtyAfter dirty (s.commitWrites m.ctl.block) h = false) ∧
      ∀ b ∉ m.ctl.block, b < s.log.start ∨ s.log.start + s.log.size ≤ b →
        Writes.apply (s.commitWrites m.ctl.block) d b = d b := by
  have t := Txn.of_reachable hm hs pos placed
  have room := room_of_reachable hm
  have size := hs.size
  obtain ⟨s', committed, writes, cleared⟩ := commit_eq t
  refine ⟨s', committed, writes, cleared, commitWrites_header t d,
    fun h hh => ⟨commitWrites_home t d hh, commitWrites_clean dirty hh⟩,
    fun b hb out => commitWrites_of_outside hb (out.imp id fun above => by omega) d⟩

/-- One process logs data block `100` over the log region `mkfs` lays out, and commits. -/
theorem commit_installs_block :
    let m : Machine (Fin 1) := ⟨⟨logSize, 1, false, [100]⟩,
      Function.update (Function.update (fun _ => .idle) 0 (.inOp [])) 0 (.inOp [100])⟩
    let s : Sys := ⟨⟨2, 30, 0, ⟨1, fun _ => 100⟩⟩, fun _ => zeroBlock, []⟩
    m.Reachable ∧ s.Holds m.ctl ∧ m.ctl.block ≠ [] ∧ s.Placed m.ctl.block ∧
    ∃ s', s.commit = .ok s' ∧ s'.writes = s.writes ++ s.commitWrites m.ctl.block ∧
      s'.log.lh.n = 0 ∧
      (Writes.apply (s.commitWrites m.ctl.block) (fun _ => zeroBlock) (s.log.start + 1)).int 0
        = 0 ∧
      (∀ h ∈ m.ctl.block,
        Writes.apply (s.commitWrites m.ctl.block) (fun _ => zeroBlock) h = s.view h ∧
        dirtyAfter (fun _ => true) (s.commitWrites m.ctl.block) h = false) ∧
      ∀ b ∉ m.ctl.block, b < s.log.start ∨ s.log.start + s.log.size ≤ b →
        Writes.apply (s.commitWrites m.ctl.block) (fun _ => zeroBlock) b = zeroBlock := by
  intro m s
  have reach : m.Reachable := Machine.run_reachable .refl
    (show (Machine.init : Machine (Fin 1)).run [.beginOp 0, .logWrite 0 100] = .ok (some m)
      from rfl)
  have holds : s.Holds m.ctl := by
    refine ⟨rfl, rfl, fun k hk => ?_⟩
    rcases k with ⟨_ | j, lt⟩
    · rfl
    · simp [m] at hk
  have placed : s.Placed m.ctl.block :=
    ⟨by simp [m, fsSize], by simp [m, s], by simp [s, fsSize]⟩
  exact ⟨reach, holds, by simp [m], placed,
    commit_installs reach holds (by simp [m]) placed _ _⟩

/-! ## A log that holds the header block -/

/-- `write_log` of a log of one block `b`, other than its log block. -/
theorem writeLog_one (r : Sys) (hn : r.log.lh.n.toNat = 1) {b : Nat}
    (hb : toUint (r.log.lh.block ⟨0, by decide⟩) = b) (hne : b ≠ r.log.start + 0 + 1 + 1)
    (hlog : r.log.start + 0 + 1 + 1 < fsSize) (hlt : b < fsSize) :
    r.writeLog = .ok (r.bwrite (r.log.start + 0 + 1 + 1) (r.view b)) := by
  unfold writeLog
  simp only [hn, List.range_one, List.foldlM_cons, List.foldlM_nil, bread_of_lt _ hlog,
    except_ok_bind, slot_of_lt (show 0 < logSize by decide), hb, bread2_of_ne _ hne,
    bread_of_lt _ hlt, except_pure]

/-- `install_trans` of a log of one block `b`, other than its log block. -/
theorem installTrans_one (r : Sys) (hn : r.log.lh.n.toNat = 1) {b : Nat}
    (hb : toUint (r.log.lh.block ⟨0, by decide⟩) = b) (hne : b ≠ r.log.start + 0 + 1 + 1)
    (hlog : r.log.start + 0 + 1 + 1 < fsSize) (hlt : b < fsSize) :
    r.installTrans = .ok (r.bwrite b (r.view (r.log.start + 0 + 1 + 1))) := by
  unfold installTrans
  simp only [hn, List.range_one, List.foldlM_cons, List.foldlM_nil, bread_of_lt _ hlog,
    except_ok_bind, slot_of_lt (show 0 < logSize by decide), hb, bread2_of_ne _ hne,
    bread_of_lt _ hlt, except_pure]

/-- `commit` of a log that holds only the header block `log.start+1`, which `log_write`
accepts as it accepts any block: `write_log` copies the block's cached contents `C` to the
first log block, `install_trans` copies them back over the header that commits, and the
final `write_head` writes the count `0` over `C`'s first word. -/
theorem commit_logged_header_writes {s : Sys} (hn : s.log.lh.n = 1)
    (hslot : ∀ k : Fin logSize, k.val = 0 → s.log.lh.block k = ((s.log.start + 1 : Nat) : Int))
    (hlt : s.log.start + 2 < fsSize) :
    ∃ s' ck, s.commit = .ok s' ∧
      s'.writes = s.writes ++
        [(s.log.start + 0 + 1 + 1, s.view (s.log.start + 1)), (s.log.start, ck),
          (s.log.start + 1, headerBlock (s.view (s.log.start + 1)) s.log.lh),
          (s.log.start + 1, s.view (s.log.start + 1))] ++
        [(s.log.start + 1, (s.view (s.log.start + 1)).setInt 0 0)] := by
  have one : s.log.lh.n.toNat = 1 := by rw [hn]; rfl
  have home : toUint (s.log.lh.block ⟨0, by decide⟩) = s.log.start + 1 := by
    rw [hslot _ rfl]
    exact toUint_ofNat (by unfold fsSize at hlt; omega)
  have firstLog : s.log.start + 1 ≠ s.log.start + 0 + 1 + 1 := by omega
  have logLt : s.log.start + 0 + 1 + 1 < fsSize := by omega
  have headerLt : s.log.start + 1 < fsSize := by omega
  let C := s.view (s.log.start + 1)
  -- `write_log`, then `write_checksum`, whose sum `check_checksum` finds again
  let s1 := s.bwrite (s.log.start + 0 + 1 + 1) C
  have logged : s.writeLog = .ok s1 := writeLog_one s one home firstLog logLt headerLt
  have hle : s1.log.start + 1 + s1.log.lh.n.toNat ≤ fsSize := by
    show s.log.start + 1 + s.log.lh.n.toNat ≤ fsSize
    omega
  let s2 := (s1.setChecksum s1.storedChecksum).bwrite s.log.start
    ((s1.view s.log.start).setWord 0 s1.storedChecksum)
  have checksummed : s1.writeChecksum = .ok s2 := writeChecksum_of_le s1 hle
  have checked : s2.checkChecksum = .ok true := checkChecksum_of_le s1 hle _
  -- the header that commits, written over the cached contents
  have cached2 : s2.view (s.log.start + 1) = C := by
    simp only [s2, s1, bwrite_view, setChecksum_view]
    rw [Function.update_of_ne (by omega), Function.update_of_ne firstLog]
  let s3 := s2.bwrite (s.log.start + 1) (headerBlock C s.log.lh)
  have headed : s2.writeHead = .ok s3 := by
    rw [writeHead_eq s2 (by show s.log.lh.n.toNat ≤ logSize; rw [one]; decide) headerLt]
    show Except.ok (s2.bwrite (s.log.start + 1)
      (headerBlock (s2.view (s.log.start + 1)) s.log.lh)) = _
    rw [cached2]
  -- `install_trans` copies the first log block back over it
  have copy3 : s3.view (s.log.start + 0 + 1 + 1) = C := by
    simp only [s3, s2, s1, bwrite_view, setChecksum_view]
    rw [Function.update_of_ne firstLog.symm, Function.update_of_ne (by omega),
      Function.update_self]
  let s4 := s3.bwrite (s.log.start + 1) C
  have installed : s3.installTrans = .ok s4 := by
    rw [installTrans_one s3 one home firstLog logLt headerLt]
    show Except.ok (s3.bwrite (s.log.start + 1) (s3.view (s.log.start + 0 + 1 + 1))) = _
    rw [copy3]
  -- and the `write_head` that clears the log writes the count over `C`
  let s5 := (s4.setN 0).bwrite (s.log.start + 1) (C.setInt 0 0)
  have cleared : (s4.setN 0).writeHead = .ok s5 := by
    rw [writeHead_eq (s4.setN 0) (by simp) headerLt]
    show Except.ok ((s4.setN 0).bwrite (s.log.start + 1)
      (headerBlock (Function.update s3.view (s.log.start + 1) C (s.log.start + 1))
        { s.log.lh with n := 0 })) = _
    rw [Function.update_self]
    rfl
  refine ⟨s5, (s1.view s.log.start).setWord 0 s1.storedChecksum, ?_, ?_⟩
  · unfold commit commitChecked
    rw [if_pos (by rw [hn]; decide), logged, except_ok_bind, checksummed, except_ok_bind,
      checked, except_ok_bind, if_pos rfl, headed, except_ok_bind, installed, except_ok_bind]
    exact cleared
  · simp only [s5, s4, s3, s2, s1, bwrite_writes, setN_writes, setChecksum_writes,
      List.append_assoc, List.cons_append, List.nil_append]
    rfl

/-- The same commit, with the first four writes left unnamed. -/
theorem commit_logged_header {s : Sys} (hn : s.log.lh.n = 1)
    (hslot : ∀ k : Fin logSize, k.val = 0 → s.log.lh.block k = ((s.log.start + 1 : Nat) : Int))
    (hlt : s.log.start + 2 < fsSize) :
    ∃ s' ws, s.commit = .ok s' ∧
      s'.writes = s.writes ++ ws ++
        [(s.log.start + 1, (s.view (s.log.start + 1)).setInt 0 0)] := by
  obtain ⟨s', ck, committed, writes⟩ := commit_logged_header_writes hn hslot hlt
  exact ⟨s', _, committed, writes⟩

end Sys

/-- The log region `mkfs` lays out (`logstart = 2`, `nlog = 30`), after an operation logged
the header block `3`, whose cached contents are ones. -/
def headerLogged : Sys where
  log := ⟨2, 30, 0, ⟨1, fun _ => 3⟩⟩
  view := fun b => if b = 3 then fun _ => 1 else zeroBlock
  writes := []

/-- One process begins an operation and logs block `3`. -/
def headerSchedule : List (Action (Fin 1)) := [.beginOp 0, .logWrite 0 3]

/-- A log that `begin_op` and `log_write` reach, holding the header block `3`: `commit`
returns, and on whatever disk it started from, block `3` ends with the count `0` written
over its cached contents. -/
theorem header_logged_not_installed :
    ∃ m : Machine (Fin 1), m.Reachable ∧ m.ctl.block = [3] ∧ headerLogged.Holds m.ctl ∧
      ∃ s', headerLogged.commit = .ok s' ∧
        ∀ d, Writes.apply s'.writes d 3 ≠ headerLogged.view 3 := by
  have ran : (Machine.init : Machine (Fin 1)).run headerSchedule =
      .ok (some ⟨⟨logSize, 1, false, [3]⟩, Function.update (Function.update
        (fun _ => .idle) 0 (.inOp [])) 0 (.inOp [3])⟩) := rfl
  have holds : headerLogged.Holds ⟨logSize, 1, false, [3]⟩ := by
    refine ⟨rfl, rfl, fun k hk => ?_⟩
    rcases k with ⟨_ | j, lt⟩
    · rfl
    · simp at hk
  obtain ⟨s', ws, committed, writes⟩ :=
    Sys.commit_logged_header (s := headerLogged) rfl (fun _ _ => rfl) (by decide)
  refine ⟨_, Machine.run_reachable .refl ran, rfl, holds, s', committed, fun d same => ?_⟩
  rw [writes] at same
  change Writes.apply _ d (headerLogged.log.start + 1) = _ at same
  rw [Writes.apply_append_singleton_self] at same
  have count := congrArg (Block.int · 0) same
  rw [Block.setInt_int_self _ _ (by decide) (by decide)] at count
  exact absurd count (by decide)

end Xv6
