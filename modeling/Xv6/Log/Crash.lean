import Xv6.Log.Recover

/-!
# Crashing `commit`, then recovering

A crash lets a prefix of `commit`'s writes reach the disk (`Sys.crashDisk`), then the
machine boots and runs `initlog`.  Recovery's gate is the checksum word compared with `0`
(`Sys.recoverFromLog_boot`), while `commit` stores the transaction's checksum there
(`Sys.txnChecksum`), so what a crash leaves depends on that value:

* `Sys.recover_after_crash`: for every transaction and every crash point `k`, home block
  `i` after recovery holds its contents from before the transaction when the crash came
  before the header that commits (`k ≤ n + 1`); after it, it holds the transaction's
  contents when the checksum is `0`, and otherwise exactly when the crash came after its
  own installation (`n + 2 + i < k`).
* `commit_crash_mixes_homes`: a transaction of two blocks whose checksum is `256`, crashed
  after the first installation: one home block new, one old.
-/

namespace Xv6
namespace Sys

/-- The disk a crash leaves when the first `k` writes of `commit` reached it. -/
def crashDisk (s : Sys) (homes : List Nat) (d : Disk) (k : Nat) : Disk :=
  Writes.apply ((s.commitWrites homes).take k) d

/-- The checksum block `write_checksum` writes. -/
def checkBlock (s : Sys) (homes : List Nat) : Block :=
  (Writes.apply (s.logCopies homes) s.view s.log.start).setWord 0 (s.txnChecksum homes)

/-- The header block that commits. -/
def commitHeader (s : Sys) : Block := headerBlock (s.view (s.log.start + 1)) s.log.lh

theorem commitWrites_eq (s : Sys) (homes : List Nat) :
    s.commitWrites homes = s.logCopies homes ++
      ((s.log.start, s.checkBlock homes) :: (s.log.start + 1, s.commitHeader) ::
        (installs homes (fun i => s.view (homes.getD i 0)) ++
          [(s.log.start + 1, headerBlock s.commitHeader { s.log.lh with n := 0 })])) := by
  simp only [commitWrites, List.append_assoc, List.cons_append, List.nil_append]
  rfl

@[simp] theorem logCopies_length (s : Sys) (homes : List Nat) :
    (s.logCopies homes).length = homes.length := by
  simp only [logCopies, List.length_map, List.length_range]

@[simp] theorem installs_length (homes : List Nat) (v : Nat → Block) :
    (installs homes v).length = homes.length := by
  simp only [installs, List.length_map, List.length_range]

/-! ## The disk at each crash point -/

section CrashDisk

variable {s : Sys} {homes : List Nat} (d : Disk)

/-- The disk after the copies and the checksum block. -/
def afterChecksum (s : Sys) (homes : List Nat) (d : Disk) : Disk :=
  Function.update (Writes.apply (s.logCopies homes) d) s.log.start (s.checkBlock homes)

/-- The disk once the header that commits has landed. -/
def afterCommit (s : Sys) (homes : List Nat) (d : Disk) : Disk :=
  Function.update (s.afterChecksum homes d) (s.log.start + 1) s.commitHeader

theorem crashDisk_of_le_copies {k : Nat} (hk : k ≤ homes.length) :
    s.crashDisk homes d k = Writes.apply ((s.logCopies homes).take k) d := by
  rw [crashDisk, commitWrites_eq, List.take_append_of_le_length (by simpa using hk)]

theorem crashDisk_checksum :
    s.crashDisk homes d (homes.length + 1) = s.afterChecksum homes d := by
  rw [crashDisk, commitWrites_eq,
    Writes.apply_take_append_of_le (by simp only [logCopies_length]; omega),
    logCopies_length, Nat.add_sub_cancel_left]
  rfl

theorem crashDisk_installing {m : Nat} (hm : m ≤ homes.length) :
    s.crashDisk homes d (homes.length + 2 + m) =
      Writes.apply ((installs homes (fun i => s.view (homes.getD i 0))).take m)
        (s.afterCommit homes d) := by
  rw [crashDisk, commitWrites_eq,
    Writes.apply_take_append_of_le (by simp only [logCopies_length]; omega), logCopies_length,
    show homes.length + 2 + m - homes.length = m + 1 + 1 by omega, List.take_succ_cons,
    List.take_succ_cons, Writes.apply_cons, Writes.apply_cons,
    List.take_append_of_le_length (by simpa using hm)]
  rfl

theorem crashDisk_cleared {k : Nat} (hk : 2 * homes.length + 3 ≤ k) :
    s.crashDisk homes d k = Function.update
      (Writes.apply (installs homes (fun i => s.view (homes.getD i 0))) (s.afterCommit homes d))
      (s.log.start + 1) (headerBlock s.commitHeader { s.log.lh with n := 0 }) := by
  rw [crashDisk, List.take_of_length_le (by
    simp only [commitWrites_eq, List.length_append, List.length_cons, logCopies_length,
      installs_length, List.length_nil]
    omega), commitWrites_eq, Writes.apply_append, Writes.apply_cons, Writes.apply_cons,
    Writes.apply_append]
  rfl

/-- The four stretches a crash point falls in: during the copies, right after the
checksum block, during installation (after the header that commits), or after the header
that clears the log. -/
theorem crashPoint_cases (n k : Nat) :
    k ≤ n ∨ k = n + 1 ∨ (∃ m ≤ n, k = n + 2 + m) ∨ 2 * n + 3 ≤ k := by
  by_cases h1 : k ≤ n
  · exact .inl h1
  by_cases h2 : k = n + 1
  · exact .inr (.inl h2)
  by_cases h3 : k ≤ 2 * n + 2
  · exact .inr (.inr (.inl ⟨k - n - 2, by omega, by omega⟩))
  · exact .inr (.inr (.inr (by omega)))

end CrashDisk

/-! ## Block by block -/

section Blocks

variable {s : Sys} {homes : List Nat} (t : Txn s homes) (d : Disk)
include t

theorem logCopies_take_home {i : Nat} (hi : i < homes.length) (k : Nat) :
    Writes.apply ((s.logCopies homes).take k) d (homes.getD i 0) = d (homes.getD i 0) := by
  apply Writes.apply_of_forall_ne
  intro w hw heq
  obtain ⟨j, hj, rfl⟩ := List.mem_map.mp (by simpa only [logCopies] using List.mem_of_mem_take hw)
  have := List.mem_range.mp hj
  exact t.home_ne_log hi (j := j + 2) (by omega) (by dsimp only at heq; omega)

theorem afterCommit_home {i : Nat} (hi : i < homes.length) :
    s.afterCommit homes d (homes.getD i 0) = d (homes.getD i 0) := by
  have header := t.home_ne_log hi (j := 1) (by omega)
  have check := t.home_ne_log hi (j := 0) (by omega)
  rw [afterCommit, afterChecksum, Function.update_of_ne header, Function.update_of_ne (by omega)]
  have copies := logCopies_take_home t d hi (s.logCopies homes).length
  rwa [List.take_length] at copies

omit t in
theorem afterCommit_log {i : Nat} (hi : i < homes.length) :
    s.afterCommit homes d (s.log.start + i + 1 + 1) = s.view (homes.getD i 0) := by
  rw [afterCommit, afterChecksum, Function.update_of_ne (by omega),
    Function.update_of_ne (by omega), logCopies_apply _ hi]

omit t in
theorem afterCommit_start : s.afterCommit homes d s.log.start = s.checkBlock homes := by
  rw [afterCommit, afterChecksum, Function.update_of_ne (by omega), Function.update_self]

omit t in
theorem afterCommit_header : s.afterCommit homes d (s.log.start + 1) = s.commitHeader := by
  rw [afterCommit, Function.update_self]

/-- The first `m` installations: home block `i` is written when `i < m`. -/
theorem installs_take_home {i : Nat} (hi : i < homes.length) (v : Nat → Block) (m : Nat)
    (D : Disk) : Writes.apply ((installs homes v).take m) D (homes.getD i 0) =
      if i < m then v i else D (homes.getD i 0) := by
  rw [installs, ← List.map_take, List.take_range]
  split
  · exact Writes.apply_map_of_injOn (a := fun j => homes.getD j 0) List.nodup_range
      (fun y hy z hz hyz => t.home_inj (by have := List.mem_range.mp hy; omega)
        (by have := List.mem_range.mp hz; omega) hyz)
      (List.mem_range.mpr (by omega)) D
  · apply Writes.apply_of_forall_ne
    intro w hw heq
    obtain ⟨j, hj, rfl⟩ := List.mem_map.mp hw
    have := List.mem_range.mp hj
    have := t.home_inj (by omega) hi heq
    omega

omit t in
/-- The installations write only home blocks. -/
theorem installs_take_of_not_mem {x : Nat} (hx : x ∉ homes) (v : Nat → Block) (m : Nat)
    (D : Disk) : Writes.apply ((installs homes v).take m) D x = D x := by
  apply Writes.apply_of_forall_ne
  intro w hw heq
  obtain ⟨j, hj, rfl⟩ := List.mem_map.mp (by simpa only [installs] using List.mem_of_mem_take hw)
  exact hx (heq ▸ Txn.home_mem (List.mem_range.mp hj))

/-- All installations: home block `i` holds `v i`. -/
theorem installs_home {i : Nat} (hi : i < homes.length) (v : Nat → Block) (D : Disk) :
    Writes.apply (installs homes v) D (homes.getD i 0) = v i := by
  have all := installs_take_home t hi v homes.length D
  rwa [List.take_of_length_le (le_of_eq (installs_length _ _)), if_pos hi] at all

/-- Home block `i` after a crash: new once its own installation has landed. -/
theorem crashDisk_home {i : Nat} (hi : i < homes.length) (k : Nat) :
    s.crashDisk homes d k (homes.getD i 0) =
      if homes.length + 2 + i < k then s.view (homes.getD i 0) else d (homes.getD i 0) := by
  rcases crashPoint_cases homes.length k with copying | rfl | ⟨m, hm, rfl⟩ | cleared
  · rw [crashDisk_of_le_copies d copying, logCopies_take_home t d hi, if_neg (by omega)]
  · rw [crashDisk_checksum, if_neg (by omega)]
    have home := afterCommit_home t d hi
    rwa [afterCommit, Function.update_of_ne (t.home_ne_log hi (j := 1) (by omega))] at home
  · rw [crashDisk_installing d hm, installs_take_home t hi, afterCommit_home t d hi]
    by_cases him : i < m
    · rw [if_pos him, if_pos (by omega)]
    · rw [if_neg him, if_neg (by omega)]
  · rw [crashDisk_cleared d cleared, Function.update_of_ne (t.home_ne_log hi (j := 1) (by omega)),
      if_pos (by omega)]
    have all := installs_take_home t hi (fun i => s.view (homes.getD i 0)) homes.length
      (s.afterCommit homes d)
    rwa [List.take_of_length_le (le_of_eq (installs_length _ _)), if_pos hi] at all

/-- The checksum block after a crash: the transaction's once `write_checksum` has landed. -/
theorem crashDisk_start {k : Nat} (hk : homes.length + 1 ≤ k) :
    s.crashDisk homes d k s.log.start = s.checkBlock homes := by
  have notHome : s.log.start ∉ homes := fun hmem => by
    rcases t.homes_out _ hmem with below | above <;> omega
  rcases crashPoint_cases homes.length k with copying | rfl | ⟨m, hm, rfl⟩ | cleared
  · omega
  · rw [crashDisk_checksum, afterChecksum, Function.update_self]
  · rw [crashDisk_installing d hm, installs_take_of_not_mem notHome, afterCommit_start]
  · rw [crashDisk_cleared d cleared, Function.update_of_ne (by omega)]
    have all := installs_take_of_not_mem notHome (fun i => s.view (homes.getD i 0))
      homes.length (s.afterCommit homes d)
    rw [List.take_of_length_le (le_of_eq (installs_length _ _))] at all
    rw [all, afterCommit_start]

/-- The header block after a crash. -/
theorem crashDisk_header (k : Nat) :
    s.crashDisk homes d k (s.log.start + 1) =
      if k ≤ homes.length + 1 then d (s.log.start + 1)
      else if k ≤ 2 * homes.length + 2 then s.commitHeader
      else headerBlock s.commitHeader { s.log.lh with n := 0 } := by
  have notHome : s.log.start + 1 ∉ homes := fun hmem => by
    rcases t.homes_out _ hmem with below | above <;> omega
  rcases crashPoint_cases homes.length k with copying | rfl | ⟨m, hm, rfl⟩ | cleared
  · rw [crashDisk_of_le_copies d copying, if_pos (by omega)]
    apply Writes.apply_of_forall_ne
    intro w hw heq
    obtain ⟨j, -, rfl⟩ :=
      List.mem_map.mp (by simpa only [logCopies] using List.mem_of_mem_take hw)
    dsimp only at heq
    omega
  · rw [crashDisk_checksum, afterChecksum, Function.update_of_ne (by omega), logCopies_header,
      if_pos le_rfl]
  · rw [crashDisk_installing d hm, installs_take_of_not_mem notHome, afterCommit_header,
      if_neg (by omega), if_pos (by omega)]
  · rw [crashDisk_cleared d cleared, Function.update_self, if_neg (by omega), if_neg (by omega)]

/-- A log block after the header that commits: the copy of its home block. -/
theorem crashDisk_log {i : Nat} (hi : i < homes.length) {k : Nat}
    (hk : homes.length + 2 ≤ k) :
    s.crashDisk homes d k (s.log.start + i + 1 + 1) = s.view (homes.getD i 0) := by
  have notHome : s.log.start + i + 1 + 1 ∉ homes := fun hmem => by
    rcases t.homes_out _ hmem with below | above <;> omega
  rcases crashPoint_cases homes.length k with copying | rfl | ⟨m, hm, rfl⟩ | cleared
  · omega
  · omega
  · rw [crashDisk_installing d hm, installs_take_of_not_mem notHome, afterCommit_log d hi]
  · rw [crashDisk_cleared d cleared, Function.update_of_ne (by omega)]
    have all := installs_take_of_not_mem notHome (fun i => s.view (homes.getD i 0))
      homes.length (s.afterCommit homes d)
    rw [List.take_of_length_le (le_of_eq (installs_length _ _))] at all
    rw [all, afterCommit_log d hi]

omit t in
/-- `commit` never writes the superblock. -/
theorem crashDisk_superblock (hstart : 2 ≤ s.log.start) (hsb : 1 ∉ homes) (k : Nat) :
    s.crashDisk homes d k 1 = d 1 := by
  apply Writes.apply_of_forall_ne
  intro w hw heq
  rw [commitWrites_eq] at hw
  rcases List.mem_append.mp (List.mem_of_mem_take hw) with hw | hw
  · obtain ⟨j, -, rfl⟩ := List.mem_map.mp (by simpa only [logCopies] using hw)
    dsimp only at heq
    omega
  · simp only [List.mem_cons, List.mem_append, List.not_mem_nil, or_false] at hw
    rcases hw with rfl | rfl | hw | rfl
    · dsimp only at heq
      omega
    · dsimp only at heq
      omega
    · obtain ⟨j, hj, rfl⟩ := List.mem_map.mp (by simpa only [installs] using hw)
      exact hsb (heq ▸ Txn.home_mem (List.mem_range.mp hj))
    · dsimp only at heq
      omega

end Blocks

/-! ## The header recovery reads -/

/-- A transaction stays one for a state with the same log start, count and first `n`
slots: what `read_head` loads from a header that commits it. -/
theorem Txn.of_header {s r : Sys} {homes : List Nat} (t : Txn s homes)
    (hstart : r.log.start = s.log.start) (hn : r.log.lh.n = s.log.lh.n)
    (hslots : ∀ k : Fin logSize, k.val < homes.length → r.log.lh.block k = s.log.lh.block k) :
    Txn r homes where
  count := hn.trans t.count
  pos := t.pos
  fits := t.fits
  slots k hk := (hslots k hk).trans (t.slots k hk)
  nodup := t.nodup
  homes_lt := t.homes_lt
  homes_out h hh := hstart ▸ t.homes_out h hh
  region := hstart ▸ t.region

/-- The header that commits reads back as the transaction's count and block numbers. -/
theorem commitHeader_int {s : Sys} {homes : List Nat} (t : Txn s homes) :
    s.commitHeader.int 0 = s.log.lh.n ∧ ∀ k : Fin logSize, k.val < homes.length →
      s.commitHeader.int (slotWord k) = s.log.lh.block k := by
  have fits := t.fits
  have nLo : -2 ^ 31 ≤ s.log.lh.n := by rw [t.count]; omega
  have nHi : s.log.lh.n < 2 ^ 31 := by
    rw [t.count]
    unfold logSize maxOpBlocks at fits
    omega
  obtain ⟨countEq, slotsEq⟩ := headerBlock_int (s.view (s.log.start + 1)) s.log.lh nLo nHi
  refine ⟨countEq, fun k hk => slotsEq k (by rw [t.count_toNat]; exact hk) ?_ ?_⟩
  · rw [t.slots k hk]
    omega
  · have home := t.homes_lt _ (List.getElem_mem hk)
    rw [t.slots k hk]
    unfold fsSize at home
    omega

/-- The header that clears the log has count `0`. -/
theorem clearHeader_int (s : Sys) :
    (headerBlock s.commitHeader { s.log.lh with n := 0 }).int 0 = 0 :=
  (headerBlock_int _ { s.log.lh with n := 0 } (by simp) (by simp)).1

theorem checkBlock_word (s : Sys) (homes : List Nat) :
    (s.checkBlock homes).word 0 = s.txnChecksum homes :=
  Block.setWord_word_self _ _ _

/-! ## Recovery, by what the log region holds -/

/-- A checksum word other than `0` closes the gate: `initlog` writes nothing. -/
theorem initlog_of_checksum_ne {D : Disk} (hlt : ((D 1).word 4).toNat < fsSize)
    (hne : (D ((D 1).word 4).toNat).word 0 ≠ 0) : initlog D = .ok (bootState D) := by
  rw [initlog_eq, recoverFromLog_boot (bootState D) rfl hlt]
  split
  · rename_i zero
    exact absurd zero hne
  · rfl

/-- A header whose count is `0`: whatever the gate decides, `initlog` returns and writes
the header block at most. -/
theorem initlog_of_empty_header {D : Disk} (hlt : ((D 1).word 4).toNat + 1 < fsSize)
    (hzero : (D (((D 1).word 4).toNat + 1)).int 0 = 0) :
    ∃ s', initlog D = .ok s' ∧
      ∀ x ≠ ((D 1).word 4).toNat + 1, Writes.apply s'.writes D x = D x := by
  have hn : ((D (((D 1).word 4).toNat + 1)).int 0).toNat = 0 := by rw [hzero]; rfl
  obtain ⟨s', hs'⟩ := initlog_ok hlt (by omega) (fun k hk => absurd hk (by omega))
  refine ⟨s', hs', fun x hx => Writes.apply_of_forall_ne (fun w hw heq => ?_) D⟩
  rcases (initlog_writes hs').2 w hw with header | ⟨k, hk, -⟩
  · exact hx (heq.symm.trans header)
  · omega

/-- `recover_from_log` from a count of `0`, over a header that commits a transaction and
under checksum word `0`: each home block ends with the contents of its log block. -/
theorem recoverFromLog_installs {s r : Sys} {homes : List Nat} (t : Txn s homes)
    (hn : r.log.lh.n = 0) (hstart : r.log.start = s.log.start)
    (hgate : (r.view s.log.start).word 0 = 0) (hhdr : r.view (s.log.start + 1) = s.commitHeader) :
    ∃ r', r.recoverFromLog = .ok r' ∧ ∃ ws, r'.writes = r.writes ++ ws ∧ ∀ i < homes.length,
      Writes.apply ws r.view (homes.getD i 0) = r.view (s.log.start + i + 1 + 1) := by
  obtain ⟨countEq, slotsEq⟩ := commitHeader_int t
  have region := t.region
  have count : ((r.view (r.log.start + 1)).int 0).toNat = homes.length := by
    rw [hstart, hhdr, countEq, t.count_toNat]
  -- `read_head` loads the transaction's header
  have read := readHead_eq r (by rw [hstart]; omega) (by rw [count]; have := t.fits; omega)
  generalize hr₁ : r.setHeader (headerOf (r.view (r.log.start + 1)) r.log.lh.block) = r₁ at read
  have start₁ : r₁.log.start = s.log.start := by rw [← hr₁, setHeader_log_start, hstart]
  have t₁ : Txn r₁ homes := by
    refine t.of_header start₁ ?_ (fun k hk => ?_)
    · rw [← hr₁, setHeader_log_lh, headerOf_n, hstart, hhdr, countEq]
    · rw [← hr₁, setHeader_log_lh, headerOf_block_of_lt _ _ (by rw [count]; exact hk), hstart,
        hhdr, slotsEq k hk]
  -- `install_trans` copies the log blocks home, then the header is cleared
  let inst := installs homes (fun i => r₁.view (r₁.log.start + i + 1 + 1))
  have install : r₁.installTrans = .ok (r₁.bwriteAll inst) :=
    installTrans_eq t₁ rfl rfl (fun i _ => rfl)
  obtain ⟨r', clear⟩ : ∃ r', ((r₁.bwriteAll inst).setN 0).writeHead = .ok r' :=
    ⟨_, writeHead_eq _ (Nat.zero_le _) (show r₁.log.start + 1 < fsSize by rw [start₁]; omega)⟩
  obtain ⟨hb, rfl⟩ := writeHead_ok clear
  refine ⟨((r₁.bwriteAll inst).setN 0).bwrite (r₁.log.start + 1) hb, ?_,
    inst ++ [(r₁.log.start + 1, hb)], ?_, ?_⟩
  · have gate : (r.view r.log.start).word 0 = 0 := hstart ▸ hgate
    rw [recoverFromLog_boot r hn (by rw [hstart]; omega), if_pos gate]
    rw [read, except_ok_bind, install, except_ok_bind]
    exact clear
  · rw [bwrite_writes, setN_writes, bwriteAll_writes, ← hr₁, setHeader_writes, List.append_assoc]
  · intro i hi
    rw [Writes.apply_append, Writes.apply_singleton,
      Function.update_of_ne (by rw [start₁]; exact t.home_ne_log hi (j := 1) (by omega)),
      installs_home t hi, start₁, ← hr₁, setHeader_view]

/-- `initlog` over a header that commits a transaction, under checksum word `0`: it
returns, and each home block ends with the contents of its log block. -/
theorem initlog_installs {s : Sys} {homes : List Nat} (t : Txn s homes) {D : Disk}
    (hsb : ((D 1).word 4).toNat = s.log.start) (hgate : (D s.log.start).word 0 = 0)
    (hhdr : D (s.log.start + 1) = s.commitHeader) :
    ∃ s', initlog D = .ok s' ∧ ∀ i < homes.length,
      Writes.apply s'.writes D (homes.getD i 0) = D (s.log.start + i + 1 + 1) := by
  obtain ⟨r', hr', ws, hws, homesSet⟩ :=
    recoverFromLog_installs (r := bootState D) t rfl hsb hgate hhdr
  refine ⟨r', by rw [initlog_eq, hr'], fun i hi => ?_⟩
  rw [hws, bootState_writes, List.nil_append]
  exact homesSet i hi

/-! ## Crash, then recovery -/

/-- The disk `commit` starts from: the superblock names the log at `log.start`, past the
boot block and the superblock; the transaction does not log the superblock; and the header
on disk has count `0`. -/
structure CleanDisk (s : Sys) (homes : List Nat) (d : Disk) : Prop where
  sb : ((d 1).word 4).toNat = s.log.start
  start_ge : 2 ≤ s.log.start
  sb_not_home : 1 ∉ homes
  empty : (d (s.log.start + 1)).int 0 = 0

section Recovery

variable {s : Sys} {homes : List Nat} {d : Disk} (t : Txn s homes) (c : CleanDisk s homes d)
include t c

omit t in
/-- After a crash the superblock still names the log. -/
theorem crashDisk_sb (k : Nat) : ((s.crashDisk homes d k 1).word 4).toNat = s.log.start := by
  rw [crashDisk_superblock d c.start_ge c.sb_not_home, c.sb]

/-- Before the header that commits, and after the header that clears the log, the header
on disk has count `0`, so recovery leaves every home block as the crash left it. -/
theorem recover_of_empty_header {k : Nat}
    (hk : k ≤ homes.length + 1 ∨ 2 * homes.length + 3 ≤ k) :
    ∃ s', initlog (s.crashDisk homes d k) = .ok s' ∧ ∀ i < homes.length,
      Writes.apply s'.writes (s.crashDisk homes d k) (homes.getD i 0) =
        s.crashDisk homes d k (homes.getD i 0) := by
  have hsb := crashDisk_sb c k
  have region := t.region
  have empty : (s.crashDisk homes d k (s.log.start + 1)).int 0 = 0 := by
    rw [crashDisk_header t d k]
    split_ifs with before installing
    · exact c.empty
    · omega
    · exact clearHeader_int s
  obtain ⟨s', hs', kept⟩ := initlog_of_empty_header (D := s.crashDisk homes d k)
    (by rw [hsb]; omega) (by rw [hsb]; exact empty)
  refine ⟨s', hs', fun i hi => kept _ ?_⟩
  rw [hsb]
  exact t.home_ne_log hi (j := 1) (by omega)

/-- **Recovery after a crash in `commit`.**  For every transaction and every crash point
`k`, `initlog` returns, and home block `i` then holds its contents from before the
transaction when the crash came before the header that commits; after it, the
transaction's contents when the checksum is `0`, and otherwise exactly when the crash came
after block `i`'s own installation. -/
theorem recover_after_crash (k : Nat) :
    ∃ s', initlog (s.crashDisk homes d k) = .ok s' ∧ ∀ i < homes.length,
      Writes.apply s'.writes (s.crashDisk homes d k) (homes.getD i 0) =
        if k ≤ homes.length + 1 then d (homes.getD i 0)
        else if s.txnChecksum homes = 0 ∨ homes.length + 2 + i < k then s.view (homes.getD i 0)
        else d (homes.getD i 0) := by
  have hsb := crashDisk_sb c k
  have region := t.region
  by_cases before : k ≤ homes.length + 1
  · obtain ⟨s', hs', kept⟩ := recover_of_empty_header t c (.inl before)
    refine ⟨s', hs', fun i hi => ?_⟩
    rw [kept i hi, crashDisk_home t d hi, if_neg (by omega), if_pos before]
  by_cases cleared : 2 * homes.length + 3 ≤ k
  · obtain ⟨s', hs', kept⟩ := recover_of_empty_header t c (.inr cleared)
    refine ⟨s', hs', fun i hi => ?_⟩
    rw [kept i hi, crashDisk_home t d hi, if_pos (by omega), if_neg before,
      if_pos (show s.txnChecksum homes = 0 ∨ homes.length + 2 + i < k from .inr (by omega))]
  -- the header that commits is on disk, and the checksum word decides
  have gate : (s.crashDisk homes d k s.log.start).word 0 = s.txnChecksum homes := by
    rw [crashDisk_start t d (by omega), checkBlock_word]
  by_cases zero : s.txnChecksum homes = 0
  · obtain ⟨s', hs', installed⟩ := initlog_installs t hsb (gate.trans zero)
      (by rw [crashDisk_header t d k, if_neg before, if_pos (by omega)])
    refine ⟨s', hs', fun i hi => ?_⟩
    rw [installed i hi, crashDisk_log t d hi (by omega), if_neg before, if_pos (.inl zero)]
  · have closed := initlog_of_checksum_ne (D := s.crashDisk homes d k)
      (by rw [hsb]; omega) (by rw [hsb, gate]; exact zero)
    refine ⟨_, closed, fun i hi => ?_⟩
    rw [bootState_writes, Writes.apply_nil, crashDisk_home t d hi, if_neg before]
    by_cases installed : homes.length + 2 + i < k
    · rw [if_pos installed, if_pos (.inr installed)]
    · have notNew : ¬(s.txnChecksum homes = 0 ∨ homes.length + 2 + i < k) :=
        fun h => h.elim zero installed
      rw [if_neg installed, if_neg notNew]

end Recovery

end Sys

/-! ## A crash that mixes old and new contents -/

/-- A disk laid out as `mkfs` lays it out (`logstart = 2`, `nlog = 30`), with every other
block zeroed. -/
def twoBlockDisk : Disk := fun b =>
  if b = 1 then (zeroBlock.setWord 3 30).setWord 4 2 else zeroBlock

/-- A transaction over `twoBlockDisk` logging data blocks `100` and `101`, whose cached
contents are blocks of ones. -/
def twoBlockTxn : Sys where
  log := ⟨2, 30, 0, ⟨2, fun k => if k.val = 0 then 100 else if k.val = 1 then 101 else 0⟩⟩
  view := fun b => if b = 100 ∨ b = 101 then fun _ => 1 else twoBlockDisk b
  writes := []

/-- Crash after the fifth of `commit`'s seven writes (both log copies, the checksum block,
the header that commits, block `100`'s installation), then boot: the checksum word holds
`256` while `recover_from_log` compares it with a sum over no blocks, so `initlog` skips the
replay, and block `100` ends new while block `101` ends old. -/
theorem commit_crash_mixes_homes :
    ∃ s₁, twoBlockTxn.commit = .ok s₁ ∧
      ∃ s', initlog (Writes.apply (s₁.writes.take 5) twoBlockDisk) = .ok s' ∧
        Writes.apply s'.writes (Writes.apply (s₁.writes.take 5) twoBlockDisk) 100 =
          twoBlockTxn.view 100 ∧
        Writes.apply s'.writes (Writes.apply (s₁.writes.take 5) twoBlockDisk) 101 =
          twoBlockDisk 101 ∧
        twoBlockTxn.view 100 ≠ twoBlockDisk 100 ∧ twoBlockTxn.view 101 ≠ twoBlockDisk 101 := by
  have t : Sys.Txn twoBlockTxn [100, 101] :=
    ⟨rfl, by decide, by decide, by decide, by decide, by decide, by decide, by decide⟩
  have c : Sys.CleanDisk twoBlockTxn [100, 101] twoBlockDisk :=
    ⟨by decide +kernel, by decide, by decide, by decide +kernel⟩
  have checksum : twoBlockTxn.txnChecksum [100, 101] = 256 := by decide +kernel
  obtain ⟨s₁, hc, hw, -⟩ := Sys.commit_eq t
  have crash : Writes.apply (s₁.writes.take 5) twoBlockDisk =
      twoBlockTxn.crashDisk [100, 101] twoBlockDisk 5 := by
    rw [hw]
    rfl
  obtain ⟨s', hs', homes⟩ := Sys.recover_after_crash t c 5
  have new := homes 0 (by decide)
  have old := homes 1 (by decide)
  rw [if_neg (by decide), if_pos (Or.inr (by decide))] at new
  rw [if_neg (by decide), if_neg (by rw [checksum]; decide)] at old
  refine ⟨s₁, hc, s', by rw [crash]; exact hs', by rw [crash]; exact new,
    by rw [crash]; exact old, ?_, ?_⟩
  · exact fun h => absurd (congrFun h ⟨0, by decide⟩) (by decide)
  · exact fun h => absurd (congrFun h ⟨0, by decide⟩) (by decide)

end Xv6
