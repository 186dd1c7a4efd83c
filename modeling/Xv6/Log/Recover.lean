import Xv6.Log.Commit

/-!
# Recovery at boot

`initlog` reads the superblock and runs `recover_from_log` with the zeroed global
`struct log`, so `log.lh.n = 0` when the checksum loop runs: the loop reads no block, the
checksum it compares with is `0`, and the log is replayed exactly when the first word of
the checksum block is `0` (`Sys.recoverFromLog_boot`).  Replaying trusts the header:
`read_head` copies as many slots as the header's `n` says (`Sys.readHead_eq`,
`Sys.readHead_of_lt`), and `install_trans` writes each slot's block number, whatever it is.

* `Sys.foldlM_writes_of_step`, `Sys.foldlM_ok_of_step`: the loop rules for runs whose
  writes are not known in advance: what every iteration may write, and when every
  iteration succeeds.
* `initlog_header_trusted`: on every disk, recovery either stops on one of the three
  faults its reads can raise, or writes nothing when the checksum word is not `0`, and
  otherwise only the header block and the blocks the header's first `n` slots name; and it
  succeeds whenever those slots name blocks below `FSSIZE` other than their own log blocks.
-/

namespace Xv6
namespace Sys

/-! ## Loops whose writes depend on the disk -/

/-- The loop rule for what a loop may write: if every iteration that succeeds, from a
state with the log of `s`, issues only writes to addresses in `P`, so does the loop. -/
theorem foldlM_writes_of_step {body : Sys → Nat → Except Fault Sys} {P : Nat → Prop}
    (l : List Nat) {s s' : Sys}
    (step : ∀ x ∈ l, ∀ r r', r.log = s.log → body r x = .ok r' →
      ∃ ws, r' = r.bwriteAll ws ∧ ∀ w ∈ ws, P w.1)
    (run : l.foldlM body s = .ok s') : ∃ ws, s' = s.bwriteAll ws ∧ ∀ w ∈ ws, P w.1 := by
  induction l generalizing s with
  | nil =>
      cases run
      exact ⟨[], (bwriteAll_nil _).symm, fun w hw => nomatch hw⟩
  | cons x l ih =>
      rw [List.foldlM_cons] at run
      cases first : body s x with
      | error e => rw [first, except_error_bind] at run; cases run
      | ok r =>
          rw [first, except_ok_bind] at run
          obtain ⟨ws₁, rfl, hws₁⟩ := step x List.mem_cons_self s r rfl first
          obtain ⟨ws₂, rfl, hws₂⟩ := ih (s := s.bwriteAll ws₁)
            (fun y hy r r' hr => step y (List.mem_cons_of_mem _ hy) r r' hr) run
          refine ⟨ws₁ ++ ws₂, bwriteAll_append _ _ _, fun w hw => ?_⟩
          rcases List.mem_append.mp hw with hw | hw
          · exact hws₁ w hw
          · exact hws₂ w hw

/-- The loop rule for success: if every iteration succeeds by issuing writes, from every
state with the log of `s`, the loop succeeds. -/
theorem foldlM_ok_of_step {body : Sys → Nat → Except Fault Sys} (l : List Nat) (s : Sys)
    (step : ∀ x ∈ l, ∀ r, r.log = s.log → ∃ ws, body r x = .ok (r.bwriteAll ws)) :
    ∃ ws, l.foldlM body s = .ok (s.bwriteAll ws) := by
  induction l generalizing s with
  | nil => exact ⟨[], by rw [List.foldlM_nil, bwriteAll_nil]; rfl⟩
  | cons x l ih =>
      obtain ⟨ws₁, first⟩ := step x List.mem_cons_self s rfl
      obtain ⟨ws₂, rest⟩ := ih (s.bwriteAll ws₁)
        (fun y hy r hr => step y (List.mem_cons_of_mem _ hy) r hr)
      exact ⟨ws₁ ++ ws₂, by
        rw [List.foldlM_cons, first, except_ok_bind, rest, bwriteAll_append]⟩

/-! ## `read_head` -/

/-- `log.lh = lh`. -/
def setHeader (s : Sys) (lh : LogHeader) : Sys := { s with log := { s.log with lh := lh } }

/-- The header `read_head` loads from the header block `buf`: the count, and the first
`n` slots, over the slots `old` it leaves alone. -/
def headerOf (buf : Block) (old : Fin logSize → Int) : LogHeader where
  n := buf.int 0
  block k := if k.val < (buf.int 0).toNat then buf.int (slotWord k) else old k

@[simp] theorem headerOf_n (buf : Block) (old : Fin logSize → Int) :
    (headerOf buf old).n = buf.int 0 := by
  simp only [headerOf]

theorem headerOf_block_of_lt (buf : Block) (old : Fin logSize → Int) {k : Fin logSize}
    (hk : k.val < (buf.int 0).toNat) : (headerOf buf old).block k = buf.int (slotWord k) := by
  simp only [headerOf, if_pos hk]

@[simp] theorem setHeader_view (s : Sys) (lh : LogHeader) : (s.setHeader lh).view = s.view := rfl

@[simp] theorem setHeader_writes (s : Sys) (lh : LogHeader) :
    (s.setHeader lh).writes = s.writes := rfl

@[simp] theorem setHeader_log_start (s : Sys) (lh : LogHeader) :
    (s.setHeader lh).log.start = s.log.start := rfl

@[simp] theorem setHeader_log_lh (s : Sys) (lh : LogHeader) : (s.setHeader lh).log.lh = lh := rfl

theorem setHeader_setN (s : Sys) (n : Int) (lh : LogHeader) :
    (s.setN n).setHeader lh = s.setHeader lh := rfl

/-- The copy loop of `read_head`, once its `m` indices are below `LOGSIZE`. -/
theorem readHead_loop (s : Sys) (buf : Block) {m : Nat} (hm : m ≤ logSize) :
    (List.range m).foldl (fun r i => if h : i < logSize then
        r.setSlot ⟨i, h⟩ (buf.int (slotWord ⟨i, h⟩)) else r) s =
      s.setHeader ⟨s.log.lh.n,
        fun k => if k.val < m then buf.int (slotWord k) else s.log.lh.block k⟩ := by
  induction m with
  | zero =>
      rcases s with ⟨⟨start, size, checksum, ⟨n, block⟩⟩, view, writes⟩
      rfl
  | succ m ih =>
      rw [List.range_succ, List.foldl_append, ih (by omega), List.foldl_cons, List.foldl_nil,
        dif_pos (by omega)]
      simp only [setSlot, setHeader]
      congr 3
      funext k
      by_cases hk : k = ⟨m, by omega⟩
      · subst hk
        rw [Function.update_self, if_pos (show m < m + 1 by omega)]
      · rw [Function.update_of_ne hk]
        have hkm : k.val ≠ m := fun h => hk (Fin.ext h)
        by_cases hlt : k.val < m
        · rw [if_pos hlt, if_pos (by omega)]
        · rw [if_neg hlt, if_neg (by omega)]

/-- `read_head` with a count of at most `LOGSIZE`: the header block's count and slots. -/
theorem readHead_eq (s : Sys) (hlt : s.log.start + 1 < fsSize)
    (hn : ((s.view (s.log.start + 1)).int 0).toNat ≤ logSize) :
    s.readHead = .ok (s.setHeader (headerOf (s.view (s.log.start + 1)) s.log.lh.block)) := by
  unfold readHead
  rw [bread_of_lt _ hlt, except_ok_bind, foldlM_except_ok]
  · rw [readHead_loop _ _ hn, setN_lh_n, setN_lh_block, setHeader_setN]
    rfl
  · intro i hi r
    have hslot : i < logSize := by have := List.mem_range.mp hi; omega
    rw [slot_of_lt hslot, except_ok_bind, dif_pos hslot]
    rfl

/-- `read_head` with a count past `LOGSIZE` writes `log.lh.block[LOGSIZE]`. -/
theorem readHead_of_lt (s : Sys) (hlt : s.log.start + 1 < fsSize)
    (hn : logSize < ((s.view (s.log.start + 1)).int 0).toNat) :
    s.readHead = .error .outOfBounds := by
  obtain ⟨rest, hrest⟩ : ∃ rest, ((s.view (s.log.start + 1)).int 0).toNat = logSize + (rest + 1) :=
    ⟨((s.view (s.log.start + 1)).int 0).toNat - logSize - 1, by omega⟩
  unfold readHead
  rw [bread_of_lt _ hlt, except_ok_bind, hrest, List.range_add, List.foldlM_append,
    foldlM_except_ok (g := fun r i => if h : i < logSize then
      r.setSlot ⟨i, h⟩ ((s.view (s.log.start + 1)).int (slotWord ⟨i, h⟩)) else r)]
  · have noSlot : slot logSize = .error .outOfBounds := dif_neg (lt_irrefl _)
    rw [except_ok_bind, List.range_succ_eq_map, List.map_cons, List.foldlM_cons, Nat.add_zero]
    simp only [noSlot, except_error_bind]
  · intro i hi r
    have hslot : i < logSize := List.mem_range.mp hi
    rw [slot_of_lt hslot, except_ok_bind, dif_pos hslot]
    rfl

/-! ## The boot path -/

/-- The state `initlog` recovers from: the superblock's `logstart` and `nlog`, `n = 0`. -/
theorem bootSys_eq (d : Disk) :
    bootSys d = .ok ⟨⟨((d 1).word 4).toNat, ((d 1).word 3).toNat, 0, ⟨0, fun _ => 0⟩⟩, d, []⟩ :=
  rfl

/-- At boot `log.lh.n = 0`: the checksum `recover_from_log` compares with is `0`. -/
theorem recoverFromLog_boot (s : Sys) (hn : s.log.lh.n = 0) (hlt : s.log.start < fsSize) :
    s.recoverFromLog = if (s.view s.log.start).word 0 = 0 then
      (do let s ← s.readHead; let s ← s.installTrans; (s.setN 0).writeHead) else .ok s := by
  unfold recoverFromLog sumBlocks
  rw [bread_of_lt _ hlt, except_ok_bind, hn, Int.toNat_zero, List.range_zero, List.foldlM_nil,
    except_pure, except_ok_bind]
  rfl

/-! ## The faults recovery can stop with -/

/-- The faults the log's disk routines raise: `idestart`'s panic on a block number at or
past `FSSIZE`, an index of `log.lh.block` past `LOGSIZE`, and a second `bread` of the
buffer the routine holds. -/
def LogFault (f : Fault) : Prop :=
  f = .panic "incorrect blockno" ∨ f = .outOfBounds ∨ f = .selfDeadlock

theorem bread_fault {s : Sys} {b : Nat} {f : Fault} (h : s.bread b = .error f) : LogFault f := by
  unfold bread at h
  split at h
  · cases h
  · cases h
    exact .inl rfl

theorem bread2_fault {s : Sys} {held b : Nat} {f : Fault} (h : s.bread2 held b = .error f) :
    LogFault f := by
  unfold bread2 at h
  split at h
  · cases h
    exact .inr (.inr rfl)
  · exact bread_fault h

theorem slot_fault {i : Nat} {f : Fault} (h : slot i = .error f) : LogFault f := by
  unfold slot at h
  split at h
  · cases h
  · cases h
    exact .inr (.inl rfl)

/-- A loop whose iterations raise only log faults raises only log faults. -/
theorem foldlM_fault {β : Type} {body : β → Nat → Except Fault β} (l : List Nat) (b : β)
    {f : Fault} (step : ∀ x r f, body r x = .error f → LogFault f)
    (run : l.foldlM body b = .error f) : LogFault f := by
  induction l generalizing b with
  | nil => cases run
  | cons x l ih =>
      rw [List.foldlM_cons] at run
      rcases except_bind_eq_error run with first | ⟨r, -, rest⟩
      · exact step x b f first
      · exact ih r rest

theorem readHead_fault {s : Sys} {f : Fault} (h : s.readHead = .error f) : LogFault f := by
  unfold readHead at h
  rcases except_bind_eq_error h with hb | ⟨buf, -, hloop⟩
  · exact bread_fault hb
  · refine foldlM_fault _ _ (fun x r f hx => ?_) hloop
    rcases except_bind_eq_error hx with hk | ⟨k, -, hpure⟩
    · exact slot_fault hk
    · cases hpure

theorem installTrans_fault {s : Sys} {f : Fault} (h : s.installTrans = .error f) :
    LogFault f := by
  unfold installTrans at h
  refine foldlM_fault _ _ (fun x r f hx => ?_) h
  rcases except_bind_eq_error hx with hl | ⟨lbuf, -, hx⟩
  · exact bread_fault hl
  rcases except_bind_eq_error hx with hk | ⟨k, -, hx⟩
  · exact slot_fault hk
  rcases except_bind_eq_error hx with hd | ⟨dbuf, -, hpure⟩
  · exact bread2_fault hd
  · cases hpure

theorem writeHead_fault {s : Sys} {f : Fault} (h : s.writeHead = .error f) : LogFault f := by
  unfold writeHead at h
  rcases except_bind_eq_error h with hb | ⟨buf, -, h⟩
  · exact bread_fault hb
  rcases except_bind_eq_error h with hloop | ⟨hb, -, hpure⟩
  · refine foldlM_fault _ _ (fun x r f hx => ?_) hloop
    rcases except_bind_eq_error hx with hk | ⟨k, -, hpure⟩
    · exact slot_fault hk
    · cases hpure
  · cases hpure

theorem sumBlocks_fault {s : Sys} {first n : Nat} {f : Fault} (h : s.sumBlocks first n = .error f) :
    LogFault f := by
  unfold sumBlocks at h
  refine foldlM_fault _ _ (fun x r f hx => ?_) h
  rcases except_bind_eq_error hx with hb | ⟨blk, -, hpure⟩
  · exact bread_fault hb
  · cases hpure

/-- Every fault `initlog` can stop with is a log fault. -/
theorem initlog_fault {d : Disk} {f : Fault} (h : initlog d = .error f) : LogFault f := by
  rw [initlog, bootSys_eq, except_ok_bind] at h
  unfold recoverFromLog at h
  rcases except_bind_eq_error h with hb | ⟨buf, -, h⟩
  · exact bread_fault hb
  rcases except_bind_eq_error h with hsum | ⟨sum, -, h⟩
  · exact sumBlocks_fault hsum
  dsimp only at h
  split at h
  · rcases except_bind_eq_error h with hr | ⟨s₁, -, h⟩
    · exact readHead_fault hr
    rcases except_bind_eq_error h with hi | ⟨s₂, -, hw⟩
    · exact installTrans_fault hi
    · exact writeHead_fault hw
  · cases h

/-! ## What recovery writes -/

/-- `write_head` writes the header block and nothing else. -/
theorem writeHead_ok {s s' : Sys} (h : s.writeHead = .ok s') :
    ∃ hb, s' = s.bwrite (s.log.start + 1) hb := by
  unfold writeHead at h
  cases hb : s.bread (s.log.start + 1) with
  | error e => rw [hb, except_error_bind] at h; cases h
  | ok buf =>
      rw [hb, except_ok_bind] at h
      cases hloop : (List.range s.log.lh.n.toNat).foldlM (fun hb i => do
          let k ← slot i
          pure (hb.setInt (slotWord k) (s.log.lh.block k))) (buf.setInt 0 s.log.lh.n) with
      | error e => rw [hloop, except_error_bind] at h; cases h
      | ok blk =>
          rw [hloop, except_ok_bind] at h
          cases h
          exact ⟨blk, rfl⟩

/-- A `read_head` that returns read at most `LOGSIZE` slots, and loaded them. -/
theorem readHead_ok {s s' : Sys} (h : s.readHead = .ok s') :
    s' = s.setHeader (headerOf (s.view (s.log.start + 1)) s.log.lh.block) := by
  have hlt : s.log.start + 1 < fsSize := by
    by_contra hge
    unfold readHead bread at h
    rw [if_neg hge, except_error_bind] at h
    cases h
  by_cases hn : ((s.view (s.log.start + 1)).int 0).toNat ≤ logSize
  · rw [readHead_eq s hlt hn] at h
    cases h
    rfl
  · rw [readHead_of_lt s hlt (by omega)] at h
    cases h

/-- Every block `install_trans` writes is named by one of the first `n` slots. -/
theorem installTrans_writes {s s' : Sys} (h : s.installTrans = .ok s') :
    ∃ ws, s' = s.bwriteAll ws ∧ ∀ w ∈ ws, ∃ k : Fin logSize,
      k.val < s.log.lh.n.toNat ∧ w.1 = toUint (s.log.lh.block k) := by
  unfold installTrans at h
  refine foldlM_writes_of_step (P := fun b => ∃ k : Fin logSize,
    k.val < s.log.lh.n.toNat ∧ b = toUint (s.log.lh.block k)) _
    (fun x hx r r' hr hbody => ?_) h
  rcases except_bind_eq_ok hbody with ⟨lbuf, -, hbody⟩
  rcases except_bind_eq_ok hbody with ⟨k, hk, hbody⟩
  rcases except_bind_eq_ok hbody with ⟨dbuf, -, hbody⟩
  cases hbody
  unfold slot at hk
  split at hk
  · cases hk
    refine ⟨_, bwrite_eq_bwriteAll _ _ _, fun w hw => ?_⟩
    rw [List.mem_singleton] at hw
    subst hw
    exact ⟨_, List.mem_range.mp hx, by rw [hr]⟩
  · cases hk

/-- `install_trans` completes when each of the first `n` slots names a block below `FSSIZE`
other than its own log block, and the log blocks lie below `FSSIZE`. -/
theorem installTrans_ok {s : Sys} (hn : s.log.lh.n.toNat ≤ logSize)
    (hslots : ∀ k : Fin logSize, k.val < s.log.lh.n.toNat →
      s.log.start + k.val + 1 + 1 < fsSize ∧ toUint (s.log.lh.block k) < fsSize ∧
      toUint (s.log.lh.block k) ≠ s.log.start + k.val + 1 + 1) :
    ∃ ws, s.installTrans = .ok (s.bwriteAll ws) := by
  unfold installTrans
  refine foldlM_ok_of_step _ s (fun x hx r hr => ?_)
  have hxn := List.mem_range.mp hx
  have hslot : x < logSize := by omega
  obtain ⟨logLt, homeLt, homeNe⟩ := hslots ⟨x, hslot⟩ hxn
  refine ⟨[(toUint (s.log.lh.block ⟨x, hslot⟩), r.view (s.log.start + x + 1 + 1))], ?_⟩
  rw [hr, bread_of_lt _ logLt, except_ok_bind, slot_of_lt hslot, except_ok_bind,
    bread2_of_ne _ homeNe, bread_of_lt _ homeLt, except_ok_bind]
  rfl

end Sys

/-! ## `initlog` on any disk -/

/-- The boot state `initlog` recovers from, as a `Sys`. -/
def bootState (d : Disk) : Sys :=
  ⟨⟨((d 1).word 4).toNat, ((d 1).word 3).toNat, 0, ⟨0, fun _ => 0⟩⟩, d, []⟩

@[simp] theorem bootState_view (d : Disk) : (bootState d).view = d := rfl

@[simp] theorem bootState_writes (d : Disk) : (bootState d).writes = [] := rfl

@[simp] theorem bootState_log_start (d : Disk) :
    (bootState d).log.start = ((d 1).word 4).toNat := rfl

theorem initlog_eq (d : Disk) : initlog d = (bootState d).recoverFromLog := by
  rw [initlog, Sys.bootSys_eq, except_ok_bind]
  rfl

/-- A successful `initlog` read the checksum block, so `logstart` lies below `FSSIZE`. -/
theorem start_lt_of_initlog {d : Disk} {s : Sys} (h : initlog d = .ok s) :
    ((d 1).word 4).toNat < fsSize := by
  by_contra hge
  rw [initlog_eq] at h
  unfold Sys.recoverFromLog at h
  rw [show (bootState d).bread (bootState d).log.start = .error (.panic "incorrect blockno")
    from if_neg hge, except_error_bind] at h
  cases h

/-- What a successful `initlog` wrote: nothing when the checksum word is not `0`, and
otherwise only blocks that the header's first `n` slots name, and the header block. -/
theorem initlog_writes {d : Disk} {s : Sys} (h : initlog d = .ok s) :
    ((d ((d 1).word 4).toNat).word 0 ≠ 0 → s.writes = []) ∧
    ∀ w ∈ s.writes, w.1 = ((d 1).word 4).toNat + 1 ∨
      ∃ k : Fin logSize, k.val < ((d (((d 1).word 4).toNat + 1)).int 0).toNat ∧
        w.1 = toUint ((d (((d 1).word 4).toNat + 1)).int (Sys.slotWord k)) := by
  have hlt := start_lt_of_initlog h
  rw [initlog_eq, Sys.recoverFromLog_boot (bootState d) rfl hlt] at h
  split at h
  · rename_i zero
    refine ⟨fun nonzero => absurd zero nonzero, fun w hw => ?_⟩
    obtain ⟨s₁, hr, h⟩ := except_bind_eq_ok h
    obtain ⟨s₂, hi, hw'⟩ := except_bind_eq_ok h
    obtain ⟨hb, rfl⟩ := Sys.writeHead_ok hw'
    obtain ⟨ws, rfl, hws⟩ := Sys.installTrans_writes hi
    have hs₁ := Sys.readHead_ok hr
    subst hs₁
    simp only [Sys.setHeader_log_lh, Sys.headerOf_n, bootState_view, bootState_log_start] at hws
    simp only [Sys.bwrite_writes, Sys.setN_writes, Sys.bwriteAll_writes, Sys.setHeader_writes,
      bootState_writes, List.nil_append, List.mem_append, List.mem_singleton] at hw
    rcases hw with hw | hw
    · obtain ⟨k, hk, hwk⟩ := hws w hw
      refine .inr ⟨k, hk, ?_⟩
      rw [hwk, Sys.headerOf_block_of_lt _ _ hk]
    · subst hw
      exact .inl rfl
  · have hs : bootState d = s := Except.ok.inj h
    subst hs
    exact ⟨fun _ => rfl, fun w hw => nomatch hw⟩

/-- `initlog` completes when the header block lies below `FSSIZE`, the header's count is at
most `LOGSIZE`, and each of the first `n` slots names a block below `FSSIZE` other than its
own log block, which lies below `FSSIZE` too. -/
theorem initlog_ok {d : Disk} (hstart : ((d 1).word 4).toNat + 1 < fsSize)
    (hn : ((d (((d 1).word 4).toNat + 1)).int 0).toNat ≤ logSize)
    (hslots : ∀ k : Fin logSize, k.val < ((d (((d 1).word 4).toNat + 1)).int 0).toNat →
      ((d 1).word 4).toNat + k.val + 1 + 1 < fsSize ∧
      toUint ((d (((d 1).word 4).toNat + 1)).int (Sys.slotWord k)) < fsSize ∧
      toUint ((d (((d 1).word 4).toNat + 1)).int (Sys.slotWord k)) ≠
        ((d 1).word 4).toNat + k.val + 1 + 1) :
    ∃ s, initlog d = .ok s := by
  rw [initlog_eq, Sys.recoverFromLog_boot (bootState d) rfl (by simp only [bootState_log_start]; omega)]
  split
  · rw [Sys.readHead_eq _ (by simpa only [bootState_log_start] using hstart)
      (by simpa only [bootState_view, bootState_log_start] using hn), except_ok_bind]
    obtain ⟨ws, hinst⟩ := Sys.installTrans_ok (s := (bootState d).setHeader
        (Sys.headerOf ((bootState d).view ((bootState d).log.start + 1)) (bootState d).log.lh.block))
      (by simpa only [Sys.setHeader_log_lh, Sys.headerOf_n, bootState_view, bootState_log_start]
        using hn)
      (fun k hk => by
        simp only [Sys.setHeader_log_lh, Sys.headerOf_n, bootState_view, bootState_log_start,
          Sys.setHeader_log_start] at hk ⊢
        rw [Sys.headerOf_block_of_lt _ _ hk]
        exact hslots k hk)
    rw [hinst, except_ok_bind, Sys.writeHead_eq _ (by simp) (by simpa using hstart)]
    exact ⟨_, rfl⟩
  · exact ⟨_, rfl⟩

/-- Recovery on any disk: it stops only with a log fault; when it returns it has written
only the header block and the blocks named by the header's first `n` slots, with no check
of `n` or of those block numbers; and it returns whenever the header block is below
`FSSIZE`, `n ≤ LOGSIZE`, and every slot names a block below `FSSIZE` other than its own log
block, itself below `FSSIZE`. -/
theorem initlog_trusts_header (d : Disk) :
    (∀ f, initlog d = .error f → Sys.LogFault f) ∧
    (∀ s, initlog d = .ok s → ∀ w ∈ s.writes, w.1 = ((d 1).word 4).toNat + 1 ∨
      ∃ k : Fin logSize, k.val < ((d (((d 1).word 4).toNat + 1)).int 0).toNat ∧
        w.1 = toUint ((d (((d 1).word 4).toNat + 1)).int (Sys.slotWord k))) ∧
    (((d 1).word 4).toNat + 1 < fsSize →
      ((d (((d 1).word 4).toNat + 1)).int 0).toNat ≤ logSize →
      (∀ k : Fin logSize, k.val < ((d (((d 1).word 4).toNat + 1)).int 0).toNat →
        ((d 1).word 4).toNat + k.val + 1 + 1 < fsSize ∧
        toUint ((d (((d 1).word 4).toNat + 1)).int (Sys.slotWord k)) < fsSize ∧
        toUint ((d (((d 1).word 4).toNat + 1)).int (Sys.slotWord k)) ≠
          ((d 1).word 4).toNat + k.val + 1 + 1) →
      ∃ s, initlog d = .ok s) :=
  ⟨fun _ h => Sys.initlog_fault h, fun _ h => (initlog_writes h).2,
    fun hstart hn hslots => initlog_ok hstart hn hslots⟩

/-- A disk whose header logs one block for block `0`, the boot block, which holds sevens,
from a zeroed log block, under checksum word `0` (superblock: `nlog = 30`,
`logstart = 2`). -/
def bootBlockLog : Disk := fun b =>
  if b = 0 then fun _ => 7
  else if b = 1 then (zeroBlock.setWord 3 30).setWord 4 2
  else if b = 3 then zeroBlock.setInt 0 1
  else zeroBlock

/-- The stored checksum is the checksum of the logged block, and recovery installs that
block outside the data area: it overwrites the boot block. -/
theorem initlog_overwrites_boot_block :
    (bootBlockLog 2).word 0 = Sys.blocksSum bootBlockLog 4 1 % UInt32.ofNat bsize ∧
    ∃ s, initlog bootBlockLog = .ok s ∧
      Writes.apply s.writes bootBlockLog 0 = bootBlockLog 4 ∧ bootBlockLog 0 ≠ bootBlockLog 4 :=
  ⟨by decide +kernel, _, rfl, rfl, fun h => absurd (congrFun h ⟨0, by decide⟩) (by decide)⟩

end Xv6
