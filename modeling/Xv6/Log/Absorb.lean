import Xv6.Log.Install
import Xv6.Bio.Pin

/-!
# Log absorption

`log_write` on `struct log` itself: its capacity checks, then the loop that looks for the
buffer's block among `log.lh.block[0 .. log.lh.n)`, whose index `i` is both the slot found
and, when the loop runs to its end, the slot appended.

* `Log.logWrite_of_holds`, `Log.logWrite_error_of_holds`: on a header that holds the list
  of logged blocks, `log_write` refines the list model `LogCtl.logWrite`: a logged block
  keeps its slot, a new one takes slot `n`, and the panics are the same;
* `Log.logWriteAll_header`: after any sequence of `log_write` calls from an empty header,
  the header holds the block numbers passed, each once, in the order first passed
  (`List.eraseDups`);
* `Log.logWriteAll_ok_iff`: the calls all return exactly when each one finds
  `log.outstanding ≥ 1` and fewer distinct blocks logged before it than both bounds;
* `Sys.commitWrites_pinned`: for a transaction, no write of `commit` before
  `install_trans`'s copy of a home block names that block, so its buffer keeps `B_DIRTY`
  until then (`InstallsPinned`);
* `log_write_absorbs`: these, with the buffer cache's `Bio.logWrite_pinned_steps`, for the
  blocks the file system logs, outside the log region; `header_block_unpinned`: a logged
  header block is written by `write_head` before `install_trans` copies it home.
-/

namespace Xv6

namespace Log

/-- The loop of `log_write`, from `i` with `fuel` iterations left:
`for (i = 0; i < log.lh.n; i++) if (log.lh.block[i] == b->blockno) break;` -/
def absorbScan (lh : LogHeader) (blockno : Int) (i : Nat) : Nat → Except Fault Nat
  | 0 => pure i
  | fuel + 1 =>
    if (i : Int) < lh.n then do
      let k ← Sys.slot i
      if lh.block k = blockno then pure i else absorbScan lh blockno (i + 1) fuel
    else pure i

/-- `log_write(b)` on `struct log`, for a buffer of block `blockno`, with `outstanding`
operations in progress: the checks, the loop (run for `log.lh.n` iterations), then
`log.lh.block[i] = b->blockno` and `n` one more when the loop ran to its end. -/
def logWrite (l : Log) (outstanding : Int) (blockno : Nat) : Except Fault Log :=
  if l.lh.n ≥ (logSize : Int) ∨ l.lh.n ≥ (l.size : Int) - 1 - 1 then
    .error (.panic "too big a transaction")
  else if outstanding < 1 then .error (.panic "log_write outside of trans")
  else do
    let i ← absorbScan l.lh blockno 0 l.lh.n.toNat
    let k ← Sys.slot i
    let lh := { l.lh with block := Function.update l.lh.block k blockno }
    pure { l with lh := if (i : Int) = l.lh.n then { lh with n := lh.n + 1 } else lh }

/-- Successive `log_write` calls, each with the `log.outstanding` it reads and the block
number of its buffer. -/
def logWriteAll (l : Log) : List (Int × Nat) → Except Fault Log
  | [] => pure l
  | (o, b) :: calls => do
    let l ← l.logWrite o b
    l.logWriteAll calls

/-! ## The loop and one call -/

section OneCall

variable {lh : LogHeader} {L : List Nat}

/-- On a header holding `L` in its first `n` slots, the loop started at slot `i` with the
iterations left to `n` stops at the first slot from `i` on that holds `blockno`, or at `n`.
The induction is on the iterations left, `i` moving up as they run out. -/
theorem absorbScan_eq (count : lh.n = L.length)
    (slots : ∀ (k : Fin logSize) (hk : k.val < L.length), lh.block k = L[k.val])
    (fits : L.length ≤ logSize) (blockno : Nat) :
    ∀ i fuel, i + fuel = L.length →
      absorbScan lh blockno i fuel = .ok (i + (L.drop i).idxOf blockno) := by
  intro i fuel hfuel
  induction fuel generalizing i with
  | zero =>
    rw [List.drop_of_length_le (by omega), List.idxOf_nil]
    rfl
  | succ fuel ih =>
    have hi : i < L.length := by omega
    have inLog : (i : Int) < lh.n := by rw [count]; exact_mod_cast hi
    rw [absorbScan, if_pos inLog, Sys.slot_of_lt (by omega), except_ok_bind,
      slots ⟨i, by omega⟩ hi, List.drop_eq_getElem_cons hi]
    by_cases found : L[i] = blockno
    · -- the `break`: `i` is the slot that holds the block
      rw [if_pos (by rw [found]), found, List.idxOf_cons_self]
      rfl
    · rw [if_neg (by exact_mod_cast found), ih (i + 1) (by omega),
        List.idxOf_cons_ne _ found]
      congr 1
      omega

variable {s : Sys} {l c : LogCtl} {b : Nat} {f : Fault}

/-- The loop run from slot `0` for `n` iterations stops at the first slot holding the
block, or at `n`. -/
theorem absorbScan_idxOf (hs : s.Holds l) (fits : l.block.length ≤ logSize) :
    absorbScan s.log.lh b 0 s.log.lh.n.toNat = .ok (l.block.idxOf b) := by
  have toNat : s.log.lh.n.toNat = l.block.length := by rw [hs.count]; rfl
  rw [toNat, absorbScan_eq hs.count hs.slots fits b 0 _ (Nat.zero_add _), List.drop_zero,
    Nat.zero_add]

/-- The slot of a block already logged, written with the block again, still holds it. -/
theorem holds_rewrite (hs : s.Holds l) (logged : b ∈ l.block)
    (idxLt : l.block.idxOf b < logSize) :
    ({ s with log := { s.log with lh := { s.log.lh with
      block := Function.update s.log.lh.block ⟨l.block.idxOf b, idxLt⟩ b } } } : Sys).Holds l := by
  have idxIn := List.idxOf_lt_length_iff.mpr logged
  refine ⟨hs.size, hs.count, fun k hk => ?_⟩
  show Function.update s.log.lh.block ⟨l.block.idxOf b, idxLt⟩ b k = _
  by_cases atIdx : k = ⟨l.block.idxOf b, idxLt⟩
  · subst atIdx
    rw [Function.update_self, List.getElem_idxOf idxIn]
  · rw [Function.update_of_ne atIdx, hs.slots k hk]

/-- Slot `n`, written with a new block, and `n` one more, hold the list with the block
appended. -/
theorem holds_append (hs : s.Holds l) (fresh : b ∉ l.block)
    (idxLt : l.block.idxOf b < logSize) :
    ({ s with log := { s.log with lh := ⟨s.log.lh.n + 1,
      Function.update s.log.lh.block ⟨l.block.idxOf b, idxLt⟩ b⟩ } } : Sys).Holds
      { l with block := l.block ++ [b] } := by
  have atEnd := List.idxOf_eq_length_iff.mpr fresh
  refine ⟨hs.size, ?_, fun k hk => ?_⟩
  · show s.log.lh.n + 1 = _
    rw [hs.count, List.length_append, List.length_singleton, Nat.cast_add, Nat.cast_one]
  · show Function.update s.log.lh.block ⟨l.block.idxOf b, idxLt⟩ b k = _
    have hk' : k.val < l.block.length + 1 := by simpa using hk
    by_cases atIdx : k = ⟨l.block.idxOf b, idxLt⟩
    · subst atIdx
      simp only [Function.update_self, atEnd, List.getElem_append_right (Nat.le_refl _),
        Nat.sub_self, List.getElem_singleton]
    · have below : k.val < l.block.length := by
        have : k.val ≠ l.block.idxOf b := fun e => atIdx (Fin.ext e)
        omega
      rw [Function.update_of_ne atIdx, hs.slots k below, List.getElem_append_left below]

/-- A call that the list model accepts: the same checks pass, and the loop's slot, written
with the block, leaves a header holding the list model's new list. -/
theorem logWrite_of_holds (hs : s.Holds l) (h : l.logWrite b = .ok c) :
    ∃ lh, s.log.logWrite l.outstanding b = .ok { s.log with lh } ∧
      ({ s with log := { s.log with lh } } : Sys).Holds c := by
  obtain ⟨room, roomSize, inside, rfl⟩ := LogCtl.logWrite_ok h
  have count := hs.count
  have notFull : ¬ (s.log.lh.n ≥ (logSize : Int) ∨ s.log.lh.n ≥ (s.log.size : Int) - 1 - 1) := by
    rw [count, hs.size]
    omega
  have idxLt : l.block.idxOf b < logSize := lt_of_le_of_lt List.idxOf_le_length room
  rw [Log.logWrite, if_neg notFull, if_neg (by omega), absorbScan_idxOf hs room.le,
    except_ok_bind, Sys.slot_of_lt idxLt, except_ok_bind, except_pure]
  refine ⟨_, rfl, ?_⟩
  by_cases logged : b ∈ l.block
  · -- the loop found the block: `i < n`, and `n` stays
    have before : (l.block.idxOf b : Int) ≠ s.log.lh.n := by
      rw [count]
      exact_mod_cast (List.idxOf_lt_length_iff.mpr logged).ne
    simp only [if_pos logged, if_neg before]
    exact holds_rewrite hs logged idxLt
  · -- the loop ran to its end: `i = n`, and `n` counts the new block
    have atEnd : (l.block.idxOf b : Int) = s.log.lh.n := by
      rw [count, List.idxOf_eq_length_iff.mpr logged]
    simp only [if_neg logged, if_pos atEnd]
    exact holds_append hs logged idxLt

/-- A call that the list model refuses panics with the same message. -/
theorem logWrite_error_of_holds (hs : s.Holds l) (h : l.logWrite b = .error f) :
    s.log.logWrite l.outstanding b = .error f := by
  have count := hs.count
  unfold LogCtl.logWrite at h
  split at h
  · rename_i full
    rw [Log.logWrite, if_pos (by rw [count, hs.size]; omega)]
    exact congrArg Except.error (Except.error.inj h)
  · rename_i notFull
    split at h
    · rename_i outside
      rw [Log.logWrite, if_neg (by rw [count, hs.size]; omega), if_pos outside]
      exact congrArg Except.error (Except.error.inj h)
    · split at h <;> cases h

end OneCall

end Log

namespace LogCtl

/-- The same calls on the list model; `begin_op` and `end_op` between them change only
`log.outstanding`, which each call brings with it. -/
def logWriteAll (l : LogCtl) : List (Int × Nat) → Except Fault LogCtl
  | [] => pure l
  | (o, b) :: calls => do
    let c ← { l with outstanding := o }.logWrite b
    c.logWriteAll calls

/-! ## Sequences of calls on the list model -/

section Calls

variable {l c : LogCtl} {b : Nat}

/-- What one accepted call leaves: the block appended unless already logged, and
`log.size` as it was. -/
theorem logWrite_block (h : l.logWrite b = .ok c) :
    c.block = (if b ∈ l.block then l.block else l.block ++ [b]) ∧ c.size = l.size := by
  obtain ⟨-, -, -, rfl⟩ := logWrite_ok h
  by_cases logged : b ∈ l.block
  · simp only [if_pos logged, and_self]
  · simp only [if_neg logged, and_self]

/-- A call returns exactly when both bounds leave room and an operation is in progress. -/
theorem logWrite_isOk :
    (∃ c, l.logWrite b = .ok c) ↔
      l.block.length < logSize ∧ (l.block.length : Int) < (l.size : Int) - 1 - 1 ∧
        1 ≤ l.outstanding := by
  constructor
  · rintro ⟨c, h⟩
    obtain ⟨room, roomSize, inside, -⟩ := logWrite_ok h
    exact ⟨room, roomSize, inside⟩
  · rintro ⟨room, roomSize, inside⟩
    unfold logWrite
    rw [if_neg (by omega), if_neg (by omega)]
    split
    · exact ⟨_, rfl⟩
    · exact ⟨_, rfl⟩

/-- Absorption is first-occurrence deduplication, one block at a time. -/
theorem eraseDups_append_singleton (P : List Nat) (b : Nat) :
    (P ++ [b]).eraseDups = if b ∈ P.eraseDups then P.eraseDups else P.eraseDups ++ [b] := by
  rw [List.eraseDups_append]
  by_cases logged : b ∈ P
  · have gone : [b].removeAll P = [] := by simp [List.removeAll, logged]
    rw [gone, if_pos (List.mem_eraseDups.mpr logged), List.eraseDups_nil, List.append_nil]
  · have kept : [b].removeAll P = [b] := by simp [List.removeAll, logged]
    rw [kept, if_neg (mt List.mem_eraseDups.mp logged)]
    rfl

/-- One accepted call on a log holding the first occurrences of `P` leaves the first
occurrences of `P` and its block. -/
theorem logWrite_eraseDups {P : List Nat} (h : l.logWrite b = .ok c)
    (hP : l.block = P.eraseDups) : c.block = (P ++ [b]).eraseDups := by
  rw [(logWrite_block h).1, eraseDups_append_singleton, ← hP]

/-- After calls from a log holding the first occurrences of `P`, the log holds the first
occurrences of `P` followed by the blocks passed. -/
theorem logWriteAll_block {P : List Nat} (hP : l.block = P.eraseDups) :
    ∀ {calls : List (Int × Nat)}, l.logWriteAll calls = .ok c →
      c.block = (P ++ calls.map Prod.snd).eraseDups ∧ c.size = l.size := by
  intro calls h
  induction calls generalizing l P with
  | nil =>
    cases h
    simp only [List.map_nil, List.append_nil, hP, and_self]
  | cons call calls ih =>
    obtain ⟨o, b⟩ := call
    obtain ⟨c1, first, rest⟩ := except_bind_eq_ok h
    obtain ⟨blocks, sizes⟩ := ih (logWrite_eraseDups first hP) rest
    refine ⟨?_, sizes.trans (logWrite_block first).2⟩
    rw [blocks, List.map_cons, List.append_assoc, List.singleton_append]

/-- The logged blocks stay distinct: a call appends only a block not yet logged. -/
theorem logWriteAll_nodup (nd : l.block.Nodup) :
    ∀ {calls : List (Int × Nat)}, l.logWriteAll calls = .ok c → c.block.Nodup := by
  intro calls h
  induction calls generalizing l with
  | nil =>
    cases h
    exact nd
  | cons call calls ih =>
    obtain ⟨c1, first, rest⟩ := except_bind_eq_ok h
    refine ih ?_ rest
    rw [(logWrite_block first).1]
    split
    · exact nd
    · rename_i fresh
      exact nd.append (List.nodup_singleton _) (List.disjoint_singleton.mpr fresh)

/-- A call at a position of the list is one of its elements with the calls before it. -/
theorem forall_split_cons {α : Type} {R : List α → α → Prop} (a : α) (as : List α) :
    (∀ pre x post, a :: as = pre ++ x :: post → R pre x) ↔
      R [] a ∧ ∀ pre x post, as = pre ++ x :: post → R (a :: pre) x := by
  constructor
  · intro h
    exact ⟨h [] a as rfl, fun pre x post split => h (a :: pre) x post (by rw [split]; rfl)⟩
  · rintro ⟨first, later⟩ pre x post split
    rcases pre with _ | ⟨y, pre⟩
    · obtain ⟨rfl, -⟩ := List.cons.inj split
      exact first
    · obtain ⟨rfl, rest⟩ := List.cons.inj split
      exact later pre x post rest

/-- **When the calls return.**  From a log holding the first occurrences of `P`, a
sequence of calls returns exactly when every call finds an operation in progress and fewer
blocks logged than both bounds, counting the distinct blocks of `P` and of the calls before
it, whether or not its own block is among them. -/
theorem logWriteAll_ok_iff {P : List Nat} (hP : l.block = P.eraseDups) :
    ∀ calls : List (Int × Nat), (∃ c, l.logWriteAll calls = .ok c) ↔
      ∀ pre call post, calls = pre ++ call :: post →
        1 ≤ call.1 ∧ (P ++ pre.map Prod.snd).eraseDups.length < logSize ∧
          ((P ++ pre.map Prod.snd).eraseDups.length : Int) < (l.size : Int) - 1 - 1 := by
  intro calls
  induction calls generalizing l P with
  | nil =>
    refine iff_of_true ⟨l, rfl⟩ fun pre call post split => ?_
    exact absurd split.symm (List.append_ne_nil_of_right_ne_nil pre (List.cons_ne_nil _ _))
  | cons call calls ih =>
    obtain ⟨o, b⟩ := call
    rw [forall_split_cons, List.map_nil, List.append_nil, ← hP]
    -- the first call: `{ l with outstanding := o }` is `l` as that call finds it
    let l0 : LogCtl := { l with outstanding := o }
    constructor
    · rintro ⟨c, h⟩
      obtain ⟨c1, first, rest⟩ := except_bind_eq_ok h
      obtain ⟨room, roomSize, inside⟩ := logWrite_isOk.mp ⟨c1, first⟩
      refine ⟨⟨inside, room, roomSize⟩, fun pre call post split => ?_⟩
      have later := (ih (logWrite_eraseDups first hP)).mp ⟨c, rest⟩ pre call post split
      rw [(logWrite_block first).2, List.append_assoc, List.singleton_append] at later
      simpa only [List.map_cons] using later
    · rintro ⟨⟨inside, room, roomSize⟩, later⟩
      obtain ⟨c1, first⟩ := logWrite_isOk (l := l0) (b := b) |>.mpr ⟨room, roomSize, inside⟩
      obtain ⟨c, rest⟩ := (ih (logWrite_eraseDups first hP)).mpr fun pre call post split => by
        rw [(logWrite_block first).2, List.append_assoc, List.singleton_append]
        simpa only [List.map_cons] using later pre call post split
      exact ⟨c, by rw [logWriteAll, first, except_ok_bind]; exact rest⟩

end Calls

end LogCtl

/-! ## Sequences of calls on `struct log` -/

namespace Log

section Calls

variable {s : Sys} {l c : LogCtl} {f : Fault}

/-- An empty header holds the empty list. -/
theorem holds_empty (s : Sys) (empty : s.log.lh.n = 0) : s.Holds ⟨s.log.size, 0, false, []⟩ :=
  ⟨rfl, by rw [empty]; rfl, fun _ hk => absurd hk (Nat.not_lt_zero _)⟩

/-- Calls that the list model accepts return on `struct log`, which then holds the list
model's log.  Each call is `logWrite_of_holds`, and the fields other than `log.lh` stay. -/
theorem logWriteAll_of_holds (hs : s.Holds l) :
    ∀ {calls : List (Int × Nat)}, l.logWriteAll calls = .ok c →
      ∃ lh, s.log.logWriteAll calls = .ok { s.log with lh } ∧
        ({ s with log := { s.log with lh } } : Sys).Holds c := by
  intro calls h
  induction calls generalizing s l with
  | nil =>
    cases h
    exact ⟨s.log.lh, rfl, hs⟩
  | cons call calls ih =>
    obtain ⟨o, b⟩ := call
    obtain ⟨c1, first, rest⟩ := except_bind_eq_ok h
    obtain ⟨lh1, written, hs1⟩ :=
      logWrite_of_holds (l := { l with outstanding := o }) ⟨hs.size, hs.count, hs.slots⟩ first
    obtain ⟨lh, writtenAll, hs'⟩ := ih hs1 rest
    exact ⟨lh, by rw [logWriteAll, written, except_ok_bind]; exact writtenAll, hs'⟩

/-- Calls that the list model refuses panic on `struct log` with the same message. -/
theorem logWriteAll_error_of_holds (hs : s.Holds l) :
    ∀ {calls : List (Int × Nat)}, l.logWriteAll calls = .error f →
      s.log.logWriteAll calls = .error f := by
  intro calls h
  induction calls generalizing s l with
  | nil => cases h
  | cons call calls ih =>
    obtain ⟨o, b⟩ := call
    have hs0 : s.Holds { l with outstanding := o } := ⟨hs.size, hs.count, hs.slots⟩
    rcases except_bind_eq_error h with refused | ⟨c1, first, rest⟩
    · rw [logWriteAll, logWrite_error_of_holds hs0 refused]
      rfl
    · obtain ⟨lh1, written, hs1⟩ := logWrite_of_holds hs0 first
      rw [logWriteAll, written, except_ok_bind]
      exact ih hs1 rest

/-- Calls that return on `struct log` return on the list model, and the header holds its
log. -/
theorem logWriteAll_ok_of_holds (hs : s.Holds l) {calls : List (Int × Nat)} {log' : Log}
    (h : s.log.logWriteAll calls = .ok log') :
    ∃ c, l.logWriteAll calls = .ok c ∧ ∃ lh, log' = { s.log with lh } ∧
      ({ s with log := log' } : Sys).Holds c := by
  cases hc : l.logWriteAll calls with
  | error f =>
    rw [logWriteAll_error_of_holds hs hc] at h
    cases h
  | ok c =>
    obtain ⟨lh, written, hs'⟩ := logWriteAll_of_holds hs hc
    rw [written] at h
    cases h
    exact ⟨c, rfl, lh, rfl, hs'⟩

/-- **Absorption.**  After any sequence of `log_write` calls from an empty header, the
header holds the distinct block numbers passed, each once, in the order first passed, and
`log.lh.n` counts them; the other fields of `struct log` are as they were. -/
theorem logWriteAll_header (empty : s.log.lh.n = 0) {calls : List (Int × Nat)} {log' : Log}
    (h : s.log.logWriteAll calls = .ok log') :
    log'.lh.n = (calls.map Prod.snd).eraseDups.length ∧
      (∀ (k : Fin logSize) (hk : k.val < (calls.map Prod.snd).eraseDups.length),
        log'.lh.block k = (calls.map Prod.snd).eraseDups[k.val]) ∧
      (calls.map Prod.snd).eraseDups.Nodup ∧ ∃ lh, log' = { s.log with lh } := by
  obtain ⟨c, hc, lh, rfl, hs'⟩ := logWriteAll_ok_of_holds (holds_empty s empty) h
  obtain ⟨blocks, -⟩ := LogCtl.logWriteAll_block (P := []) rfl hc
  rw [List.nil_append] at blocks
  refine ⟨by rw [hs'.count, blocks], fun k hk => ?_, ?_, lh, rfl⟩
  · rw [hs'.slots k (by rw [blocks]; exact hk), List.getElem_of_eq blocks]
  · rw [← blocks]
    exact LogCtl.logWriteAll_nodup List.nodup_nil hc

/-- From an empty header, a sequence of calls returns exactly when every call finds an
operation in progress and fewer distinct blocks passed before it than `LOGSIZE` and
`log.size - 2`. -/
theorem logWriteAll_ok_iff (empty : s.log.lh.n = 0) (calls : List (Int × Nat)) :
    (∃ log', s.log.logWriteAll calls = .ok log') ↔
      ∀ pre call post, calls = pre ++ call :: post →
        1 ≤ call.1 ∧ (pre.map Prod.snd).eraseDups.length < logSize ∧
          ((pre.map Prod.snd).eraseDups.length : Int) < (s.log.size : Int) - 1 - 1 := by
  have hs := holds_empty s empty
  have listModel := LogCtl.logWriteAll_ok_iff (l := ⟨s.log.size, 0, false, []⟩) (P := []) rfl calls
  simp only [List.nil_append] at listModel
  rw [← listModel]
  constructor
  · rintro ⟨log', h⟩
    obtain ⟨c, hc, -⟩ := logWriteAll_ok_of_holds hs h
    exact ⟨c, hc⟩
  · rintro ⟨c, hc⟩
    obtain ⟨lh, h, -⟩ := logWriteAll_of_holds hs hc
    exact ⟨_, h⟩

end Calls

end Log

/-! ## Until `install_trans` writes a logged block home -/

/-- The writes `ws` of a commit of the home blocks `homes` keep the `B_DIRTY` flag `dirty`
gives each home block's buffer until write `n + 2 + i`, `install_trans`'s copy of home
block `i` with its cached contents from `view`, and that write clears it. -/
def InstallsPinned (ws : List (Nat × Block)) (homes : List Nat) (view : Disk)
    (dirty : Nat → Bool) : Prop :=
  ∀ i < homes.length,
    ws[homes.length + 2 + i]? = some (homes.getD i 0, view (homes.getD i 0)) ∧
    (∀ k ≤ homes.length + 2 + i,
      dirtyAfter dirty (ws.take k) (homes.getD i 0) = dirty (homes.getD i 0)) ∧
    dirtyAfter dirty (ws.take (homes.length + 2 + i + 1)) (homes.getD i 0) = false

namespace Sys

section Pinned

variable {s : Sys} {homes : List Nat}

/-- `install_trans`'s first `i` writes name the first `i` home blocks. -/
theorem mem_take_installs {v : Nat → Block} {i : Nat} {w : Nat × Block}
    (hw : w ∈ (installs homes v).take i) : ∃ j < i, w = (homes.getD j 0, v j) := by
  rw [installs, ← List.map_take, List.take_range] at hw
  obtain ⟨j, hj, rfl⟩ := List.mem_map.mp hw
  exact ⟨j, lt_of_lt_of_le (List.mem_range.mp hj) (Nat.min_le_left _ _), rfl⟩

/-- Write `n + 2 + i` of `commit` is `install_trans`'s copy of home block `i`. -/
theorem commitWrites_install {i : Nat} (hi : i < homes.length) :
    (s.commitWrites homes)[homes.length + 2 + i]? =
      some (homes.getD i 0, s.view (homes.getD i 0)) := by
  rw [commitWrites_eq, List.getElem?_append_right (by simp only [logCopies_length]; omega),
    logCopies_length,
    show homes.length + 2 + i - homes.length = i + 1 + 1 by omega, List.getElem?_cons_succ,
    List.getElem?_cons_succ, List.getElem?_append_left (by simpa using hi)]
  simp [installs, hi]

variable (t : Txn s homes)
include t

/-- No write of `commit` before `install_trans`'s copy of home block `i` names that block:
`write_log`, `write_checksum` and `write_head` write in the log region, and the installs
before it write the other home blocks. -/
theorem commitWrites_before_install {i : Nat} (hi : i < homes.length) :
    ∀ w ∈ (s.commitWrites homes).take (homes.length + 2 + i), w.1 ≠ homes.getD i 0 := by
  have out := t.homes_out _ (Txn.home_mem hi)
  intro w hw
  rw [commitWrites_eq, List.take_append, List.take_of_length_le (by simp; omega),
    logCopies_length, show homes.length + 2 + i - homes.length = i + 1 + 1 by omega,
    List.take_succ_cons, List.take_succ_cons, List.take_append_of_le_length (by simp; omega)] at hw
  rcases List.mem_append.mp hw with copy | rest
  · obtain ⟨j, hj, rfl⟩ := List.mem_map.mp (by simpa only [logCopies] using copy)
    have := List.mem_range.mp hj
    dsimp only
    omega
  · rcases List.mem_cons.mp rest with rfl | rest
    · dsimp only
      omega
    rcases List.mem_cons.mp rest with rfl | inst
    · dsimp only
      omega
    obtain ⟨j, hj, rfl⟩ := mem_take_installs inst
    exact fun same => absurd (t.home_inj (by omega) hi same) (by omega)

/-- **Pinned until installed.**  Whatever the flags before `commit`, the buffer of home
block `i` keeps its `B_DIRTY` flag through every write before `install_trans`'s copy of
it, and that write clears it. -/
theorem commitWrites_pinned (dirty : Nat → Bool) {i : Nat} (hi : i < homes.length) :
    (∀ k ≤ homes.length + 2 + i, dirtyAfter dirty ((s.commitWrites homes).take k)
      (homes.getD i 0) = dirty (homes.getD i 0)) ∧
    dirtyAfter dirty ((s.commitWrites homes).take (homes.length + 2 + i + 1))
      (homes.getD i 0) = false := by
  refine ⟨fun k hk => dirtyAfter_of_forall_ne fun w hw =>
    commitWrites_before_install t hi w (List.take_subset_take_left _ hk hw), ?_⟩
  rw [List.take_add_one, commitWrites_install hi, Option.toList_some]
  exact dirtyAfter_of_mem (List.mem_append_right _ (List.mem_singleton_self _))

/-- The writes of a transaction's commit pin every home block until it is installed. -/
theorem Txn.installsPinned (dirty : Nat → Bool) :
    InstallsPinned (s.commitWrites homes) homes s.view dirty :=
  fun _ hi => ⟨commitWrites_install hi, commitWrites_pinned t dirty hi⟩

end Pinned

end Sys

/-! ## From the calls to the commit -/

namespace Log

section Commit

variable {s : Sys} {calls : List (Int × Nat)} {log' : Log}

/-- After at least one call from an empty header, the distinct blocks leave room for the
header and checksum blocks in `log.size`, and fit in `LOGSIZE`: the last call passed
both checks and added at most one block. -/
theorem logWriteAll_room (empty : s.log.lh.n = 0) (h : s.log.logWriteAll calls = .ok log')
    (called : calls ≠ []) :
    (calls.map Prod.snd).eraseDups.length + 2 ≤ s.log.size ∧
      (calls.map Prod.snd).eraseDups.length ≤ logSize := by
  rcases List.eq_nil_or_concat' calls with rfl | ⟨init, last, rfl⟩
  · exact absurd rfl called
  obtain ⟨-, room, roomSize⟩ := (logWriteAll_ok_iff empty _).mp ⟨log', h⟩ init last [] rfl
  have grows : ((init ++ [last]).map Prod.snd).eraseDups.length ≤
      (init.map Prod.snd).eraseDups.length + 1 := by
    rw [List.map_append, List.map_singleton, LogCtl.eraseDups_append_singleton]
    split <;> simp
  omega

/-- **The commit after the calls.**  After at least one call from an empty header over the
log region `mkfs` lays out (`log.size = LOGSIZE`), with every block passed below `FSSIZE`
and outside the log region: `commit` returns, issuing `commitWrites`, and those writes keep
each logged block's buffer pinned until `install_trans` writes it home. -/
theorem logWriteAll_commit (empty : s.log.lh.n = 0) (mkfs : s.log.size = logSize)
    (h : s.log.logWriteAll calls = .ok log') (called : calls ≠ [])
    (placed : s.Placed (calls.map Prod.snd)) (dirty : Nat → Bool) :
    ∃ s', ({ s with log := log' } : Sys).commit = .ok s' ∧
      s'.writes = s.writes ++ ({ s with log := log' } : Sys).commitWrites
        (calls.map Prod.snd).eraseDups ∧
      InstallsPinned (({ s with log := log' } : Sys).commitWrites (calls.map Prod.snd).eraseDups)
        (calls.map Prod.snd).eraseDups s.view dirty := by
  obtain ⟨c, hc, lh, rfl, hs'⟩ := logWriteAll_ok_of_holds (holds_empty s empty) h
  obtain ⟨blocks, -⟩ := LogCtl.logWriteAll_block (P := []) rfl hc
  rw [List.nil_append] at blocks
  obtain ⟨room, -⟩ := logWriteAll_room empty h called
  have nonempty : (calls.map Prod.snd).eraseDups ≠ [] := by
    obtain ⟨call, rest, rfl⟩ := List.exists_cons_of_ne_nil called
    exact List.ne_nil_of_mem (List.mem_eraseDups.mpr List.mem_cons_self)
  have placed' : ({ s with log := { s.log with lh } } : Sys).Placed c.block := by
    rw [blocks]
    exact ⟨fun b hb => placed.homes_lt b (List.mem_eraseDups.mp hb),
      fun b hb => placed.homes_out b (List.mem_eraseDups.mp hb), placed.region⟩
  have t := Sys.Txn.of_holds hs' (LogCtl.logWriteAll_nodup List.nodup_nil hc) (by rw [blocks]; exact nonempty)
    (by rw [blocks, hs'.size.symm]; exact room) (by rw [blocks]; rw [mkfs] at room; omega) placed'
  rw [blocks] at t
  obtain ⟨s', committed, writes, -⟩ := Sys.commit_eq t
  exact ⟨s', committed, writes, Sys.Txn.installsPinned t dirty⟩

end Commit

end Log

/-! ## Absorption and pinning -/

/-- **`log_write` between two commits.**  For every sequence of `log_write` calls from the
empty header a commit or `initlog` leaves: the calls return exactly when each finds an
operation in progress and fewer distinct blocks logged than both bounds; when they return,
`log.lh.block[0 .. log.lh.n)` holds the distinct block numbers passed, each once, in the
order first passed, and `log.lh.n` counts them.  From any reachable state of the buffer
cache, `log_write` leaves its buffer with `B_DIRTY` set, and every run of any processes'
steps without a `bwrite` of it keeps it so, holding its block, where `bget`'s recycling
passes it by.  Over the log region `mkfs` lays out, with the blocks passed below `FSSIZE`
and outside the log region, `commit` then returns, and its writes keep every logged block's
buffer pinned until `install_trans` writes it home. -/
theorem log_write_absorbs {Pid : Type} [DecidableEq Pid] [Fintype Pid] :
    (∀ (s : Sys) (calls : List (Int × Nat)), s.log.lh.n = 0 →
      ((∃ log', s.log.logWriteAll calls = .ok log') ↔
        ∀ pre call post, calls = pre ++ call :: post →
          1 ≤ call.1 ∧ (pre.map Prod.snd).eraseDups.length < logSize ∧
            ((pre.map Prod.snd).eraseDups.length : Int) < (s.log.size : Int) - 1 - 1)) ∧
    (∀ (s : Sys) (calls : List (Int × Nat)) (log' : Log), s.log.lh.n = 0 →
      s.log.logWriteAll calls = .ok log' →
      log'.lh.n = (calls.map Prod.snd).eraseDups.length ∧
      (∀ (k : Fin logSize) (hk : k.val < (calls.map Prod.snd).eraseDups.length),
        log'.lh.block k = (calls.map Prod.snd).eraseDups[k.val]) ∧
      (calls.map Prod.snd).eraseDups.Nodup) ∧
    (∀ (s s1 s2 : Bio Pid) (p : Pid) (b : Fin nbuf) (ops : List (Pid × BufOp)), s.Reachable →
      s.step p (.logWrite b) = some (.ok s1) → (∀ x ∈ ops, x.2 ≠ .bwrite b) →
      s1.steps ops = some (.ok s2) →
      s2.cache.Pinned b (s.cache.buf b).tag ∧ s2.cache.recycle ≠ some b) ∧
    (∀ (s : Sys) (calls : List (Int × Nat)) (log' : Log) (dirty : Nat → Bool),
      s.log.lh.n = 0 → s.log.size = logSize → s.log.logWriteAll calls = .ok log' →
      calls ≠ [] → s.Placed (calls.map Prod.snd) →
      ∃ s' ws, ({ s with log := log' } : Sys).commit = .ok s' ∧ s'.writes = s.writes ++ ws ∧
        InstallsPinned ws (calls.map Prod.snd).eraseDups s.view dirty) := by
  refine ⟨fun s calls empty => Log.logWriteAll_ok_iff empty calls,
    fun s calls log' empty h => ?_,
    fun s s1 s2 p b ops hs h unwritten ran => Bio.logWrite_pinned_steps hs h unwritten ran,
    fun s calls log' dirty empty mkfs h called placed => ?_⟩
  · obtain ⟨count, slots, nodup, -⟩ := Log.logWriteAll_header empty h
    exact ⟨count, slots, nodup⟩
  · obtain ⟨s', committed, writes, pinned⟩ :=
      Log.logWriteAll_commit empty mkfs h called placed dirty
    exact ⟨s', _, committed, writes, pinned⟩

/-- The log region `mkfs` lays out (`logstart = 2`, `nlog = LOGSIZE`) with no block logged,
over a zeroed disk. -/
def emptyLog : Sys := ⟨⟨2, 30, 0, ⟨0, fun _ => 0⟩⟩, fun _ => zeroBlock, []⟩

/-- Data blocks `100`, `101` and `100` again logged over `emptyLog` and committed, and the
first buffer logged after one process's `bread` from boot. -/
theorem log_write_absorbs_mkfs :
    let calls : List (Int × Nat) := [(1, 100), (1, 101), (1, 100)]
    emptyLog.log.lh.n = 0 ∧
    ((∃ log', emptyLog.log.logWriteAll calls = .ok log') ↔
      ∀ pre call post, calls = pre ++ call :: post →
        1 ≤ call.1 ∧ (pre.map Prod.snd).eraseDups.length < logSize ∧
          ((pre.map Prod.snd).eraseDups.length : Int) < (emptyLog.log.size : Int) - 1 - 1) ∧
    (∃ log', emptyLog.log.logWriteAll calls = .ok log' ∧
      log'.lh.n = (calls.map Prod.snd).eraseDups.length ∧
      (∀ (k : Fin logSize) (hk : k.val < (calls.map Prod.snd).eraseDups.length),
        log'.lh.block k = (calls.map Prod.snd).eraseDups[k.val]) ∧
      (calls.map Prod.snd).eraseDups.Nodup) ∧
    (∃ s s1 : Bio Unit, s.Reachable ∧ s.step () (.logWrite ⟨0, nbuf_pos⟩) = some (.ok s1) ∧
      s1.cache.Pinned ⟨0, nbuf_pos⟩ (s.cache.buf ⟨0, nbuf_pos⟩).tag ∧
      s1.cache.recycle ≠ some ⟨0, nbuf_pos⟩) ∧
    (∃ log', emptyLog.log.logWriteAll calls = .ok log' ∧ emptyLog.log.size = logSize ∧
      calls ≠ [] ∧ emptyLog.Placed (calls.map Prod.snd) ∧
      ∃ s' ws, ({ emptyLog with log := log' } : Sys).commit = .ok s' ∧
        s'.writes = emptyLog.writes ++ ws ∧
        InstallsPinned ws (calls.map Prod.snd).eraseDups emptyLog.view (fun _ => true)) := by
  intro calls
  obtain ⟨returns, header, pinned, committed⟩ := @log_write_absorbs Unit _ _
  obtain ⟨log', ran⟩ : ∃ log', emptyLog.log.logWriteAll calls = .ok log' := ⟨_, rfl⟩
  -- `bread(0, 100)` from boot recycles the first buffer, which `wake` reads and locks
  obtain ⟨s, s1, reach, logged⟩ : ∃ s s1 : Bio Unit, s.Reachable ∧
      s.step () (.logWrite ⟨0, nbuf_pos⟩) = some (.ok s1) :=
    ⟨_, _, .step () .wake (.step () (.bread 0 100) (.boot fun _ => zeroBlock) rfl) rfl, rfl⟩
  have placed : emptyLog.Placed (calls.map Prod.snd) := ⟨by decide, by decide, by decide⟩
  exact ⟨rfl, returns emptyLog calls rfl, ⟨log', ran, header emptyLog calls log' rfl ran⟩,
    ⟨s, s1, reach, logged, pinned s s1 s1 () _ [] reach logged (fun _ h => absurd h List.not_mem_nil) rfl⟩,
    ⟨log', ran, rfl, List.cons_ne_nil _ _, placed,
      committed emptyLog calls log' (fun _ => true) rfl rfl ran (List.cons_ne_nil _ _) placed⟩⟩

/-- `log_write` takes any block number, also the header block `log.start+1`: logged
alone over the log region `mkfs` lays out, the calls return and `commit` returns, but its
third write, `write_head`'s header that commits, goes to that block and returns its buffer
clean before `install_trans` copies it home in the fourth. -/
theorem header_block_unpinned :
    let s : Sys := ⟨⟨2, 30, 0, ⟨0, fun _ => 0⟩⟩, fun b => if b = 3 then fun _ => 1 else zeroBlock, []⟩
    s.log.lh.n = 0 ∧ s.log.size = logSize ∧ (∀ b ∈ [(1, 3)].map Prod.snd, b < fsSize) ∧
      ∃ log', s.log.logWriteAll [(1, 3)] = .ok log' ∧
        ∃ s', ({ s with log := log' } : Sys).commit = .ok s' ∧
          ¬ InstallsPinned s'.writes ([(1, 3)].map Prod.snd).eraseDups s.view (fun _ => true) := by
  intro s
  refine ⟨rfl, rfl, by simp [fsSize], ?_⟩
  refine ⟨⟨2, 30, 0, ⟨1, Function.update (fun _ => 0) ⟨0, by decide⟩ 3⟩⟩, rfl, ?_⟩
  obtain ⟨s', ck, committed, writes⟩ :=
    Sys.commit_logged_header_writes (s := { s with log := ⟨2, 30, 0,
      ⟨1, Function.update (fun _ => 0) ⟨0, by decide⟩ 3⟩⟩ }) rfl
      (fun k hk => by rw [show k = ⟨0, by decide⟩ from Fin.ext hk]; decide)
      (by decide)
  refine ⟨s', committed, fun pinned => ?_⟩
  -- pinning would keep the flag through the first three writes; `write_head` cleared it
  have kept := (pinned 0 (by decide)).2.1 3 (by decide)
  rw [writes] at kept
  exact Bool.false_ne_true (Eq.trans (by rfl) kept)

end Xv6
