import Xv6.Console.Refine

/-!
# What the console's readers get

Every run of the console, over any characters and any interleaving of reads, kills and
wakeups, is a run of the list-level line discipline on the same steps
(`ConsSys.steps_sim`).  From the invariants of the latter:

* `console_line_discipline`: `r ≤ w ≤ e ≤ r + INPUT_BUF`; `consoleintr` never changes a
  committed byte; the bytes reads copied out, in the order they copied them, then the
  unread committed characters, are the committed characters, `^D`s left out; a call
  returns the bytes it copied, stopping after a `'\n'` or at a `^D`, which it leaves for
  the next read when bytes came before it; and that next read returns 0.
* `interleaved_reads_split_lines`: what the calls return is not a prefix of that input when
  two reads overlap.  A read that has copied a full buffer without a `'\n'` sleeps for more;
  a second reader takes the next line meanwhile, and returns first.
-/

namespace Xv6

namespace ConsSys

variable {Pid : Type} [DecidableEq Pid]

/-- `consoleintr` from `s` to `s'` leaves `r`, and the committed bytes from `r` to `w`, as
they were, and `w` only moves on. -/
def KeepsCommitted (s s' : ConsSys Input Pid) : Prop :=
  s'.dev.r = s.dev.r ∧ (s.dev.w - s.dev.r).toNat ≤ (s'.dev.w - s.dev.r).toNat ∧
    ∀ k < (s.dev.w - s.dev.r).toNat,
      s'.dev.buf (Input.slot (s.dev.r + UInt32.ofNat k)) =
        s.dev.buf (Input.slot (s.dev.r + UInt32.ofNat k))

/-- A call of `target` bytes by `p` that a step from `s` to `s'` ends with `v`: `v` counts
the bytes the call copied, none of them a `^D` and a `'\n'` only last; and the call stopped
after its target, after a `'\n'`, before a `^D` it leaves as the next character to read when
bytes came before it, or having taken a `^D` that came first. -/
def ReadReturns (s s' : ConsSys Input Pid) (p : Pid) (target : Nat) (v : Int) : Prop :=
  v = (s'.readers.mine p).length ∧ ctrl 'D' ∉ s'.readers.mine p ∧
    newline ∉ (s'.readers.mine p).dropLast ∧
    ((s'.readers.mine p).length = target ∨ (s'.readers.mine p).getLast? = some newline ∨
      (s'.readers.mine p ≠ [] ∧ s'.dev.r ≠ s'.dev.w ∧
        s'.dev.buf (Input.slot s'.dev.r) = ctrl 'D') ∨
      (s'.readers.mine p = [] ∧ s.dev.r ≠ s.dev.w ∧ s.dev.buf (Input.slot s.dev.r) = ctrl 'D' ∧
        s'.dev.r = s.dev.r + 1))

/-- A stretch of `consoleread` moves only `r`. -/
theorem step_ret_w {s s' : ConsSys Input Pid} {p : Pid} {op : ConsOp} {v : Int}
    (h : s.step Input.device p op = some (s', some v)) : s'.dev.w = s.dev.w := by
  rcases step_cases h with ⟨-, -, hr, -⟩ | ⟨n, -, -, hst⟩ | ⟨target, n, -, -, -, hst⟩ | ⟨-, hr, -⟩
  · cases hr
  · rw [show s' = _ from congrArg Prod.fst hst]
    exact Input.consolereadLoop_w _ _ _ _
  · rw [show s' = _ from congrArg Prod.fst hst]
    exact Input.consolereadLoop_w _ _ _ _
  · cases hr

/-- A read facing a `^D` as the next character returns 0 at once and takes it. -/
theorem read_at_ctrl_D (s : ConsSys Input Pid) {p : Pid} (n : Nat)
    (hidle : (s.readers.proc p).call = .idle) (hne : s.dev.r ≠ s.dev.w)
    (hD : s.dev.buf (Input.slot s.dev.r) = ctrl 'D') :
    ∃ s', s.step Input.device p (.read (n + 1)) = some (s', some 0) ∧ s'.dev.r = s.dev.r + 1 := by
  have hloop : consolereadLoop (s.readers.proc p).killed (n + 1) (n + 1) s.dev =
      ({ s.dev with r := s.dev.r + 1 }, [], .ret 0) := by
    rw [consolereadLoop, if_neg hne]
    dsimp only
    rw [if_pos hD, if_neg (Nat.lt_irrefl _)]
    simp
  refine ⟨(s.stretch Input.device (s.readers.start p) p (s.readers.proc p).killed (n + 1)
    (n + 1)).1, ?_, ?_⟩
  · rw [step, if_pos hidle, Option.some.injEq, Prod.mk.injEq]
    refine ⟨rfl, ?_⟩
    change ((s.readers.start p).finish p (consolereadLoop _ (n + 1) (n + 1) s.dev).2.1
      (consolereadLoop _ (n + 1) (n + 1) s.dev).2.2).2 = some 0
    rw [hloop]
    rfl
  · change (consolereadLoop _ (n + 1) (n + 1) s.dev).1.r = s.dev.r + 1
    rw [hloop]

end ConsSys

/-- The console over any run: with the line discipline run on the same steps, the ring holds
its unread characters and then its current line, so `r ≤ w ≤ e ≤ r + INPUT_BUF` modulo
`2^32`; the bytes copied to readers, then the unread committed characters, are the committed
characters with their `^D`s left out; `consoleintr` keeps the committed bytes; a call that
returns stops as `ReadReturns` says; and a read facing a `^D` returns 0. -/
theorem console_line_discipline {Pid : Type} [DecidableEq Pid] {ops : List (Pid × ConsOp)}
    {s : ConsSys Input Pid} (h : (ConsSys.init Input.boot).steps Input.device ops = some s) :
    ∃ t : ConsSys Lines Pid, (ConsSys.init Lines.init).steps Lines.device ops = some t ∧
      s.dev.Rep t.dev ∧ s.readers = t.readers ∧
      (s.dev.w - s.dev.r).toNat ≤ (s.dev.e - s.dev.r).toNat ∧
      (s.dev.e - s.dev.r).toNat ≤ inputBuf ∧
      s.readers.copied ++ t.dev.unread.filter (· ≠ ctrl 'D') =
        t.dev.committed.filter (· ≠ ctrl 'D') ∧
      (∀ p cs s' r, s.step Input.device p (.intr cs) = some (s', r) → s.KeepsCommitted s') ∧
      (∀ p op s' v target n, s.step Input.device p op = some (s', some v) →
        s.callOf p op = .read target n → v ≠ -1 → s.ReadReturns s' p target v) ∧
      (∀ p n, (s.readers.proc p).call = .idle → s.dev.r ≠ s.dev.w →
        s.dev.buf (Input.slot s.dev.r) = ctrl 'D' →
        ∃ s', s.step Input.device p (.read (n + 1)) = some (s', some 0) ∧
          s'.dev.r = s.dev.r + 1) := by
  obtain ⟨t, ht, hR, hrd⟩ :=
    ConsSys.steps_sim (t := ConsSys.init Lines.init) Input.device_sim Input.rep_boot rfl h
  have hA : t.Accounts :=
    ConsSys.steps_inv Lines.device (fun hA hstep => hA.step hstep) ConsSys.Accounts.init ht
  have hC : t.readers.Calls :=
    ConsSys.steps_inv Lines.device (P := fun t => t.readers.Calls)
      (fun hC hstep => ConsSys.calls_step hC hstep) Readers.calls_init ht
  refine ⟨t, ht, hR, hrd, hR.ordered.1, hR.ordered.2, ?_, ?_, ?_,
    fun p n hidle hne hD => s.read_at_ctrl_D n hidle hne hD⟩
  · rw [hrd, hA.copied, hA.committed, List.filter_append]
  · -- typing: the line discipline only appends to what is unread, and `r` stays
    intro p cs s' r hstep
    obtain ⟨t', ht', hR', -⟩ := ConsSys.step_sim Input.device_sim hR hrd hstep
    rw [ConsSys.step_intr, Option.some.injEq, Prod.mk.injEq] at hstep ht'
    obtain ⟨rfl, -⟩ := hstep
    obtain ⟨rfl, -⟩ := ht'
    obtain ⟨l, -, hu, -⟩ := t.dev.typeAll_commits cs
    have hr : (consoleintr s.dev cs).1.r = s.dev.r := Input.consoleintr_r _ _
    exact ⟨hr, hR.keeps hR' hr hu⟩
  · -- a returning call: read off the line discipline's step
    intro p op s' v target n hstep hcall hv1
    obtain ⟨t', ht', hR', hrd'⟩ := ConsSys.step_sim Input.device_sim hR hrd hstep
    obtain ⟨hv, hD, hnl, stop⟩ := ConsSys.return_step hC ht' hv1
      ((ConsSys.callOf_congr hrd p op).symm.trans hcall)
    rw [← hrd'] at hv hD hnl stop
    refine ⟨hv, hD, hnl, ?_⟩
    rcases stop with hfull | hlast | ⟨hne, hhead⟩ | ⟨hnil, hu⟩
    · exact .inl hfull
    · exact .inr (.inl hlast)
    · exact .inr (.inr (.inl ⟨hne, hR'.head_iff.mp hhead⟩))
    · exact .inr (.inr (.inr ⟨hnil, hR.took hR' (ConsSys.step_ret_w hstep) hu⟩))

/-- Process `0` reads and sleeps; `"xy"`, `^U`, `"ab"`, backspace, `"c\n"` and `^D` are
typed; process `0` returns `"ac\n"`, and process `1`'s read facing the `^D` returns `0`. -/
def editedLine : List (Fin 2 × ConsOp) :=
  [(0, .read 10), (1, .intr [120, 121, ctrl 'U', 97, 98, ctrl 'H', 99, newline, ctrl 'D']),
    (0, .resume), (1, .read 5)]

/-- The run of `editedLine`: the line discipline erases what `^U` and backspace remove, the
read returns the committed line, and the `^D` is taken by the next read. -/
theorem console_line_discipline_edited :
    ∃ s : ConsSys Input (Fin 2), (ConsSys.init Input.boot).steps Input.device editedLine = some s ∧
      s.readers.mine 0 = [97, 99, newline] ∧ s.readers.mine 1 = [] ∧ s.dev.r = s.dev.w ∧
      ∃ t : ConsSys Lines (Fin 2), (ConsSys.init Lines.init).steps Lines.device editedLine = some t ∧
        s.dev.Rep t.dev ∧ s.readers = t.readers ∧
        (s.dev.w - s.dev.r).toNat ≤ (s.dev.e - s.dev.r).toNat ∧
        (s.dev.e - s.dev.r).toNat ≤ inputBuf ∧
        s.readers.copied ++ t.dev.unread.filter (· ≠ ctrl 'D') =
          t.dev.committed.filter (· ≠ ctrl 'D') ∧
        (∀ p cs s' r, s.step Input.device p (.intr cs) = some (s', r) → s.KeepsCommitted s') ∧
        (∀ p op s' v target n, s.step Input.device p op = some (s', some v) →
          s.callOf p op = .read target n → v ≠ -1 → s.ReadReturns s' p target v) ∧
        (∀ p n, (s.readers.proc p).call = .idle → s.dev.r ≠ s.dev.w →
          s.dev.buf (Input.slot s.dev.r) = ctrl 'D' →
          ∃ s', s.step Input.device p (.read (n + 1)) = some (s', some 0) ∧
            s'.dev.r = s.dev.r + 1) := by
  have ran : ((ConsSys.init Input.boot : ConsSys Input (Fin 2)).steps Input.device editedLine).any
      (fun s => s.readers.mine 0 = [97, 99, newline] && s.readers.mine 1 = [] &&
        s.dev.r = s.dev.w) = true := by
    decide +kernel
  obtain ⟨s, ran, facts⟩ := (Option.any_eq_true _ _).mp ran
  simp only [Bool.and_eq_true, decide_eq_true_eq] at facts
  exact ⟨s, ran, facts.1.1, facts.1.2, facts.2, console_line_discipline ran⟩

/-- Process `0` reads 200 bytes after a full buffer of `'a'`s was typed: it copies the 128
bytes, which carry no `'\n'`, and sleeps for more.  `"b\n"` is typed and process `1` reads
it, returning first; then `"c\n"` is typed and process `0` returns its 128 bytes and
`"c\n"`. -/
def overlappedReads : List (Fin 2 × ConsOp) :=
  [(0, .intr (List.replicate inputBuf 97)), (0, .read 200), (1, .intr [98, newline]),
    (1, .read 10), (1, .intr [99, newline]), (0, .resume)]

/-- After `overlappedReads` both calls have returned, and neither the bytes in the order the
calls returned nor those in the order they were made are a prefix of the committed input. -/
def splitCheck : Option (ConsSys Input (Fin 2)) → Option (ConsSys Lines (Fin 2)) → Bool
  | some s, some t =>
    let input := t.dev.committed.filter (· ≠ ctrl 'D')
    (s.readers.proc 0).call == .idle && (s.readers.proc 1).call == .idle &&
      !s.readers.returned.isPrefixOf input &&
      !(s.readers.mine 0 ++ s.readers.mine 1).isPrefixOf input
  | _, _ => false

set_option maxRecDepth 8000 in
/-- Two reads that overlap return the input out of order: the second reader's line comes back
before the first reader's buffer, which the input has first, so what the calls return,
concatenated in either order, is not a prefix of the line-edited input. -/
theorem interleaved_reads_split_lines :
    ∃ (s : ConsSys Input (Fin 2)) (t : ConsSys Lines (Fin 2)),
      (ConsSys.init Input.boot).steps Input.device overlappedReads = some s ∧
      (ConsSys.init Lines.init).steps Lines.device overlappedReads = some t ∧
      (s.readers.proc 0).call = .idle ∧ (s.readers.proc 1).call = .idle ∧
      ¬ s.readers.returned <+: t.dev.committed.filter (· ≠ ctrl 'D') ∧
      ¬ s.readers.mine 0 ++ s.readers.mine 1 <+: t.dev.committed.filter (· ≠ ctrl 'D') := by
  have run : splitCheck ((ConsSys.init Input.boot).steps Input.device overlappedReads)
      ((ConsSys.init Lines.init).steps Lines.device overlappedReads) = true := by
    decide +kernel
  generalize hs : (ConsSys.init Input.boot : ConsSys Input (Fin 2)).steps Input.device
    overlappedReads = r at run
  generalize ht : (ConsSys.init Lines.init : ConsSys Lines (Fin 2)).steps Lines.device
    overlappedReads = r' at run
  cases r with
  | none => cases run
  | some s =>
    cases r' with
    | none => cases run
    | some t =>
      simp only [splitCheck, Bool.and_eq_true, beq_iff_eq, Bool.not_eq_true'] at run
      obtain ⟨⟨⟨idle0, idle1⟩, returned⟩, mine⟩ := run
      refine ⟨s, t, rfl, rfl, idle0, idle1, ?_, ?_⟩
      · rw [← Bool.not_eq_true, List.isPrefixOf_iff_prefix] at returned
        exact returned
      · rw [← Bool.not_eq_true, List.isPrefixOf_iff_prefix] at mine
        exact mine

end Xv6
