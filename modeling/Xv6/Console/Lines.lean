import Xv6.Console.Console

/-!
# The line discipline on lists

What the console is for, stated without the ring: the characters typed since the last commit
form the current `line`; a `'\n'`, a `^D`, or a full buffer commits it to the lines waiting
to be read (`unread`); a read takes unread characters up to and including a `'\n'`, stops at
a `^D` (taking it only when it comes first), and sleeps when nothing is left.  Two fields
record the history: `committed`, every character ever committed, and `taken`, every
committed character a read took, `^D`s included.

* `type_commits`, `typeAll_commits`: typing only ever appends to what is committed; editing
  touches the current line alone;
* `read_spec`: a stretch of a read takes a prefix of the unread characters, copies them
  without their `^D`, and stops as `ReadStop` says;
* `Accounts.step`: over any run, the bytes copied to readers, then the unread characters,
  are the committed characters, `^D`s left out; `calls_step`: a call in progress has copied
  fewer bytes than it asked for, none of them a `'\n'` or a `^D`; `return_step`: a call that
  returns stops as `CallReturn` says.
-/

namespace Xv6

/-- The line discipline's state. -/
structure Lines where
  committed : List UInt8
  taken : List UInt8
  unread : List UInt8
  line : List UInt8

/-- `'\n'` is not `^D`. -/
@[simp] theorem newline_ne_ctrl_D : newline ≠ ctrl 'D' := by decide

namespace Lines

/-- Nothing typed. -/
def init : Lines := ⟨[], [], [], []⟩

/-- One typed character `c`: NUL and `^P` are not stored, `^U` erases the current line,
backspace and delete its last character; any other character is stored, `'\r'` as `'\n'`,
while the buffer has room, and a `'\n'`, a `^D` or a full buffer commits the line. -/
def type (a : Lines) (c : UInt8) : Lines × Bool :=
  if c = ctrl 'P' ∨ c = 0 then (a, false)
  else if c = ctrl 'U' then ({ a with line := [] }, false)
  else if c = ctrl 'H' ∨ c = delete then ({ a with line := a.line.dropLast }, false)
  else if a.unread.length + a.line.length < inputBuf then
    let c := if c = creturn then newline else c
    let line := a.line ++ [c]
    if c = newline ∨ c = ctrl 'D' ∨ a.unread.length + line.length = inputBuf then
      ({ a with committed := a.committed ++ line, unread := a.unread ++ line, line := [] }, true)
    else ({ a with line := line }, false)
  else (a, false)

/-- The characters `cs` typed one after another; whether one of them committed a line. -/
def typeAll (a : Lines) : List UInt8 → Lines × Bool
  | [] => (a, false)
  | c :: cs =>
    let (a, wake) := a.type c
    let (a, wake') := typeAll a cs
    (a, wake || wake')

/-- A stretch of a read with `n` of `target` bytes still wanted: the state, the bytes copied,
and how it ends. -/
def read (killed : Bool) (target : Nat) : Nat → Lines → Lines × List UInt8 × ConsEnd
  | 0, a => (a, [], .ret target)
  | n + 1, a =>
    match a.unread with
    | [] => if killed then (a, [], .ret (-1)) else (a, [], .sleep target (n + 1))
    | c :: rest =>
      let a' := { a with taken := a.taken ++ [c], unread := rest }
      if c = ctrl 'D' then
        (if n + 1 < target then a else a', [], .ret ((target : Int) - (n + 1 : Nat)))
      else if c = newline then (a', [c], .ret ((target : Int) - n))
      else
        let (a'', bs, e) := read killed target n a'
        (a'', c :: bs, e)

/-- The line discipline as a buffer for the readers. -/
def device : LineDevice Lines := ⟨typeAll, read⟩

@[simp] theorem device_intr : device.intr = typeAll := rfl
@[simp] theorem device_read : device.read = read := rfl

/-! ### Typing -/

/-- Typing a character commits some characters, appending them to both `committed` and
`unread`, and takes none. -/
theorem type_commits (a : Lines) (c : UInt8) :
    ∃ l, (a.type c).1.committed = a.committed ++ l ∧ (a.type c).1.unread = a.unread ++ l ∧
      (a.type c).1.taken = a.taken := by
  unfold type
  split
  · exact ⟨[], by simp⟩
  split
  · exact ⟨[], by simp⟩
  split
  · exact ⟨[], by simp⟩
  split
  · -- a stored character: it commits the line or joins it
    dsimp only
    generalize (if c = creturn then newline else c) = c'
    split
    · exact ⟨_, rfl, rfl, rfl⟩
    · exact ⟨[], by simp⟩
  · exact ⟨[], by simp⟩

theorem typeAll_commits (a : Lines) (cs : List UInt8) :
    ∃ l, (a.typeAll cs).1.committed = a.committed ++ l ∧
      (a.typeAll cs).1.unread = a.unread ++ l ∧ (a.typeAll cs).1.taken = a.taken := by
  induction cs generalizing a with
  | nil => exact ⟨[], by simp [typeAll]⟩
  | cons c cs ih =>
    obtain ⟨l, hc, hu, ht⟩ := a.type_commits c
    obtain ⟨l', hc', hu', ht'⟩ := ih (a.type c).1
    exact ⟨l ++ l', by simp [typeAll, hc', hc], by simp [typeAll, hu', hu], by simp [typeAll, ht', ht]⟩

/-! ### Reading -/

/-- How a stretch of a read with `n` of `target` bytes wanted may end, having taken `xs`,
copied `bs`, and left `rest` unread: asleep with nothing left, `-1` when killed with nothing
left, or returning the bytes of the call after `n` bytes, after a `'\n'`, or at a `^D`, which
it leaves unread when bytes came before it in the call and takes otherwise. -/
def ReadStop (killed : Bool) (target n : Nat) (xs bs rest : List UInt8) : ConsEnd → Prop
  | .sleep t' n' =>
    t' = target ∧ n' + bs.length = n ∧ 0 < n' ∧ killed = false ∧ rest = [] ∧ xs = bs ∧
      newline ∉ bs
  | .ret v =>
    (v = -1 ∧ killed = true ∧ rest = [] ∧ xs = bs ∧ bs.length < n ∧ newline ∉ bs) ∨
    (v = (target : Int) - n + bs.length ∧
      ((xs = bs ∧ (bs.length = n ∨ bs.getLast? = some newline)) ∨
        (n - bs.length < target ∧ xs = bs ∧ rest.head? = some (ctrl 'D')) ∨
        (target ≤ n - bs.length ∧ xs = bs ++ [ctrl 'D'])))

/-- A byte that is neither `'\n'` nor `^D` in front of a stretch that stops as `ReadStop`
says gives a stretch one byte longer that stops the same way. -/
theorem ReadStop.cons {killed : Bool} {target n : Nat} {xs bs rest : List UInt8} {e : ConsEnd}
    {c : UInt8} (hn : c ≠ newline) (h : ReadStop killed target n xs bs rest e) :
    ReadStop killed target (n + 1) (c :: xs) (c :: bs) rest e := by
  cases e with
  | sleep t' n' =>
    obtain ⟨ht, hn', hpos, hk, hr, hx, hnl⟩ := h
    refine ⟨ht, ?_, hpos, hk, hr, by rw [hx], ?_⟩
    · simp only [List.length_cons]
      omega
    · simp [hnl, Ne.symm hn]
  | ret v =>
    rcases h with ⟨hv, hk, hr, hx, hlt, hnl⟩ | ⟨hv, stop⟩
    · refine .inl ⟨hv, hk, hr, by rw [hx], ?_, by simp [hnl, Ne.symm hn]⟩
      simp only [List.length_cons]
      omega
    · refine .inr ⟨?_, ?_⟩
      · rw [hv, List.length_cons]
        push_cast
        omega
      · rcases stop with ⟨hx, hlen | hlast⟩ | ⟨hlt, hx, hhead⟩ | ⟨hle, hx⟩
        · exact .inl ⟨by rw [hx], .inl (by simp [hlen])⟩
        · refine .inl ⟨by rw [hx], .inr ?_⟩
          cases bs with
          | nil => cases hlast
          | cons b bs => simpa using hlast
        · exact .inr (.inl ⟨by simpa using hlt, by rw [hx], hhead⟩)
        · exact .inr (.inr ⟨by simpa using hle, by rw [hx, List.cons_append]⟩)

/-- A stretch of a read takes a prefix `xs` of the unread characters and touches nothing
else; it copies them with their `^D` left out, and only the last may be a `'\n'`. -/
theorem read_spec (killed : Bool) (target : Nat) :
    ∀ (n : Nat) (a : Lines), ∃ xs,
      a.unread = xs ++ (a.read killed target n).1.unread ∧
      (a.read killed target n).1 =
        { a with taken := a.taken ++ xs, unread := (a.read killed target n).1.unread } ∧
      xs.filter (· ≠ ctrl 'D') = (a.read killed target n).2.1 ∧
      ctrl 'D' ∉ (a.read killed target n).2.1 ∧
      newline ∉ (a.read killed target n).2.1.dropLast ∧
      (a.read killed target n).2.1.length ≤ n ∧
      ReadStop killed target n xs (a.read killed target n).2.1
        (a.read killed target n).1.unread (a.read killed target n).2.2
  | 0, a => ⟨[], by simp [read], by simp [read], by simp [read], by simp [read], by simp [read],
      by simp [read], .inr ⟨by simp [read], .inl ⟨rfl, .inl rfl⟩⟩⟩
  | n + 1, ⟨cm, tk, ur, ln⟩ => by
    cases ur with
    | nil =>
      -- nothing to read: sleep, or `-1` when killed
      refine ⟨[], ?_⟩
      cases killed <;> simp [read, ReadStop]
    | cons c rest =>
      by_cases hd : c = ctrl 'D'
      · by_cases hlt : n + 1 < target
        · -- a `^D` after some bytes stays for the next read
          refine ⟨[], ?_⟩
          simp [read, hd, hlt, ReadStop]
        · -- a `^D` first in the read is taken, and the read returns 0
          refine ⟨[c], ?_⟩
          simp [read, hd, hlt, ReadStop]
          omega
      · by_cases hn : c = newline
        · refine ⟨[c], ?_⟩
          simp [read, hn, ReadStop, Ne.symm newline_ne_ctrl_D]
          omega
        · -- an ordinary byte: copy it and go on
          obtain ⟨xs, hxs, ha, hf, hD, hnl, hle, stop⟩ :=
            read_spec killed target n ⟨cm, tk ++ [c], rest, ln⟩
          refine ⟨c :: xs, ?_⟩
          simp only [read, hd, hn, if_false]
          refine ⟨by simpa using hxs, ?_, ?_, ?_, ?_, by simpa using hle, stop.cons hn⟩
          · rw [ha]
            simp
          · rw [List.filter_cons_of_pos (by simpa using hd), hf]
          · simp [hD, Ne.symm hd]
          · cases hbs : (read killed target n ⟨cm, tk ++ [c], rest, ln⟩).2.1
            · simp
            · rw [hbs] at hnl
              simp [hnl, Ne.symm hn]

end Lines

/-! ### Over whole runs -/

namespace Readers

variable {Pid : Type}

/-- The bytes a call of `p` has copied so far, with `n` of its `target` still wanted: together
they make up the target, and none is a `'\n'` or a `^D`. -/
def Partial (rd : Readers Pid) (p : Pid) (target n : Nat) : Prop :=
  n + (rd.mine p).length = target ∧ newline ∉ rd.mine p ∧ ctrl 'D' ∉ rd.mine p

/-- Every call in progress still wants some of the bytes it asked for and has copied the
others. -/
def Calls (rd : Readers Pid) : Prop :=
  ∀ q target n, (rd.proc q).call = .read target n → 0 < n ∧ rd.Partial q target n

theorem calls_init : (init : Readers Pid).Calls := by
  intro q target n hq
  cases hq

theorem Calls.wakeup {rd : Readers Pid} (hC : rd.Calls) : rd.wakeup.Calls := hC

variable [DecidableEq Pid]

theorem Calls.kill {rd : Readers Pid} (hC : rd.Calls) (p : Pid) : (rd.kill p).Calls := by
  intro q target n hq
  rw [kill_call] at hq
  exact hC q target n hq

/-- A new call of `p` has copied nothing. -/
theorem Calls.start {rd : Readers Pid} (hC : rd.Calls) {p : Pid} (hidle : (rd.proc p).call = .idle)
    (n : Nat) : (rd.start p).Calls ∧ (rd.start p).Partial p n n := by
  refine ⟨fun q target n' hq => ?_, by simp [Partial]⟩
  have hqp : q ≠ p := by
    rintro rfl
    rw [start_proc, hidle] at hq
    cases hq
  obtain ⟨hpos, hlen, hnl, hD⟩ := hC q target n' hq
  exact ⟨hpos, by simpa [Partial, Function.update_of_ne hqp] using And.intro hlen (And.intro hnl hD)⟩

end Readers

namespace ConsSys

variable {Pid : Type}

/-- Over the line discipline: the characters reads took, then the unread ones, are the
committed characters; the bytes copied to readers are those they took, `^D`s left out. -/
structure Accounts (t : ConsSys Lines Pid) : Prop where
  committed : t.dev.committed = t.dev.taken ++ t.dev.unread
  copied : t.readers.copied = t.dev.taken.filter (· ≠ ctrl 'D')

theorem Accounts.init : (init Lines.init : ConsSys Lines Pid).Accounts := ⟨rfl, rfl⟩

variable [DecidableEq Pid]

/-- A stretch of a read keeps the accounts, from readers that have copied what `t`'s have. -/
theorem Accounts.stretch {t : ConsSys Lines Pid} (hA : t.Accounts) {rd : Readers Pid}
    (hcopied : rd.copied = t.readers.copied) (p : Pid) (killed : Bool) (target n : Nat) :
    (t.stretch Lines.device rd p killed target n).1.Accounts := by
  obtain ⟨xs, hxs, hdev, hf, -⟩ := Lines.read_spec killed target n t.dev
  constructor
  · rw [stretch_dev]
    change (t.dev.read killed target n).1.committed =
      (t.dev.read killed target n).1.taken ++ (t.dev.read killed target n).1.unread
    rw [hdev]
    dsimp only
    rw [hA.committed, hxs, List.append_assoc]
  · rw [stretch_readers, Readers.finish_copied, hcopied, hA.copied, stretch_dev]
    change _ = (t.dev.read killed target n).1.taken.filter _
    rw [hdev]
    dsimp only
    rw [List.filter_append, hf]
    rfl

theorem Accounts.step {t t' : ConsSys Lines Pid} (hA : t.Accounts) {p : Pid} {op : ConsOp}
    {r : Option Int} (h : t.step Lines.device p op = some (t', r)) : t'.Accounts := by
  rcases step_cases h with ⟨cs, -, -, rfl⟩ | ⟨n, -, -, hst⟩ | ⟨target, n, -, -, -, hst⟩ | ⟨-, -, rfl⟩
  · -- typing appends the same characters to `committed` and `unread`, and takes none
    obtain ⟨l, hc, hu, ht⟩ := t.dev.typeAll_commits cs
    refine ⟨?_, ?_⟩
    · change (t.dev.typeAll cs).1.committed =
        (t.dev.typeAll cs).1.taken ++ (t.dev.typeAll cs).1.unread
      rw [hc, hu, ht, hA.committed, List.append_assoc]
    · change (if (t.dev.typeAll cs).2 then t.readers.wakeup else t.readers).copied =
        (t.dev.typeAll cs).1.taken.filter _
      rw [ht, ← hA.copied]
      split <;> rfl
  · rw [show t' = _ from congrArg Prod.fst hst]
    exact hA.stretch (Readers.start_copied _ _) p _ n n
  · rw [show t' = _ from congrArg Prod.fst hst]
    exact hA.stretch rfl p _ target n
  · exact ⟨hA.committed, hA.copied⟩

/-- A stretch of a read by `p`, a call that has copied part of its target, keeps every call
in progress partial. -/
theorem calls_stretch {t : ConsSys Lines Pid} {rd : Readers Pid} (hC : rd.Calls) {p : Pid}
    {killed : Bool} {target n : Nat} (hp : rd.Partial p target n) :
    (t.stretch Lines.device rd p killed target n).1.readers.Calls := by
  obtain ⟨xs, -, -, -, hD, -, -, stop⟩ := Lines.read_spec killed target n t.dev
  intro q target' n' hq
  rw [stretch_readers, Lines.device_read] at hq ⊢
  by_cases hqp : q = p
  · subst hqp
    generalize (Lines.read killed target n t.dev).2.2 = e at stop hq
    -- only a stretch that sleeps leaves the call in progress
    cases e with
    | ret v =>
      simp [Readers.finish] at hq
    | sleep t'' n'' =>
      simp only [Readers.finish, Function.update_self, ConsCall.read.injEq] at hq
      obtain ⟨rfl, rfl⟩ := hq
      obtain ⟨rfl, hlen, hpos, -, -, -, hnl⟩ := stop
      obtain ⟨hlen', hnl', hD'⟩ := hp
      refine ⟨hpos, ?_, ?_, ?_⟩
      · simp only [Readers.finish_mine, Function.update_self, List.length_append]
        omega
      · simp [hnl, hnl']
      · simp [hD, hD']
  · rw [Readers.finish_call_of_ne _ _ _ _ hqp] at hq
    obtain ⟨hpos, hpart⟩ := hC q target' n' hq
    refine ⟨hpos, ?_⟩
    simpa [Readers.Partial, Function.update_of_ne hqp] using hpart

/-- A call of `target` bytes that returns `v ≠ -1` with the bytes `got`, the unread
characters going from `unread` to `unread'` in its last stretch: `v` counts the bytes, none
is a `^D` and a `'\n'` can only be last; the call stopped after its target, after a `'\n'`,
before a `^D` that it leaves unread when bytes came first, or having taken a `^D` that came
first. -/
def CallReturn (target : Nat) (v : Int) (got unread unread' : List UInt8) : Prop :=
  v = got.length ∧ ctrl 'D' ∉ got ∧ newline ∉ got.dropLast ∧
    (got.length = target ∨ got.getLast? = some newline ∨
      (got ≠ [] ∧ unread'.head? = some (ctrl 'D')) ∨ (got = [] ∧ unread = ctrl 'D' :: unread'))

/-- The last stretch of a call that had copied part of its target returns as `CallReturn`
says, when it returns other than `-1`. -/
theorem stretch_return {t : ConsSys Lines Pid} {rd : Readers Pid} {p : Pid} {killed : Bool}
    {target n : Nat} {v : Int} (hp : rd.Partial p target n)
    (hv : (t.stretch Lines.device rd p killed target n).2 = some v) (hv1 : v ≠ -1) :
    CallReturn target v ((t.stretch Lines.device rd p killed target n).1.readers.mine p)
      t.dev.unread (t.stretch Lines.device rd p killed target n).1.dev.unread := by
  obtain ⟨xs, hxs, -, -, hD, hnl, hbsn, stop⟩ := Lines.read_spec killed target n t.dev
  obtain ⟨hlen, hnl', hD'⟩ := hp
  rw [stretch_ret, Lines.device_read] at hv
  rw [stretch_readers, stretch_dev, Lines.device_read, Readers.finish_mine, Function.update_self]
  generalize (Lines.read killed target n t.dev).2.2 = e at stop hv
  generalize (Lines.read killed target n t.dev).2.1 = bs at stop hv hD hnl hbsn ⊢
  generalize (Lines.read killed target n t.dev).1.unread = rest at stop hxs ⊢
  cases e with
  | sleep _ _ => cases hv
  | ret v' =>
    simp only [Readers.finish, Option.some.injEq] at hv
    subst hv
    rcases stop with ⟨rfl, -⟩ | ⟨hv, stop⟩
    · exact absurd rfl hv1
    refine ⟨?_, by simp [hD, hD'], ?_, ?_⟩
    · rw [hv, List.length_append]
      push_cast
      omega
    · rw [List.dropLast_append]
      split
      · exact fun hmem => hnl' (List.dropLast_subset _ hmem)
      · simp [hnl, hnl']
    · rcases stop with ⟨-, hfull | hlast⟩ | ⟨hlt, -, hhead⟩ | ⟨hle, rfl⟩
      · -- the target is reached
        exact .inl (by rw [List.length_append]; omega)
      · -- a `'\n'` ends the call
        exact .inr (.inl (by rw [List.getLast?_append, hlast]; rfl))
      · -- a `^D` after some bytes stays unread
        refine .inr (.inr (.inl ⟨fun hnil => ?_, hhead⟩))
        have := congrArg List.length hnil
        simp only [List.length_append, List.length_nil] at this
        omega
      · -- a `^D` that comes first is taken
        have hbs : bs = [] := List.eq_nil_of_length_eq_zero (by omega)
        have hmine : rd.mine p = [] := List.eq_nil_of_length_eq_zero (by omega)
        refine .inr (.inr (.inr ⟨by rw [hbs, hmine]; rfl, ?_⟩))
        rw [hxs, hbs]
        rfl

/-- A step that ends a call of `target` bytes with `v ≠ -1` returns as `CallReturn` says. -/
theorem return_step {t t' : ConsSys Lines Pid} (hC : t.readers.Calls) {p : Pid} {op : ConsOp}
    {v : Int} (h : t.step Lines.device p op = some (t', some v)) (hv1 : v ≠ -1) {target n : Nat}
    (hcall : t.callOf p op = .read target n) :
    CallReturn target v (t'.readers.mine p) t.dev.unread t'.dev.unread := by
  rcases step_cases h with ⟨cs, -, hr, -⟩ | ⟨n', rfl, hidle, hst⟩ | ⟨target', n', rfl, hp, -, hst⟩ |
      ⟨-, hr, -⟩
  · cases hr
  · -- a new call: its target is the count it asked for
    simp only [callOf, ConsCall.read.injEq] at hcall
    obtain ⟨rfl, -⟩ := hcall
    rw [show t' = _ from congrArg Prod.fst hst]
    exact stretch_return (hC.start hidle n').2 (congrArg Prod.snd hst).symm hv1
  · -- a woken call goes on with its own target
    simp only [callOf, hp, ConsCall.read.injEq] at hcall
    obtain ⟨rfl, rfl⟩ := hcall
    rw [show t' = _ from congrArg Prod.fst hst]
    exact stretch_return (hC p target' n' hp).2 (congrArg Prod.snd hst).symm hv1
  · cases hr

theorem calls_step {t t' : ConsSys Lines Pid} (hC : t.readers.Calls) {p : Pid} {op : ConsOp}
    {r : Option Int} (h : t.step Lines.device p op = some (t', r)) : t'.readers.Calls := by
  rcases step_cases h with ⟨cs, -, -, rfl⟩ | ⟨n, -, hidle, hst⟩ | ⟨target, n, -, hcall, -, hst⟩ |
      ⟨-, -, rfl⟩
  · change (if (t.dev.typeAll cs).2 then t.readers.wakeup else t.readers).Calls
    split
    · exact hC.wakeup
    · exact hC
  · rw [show t' = _ from congrArg Prod.fst hst]
    obtain ⟨hC', hp⟩ := hC.start hidle n
    exact calls_stretch hC' hp
  · rw [show t' = _ from congrArg Prod.fst hst]
    exact calls_stretch hC (hC p target n hcall).2
  · exact hC.kill p

end ConsSys

end Xv6
