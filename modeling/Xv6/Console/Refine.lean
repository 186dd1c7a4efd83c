import Xv6.Console.Lines

/-!
# The ring implements the line discipline

`Input.Rep inp a`: the cells of `input.buf` from `r` on hold the unread characters of `a` and
then its current line, with `w` at the end of the first and `e` at the end of the second.
Each character class of `consoleintr` and each turn of `consoleread`'s loop keeps the
relation, with the same outputs as the list-level operation (`Rep.intr`, `Rep.read`), and a
simulation of buffers lifts to the whole system with its readers (`ConsSys.steps_sim`).

The counters are free-running `uint`s: `Rep` places them by lengths modulo `2^32`, and
`INPUT_BUF` dividing `2^32` keeps the cells right across the wrap (`Ring.Holds`).
-/

namespace Xv6

namespace Input

/-- The ring from `r` holds `a`'s unread characters and then its line; `w` and `e` stand at
their ends. -/
structure Rep (inp : Input) (a : Lines) : Prop where
  holds : Ring.Holds inputBuf_dvd inp.buf inp.r (a.unread ++ a.line)
  w_eq : inp.w = inp.r + UInt32.ofNat a.unread.length
  e_eq : inp.e = inp.r + UInt32.ofNat (a.unread.length + a.line.length)
  room : a.unread.length + a.line.length ≤ inputBuf
  no_newline : newline ∉ a.line

/-- A count of at most `INPUT_BUF` is its own counter value. -/
theorem toNat_ofNat_of_le {k : Nat} (hk : k ≤ inputBuf) : (UInt32.ofNat k).toNat = k :=
  UInt32.toNat_ofNat_of_lt' (lt_of_le_of_lt hk (by decide))

/-- Counters at most `INPUT_BUF` past `r` are equal only at equal distances. -/
theorem add_ofNat_inj {r : UInt32} {k l : Nat} (hk : k ≤ inputBuf) (hl : l ≤ inputBuf) :
    r + UInt32.ofNat k = r + UInt32.ofNat l ↔ k = l := by
  rw [add_right_inj]
  exact Ring.ofNat_eq_ofNat_iff (by unfold inputBuf at hk; omega) (by unfold inputBuf at hl; omega)

variable {inp : Input} {a : Lines}

theorem Rep.r_eq_w_iff (h : inp.Rep a) : inp.r = inp.w ↔ a.unread = [] := by
  rw [h.w_eq, eq_comm, ← List.length_eq_zero_iff]
  exact Ring.add_ofNat_eq_self_iff (by have := h.room; unfold inputBuf at this; omega)

theorem Rep.e_eq_w_iff (h : inp.Rep a) : inp.e = inp.w ↔ a.line = [] := by
  rw [h.e_eq, h.w_eq, add_ofNat_inj h.room (by have := h.room; omega), ← List.length_eq_zero_iff]
  omega

/-- `e - r` counts the characters in the ring. -/
theorem Rep.e_sub_r (h : inp.Rep a) :
    inp.e - inp.r = UInt32.ofNat (a.unread.length + a.line.length) := by
  rw [h.e_eq, add_sub_cancel_left]

theorem Rep.w_sub_r (h : inp.Rep a) : inp.w - inp.r = UInt32.ofNat a.unread.length := by
  rw [h.w_eq, add_sub_cancel_left]

/-- `r ≤ w ≤ e ≤ r + INPUT_BUF`, as differences modulo `2^32`. -/
theorem Rep.ordered (h : inp.Rep a) :
    (inp.w - inp.r).toNat ≤ (inp.e - inp.r).toNat ∧ (inp.e - inp.r).toNat ≤ inputBuf := by
  rw [h.w_sub_r, h.e_sub_r, toNat_ofNat_of_le h.room,
    toNat_ofNat_of_le (by have := h.room; omega)]
  exact ⟨Nat.le_add_right _ _, h.room⟩

theorem Rep.e_sub_w (h : inp.Rep a) : inp.e - inp.w = UInt32.ofNat a.line.length := by
  rw [h.e_eq, h.w_eq, UInt32.ofNat_add, ← add_assoc, add_sub_cancel_left]

theorem rep_boot : boot.Rep Lines.init :=
  ⟨Ring.Holds.nil _ _ _, rfl, rfl, Nat.zero_le _, List.not_mem_nil⟩

/-! ### Typing -/

/-- The cell before `e` holds the last character of a nonempty line. -/
theorem Rep.last (h : inp.Rep a) (hl : a.line ≠ []) :
    inp.buf (slot (inp.e - 1)) = a.line.getLast hl := by
  obtain ⟨m, hm⟩ : ∃ m, a.line.length = m + 1 :=
    Nat.exists_eq_add_one.mpr (List.length_pos_iff.mpr hl)
  have hcell := h.holds (a.unread.length + m) (by simp [hm])
  rw [h.e_eq, hm, ← Nat.add_assoc, UInt32.ofNat_add, UInt32.ofNat_one, ← add_assoc,
    add_sub_cancel_right]
  rw [slot, hcell, List.getElem_append_right (by omega), List.getLast_eq_getElem]
  simp [hm]

/-- Moving `e` back erases the last character of a nonempty line. -/
theorem Rep.erase (h : inp.Rep a) (hl : a.line ≠ []) :
    { inp with e := inp.e - 1 }.Rep { a with line := a.line.dropLast } := by
  obtain ⟨m, hm⟩ : ∃ m, a.line.length = m + 1 :=
    Nat.exists_eq_add_one.mpr (List.length_pos_iff.mpr hl)
  have htake : (a.unread ++ a.line).take (a.unread.length + m) = a.unread ++ a.line.dropLast := by
    rw [← List.dropLast_append_of_ne_nil hl, List.dropLast_eq_take, List.length_append, hm]
    rfl
  refine ⟨?_, h.w_eq, ?_, ?_, fun hmem => h.no_newline (List.dropLast_subset _ hmem)⟩
  · have := Ring.Holds.take inputBuf_dvd h.holds (a.unread.length + m)
    rwa [htake] at this
  · rw [h.e_eq, hm, List.length_dropLast, hm, Nat.add_sub_cancel, ← Nat.add_assoc,
      UInt32.ofNat_add (a.unread.length + m), UInt32.ofNat_one, ← add_assoc, add_sub_cancel_right]
  · have := h.room
    simp only [List.length_dropLast]
    omega

/-- The `C('U')` loop erases the whole line: it has no `'\n'`, so the loop runs back to
`w`. -/
theorem Rep.killLine : ∀ (k : Nat) {inp : Input} {a : Lines}, inp.Rep a →
    a.line.length = k → (inp.killLine k).Rep { a with line := [] }
  | 0, inp, a, h, hk => by
    rw [Input.killLine]
    have hl : a.line = [] := List.eq_nil_of_length_eq_zero hk
    rw [← hl]
    exact h
  | k + 1, inp, a, h, hk => by
    have hl : a.line ≠ [] := List.ne_nil_of_length_eq_add_one hk
    have hlast : inp.buf (slot (inp.e - 1)) ≠ newline := by
      rw [h.last hl]
      exact fun hn => h.no_newline (hn ▸ List.getLast_mem hl)
    rw [Input.killLine, if_pos ⟨mt h.e_eq_w_iff.mp hl, hlast⟩]
    exact Rep.killLine k (a := { a with line := a.line.dropLast }) (h.erase hl) (by simp [hk])

/-- `e - r < INPUT_BUF` tests for room. -/
theorem Rep.room_iff (h : inp.Rep a) :
    inp.e - inp.r < UInt32.ofNat inputBuf ↔ a.unread.length + a.line.length < inputBuf := by
  rw [h.e_sub_r, UInt32.lt_iff_toNat_lt, toNat_ofNat_of_le h.room, toNat_ofNat_of_le le_rfl]

/-- Storing `c` in the cell of `e` appends it to the line, `e + 1` standing at the new end,
while there is room. -/
theorem Rep.store (h : inp.Rep a) (hroom : a.unread.length + a.line.length < inputBuf)
    (c : UInt8) :
    Ring.Holds inputBuf_dvd (Function.update inp.buf (slot inp.e) c) inp.r
        (a.unread ++ (a.line ++ [c])) ∧
      inp.e + 1 = inp.r + UInt32.ofNat (a.unread.length + (a.line ++ [c]).length) := by
  constructor
  · have := Ring.Holds.push inputBuf_dvd h.holds (by simpa using hroom) c
    rw [List.append_assoc, List.length_append] at this
    rwa [slot, h.e_eq]
  · rw [h.e_eq, List.length_append, List.length_singleton, ← Nat.add_assoc, UInt32.ofNat_add _ 1,
      UInt32.ofNat_one, add_assoc]

/-- One turn of `consoleintr` does on the ring what `Lines.type` does on the lists, and wakes
the readers when it does. -/
theorem Rep.intr (h : inp.Rep a) (c : UInt8) :
    (inp.intr c).1.Rep (a.type c).1 ∧ (inp.intr c).2 = (a.type c).2 := by
  by_cases hP : c = ctrl 'P'
  · -- `^P`: `procdump` once the lock is free, nothing stored
    subst hP
    rw [Input.intr, if_pos rfl, Lines.type, if_pos (.inl rfl)]
    exact ⟨h, rfl⟩
  by_cases hU : c = ctrl 'U'
  · subst hU
    rw [Input.intr, if_neg (by decide), if_pos rfl, Lines.type, if_neg (by decide), if_pos rfl]
    refine ⟨?_, rfl⟩
    rw [h.e_sub_w, toNat_ofNat_of_le (by have := h.room; omega)]
    exact h.killLine _ rfl
  by_cases hH : c = ctrl 'H' ∨ c = delete
  · have h0 : c ≠ 0 := by rcases hH with rfl | rfl <;> decide
    rw [Input.intr, if_neg hP, if_neg hU, if_pos hH, Lines.type, if_neg (not_or.mpr ⟨hP, h0⟩),
      if_neg hU, if_pos hH]
    refine ⟨?_, rfl⟩
    by_cases hl : a.line = []
    · -- nothing typed since the last commit: backspace does nothing
      rw [if_neg (not_not.mpr (h.e_eq_w_iff.mpr hl))]
      rcases a with ⟨cm, tk, ur, ln⟩
      dsimp only at hl ⊢
      subst hl
      exact h
    · rw [if_pos (mt h.e_eq_w_iff.mp hl)]
      exact h.erase hl
  by_cases h0 : c = 0
  · subst h0
    rw [Input.intr, if_neg hP, if_neg hU, if_neg hH, if_neg (fun hc => hc.1 rfl), Lines.type,
      if_pos (.inr rfl)]
    exact ⟨h, rfl⟩
  rw [Input.intr, if_neg hP, if_neg hU, if_neg hH, Lines.type, if_neg (not_or.mpr ⟨hP, h0⟩),
    if_neg hU, if_neg hH]
  by_cases hroom : a.unread.length + a.line.length < inputBuf
  · rw [if_pos ⟨h0, h.room_iff.mpr hroom⟩, if_pos hroom]
    dsimp only
    -- the stored character, `'\r'` read as `'\n'`
    generalize (if c = creturn then newline else c) = c'
    obtain ⟨hring, he⟩ := h.store hroom c'
    have hlen : a.unread.length + (a.line ++ [c']).length ≤ inputBuf := by
      simp only [List.length_append, List.length_singleton]
      omega
    have hfull : inp.e + 1 = inp.r + UInt32.ofNat inputBuf ↔
        a.unread.length + (a.line ++ [c']).length = inputBuf := by
      rw [he, add_ofNat_inj hlen le_rfl]
    by_cases hcommit : c' = newline ∨ c' = ctrl 'D' ∨
        a.unread.length + (a.line ++ [c']).length = inputBuf
    · -- the line is committed: `w = e`
      rw [if_pos (by rwa [hfull]), if_pos hcommit]
      refine ⟨⟨by simpa using hring, by simpa using he, by simpa using he, ?_,
        List.not_mem_nil⟩, rfl⟩
      simpa using hlen
    · rw [if_neg (by rwa [hfull]), if_neg hcommit]
      refine ⟨⟨hring, h.w_eq, he, hlen, ?_⟩, rfl⟩
      simp only [List.mem_append, List.mem_singleton, not_or]
      exact ⟨h.no_newline, fun hn => hcommit (.inl hn.symm)⟩
  · -- no room: the character is dropped
    rw [if_neg (fun hc => hroom (h.room_iff.mp hc.2)), if_neg hroom]
    exact ⟨h, rfl⟩

theorem Rep.consoleintr {cs : List UInt8} (h : inp.Rep a) :
    (consoleintr inp cs).1.Rep (a.typeAll cs).1 ∧
      (consoleintr inp cs).2 = (a.typeAll cs).2 := by
  induction cs generalizing inp a with
  | nil => exact ⟨h, rfl⟩
  | cons c cs ih =>
    obtain ⟨hrep, hwake⟩ := h.intr c
    obtain ⟨hrep', hwake'⟩ := ih hrep
    exact ⟨hrep', by simp only [Xv6.consoleintr, Lines.typeAll, hwake, hwake']⟩

/-! ### Reading -/

/-- The cell of `r` holds the first unread character; taking it leaves the rest from
`r + 1`. -/
theorem Rep.pop {c : UInt8} {rest : List UInt8} (h : inp.Rep a) (hu : a.unread = c :: rest) :
    inp.buf (slot inp.r) = c ∧
      { inp with r := inp.r + 1 }.Rep { a with taken := a.taken ++ [c], unread := rest } := by
  have hring := h.holds
  rw [hu, List.cons_append] at hring
  obtain ⟨first, others⟩ := Ring.Holds.pop inputBuf_dvd hring
  refine ⟨first, others, ?_, ?_, ?_, h.no_newline⟩
  · rw [h.w_eq, hu, List.length_cons, UInt32.ofNat_add, UInt32.ofNat_one, add_comm _ 1, add_assoc]
  · rw [h.e_eq, hu, List.length_cons, Nat.add_right_comm, UInt32.ofNat_add, UInt32.ofNat_one,
      add_comm _ 1, add_assoc]
  · have := h.room
    rw [hu, List.length_cons] at this
    dsimp only
    omega

/-- A stretch of `consoleread`'s loop does on the ring what `Lines.read` does on the lists,
and copies and returns the same. -/
theorem Rep.read (killed : Bool) (target : Nat) :
    ∀ (n : Nat) {inp : Input} {a : Lines}, inp.Rep a →
      (consolereadLoop killed target n inp).1.Rep (a.read killed target n).1 ∧
        (consolereadLoop killed target n inp).2 = (a.read killed target n).2
  | 0, _, _, h => ⟨h, rfl⟩
  | n + 1, inp, ⟨cm, tk, ur, ln⟩, h => by
    cases ur with
    | nil =>
      -- nothing committed: sleep, or `-1` when killed
      rw [consolereadLoop, if_pos (h.r_eq_w_iff.mpr rfl)]
      cases killed <;> exact ⟨h, rfl⟩
    | cons c rest =>
      obtain ⟨first, popped⟩ := h.pop rfl
      rw [consolereadLoop, if_neg (mt h.r_eq_w_iff.mp (List.cons_ne_nil c rest))]
      dsimp only
      rw [first]
      by_cases hd : c = ctrl 'D'
      · subst hd
        by_cases hlt : n + 1 < target
        · -- the `^D` is put back: `r++` then `r--`
          simp only [Lines.read, hlt, if_true, add_sub_cancel_right]
          exact ⟨h, trivial⟩
        · simp only [Lines.read, hlt, if_true, if_false]
          exact ⟨popped, trivial⟩
      · by_cases hn : c = newline
        · subst hn
          simp only [Lines.read, newline_ne_ctrl_D, if_true, if_false]
          exact ⟨popped, trivial⟩
        · simp only [Lines.read, hd, hn, if_false]
          obtain ⟨hrep, hout⟩ := Rep.read killed target n popped
          obtain ⟨hbs, hend⟩ := Prod.ext_iff.mp hout
          exact ⟨hrep, by rw [hbs, hend]⟩

end Input

/-! ### What the ring shows of the lists -/

namespace Input

variable {inp : Input} {a : Lines}

theorem killLine_r : ∀ (k : Nat) (inp : Input), (inp.killLine k).r = inp.r
  | 0, _ => rfl
  | k + 1, inp => by
    rw [killLine]
    split
    · exact killLine_r k _
    · rfl

theorem intr_r (inp : Input) (c : UInt8) : (inp.intr c).1.r = inp.r := by
  unfold intr
  split
  · rfl
  split
  · exact killLine_r _ _
  split
  · split <;> rfl
  split
  · dsimp only
    generalize (if c = creturn then newline else c) = c'
    split <;> rfl
  · rfl

theorem consoleintr_r (inp : Input) (cs : List UInt8) : (consoleintr inp cs).1.r = inp.r := by
  induction cs generalizing inp with
  | nil => rfl
  | cons c cs ih =>
    change (consoleintr (inp.intr c).1 cs).1.r = inp.r
    rw [ih, intr_r]

/-- `consoleread` moves only `r`. -/
theorem consolereadLoop_w (killed : Bool) (target : Nat) :
    ∀ (n : Nat) (inp : Input), (consolereadLoop killed target n inp).1.w = inp.w
  | 0, _ => rfl
  | n + 1, inp => by
    rw [consolereadLoop]
    split
    · split <;> rfl
    · dsimp only
      split
      · split <;> rfl
      split
      · rfl
      · exact consolereadLoop_w killed target n _

/-- The first unread character is the one in the cell of `r`, when `r ≠ w`. -/
theorem Rep.head_iff (h : inp.Rep a) {c : UInt8} :
    a.unread.head? = some c ↔ inp.r ≠ inp.w ∧ inp.buf (slot inp.r) = c := by
  rcases hu : a.unread with _ | ⟨c', rest⟩
  · simp [h.r_eq_w_iff.mpr hu]
  · obtain ⟨first, -⟩ := h.pop hu
    have hne : inp.r ≠ inp.w := fun hrw => List.cons_ne_nil c' rest (hu ▸ h.r_eq_w_iff.mp hrw)
    simp [hne, first]

/-- Taking the first unread character moves `r` one on, `w` staying. -/
theorem Rep.took {inp' : Input} {a' : Lines} (h : inp.Rep a) (h' : inp'.Rep a')
    (hw : inp'.w = inp.w) {c : UInt8} (hu : a.unread = c :: a'.unread) :
    inp.r ≠ inp.w ∧ inp.buf (slot inp.r) = c ∧ inp'.r = inp.r + 1 := by
  obtain ⟨first, -⟩ := h.pop hu
  refine ⟨fun hrw => List.cons_ne_nil c _ (hu ▸ h.r_eq_w_iff.mp hrw), first, ?_⟩
  have hcount : inp'.r + UInt32.ofNat a'.unread.length =
      inp.r + 1 + UInt32.ofNat a'.unread.length := by
    rw [← h'.w_eq, hw, h.w_eq, hu, List.length_cons, UInt32.ofNat_add, UInt32.ofNat_one,
      add_comm (UInt32.ofNat _) 1, ← add_assoc]
  exact add_right_cancel hcount

/-- When the unread characters only grow and `r` stays, `w` does not move back and the
committed cells keep their bytes. -/
theorem Rep.keeps {inp' : Input} {a' : Lines} (h : inp.Rep a) (h' : inp'.Rep a')
    (hr : inp'.r = inp.r) {l : List UInt8} (hu : a'.unread = a.unread ++ l) :
    (inp.w - inp.r).toNat ≤ (inp'.w - inp.r).toNat ∧
      ∀ k < (inp.w - inp.r).toNat,
        inp'.buf (slot (inp.r + UInt32.ofNat k)) = inp.buf (slot (inp.r + UInt32.ofNat k)) := by
  have hlen : (inp.w - inp.r).toNat = a.unread.length := by
    rw [h.w_sub_r, toNat_ofNat_of_le (by have := h.room; omega)]
  have hlen' : (inp'.w - inp.r).toNat = a'.unread.length := by
    rw [← hr, h'.w_sub_r, toNat_ofNat_of_le (by have := h'.room; omega)]
  refine ⟨by rw [hlen, hlen', hu, List.length_append]; omega, fun k hk => ?_⟩
  rw [hlen] at hk
  have hold := h.holds k (by rw [List.length_append]; omega)
  have hnew := h'.holds k (by rw [List.length_append, hu, List.length_append]; omega)
  rw [hr] at hnew
  rw [slot, hold, hnew, List.getElem_append_left hk, List.getElem_append_left (by rw [hu]; simp; omega)]
  simp only [hu, List.getElem_append_left hk]

end Input

/-! ### The whole system -/

namespace LineDevice

variable {D E : Type}

/-- `dv` runs like `ev` through `R`: from related buffers, both operations give related
buffers and the same outputs. -/
structure Sim (dv : LineDevice D) (ev : LineDevice E) (R : D → E → Prop) : Prop where
  intr : ∀ {d a} (cs : List UInt8), R d a →
    R (dv.intr d cs).1 (ev.intr a cs).1 ∧ (dv.intr d cs).2 = (ev.intr a cs).2
  read : ∀ {d a} (killed : Bool) (target n : Nat), R d a →
    R (dv.read killed target n d).1 (ev.read killed target n a).1 ∧
      (dv.read killed target n d).2 = (ev.read killed target n a).2

end LineDevice

/-- The ring runs like the line discipline. -/
theorem Input.device_sim : LineDevice.Sim Input.device Lines.device Input.Rep :=
  ⟨fun _ h => h.consoleintr, fun killed target n h => Input.Rep.read killed target n h⟩

namespace ConsSys

variable {D E Pid : Type} [DecidableEq Pid] {dv : LineDevice D} {ev : LineDevice E}
  {R : D → E → Prop}

theorem stretch_sim (hs : dv.Sim ev R) {s : ConsSys D Pid} {t : ConsSys E Pid}
    (hR : R s.dev t.dev) (rd : Readers Pid) (p : Pid) (killed : Bool) (target n : Nat) :
    R (s.stretch dv rd p killed target n).1.dev (t.stretch ev rd p killed target n).1.dev ∧
      (s.stretch dv rd p killed target n).1.readers =
        (t.stretch ev rd p killed target n).1.readers ∧
      (s.stretch dv rd p killed target n).2 = (t.stretch ev rd p killed target n).2 := by
  obtain ⟨hR', hout⟩ := hs.read killed target n hR
  refine ⟨hR', ?_, ?_⟩
  · rw [stretch_readers, stretch_readers, hout]
  · rw [stretch_ret, stretch_ret, hout]

/-- A step of the system over `dv` is a step over `ev`, with the same readers and the same
return, from and to related buffers. -/
theorem step_sim (hs : dv.Sim ev R) {s : ConsSys D Pid} {t : ConsSys E Pid}
    (hR : R s.dev t.dev) (hrd : s.readers = t.readers) {p : Pid} {op : ConsOp}
    {s' : ConsSys D Pid} {r : Option Int} (h : s.step dv p op = some (s', r)) :
    ∃ t', t.step ev p op = some (t', r) ∧ R s'.dev t'.dev ∧ s'.readers = t'.readers := by
  rcases step_cases h with ⟨cs, rfl, rfl, rfl⟩ | ⟨n, rfl, hidle, hst⟩ |
      ⟨target, n, rfl, hcall, hawake, hst⟩ | ⟨rfl, rfl, rfl⟩
  · -- `consoleintr`: the same commits wake the same readers
    obtain ⟨hR', hwake⟩ := hs.intr cs hR
    refine ⟨_, rfl, hR', ?_⟩
    change (if (dv.intr s.dev cs).2 then s.readers.wakeup else s.readers) =
      (if (ev.intr t.dev cs).2 then t.readers.wakeup else t.readers)
    rw [hwake, hrd]
  · obtain ⟨hR', hrd', hret⟩ := stretch_sim hs (s := s) hR (s.readers.start p) p
      (s.readers.proc p).killed n n
    refine ⟨(t.stretch ev (t.readers.start p) p (t.readers.proc p).killed n n).1, ?_, ?_, ?_⟩
    · rw [step, if_pos (hrd ▸ hidle), ← hrd, show r = _ from congrArg Prod.snd hst, hret]
    · rw [show s' = _ from congrArg Prod.fst hst, ← hrd]
      exact hR'
    · rw [show s' = _ from congrArg Prod.fst hst, ← hrd]
      exact hrd'
  · obtain ⟨hR', hrd', hret⟩ := stretch_sim hs (s := s) hR s.readers p
      (s.readers.proc p).killed target n
    have hp : t.readers.proc p = ⟨.read target n, false, (s.readers.proc p).killed⟩ := by
      rw [← hrd, ← hcall, ← hawake]
    refine ⟨(t.stretch ev t.readers p (s.readers.proc p).killed target n).1, ?_, ?_, ?_⟩
    · rw [step, hp]
      dsimp only
      rw [← hrd, show r = _ from congrArg Prod.snd hst, hret]
    · rw [show s' = _ from congrArg Prod.fst hst, ← hrd]
      exact hR'
    · rw [show s' = _ from congrArg Prod.fst hst, ← hrd]
      exact hrd'
  · exact ⟨_, rfl, hR, by rw [hrd]⟩

/-- Any run over `dv` is a run over `ev` of the same steps. -/
theorem steps_sim (hs : dv.Sim ev R) :
    ∀ {ops : List (Pid × ConsOp)} {s s' : ConsSys D Pid} {t : ConsSys E Pid},
      R s.dev t.dev → s.readers = t.readers → s.steps dv ops = some s' →
      ∃ t', t.steps ev ops = some t' ∧ R s'.dev t'.dev ∧ s'.readers = t'.readers
  | [], s, s', t, hR, hrd, h => by
    cases h
    exact ⟨t, rfl, hR, hrd⟩
  | (p, op) :: ops, s, s', t, hR, hrd, h => by
    simp only [steps] at h
    split at h
    · rename_i s1 r hstep
      obtain ⟨t1, ht1, hR1, hrd1⟩ := step_sim hs hR hrd hstep
      obtain ⟨t', ht', hR', hrd'⟩ := steps_sim hs hR1 hrd1 h
      refine ⟨t', ?_, hR', hrd'⟩
      simp only [steps, ht1]
      exact ht'
    · cases h

end ConsSys

end Xv6
