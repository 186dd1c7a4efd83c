import Mathlib.Data.List.Infix

/-!
# The shell's parser

`sh.c`'s recursive-descent parser, function by function: `gettoken` and `peek` on the
line, `parseline`, `parsepipe`, `parseexec`, `parseblock` and `parseredirs`, then
`parsecmd` and `nulterminate`.  A pointer into the line is the rest of the line from it
(`*s` is its first character, or the NUL at `es`), and each parsing function returns
`*ps` moved forward as a `Rest`, a suffix of where it started, so that the recursion is
well founded on the line's length.  The tree records each word by its pointers `q` and
`eq`, as offsets into the line.  `panic(s)` is sh's own, which prints `s` and exits: it is
the `String` of an `Except`.  What `printf(2, "leftovers: %s\n", s)` prints before that
panic is left out.
-/

namespace Xv6

namespace Sh

/-! ## `gettoken` and `peek` -/

/-- `whitespace`: `" \t\r\n\v"`. -/
def whitespace : List Char := [' ', '\t', '\r', '\n', '\x0b']

/-- `symbols`: `"<|>&;()"`. -/
def symbols : List Char := ['<', '|', '>', '&', ';', '(', ')']

/-- `strchr(str, c) != 0`: `c` is one of `str`'s characters or its terminating NUL. -/
def strchr (str : List Char) (c : Char) : Bool := c = '\x00' || c ∈ str

/-- `*s`: the character a pointer into the line points at, the NUL at `es`.  A pointer
into the line is the rest of the line from it. -/
def deref : List Char → Char
  | [] => '\x00'
  | c :: _ => c

/-- `while(s < es && strchr(whitespace, *s)) s++;` -/
def skipWhitespace : List Char → List Char
  | [] => []
  | c :: s => if strchr whitespace c then skipWhitespace s else c :: s

/-- `while(s < es && !strchr(whitespace, *s) && !strchr(symbols, *s)) s++;` -/
def skipWord : List Char → List Char
  | [] => []
  | c :: s => if !strchr whitespace c && !strchr symbols c then skipWord s else c :: s

/-- `gettoken`'s `switch(*s)`: the token's code (`'a'` for a word, `'+'` for `>>`) and the
pointer past the token. -/
def scanToken (s : List Char) : Char × List Char :=
  match deref s with
  | '\x00' => ('\x00', s)
  | '|' | '(' | ')' | ';' | '&' | '<' => (deref s, s.tail)
  | '>' => if deref s.tail = '>' then ('+', s.tail.tail) else ('>', s.tail)
  | _ => ('a', skipWord s)

/-- `gettoken(ps, es, &q, &eq)`: the token's code, `q`, `eq`, and the new `*ps`. -/
def gettoken (s : List Char) : Char × List Char × List Char × List Char :=
  let s := skipWhitespace s
  let (ret, e) := scanToken s
  (ret, s, e, skipWhitespace e)

/-- `peek(ps, es, toks)`: whether the next character is one of `toks`, and the new `*ps`. -/
def peek (s : List Char) (toks : List Char) : Bool × List Char :=
  let s := skipWhitespace s
  (deref s != '\x00' && strchr toks (deref s), s)

theorem skipWhitespace_suffix (s : List Char) : skipWhitespace s <:+ s := by
  induction s with
  | nil => exact List.suffix_refl _
  | cons c s ih =>
    rw [skipWhitespace]
    split
    · exact ih.trans (List.suffix_cons c s)
    · exact List.suffix_refl _

theorem skipWord_suffix (s : List Char) : skipWord s <:+ s := by
  induction s with
  | nil => exact List.suffix_refl _
  | cons c s ih =>
    rw [skipWord]
    split
    · exact ih.trans (List.suffix_cons c s)
    · exact List.suffix_refl _

theorem scanToken_suffix (s : List Char) : (scanToken s).2 <:+ s := by
  have h1 : s.tail <:+ s := List.tail_suffix s
  have h2 : s.tail.tail <:+ s := (List.tail_suffix _).trans h1
  unfold scanToken
  split
  any_goals exact h1
  · exact List.suffix_refl _
  · split
    · exact h2
    · exact h1
  · exact skipWord_suffix s

theorem gettoken_suffix (s : List Char) : (gettoken s).2.2.2 <:+ s :=
  (skipWhitespace_suffix _).trans ((scanToken_suffix _).trans (skipWhitespace_suffix s))

theorem skipWhitespace_head {s t : List Char} {c : Char} (h : skipWhitespace s = c :: t) :
    strchr whitespace c = false := by
  induction s with
  | nil => cases h
  | cons d s ih =>
    rw [skipWhitespace] at h
    split at h
    · exact ih h
    next hd =>
      obtain ⟨rfl, -⟩ := List.cons.inj h
      simpa using hd

@[simp] theorem skipWhitespace_skipWhitespace (s : List Char) :
    skipWhitespace (skipWhitespace s) = skipWhitespace s := by
  induction s with
  | nil => rfl
  | cons c s ih =>
    rw [skipWhitespace]
    split
    · exact ih
    next hc => rw [skipWhitespace, if_neg hc]

theorem scanToken_fst_eq_zero {s : List Char} : (scanToken s).1 = '\x00' ↔ deref s = '\x00' := by
  unfold scanToken
  split <;> (try split) <;> simp_all

/-- Past the first character of a token that is not a blank: the scan moves at least one
character. -/
theorem scanToken_cons_suffix {c : Char} {t : List Char} (hc : strchr whitespace c = false)
    (h0 : c ≠ '\x00') : (scanToken (c :: t)).2 <:+ t := by
  unfold scanToken
  split
  next h => exact absurd h h0
  any_goals exact List.suffix_refl t
  · split
    · exact List.tail_suffix t
    · exact List.suffix_refl t
  next hpipe hlp hrp hsemi hamp hlt hgt =>
    -- a word character: the word loop takes `c` and goes on
    have hsym : c ∉ symbols := by
      simp only [symbols, List.mem_cons, List.not_mem_nil, or_false, not_or]
      exact ⟨hlt, hpipe, hgt, hamp, hsemi, hlp, hrp⟩
    have hws : c ∉ whitespace := by simp only [strchr, Bool.or_eq_false_iff, decide_eq_false_iff_not] at hc; exact hc.2
    rw [skipWord, if_pos (by simp [strchr, h0, hsym, hws])]
    exact skipWord_suffix t

/-- `gettoken` moves past at least one character whenever it finds a token. -/
theorem gettoken_lt {s : List Char} (h : (gettoken s).1 ≠ '\x00') :
    (gettoken s).2.2.2.length < s.length := by
  have h0 : deref (skipWhitespace s) ≠ '\x00' := fun h0 => h (scanToken_fst_eq_zero.mpr h0)
  obtain ⟨c, t, hs⟩ : ∃ c t, skipWhitespace s = c :: t := by
    cases hs : skipWhitespace s with
    | nil => rw [hs] at h0; exact absurd rfl h0
    | cons c t => exact ⟨c, t, rfl⟩
  rw [hs] at h0
  have hscan := scanToken_cons_suffix (t := t) (skipWhitespace_head hs) h0
  calc (gettoken s).2.2.2.length ≤ (scanToken (c :: t)).2.length := by
        rw [gettoken, hs]
        exact (skipWhitespace_suffix _).length_le
    _ ≤ t.length := hscan.length_le
    _ < (c :: t).length := Nat.lt_succ_self _
    _ ≤ s.length := hs ▸ (skipWhitespace_suffix s).length_le

/-! ## The parse tree -/

/-- `O_RDONLY`. -/
def oRdonly : Nat := 0x000

/-- `O_WRONLY`. -/
def oWronly : Nat := 0x001

/-- `O_CREATE`. -/
def oCreate : Nat := 0x200

/-- `MAXARGS`. -/
def maxArgs : Nat := 10

/-- `struct cmd` and its five kinds, `EXEC`, `REDIR`, `PIPE`, `LIST` and `BACK`; `α` is
what an argument or a file name is: for the parser, the pointers `q` and `eq` to the
word's first character and past its last, as offsets into the line. -/
inductive Cmd (α : Type) where
  | exec (argv : List α)
  | redir (cmd : Cmd α) (file : α) (mode fd : Nat)
  | pipe (left right : Cmd α)
  | list (left right : Cmd α)
  | back (cmd : Cmd α)
  deriving DecidableEq, Repr

/-- `cmd->argv[argc] = q; cmd->eargv[argc] = eq;` through the `execcmd` at the bottom of
the redirections `parseredirs` has wrapped around it. -/
def Cmd.fillExec {α : Type} (argv : List α) : Cmd α → Cmd α
  | .exec _ => .exec argv
  | .redir cmd file mode fd => .redir (cmd.fillExec argv) file mode fd
  | cmd => cmd

/-- `*ps` after a parsing function has moved it forward: a suffix of where it started. -/
structure Rest (s : List Char) where
  rest : List Char
  suffix : rest <:+ s

/-- `*ps` moved on from where `r` left it. -/
def Rest.trans {s : List Char} (r : Rest s) (r' : Rest r.rest) : Rest s :=
  ⟨r'.rest, r'.suffix.trans r.suffix⟩

/-- `*ps` after `gettoken(ps, es, &q, &eq)`. -/
def Rest.next (s : List Char) : Rest s := ⟨(gettoken s).2.2.2, gettoken_suffix s⟩

theorem Rest.trans_rest {s : List Char} (r : Rest s) (r' : Rest r.rest) :
    (r.trans r').rest = r'.rest := rfl

/-- `Rest.trans_rest` after a `gettoken`, with the rest stated as `gettoken` leaves it. -/
theorem Rest.next_trans_rest (s : List Char) (r : Rest (gettoken s).2.2.2) :
    ((Rest.next s).trans r).rest = r.rest := rfl

/-- `*ps` after `peek(ps, es, toks)`. -/
def Rest.peeked (s toks : List Char) : Rest s := ⟨(peek s toks).2, skipWhitespace_suffix s⟩

/-- `*ps` after `peek(ps, es, toks)` and `gettoken(ps, es, 0, 0)`. -/
def Rest.pastToken (s toks : List Char) : Rest s :=
  ⟨(gettoken (peek s toks).2).2.2.2, (gettoken_suffix _).trans (skipWhitespace_suffix s)⟩

theorem Rest.pastToken_lt {s toks : List Char} (h : (peek s toks).1 = true) :
    (Rest.pastToken s toks).rest.length < s.length := by
  have h0 : deref (skipWhitespace s) ≠ '\x00' := by
    intro h0
    simp [peek, h0] at h
  have hcode : (gettoken (peek s toks).2).1 ≠ '\x00' := by
    simp only [peek, gettoken, skipWhitespace_skipWhitespace]
    exact fun hz => h0 (scanToken_fst_eq_zero.mp hz)
  exact lt_of_lt_of_le (gettoken_lt hcode) (skipWhitespace_suffix s).length_le

/-! ## The parser -/

/-- `redircmd` for `parseredirs`'s token `tok`, with the file word at `arg`. -/
def redircmd (tok : Char) (cmd : Cmd (Nat × Nat)) (arg : Nat × Nat) : Cmd (Nat × Nat) :=
  match tok with
  | '<' => .redir cmd arg oRdonly 0
  | '>' => .redir cmd arg (oWronly ||| oCreate) 1
  | '+' => .redir cmd arg (oWronly ||| oCreate) 1
  | _ => cmd

/-- `parseredirs(cmd, ps, es)`. -/
def parseredirs (es : Nat) (cmd : Cmd (Nat × Nat)) (s : List Char) :
    Except String (Cmd (Nat × Nat) × Rest s) :=
  if _h : (peek s ['<', '>']).1 then
    let tok := gettoken (peek s ['<', '>']).2
    let file := gettoken (Rest.pastToken s ['<', '>']).rest
    if file.1 ≠ 'a' then .error "missing file for redirection" else do
    let (cmd, r) ← parseredirs es (redircmd tok.1 cmd (es - file.2.1.length, es - file.2.2.1.length))
      file.2.2.2
    return (cmd, (Rest.pastToken s ['<', '>']).trans ((Rest.next _).trans r))
  else .ok (cmd, Rest.peeked s ['<', '>'])
termination_by s.length
decreasing_by exact lt_of_le_of_lt (gettoken_suffix _).length_le (Rest.pastToken_lt _h)

/-- `parseline`'s `while(peek(ps, es, "&"))` loop: each `&` wraps the command in a
`backcmd`. -/
def parseBacks (cmd : Cmd (Nat × Nat)) (s : List Char) : Cmd (Nat × Nat) × Rest s :=
  if _h : (peek s ['&']).1 then
    let (cmd, r) := parseBacks (.back cmd) (Rest.pastToken s ['&']).rest
    (cmd, (Rest.pastToken s ['&']).trans r)
  else (cmd, Rest.peeked s ['&'])
termination_by s.length
decreasing_by exact Rest.pastToken_lt _h

/-- `parseexec`'s `while(!peek(ps, es, "|)&;"))` loop, with the words read so far (`argv`
and `eargv`) and `ret`, the redirections read so far around the `execcmd`. -/
def execLoop (es : Nat) (argv : List (Nat × Nat)) (ret : Cmd (Nat × Nat)) (s : List Char) :
    Except String (List (Nat × Nat) × Cmd (Nat × Nat) × Rest s) :=
  if (peek s ['|', ')', '&', ';']).1 then .ok (argv, ret, Rest.peeked s ['|', ')', '&', ';'])
  else
    let tok := gettoken (peek s ['|', ')', '&', ';']).2
    let r := (Rest.peeked s ['|', ')', '&', ';']).trans (Rest.next _)
    if _h : tok.1 = '\x00' then .ok (argv, ret, r)
    else if tok.1 ≠ 'a' then .error "syntax"
    else
      let argv := argv ++ [(es - tok.2.1.length, es - tok.2.2.1.length)]
      if maxArgs ≤ argv.length then .error "too many args" else do
      let (ret, r') ← parseredirs es ret r.rest
      let (argv, ret, r'') ← execLoop es argv ret r'.rest
      return (argv, ret, r.trans (r'.trans r''))
termination_by s.length
decreasing_by
  exact lt_of_le_of_lt r'.suffix.length_le
    (lt_of_lt_of_le (gettoken_lt _h) (skipWhitespace_suffix s).length_le)

mutual

/-- `parseline(ps, es)`. -/
def parseline (es : Nat) (s : List Char) : Except String (Cmd (Nat × Nat) × Rest s) := do
  let (cmd, r) ← parsepipe es s
  let (cmd, r') := parseBacks cmd r.rest
  if _h : (peek r'.rest [';']).1 then
    let (rest, r'') ← parseline es (Rest.pastToken r'.rest [';']).rest
    return (.list cmd rest, r.trans (r'.trans ((Rest.pastToken r'.rest [';']).trans r'')))
  else return (cmd, r.trans (r'.trans (Rest.peeked r'.rest [';'])))
termination_by (s.length, 3)
decreasing_by
  · exact Prod.Lex.right _ (by decide)
  · exact Prod.Lex.left _ _ (lt_of_lt_of_le (Rest.pastToken_lt _h)
      (r'.suffix.trans r.suffix).length_le)

/-- `parsepipe(ps, es)`. -/
def parsepipe (es : Nat) (s : List Char) : Except String (Cmd (Nat × Nat) × Rest s) := do
  let (cmd, r) ← parseexec es s
  if _h : (peek r.rest ['|']).1 then
    let (rest, r') ← parsepipe es (Rest.pastToken r.rest ['|']).rest
    return (.pipe cmd rest, r.trans ((Rest.pastToken r.rest ['|']).trans r'))
  else return (cmd, r.trans (Rest.peeked r.rest ['|']))
termination_by (s.length, 2)
decreasing_by
  · exact Prod.Lex.right _ (by decide)
  · exact Prod.Lex.left _ _ (lt_of_lt_of_le (Rest.pastToken_lt _h) r.suffix.length_le)

/-- `parseexec(ps, es)`. -/
def parseexec (es : Nat) (s : List Char) : Except String (Cmd (Nat × Nat) × Rest s) :=
  if (peek s ['(']).1 then parseblock es s else do
  let (ret, r) ← parseredirs es (.exec []) s
  let (argv, ret, r') ← execLoop es [] ret r.rest
  return (ret.fillExec argv, r.trans r')
termination_by (s.length, 1)
decreasing_by exact Prod.Lex.right _ (by decide)

/-- `parseblock(ps, es)`. -/
def parseblock (es : Nat) (s : List Char) : Except String (Cmd (Nat × Nat) × Rest s) :=
  if _h : (peek s ['(']).1 then do
    let (cmd, r) ← parseline es (Rest.pastToken s ['(']).rest
    if (peek r.rest [')']).1 then do
      let (cmd, r') ← parseredirs es cmd (Rest.pastToken r.rest [')']).rest
      return (cmd, (Rest.pastToken s ['(']).trans (r.trans ((Rest.pastToken r.rest [')']).trans r')))
    else .error "syntax - missing )"
  else .error "parseblock"
termination_by (s.length, 0)
decreasing_by exact Prod.Lex.left _ _ (Rest.pastToken_lt _h)

end

/-- `nulterminate(cmd)`: a NUL at every `eargv[i]` and `efile`, on the line `buf`. -/
def nulterminate : Cmd (Nat × Nat) → List Char → List Char
  | .exec argv, buf => argv.foldl (fun buf arg => buf.set arg.2 '\x00') buf
  | .redir cmd file _ _, buf => (nulterminate cmd buf).set file.2 '\x00'
  | .pipe left right, buf => nulterminate right (nulterminate left buf)
  | .list left right, buf => nulterminate right (nulterminate left buf)
  | .back cmd, buf => nulterminate cmd buf

/-- `parsecmd(s)`: the command and the line after `nulterminate`, or `panic`'s message.
`s` is the line's characters before its NUL, so `es = s + strlen(s)` is its end. -/
def parsecmd (s : List Char) : Except String (Cmd (Nat × Nat) × List Char) := do
  let (cmd, r) ← parseline s.length s
  if (peek r.rest []).2 ≠ [] then .error "syntax" else
  return (cmd, nulterminate cmd s)

/-- The C string at offset `p` of a line: its characters up to the first NUL. -/
def cstr (buf : List Char) (p : Nat) : List Char := (buf.drop p).takeWhile (· ≠ '\x00')

end Sh

end Xv6
