import Xv6.Param
import Xv6.Sh.Lexer

/-!
# sh's loops, against the grammar

The parser returns its tree with `q`/`eq` offsets in place of words; `text` reads a word
back from the line, and `WordAt` says that the offsets delimit one (`wordAt_of_split`).
`Follow p` is what may come after a phrase `p`: nothing, or an operator that ends it.

The three loops of the parser, each with a soundness lemma (what it took is a run of the
grammar's tokens, and its tree is theirs) and a completeness lemma (given those tokens and
a token that may follow, it takes exactly them): `parseBacks` for the `&`s of a line,
`parseredirs` for redirections, and the `while(!peek(ps, es, "|)&;"))` loop of
`parseexec` for words.
-/

namespace Xv6

namespace Sh

/-! ## Words of the line -/

/-- The word an argument's pointers `q` and `eq` delimit on the line. -/
def text (line : List Char) (a : Nat × Nat) : List Char := (line.drop a.1).take (a.2 - a.1)

/-- The arguments of a tree, every `argv[i]` and every `file`. -/
def Cmd.args {α : Type} : Cmd α → List α
  | .exec argv => argv
  | .redir cmd file _ _ => cmd.args ++ [file]
  | .pipe left right => left.args ++ right.args
  | .list left right => left.args ++ right.args
  | .back cmd => cmd.args

/-- `a` delimits a word of the line `s`: word characters from `a.1` up to `a.2`, and none
at `a.2`. -/
structure WordAt (s : List Char) (a : Nat × Nat) : Prop where
  lt : a.1 < a.2
  le : a.2 ≤ s.length
  word : ∀ i (hi : i < s.length), a.1 ≤ i → i < a.2 → isWordChar s[i] = true
  stop : ∀ hi : a.2 < s.length, isWordChar s[a.2] = false

/-- The pointers `gettoken` returns around a word on a suffix of the line. -/
theorem wordAt_of_split {line q w e : List Char} (hq : q <:+ line) (h : WordSplit q w e) :
    WordAt line (line.length - q.length, line.length - e.length) ∧
      text line (line.length - q.length, line.length - e.length) = w := by
  obtain ⟨pre, rfl⟩ := hq
  obtain ⟨rfl, hne, hword, hstop⟩ := h
  have hw : 0 < w.length := List.length_pos_iff.mpr hne
  have ha : ((pre ++ (w ++ e)).length - (w ++ e).length, (pre ++ (w ++ e)).length - e.length) =
      (pre.length, pre.length + w.length) := by
    simp only [List.length_append, Prod.mk.injEq]
    omega
  rw [ha]
  refine ⟨⟨by dsimp only; omega, by simp, fun i hi h1 h2 => ?_, fun hi => ?_⟩, ?_⟩
  · -- inside the word
    dsimp only at h1 h2
    have hi' : i - pre.length < w.length := by omega
    rw [List.getElem_append_right (by omega), List.getElem_append_left hi']
    exact hword _ (List.getElem_mem hi')
  · -- just past it, the first character of `e`
    dsimp only at hi ⊢
    have he : 0 < e.length := by simp only [List.length_append] at hi; omega
    rw [List.getElem_append_right (by omega), List.getElem_append_right (by omega)]
    exact hstop _ (by simp [List.head?_eq_getElem?, List.getElem?_eq_getElem he])
  · simp [text]

/-! ## Tokens and trees -/

theorem Tok.eq_word_of_code {tok : Tok} (h : tok.code = 'a') : ∃ w, tok = .word w := by
  cases tok <;> simp_all [Tok.code]

theorem RedirKind.lead_tok (k : RedirKind) : k.tok.lead.any (· ∈ ['<', '>']) = true := by
  cases k <;> rfl

theorem RedirKind.exists_of_lead {tok : Tok} (h : tok.lead.any (· ∈ ['<', '>']) = true) :
    ∃ k : RedirKind, tok = k.tok := by
  cases tok
  all_goals first
    | exact ⟨.input, rfl⟩
    | exact ⟨.output, rfl⟩
    | exact ⟨.append, rfl⟩
    | simp [Tok.lead] at h

/-- `parseredirs`'s `switch(tok)` builds the operator's `redircmd`. -/
theorem RedirKind.redircmd_tok (k : RedirKind) (cmd : Cmd (Nat × Nat)) (arg : Nat × Nat) :
    redircmd k.tok.code cmd arg = .redir cmd arg k.mode k.fd := by
  cases k <;> rfl

theorem Redir.wrap_cons (cmd : Cmd (List Char)) (r : Redir) (rs : List Redir) :
    Redir.wrap cmd (r :: rs) = Redir.wrap (.redir cmd r.2 r.1.mode r.1.fd) rs := rfl

theorem Redir.wrap_append (cmd : Cmd (List Char)) (rs rs' : List Redir) :
    Redir.wrap cmd (rs ++ rs') = Redir.wrap (Redir.wrap cmd rs) rs' :=
  List.foldl_append

@[simp] theorem Item.words_redirs_append (rs : List Redir) (items : List Item) :
    Item.words (rs.map .redir ++ items) = Item.words items := by
  induction rs with
  | nil => rfl
  | cons r rs ih => exact ih

@[simp] theorem Item.redirs_redirs_append (rs : List Redir) (items : List Item) :
    Item.redirs (rs.map .redir ++ items) = rs ++ Item.redirs items := by
  induction rs with
  | nil => rfl
  | cons r rs ih => exact congrArg (r :: ·) ih

theorem Item.toks_redirs (rs : List Redir) :
    (rs.map Item.redir).flatMap Item.toks = rs.flatMap Redir.toks := by
  induction rs with
  | nil => rfl
  | cons r rs ih => exact congrArg (r.toks ++ ·) ih

/-- The redirections at the front of a list of items, and the items after them. -/
def Item.splitRedirs : List Item → List Redir × List Item
  | .redir r :: items => (r :: (Item.splitRedirs items).1, (Item.splitRedirs items).2)
  | items => ([], items)

theorem Item.splitRedirs_spec (items : List Item) :
    items = (Item.splitRedirs items).1.map .redir ++ (Item.splitRedirs items).2 ∧
      ∀ it ∈ (Item.splitRedirs items).2.head?, ∃ w, it = .word w := by
  induction items with
  | nil => exact ⟨rfl, fun _ h => by cases h⟩
  | cons it items ih =>
    cases it with
    | word w => exact ⟨rfl, fun it h => ⟨w, (Option.some_inj.mp h).symm⟩⟩
    | redir r => exact ⟨congrArg (.redir r :: ·) ih.1, ih.2⟩

theorem Item.splitRedirs_length (items : List Item) :
    (Item.splitRedirs items).2.length ≤ items.length := by
  conv => rhs; rw [(Item.splitRedirs_spec items).1]
  simp

/-- The operators that end each phrase. -/
def Phrase.follow : Phrase → List Tok
  | .line => [.rparen]
  | .pipe => [.rparen, .amp, .semi]
  | .exec => [.rparen, .amp, .semi, .bar]

/-- The tokens that may follow a phrase: the next token, if any, ends it. -/
def Follow (p : Phrase) (rest : List Tok) : Prop := ∀ tok ∈ rest.head?, tok ∈ p.follow

/-- No redirection follows an `exec`. -/
theorem Follow.not_redir {rest : List Tok} (h : Follow .exec rest) :
    ∀ tok ∈ rest.head?, tok.lead.any (· ∈ ['<', '>']) = false :=
  fun tok htok =>
    (by decide : ∀ tok ∈ Phrase.exec.follow, tok.lead.any (· ∈ ['<', '>']) = false) tok (h tok htok)

/-- After the leading redirections of some items, a word or the end of the `exec`. -/
theorem Item.splitRedirs_not_redir (items : List Item) {rest : List Tok} (h : Follow .exec rest) :
    ∀ tok ∈ ((Item.splitRedirs items).2.flatMap Item.toks ++ rest).head?,
      tok.lead.any (· ∈ ['<', '>']) = false := by
  have hhead := (Item.splitRedirs_spec items).2
  rcases hitems : (Item.splitRedirs items).2 with _ | ⟨it, items'⟩
  · exact h.not_redir
  · obtain ⟨w, rfl⟩ := hhead it (by rw [hitems]; rfl)
    intro tok htok
    cases htok
    rfl

theorem Follow.exec_of_pipe {rest : List Tok} (h : Follow .pipe rest) : Follow .exec rest :=
  fun tok htok => (by decide : Phrase.pipe.follow ⊆ Phrase.exec.follow) (h tok htok)

theorem Follow.pipe_of_line {rest : List Tok} (h : Follow .line rest) : Follow .pipe rest :=
  fun tok htok => (by decide : Phrase.line.follow ⊆ Phrase.pipe.follow) (h tok htok)

/-- `&`s may follow a pipe whatever follows them. -/
theorem Follow.amps {rest : List Tok} (n : Nat) (h : Follow .pipe rest) :
    Follow .pipe (List.replicate n .amp ++ rest) := by
  cases n with
  | zero => exact h
  | succ n =>
    intro tok htok
    simp only [List.replicate_succ, List.cons_append, List.head?_cons, Option.mem_def,
      Option.some.injEq] at htok
    subst htok
    decide

theorem Cmd.map_fillExec {α β : Type} (f : α → β) (argv : List α) (cmd : Cmd α) :
    (cmd.fillExec argv).map f = (cmd.map f).fillExec (argv.map f) := by
  induction cmd with
  | exec => rfl
  | redir cmd file mode fd ih => exact congrArg (fun c => Cmd.redir c (f file) mode fd) ih
  | pipe => rfl
  | list => rfl
  | back => rfl

theorem Redir.wrap_fillExec (argv : List (List Char)) (cmd : Cmd (List Char)) (rs : List Redir) :
    (Redir.wrap cmd rs).fillExec argv = Redir.wrap (cmd.fillExec argv) rs := by
  induction rs generalizing cmd with
  | nil => rfl
  | cons r rs ih => exact ih _

theorem Cmd.args_fillExec {α : Type} (argv : List α) (cmd : Cmd α) :
    ∀ a ∈ (cmd.fillExec argv).args, a ∈ cmd.args ∨ a ∈ argv := by
  induction cmd with
  | exec => exact fun a ha => .inr ha
  | redir cmd file mode fd ih =>
    intro a ha
    simp only [Cmd.fillExec, Cmd.args, List.mem_append, List.mem_singleton] at ha ⊢
    rcases ha with ha | rfl
    · rcases ih a ha with ha | ha
      · exact .inl (.inl ha)
      · exact .inr ha
    · exact .inl (.inr rfl)
  | pipe => exact fun a ha => .inl ha
  | list => exact fun a ha => .inl ha
  | back => exact fun a ha => .inl ha

theorem Cmd.map_backs {α β : Type} (f : α → β) (n : Nat) (cmd : Cmd α) :
    (backs n cmd).map f = backs n (cmd.map f) := by
  induction n generalizing cmd with
  | zero => rfl
  | succ n ih => exact ih (.back cmd)

theorem Cmd.args_backs {α : Type} (n : Nat) (cmd : Cmd α) : (backs n cmd).args = cmd.args := by
  induction n generalizing cmd with
  | zero => rfl
  | succ n ih => exact ih (.back cmd)

theorem Cmd.map_congr {α β : Type} {f g : α → β} (cmd : Cmd α) (h : ∀ a ∈ cmd.args, f a = g a) :
    cmd.map f = cmd.map g := by
  induction cmd with
  | exec argv => exact congrArg Cmd.exec (List.map_congr_left h)
  | redir cmd file mode fd ih =>
    simp only [Cmd.args, List.mem_append, List.mem_singleton] at h
    rw [Cmd.map, Cmd.map, ih fun a ha => h a (.inl ha), h file (.inr rfl)]
  | pipe left right ihl ihr =>
    simp only [Cmd.args, List.mem_append] at h
    rw [Cmd.map, Cmd.map, ihl fun a ha => h a (.inl ha), ihr fun a ha => h a (.inr ha)]
  | list left right ihl ihr =>
    simp only [Cmd.args, List.mem_append] at h
    rw [Cmd.map, Cmd.map, ihl fun a ha => h a (.inl ha), ihr fun a ha => h a (.inr ha)]
  | back cmd ih => rw [Cmd.map, Cmd.map, ih h]

/-! ## What `peek` finds -/

/-- `peek` in terms of the tokens: whether the next one is a symbol among `toks`. -/
theorem peek_eq {s toks : List Char} (hs : '\x00' ∉ s) (htoks : ∀ c ∈ toks, c ∈ symbols) :
    (peek s toks).1 = ((tokenize s).head?.bind Tok.lead).any (· ∈ toks) := by
  cases htok : tokenize s with
  | nil => exact peek_of_tokenize_nil toks hs htok
  | cons tok ts => exact peek_of_tokenize_cons hs htoks htok

theorem tok_of_peek {s toks : List Char} (hs : '\x00' ∉ s) (htoks : ∀ c ∈ toks, c ∈ symbols)
    (h : (peek s toks).1 = true) :
    ∃ tok ts, tokenize s = tok :: ts ∧ tok.lead.any (· ∈ toks) = true := by
  cases htok : tokenize s with
  | nil => rw [peek_of_tokenize_nil toks hs htok] at h; cases h
  | cons tok ts => exact ⟨tok, ts, rfl, peek_of_tokenize_cons hs htoks htok ▸ h⟩

theorem peek_eq_false {s toks : List Char} (hs : '\x00' ∉ s) (htoks : ∀ c ∈ toks, c ∈ symbols)
    {rest : List Tok} {p : Phrase} (h : tokenize s = rest) (hf : Follow p rest)
    (hp : ∀ tok ∈ p.follow, tok.lead.any (· ∈ toks) = false) : (peek s toks).1 = false := by
  rw [peek_eq hs htoks, h]
  rcases rest with _ | ⟨tok, rest⟩
  · rfl
  · exact hp tok (hf tok rfl)

/-! ## The loops -/

/-- `parseline`'s `&` loop takes the `&`s that follow. -/
theorem parseBacks_sound {s : List Char} (hs : '\x00' ∉ s) (cmd : Cmd (Nat × Nat)) :
    ∃ n, tokenize s = List.replicate n .amp ++ tokenize (parseBacks cmd s).2.rest ∧
      (parseBacks cmd s).1 = backs n cmd := by
  rw [parseBacks]
  split
  next hp =>
    obtain ⟨tok, ts, htok, hamp⟩ := tok_of_peek hs (by simp [symbols]) hp
    obtain rfl : tok = .amp := by cases tok <;> simp [Tok.lead] at hamp ⊢
    have hts := tokenize_pastToken ['&'] hs htok
    obtain ⟨n, hn, hcmd⟩ := parseBacks_sound
      (not_nul_of_suffix hs (Rest.pastToken s ['&']).suffix) (.back cmd)
    refine ⟨n + 1, ?_, hcmd⟩
    rw [htok, ← hts, hn]
    rfl
  next => exact ⟨0, (tokenize_peeked ['&'] hs).symm, rfl⟩
termination_by s.length
decreasing_by exact Rest.pastToken_lt (by assumption)

theorem parseBacks_complete {s : List Char} (hs : '\x00' ∉ s) (cmd : Cmd (Nat × Nat)) (n : Nat)
    {rest : List Tok} (h : tokenize s = List.replicate n .amp ++ rest)
    (hrest : rest.head? ≠ some .amp) :
    (parseBacks cmd s).1 = backs n cmd ∧ tokenize (parseBacks cmd s).2.rest = rest := by
  induction n generalizing s cmd with
  | zero =>
    have hp : (peek s ['&']).1 = false := by
      rw [peek_eq hs (by simp [symbols]), h]
      rcases rest with _ | ⟨tok, rest⟩
      · rfl
      · cases tok <;> simp_all [Tok.lead]
    rw [parseBacks, dif_neg (by simp [hp])]
    exact ⟨rfl, (tokenize_peeked ['&'] hs).trans (h.trans (List.nil_append rest))⟩
  | succ n ih =>
    have hp : (peek s ['&']).1 = true := by
      rw [peek_eq hs (by simp [symbols]), h]
      rfl
    rw [parseBacks, dif_pos hp]
    exact ih (not_nul_of_suffix hs (Rest.pastToken s ['&']).suffix) (.back cmd)
      (tokenize_pastToken ['&'] hs h)

/-- `parseredirs` takes redirections, each an operator and a word. -/
theorem parseredirs_sound {line s : List Char} (hline : '\x00' ∉ line) (hs : s <:+ line)
    {cmd c : Cmd (Nat × Nat)} {r : Rest s} (h : parseredirs line.length cmd s = .ok (c, r)) :
    ∃ rs : List Redir, tokenize s = rs.flatMap Redir.toks ++ tokenize r.rest ∧
      c.map (text line) = Redir.wrap (cmd.map (text line)) rs ∧
      ∀ a ∈ c.args, a ∈ cmd.args ∨ WordAt line a := by
  have hs0 := not_nul_of_suffix hline hs
  rw [parseredirs] at h
  split at h
  next hp =>
    obtain ⟨tok, ts, htok, hlead⟩ := tok_of_peek hs0 (by simp [symbols]) hp
    obtain ⟨k, rfl⟩ := RedirKind.exists_of_lead hlead
    have hop : (gettoken (peek s ['<', '>']).2).1 = k.tok.code :=
      (gettoken_of_tokenize_cons (not_nul_of_suffix hs0 (skipWhitespace_suffix s))
        (by rw [tokenize_skipWhitespace hs0, htok])).1
    -- the file's word
    have hs1 : (Rest.pastToken s ['<', '>']).rest <:+ line := (Rest.pastToken s _).suffix.trans hs
    have shorter := Rest.pastToken_lt hp
    have hts := tokenize_pastToken ['<', '>'] hs0 htok
    dsimp only at h
    split at h
    · cases h
    next hfile =>
      have hfile : (gettoken (Rest.pastToken s ['<', '>']).rest).1 = 'a' := not_not.mp hfile
      rcases ts with _ | ⟨ftok, ts⟩
      · rw [gettoken_of_tokenize_nil (not_nul_of_suffix hline hs1) hts] at hfile
        cases hfile
      obtain ⟨hcode, hts', hsplit⟩ :=
        gettoken_of_tokenize_cons (not_nul_of_suffix hline hs1) hts
      obtain ⟨w, rfl⟩ := Tok.eq_word_of_code (hcode ▸ hfile)
      obtain ⟨hword, htext⟩ := wordAt_of_split (q := (gettoken _).2.1)
        ((skipWhitespace_suffix _).trans hs1) (hsplit w rfl)
      obtain ⟨⟨c', r'⟩, hrec, hret⟩ := except_bind_eq_ok h
      cases hret
      obtain ⟨rs, hrs, hmap, hargs⟩ := parseredirs_sound hline ((Rest.next _).suffix.trans hs1) hrec
      refine ⟨(k, w) :: rs, ?_, ?_, fun a ha => ?_⟩
      · rw [htok, ← hts', List.flatMap_cons, List.append_assoc, Rest.trans_rest,
          Rest.next_trans_rest, ← hrs]
        rfl
      · rw [hmap, hop, RedirKind.redircmd_tok, Redir.wrap_cons]
        simp only [Cmd.map, htext]
      · rw [hop, RedirKind.redircmd_tok] at hargs
        rcases hargs a ha with ha | ha
        · simp only [Cmd.args, List.mem_append, List.mem_singleton] at ha
          rcases ha with ha | rfl
          · exact .inl ha
          · exact .inr hword
        · exact .inr ha
  next =>
    cases h
    exact ⟨[], (tokenize_peeked _ hs0).symm, rfl, fun a ha => .inl ha⟩
termination_by s.length
decreasing_by
  exact lt_of_le_of_lt (gettoken_suffix _).length_le shorter

theorem parseredirs_complete {line s : List Char} (hline : '\x00' ∉ line) (hs : s <:+ line)
    (cmd : Cmd (Nat × Nat)) (rs : List Redir) {rest : List Tok}
    (h : tokenize s = rs.flatMap Redir.toks ++ rest)
    (hrest : ∀ tok ∈ rest.head?, tok.lead.any (· ∈ ['<', '>']) = false) :
    ∃ c r, parseredirs line.length cmd s = .ok (c, r) ∧ tokenize r.rest = rest ∧
      c.map (text line) = Redir.wrap (cmd.map (text line)) rs := by
  have hs0 := not_nul_of_suffix hline hs
  induction rs generalizing s cmd with
  | nil =>
    have hp : (peek s ['<', '>']).1 = false := by
      rw [peek_eq hs0 (by simp [symbols]), h]
      rcases rest with _ | ⟨tok, rest⟩
      · rfl
      · exact hrest tok rfl
    rw [parseredirs, dif_neg (by simp [hp])]
    exact ⟨cmd, _, rfl, (tokenize_peeked _ hs0).trans h, rfl⟩
  | cons r rs ih =>
    obtain ⟨k, w⟩ := r
    have htok : tokenize s = k.tok :: Tok.word w :: (rs.flatMap Redir.toks ++ rest) := h
    have hp : (peek s ['<', '>']).1 = true := by
      rw [peek_eq hs0 (by simp [symbols]), htok]
      exact k.lead_tok
    have hop : (gettoken (peek s ['<', '>']).2).1 = k.tok.code :=
      (gettoken_of_tokenize_cons (not_nul_of_suffix hs0 (skipWhitespace_suffix s))
        (by rw [tokenize_skipWhitespace hs0, htok])).1
    -- the file's word
    have hs1 : (Rest.pastToken s ['<', '>']).rest <:+ line := (Rest.pastToken s _).suffix.trans hs
    obtain ⟨hcode, hts', hsplit⟩ := gettoken_of_tokenize_cons (not_nul_of_suffix hline hs1)
      (tokenize_pastToken ['<', '>'] hs0 htok)
    obtain ⟨-, htext⟩ := wordAt_of_split (q := (gettoken _).2.1)
      ((skipWhitespace_suffix _).trans hs1) (hsplit w rfl)
    obtain ⟨c, r, hrec, hrest', hmap⟩ := ih (s := (gettoken (Rest.pastToken s ['<', '>']).rest).2.2.2)
      ((Rest.next _).suffix.trans hs1)
      (redircmd k.tok.code cmd (line.length - (gettoken (Rest.pastToken s ['<', '>']).rest).2.1.length,
        line.length - (gettoken (Rest.pastToken s ['<', '>']).rest).2.2.1.length))
      hts' (not_nul_of_suffix hline ((Rest.next _).suffix.trans hs1))
    refine ⟨c, (Rest.pastToken s ['<', '>']).trans ((Rest.next _).trans r), ?_, hrest', ?_⟩
    · rw [parseredirs, dif_pos hp]
      dsimp only
      rw [if_neg (by rw [hcode]; exact fun h => h rfl), hop, hrec]
      rfl
    · rw [hmap, RedirKind.redircmd_tok, Redir.wrap_cons]
      simp only [Cmd.map, htext]

/-- `parseexec`'s loop takes words, each with the redirections after it. -/
theorem execLoop_sound {line s : List Char} (hline : '\x00' ∉ line) (hs : s <:+ line)
    {argv argv' : List (Nat × Nat)} {ret ret' : Cmd (Nat × Nat)} {r : Rest s}
    (hargv : argv.length < maxArgs) (h : execLoop line.length argv ret s = .ok (argv', ret', r)) :
    ∃ items : List Item, tokenize s = items.flatMap Item.toks ++ tokenize r.rest ∧
      argv'.map (text line) = argv.map (text line) ++ Item.words items ∧
      ret'.map (text line) = Redir.wrap (ret.map (text line)) (Item.redirs items) ∧
      argv'.length < maxArgs ∧ (∀ a ∈ argv', a ∈ argv ∨ WordAt line a) ∧
      ∀ a ∈ ret'.args, a ∈ ret.args ∨ WordAt line a := by
  have hs0 := not_nul_of_suffix hline hs
  have hs1 : (peek s ['|', ')', '&', ';']).2 <:+ line := (skipWhitespace_suffix s).trans hs
  have hts1 : tokenize (peek s ['|', ')', '&', ';']).2 = tokenize s := tokenize_skipWhitespace hs0
  rw [execLoop] at h
  split at h
  · -- the end of the `exec`
    cases h
    exact ⟨[], hts1.symm, (List.append_nil _).symm, rfl, hargv, fun a ha => .inl ha,
      fun a ha => .inl ha⟩
  dsimp only at h
  split at h
  next hnul =>
    -- no token left: `break`
    cases h
    have hnil : tokenize s = [] := by
      rcases htok : tokenize s with _ | ⟨tok, ts⟩
      · rfl
      · have := (gettoken_of_tokenize_cons (not_nul_of_suffix hline hs1) (hts1.trans htok)).1
        rw [hnul] at this
        cases tok <;> cases this
    refine ⟨[], ?_, (List.append_nil _).symm, rfl, hargv, fun a ha => .inl ha, fun a ha => .inl ha⟩
    show tokenize s = [] ++ tokenize (gettoken (peek s ['|', ')', '&', ';']).2).2.2.2
    rw [gettoken_of_tokenize_nil (not_nul_of_suffix hline hs1) (hts1.trans hnil), hnil]
    simp
  split at h
  · cases h
  next hword =>
  split at h
  · cases h
  next hmax =>
  -- a word, then the redirections after it, then the rest of the loop
  have hword : (gettoken (peek s ['|', ')', '&', ';']).2).1 = 'a' := not_not.mp hword
  rcases htok : tokenize s with _ | ⟨tok, ts⟩
  · rw [gettoken_of_tokenize_nil (not_nul_of_suffix hline hs1) (hts1.trans htok)] at hword
    cases hword
  obtain ⟨hcode, hts, hsplit⟩ :=
    gettoken_of_tokenize_cons (not_nul_of_suffix hline hs1) (hts1.trans htok)
  obtain ⟨w, rfl⟩ := Tok.eq_word_of_code (hcode ▸ hword)
  obtain ⟨hwordAt, htext⟩ := wordAt_of_split (q := (gettoken _).2.1)
    ((skipWhitespace_suffix _).trans hs1) (hsplit w rfl)
  obtain ⟨⟨ret2, r2⟩, hred, h⟩ := except_bind_eq_ok h
  obtain ⟨⟨argv3, ret3, r3⟩, hloop, hret⟩ := except_bind_eq_ok h
  cases hret
  have hs2 : ((Rest.peeked s ['|', ')', '&', ';']).trans (Rest.next _)).rest <:+ line :=
    ((Rest.peeked s _).trans (Rest.next _)).suffix.trans hs
  obtain ⟨rs, hrs, hmap2, hargs2⟩ := parseredirs_sound hline hs2 hred
  obtain ⟨items, hitems, hargv3, hret3, hlen3, hargvs3, hrets3⟩ :=
    execLoop_sound hline (r2.suffix.trans hs2) (by omega) hloop
  refine ⟨.word w :: (rs.map .redir ++ items), ?_, ?_, ?_, hlen3, fun a ha => ?_, fun a ha => ?_⟩
  · have hrs' : tokenize (gettoken (peek s ['|', ')', '&', ';']).2).2.2.2 =
        rs.flatMap Redir.toks ++ tokenize r2.rest := hrs
    rw [List.flatMap_cons, List.flatMap_append, Item.toks_redirs, ← hts, hrs', hitems]
    simp only [Item.toks, List.append_assoc, List.cons_append]
    rfl
  · rw [hargv3, List.map_append, List.map_singleton, htext, List.append_assoc]
    simp [Item.words]
  · rw [hret3, hmap2, ← Redir.wrap_append]
    show _ = Redir.wrap _ (Item.redirs (rs.map .redir ++ items))
    rw [Item.redirs_redirs_append]
  · rcases hargvs3 a ha with ha | ha
    · rcases List.mem_append.mp ha with ha | ha
      · exact .inl ha
      · rw [List.mem_singleton.mp ha]
        exact .inr hwordAt
    · exact .inr ha
  · rcases hrets3 a ha with ha | ha
    · exact hargs2 a ha
    · exact .inr ha

theorem execLoop_complete {line s : List Char} (hline : '\x00' ∉ line) (hs : s <:+ line)
    (argv : List (Nat × Nat)) (ret : Cmd (Nat × Nat)) (items : List Item)
    (hhead : ∀ it ∈ items.head?, ∃ w, it = .word w) {rest : List Tok}
    (h : tokenize s = items.flatMap Item.toks ++ rest) (hrest : Follow .exec rest)
    (hlen : argv.length + (Item.words items).length < maxArgs) :
    ∃ argv' ret' r, execLoop line.length argv ret s = .ok (argv', ret', r) ∧
      tokenize r.rest = rest ∧ argv'.map (text line) = argv.map (text line) ++ Item.words items ∧
      ret'.map (text line) = Redir.wrap (ret.map (text line)) (Item.redirs items) := by
  have hs0 := not_nul_of_suffix hline hs
  have hs1 : (peek s ['|', ')', '&', ';']).2 <:+ line := (skipWhitespace_suffix s).trans hs
  have hts1 : tokenize (peek s ['|', ')', '&', ';']).2 = tokenize s := tokenize_skipWhitespace hs0
  rcases hitems : items with _ | ⟨it, tl⟩
  · rw [hitems] at h
    rcases rest with _ | ⟨tok, rest⟩
    · -- the end of the line: `gettoken` finds the NUL and the loop breaks
      have hp : (peek s ['|', ')', '&', ';']).1 = false := by
        rw [peek_eq hs0 (by simp [symbols]), h]
        rfl
      have hget := gettoken_of_tokenize_nil (not_nul_of_suffix hline hs1) (hts1.trans h)
      refine ⟨argv, ret, (Rest.peeked s ['|', ')', '&', ';']).trans (Rest.next _), ?_, ?_,
        by simp [Item.words], rfl⟩
      · rw [execLoop, if_neg (by simp [hp])]
        dsimp only
        rw [dif_pos (by rw [hget])]
      · show tokenize (gettoken (peek s ['|', ')', '&', ';']).2).2.2.2 = []
        rw [hget]
        exact tokenize_nil
    · -- a token that ends the `exec`
      have hp : (peek s ['|', ')', '&', ';']).1 = true := by
        rw [peek_eq hs0 (by simp [symbols]), h]
        have htok := hrest tok rfl
        simp only [Phrase.follow, List.mem_cons, List.not_mem_nil, or_false] at htok
        rcases htok with rfl | rfl | rfl | rfl <;> rfl
      refine ⟨argv, ret, Rest.peeked s ['|', ')', '&', ';'], ?_, hts1.trans h,
        by simp [Item.words], rfl⟩
      rw [execLoop, if_pos hp]
  · rw [hitems] at h hhead hlen
    obtain ⟨w, rfl⟩ := hhead it rfl
    -- the word, the redirections after it, then the items from the next word on
    obtain ⟨hsplit, hhead'⟩ := Item.splitRedirs_spec tl
    have htoks : tl.flatMap Item.toks = (Item.splitRedirs tl).1.flatMap Redir.toks ++
        (Item.splitRedirs tl).2.flatMap Item.toks := by
      conv => lhs; rw [hsplit]
      rw [List.flatMap_append, Item.toks_redirs]
    have htok : tokenize s = Tok.word w :: ((Item.splitRedirs tl).1.flatMap Redir.toks ++
        ((Item.splitRedirs tl).2.flatMap Item.toks ++ rest)) := by
      rw [h, List.flatMap_cons, htoks]
      simp [Item.toks]
    have hp : (peek s ['|', ')', '&', ';']).1 = false := by
      rw [peek_eq hs0 (by simp [symbols]), htok]
      rfl
    obtain ⟨hcode, hts, hwsplit⟩ :=
      gettoken_of_tokenize_cons (not_nul_of_suffix hline hs1) (hts1.trans htok)
    obtain ⟨-, htext⟩ := wordAt_of_split (q := (gettoken _).2.1)
      ((skipWhitespace_suffix _).trans hs1) (hwsplit w rfl)
    have hs2 : ((Rest.peeked s ['|', ')', '&', ';']).trans (Rest.next _)).rest <:+ line :=
      ((Rest.peeked s _).trans (Rest.next _)).suffix.trans hs
    obtain ⟨ret2, r2, hred, hrest2, hmap2⟩ := parseredirs_complete hline hs2 ret
      (Item.splitRedirs tl).1 hts (Item.splitRedirs_not_redir tl hrest)
    have hwords : Item.words (.word w :: tl) = w :: Item.words (Item.splitRedirs tl).2 := by
      conv => lhs; rw [hsplit]
      simp [Item.words]
    let arg := (line.length - (gettoken (peek s ['|', ')', '&', ';']).2).2.1.length,
      line.length - (gettoken (peek s ['|', ')', '&', ';']).2).2.2.1.length)
    have hlen' : (argv ++ [arg]).length + (Item.words (Item.splitRedirs tl).2).length <
        maxArgs := by
      rw [hwords] at hlen
      simp only [List.length_append, List.length_cons, List.length_nil] at hlen ⊢
      omega
    obtain ⟨argv3, ret3, r3, hloop, hrest3, hargv3, hret3⟩ := execLoop_complete hline
      (r2.suffix.trans hs2) (argv ++ [arg]) ret2 (Item.splitRedirs tl).2 hhead' hrest2 hrest
      hlen'
    refine ⟨argv3, ret3, ((Rest.peeked s ['|', ')', '&', ';']).trans (Rest.next _)).trans
      (r2.trans r3), ?_, hrest3, ?_, ?_⟩
    · rw [execLoop, if_neg (by simp [hp])]
      dsimp only
      rw [dif_neg (by rw [hcode]; exact (by decide : ¬ ('a' = '\x00'))),
        if_neg (by rw [hcode]; exact fun h => h rfl),
        if_neg (by simp only [List.length_append, List.length_singleton, arg] at hlen' ⊢; omega),
        hred]
      simp only [except_ok_bind]
      rw [hloop]
      rfl
    · rw [hargv3, hwords, List.map_append, List.map_singleton, htext, List.append_assoc]
      rfl
    · rw [hret3, hmap2, ← Redir.wrap_append]
      conv => rhs; rw [hsplit]
      simp [Item.redirs]
termination_by items.length
decreasing_by
  rw [hitems, List.length_cons]
  exact Nat.lt_succ_of_le (Item.splitRedirs_length _)

end Sh

end Xv6
