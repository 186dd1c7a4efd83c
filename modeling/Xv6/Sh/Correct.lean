import Xv6.Sh.Loops

/-!
# The shell's parser accepts its grammar

`parse_sound`: every result of `parseline`, `parsepipe` or `parseexec` on a suffix of the
line took the tokens of a phrase of `Derives`, with the derivation's tree, by strong
induction on the suffix's length.  `parse_complete`: every derivation is what the parser
gives back, by induction on the derivation, one lemma per production.  With
`cstr_nulterminate` (the NULs `nulterminate` writes end each word and nothing inside one),
`parsecmd_grammar` says that `parsecmd` returns, with no `panic`, exactly on the lines
that derive a `line`, and then with the derivation's tree and words.
-/

namespace Xv6

namespace Sh

/-! ## Soundness -/

/-- The parsing function of each phrase. -/
def parsePhrase : Phrase → Nat → (s : List Char) → Except String (Cmd (Nat × Nat) × Rest s)
  | .line => parseline
  | .pipe => parsepipe
  | .exec => parseexec

/-- A parse of `s` that took the tokens of a `p` of the grammar, with the tree `cmd`, whose
words are words of the line. -/
def ParsedAs (line : List Char) (p : Phrase) {s : List Char} (cmd : Cmd (Nat × Nat))
    (r : Rest s) : Prop :=
  ∃ ts, tokenize s = ts ++ tokenize r.rest ∧ Derives p ts (cmd.map (text line)) ∧
    ∀ a ∈ cmd.args, WordAt line a

/-- Every result of `parsePhrase p` on `s` is a parse as a `p`. -/
def Sound (line : List Char) (p : Phrase) (s : List Char) : Prop :=
  ∀ cmd r, parsePhrase p line.length s = .ok (cmd, r) → ParsedAs line p cmd r

theorem parseexec_sound {line s : List Char} (hline : '\x00' ∉ line) (hs : s <:+ line)
    (hblock : ∀ cmd r, parseblock line.length s = .ok (cmd, r) → ParsedAs line .exec cmd r) :
    Sound line .exec s := by
  intro cmd r h
  change parseexec line.length s = .ok (cmd, r) at h
  rw [parseexec] at h
  split at h
  · exact hblock cmd r h
  obtain ⟨⟨ret, r1⟩, hred, h⟩ := except_bind_eq_ok h
  obtain ⟨⟨argv, ret', r2⟩, hloop, hret⟩ := except_bind_eq_ok h
  cases hret
  obtain ⟨rs, hrs, hmap, hargs⟩ := parseredirs_sound hline hs hred
  obtain ⟨items, hitems, hargv, hret', hlen, hargvs, hrets⟩ :=
    execLoop_sound hline (r1.suffix.trans hs) (by decide) hloop
  have hwords : argv.map (text line) = Item.words (rs.map Item.redir ++ items) := by
    rw [hargv, Item.words_redirs_append]
    rfl
  refine ⟨(rs.map Item.redir ++ items).flatMap Item.toks, ?_, ?_, fun a ha => ?_⟩
  · rw [hrs, hitems, List.flatMap_append, Item.toks_redirs, List.append_assoc]
    rfl
  · rw [Cmd.map_fillExec, hret', hmap, hwords, Redir.wrap_fillExec, Redir.wrap_fillExec,
      ← Redir.wrap_append,
      ← Item.redirs_redirs_append]
    exact Derives.simple _ (by rw [← hwords, List.length_map]; exact hlen)
  · rcases Cmd.args_fillExec argv ret' a ha with ha | ha
    · rcases hrets a ha with ha | ha
      · rcases hargs a ha with ha | ha
        · cases ha
        · exact ha
      · exact ha
    · rcases hargvs a ha with ha | ha
      · cases ha
      · exact ha

theorem parseblock_sound {line s : List Char} (hline : '\x00' ∉ line) (hs : s <:+ line)
    (ih : ∀ s', s'.length < s.length → s' <:+ line → Sound line .line s')
    {cmd : Cmd (Nat × Nat)} {r : Rest s} (h : parseblock line.length s = .ok (cmd, r)) :
    ParsedAs line .exec cmd r := by
  have hs0 := not_nul_of_suffix hline hs
  rw [parseblock] at h
  split at h
  next hp =>
    obtain ⟨tok, ts, htok, hlp⟩ := tok_of_peek hs0 (by simp [symbols]) hp
    obtain rfl : tok = .lparen := by cases tok <;> simp [Tok.lead] at hlp ⊢
    have hs1 := (Rest.pastToken s ['(']).suffix.trans hs
    have hts := tokenize_pastToken ['('] hs0 htok
    obtain ⟨⟨c1, r1⟩, hl, h⟩ := except_bind_eq_ok h
    obtain ⟨us, hus, hder, hargs⟩ := ih _ (Rest.pastToken_lt hp) hs1 c1 r1 hl
    have hs2 := r1.suffix.trans hs1
    dsimp only at h
    split at h
    next hp2 =>
      -- `)`, then the redirections
      obtain ⟨tok2, ts2, htok2, hrp⟩ := tok_of_peek (not_nul_of_suffix hline hs2) (by simp [symbols]) hp2
      obtain rfl : tok2 = .rparen := by cases tok2 <;> simp [Tok.lead] at hrp ⊢
      have hts2 := tokenize_pastToken [')'] (not_nul_of_suffix hline hs2) htok2
      obtain ⟨⟨c2, r2⟩, hred, hret⟩ := except_bind_eq_ok h
      cases hret
      obtain ⟨rs, hrs, hmap, hargs2⟩ :=
        parseredirs_sound hline ((Rest.pastToken r1.rest [')']).suffix.trans hs2) hred
      refine ⟨.lparen :: us ++ .rparen :: rs.flatMap Redir.toks, ?_, ?_, fun a ha => ?_⟩
      · rw [htok, ← hts, hus, htok2, ← hts2, hrs]
        simp only [List.cons_append, List.append_assoc]
        rfl
      · rw [hmap]
        exact Derives.block rs hder
      · rcases hargs2 a ha with ha | ha
        · exact hargs a ha
        · exact ha
    · cases h
  · cases h

theorem parsepipe_sound {line s : List Char} (hline : '\x00' ∉ line) (hs : s <:+ line)
    (hexec : Sound line .exec s)
    (ih : ∀ s', s'.length < s.length → s' <:+ line → Sound line .pipe s') :
    Sound line .pipe s := by
  intro cmd r h
  change parsepipe line.length s = .ok (cmd, r) at h
  rw [parsepipe] at h
  obtain ⟨⟨c1, r1⟩, he, h⟩ := except_bind_eq_ok h
  obtain ⟨ts, hts, hder, hargs⟩ := hexec c1 r1 he
  have hs1 := r1.suffix.trans hs
  have hs10 := not_nul_of_suffix hline hs1
  dsimp only at h
  split at h
  next hp =>
    -- `|` and the rest of the pipe
    obtain ⟨tok, us, htok, hbar⟩ := tok_of_peek hs10 (by simp [symbols]) hp
    obtain rfl : tok = .bar := by cases tok <;> simp [Tok.lead] at hbar ⊢
    obtain ⟨⟨c2, r2⟩, hp2, hret⟩ := except_bind_eq_ok h
    cases hret
    obtain ⟨vs, hvs, hder2, hargs2⟩ := ih _
      (lt_of_lt_of_le (Rest.pastToken_lt hp) r1.suffix.length_le)
      ((Rest.pastToken r1.rest ['|']).suffix.trans hs1) c2 r2 hp2
    refine ⟨ts ++ .bar :: vs, ?_, Derives.pipe hder hder2, fun a ha => ?_⟩
    · rw [hts, htok, ← tokenize_pastToken ['|'] hs10 htok, hvs]
      simp only [List.cons_append, List.append_assoc]
      rfl
    · simp only [Cmd.args, List.mem_append] at ha
      rcases ha with ha | ha
      · exact hargs a ha
      · exact hargs2 a ha
  next =>
    cases h
    exact ⟨ts, hts.trans (congrArg (ts ++ ·) (tokenize_peeked ['|'] hs10).symm),
      Derives.exec hder, hargs⟩

theorem parseline_sound {line s : List Char} (hline : '\x00' ∉ line) (hs : s <:+ line)
    (hpipe : Sound line .pipe s)
    (ih : ∀ s', s'.length < s.length → s' <:+ line → Sound line .line s') :
    Sound line .line s := by
  intro cmd r h
  change parseline line.length s = .ok (cmd, r) at h
  rw [parseline] at h
  obtain ⟨⟨c1, r1⟩, hp1, h⟩ := except_bind_eq_ok h
  obtain ⟨ts, hts, hder, hargs⟩ := hpipe c1 r1 hp1
  have hs1 := r1.suffix.trans hs
  -- the `&`s
  obtain ⟨n, hamps, hbacks⟩ := parseBacks_sound (not_nul_of_suffix hline hs1) c1
  dsimp only at h
  generalize hb : parseBacks c1 r1.rest = b at h hamps hbacks
  obtain ⟨c2, r2⟩ := b
  have hs2 := r2.suffix.trans hs1
  have hs20 := not_nul_of_suffix hline hs2
  dsimp only at h hbacks
  subst hbacks
  split at h
  next hp =>
    -- `;` and the rest of the line
    obtain ⟨tok, us, htok, hsemi⟩ := tok_of_peek hs20 (by simp [symbols]) hp
    obtain rfl : tok = .semi := by cases tok <;> simp [Tok.lead] at hsemi ⊢
    obtain ⟨⟨c3, r3⟩, hp3, hret⟩ := except_bind_eq_ok h
    cases hret
    obtain ⟨vs, hvs, hder3, hargs3⟩ := ih _
      (lt_of_lt_of_le (Rest.pastToken_lt hp) (r2.suffix.trans r1.suffix).length_le)
      ((Rest.pastToken r2.rest [';']).suffix.trans hs2) c3 r3 hp3
    refine ⟨ts ++ List.replicate n .amp ++ .semi :: vs, ?_, ?_, fun a ha => ?_⟩
    · rw [hts, hamps, htok, ← tokenize_pastToken [';'] hs20 htok, hvs]
      simp only [List.cons_append, List.append_assoc]
      rfl
    · rw [Cmd.map, Cmd.map_backs]
      exact Derives.list n hder hder3
    · simp only [Cmd.args, Cmd.args_backs, List.mem_append] at ha
      rcases ha with ha | ha
      · exact hargs a ha
      · exact hargs3 a ha
  next =>
    cases h
    refine ⟨ts ++ List.replicate n .amp, ?_, ?_, by rw [Cmd.args_backs]; exact hargs⟩
    · rw [hts, hamps, List.append_assoc]
      exact congrArg (fun l => ts ++ (List.replicate n .amp ++ l)) (tokenize_peeked [';'] hs20).symm
    · rw [Cmd.map_backs]
      exact Derives.back n hder

/-- Every parse of a suffix of the line is a parse of a phrase of the grammar. -/
theorem parse_sound {line : List Char} (hline : '\x00' ∉ line) (s : List Char)
    (hs : s <:+ line) (p : Phrase) : Sound line p s := by
  -- the phrases of shorter suffixes first; then, on `s`, `parseblock` before `parseexec`
  -- before `parsepipe` before `parseline`
  have ihline : ∀ s', s'.length < s.length → s' <:+ line → Sound line .line s' :=
    fun s' _ hs' => parse_sound hline s' hs' .line
  have ihpipe : ∀ s', s'.length < s.length → s' <:+ line → Sound line .pipe s' :=
    fun s' _ hs' => parse_sound hline s' hs' .pipe
  have hexec := parseexec_sound hline hs fun _ _ h => parseblock_sound hline hs ihline h
  have hpipe := parsepipe_sound hline hs hexec ihpipe
  cases p with
  | line => exact parseline_sound hline hs hpipe ihline
  | pipe => exact hpipe
  | exec => exact hexec
termination_by s.length

/-! ## Completeness -/

/-- What the parse of `p` must do on a suffix of the line whose tokens are those of `t`
followed by some that may follow `p`: give back `t`, and stop where those begin. -/
def Complete (line : List Char) (p : Phrase) (ts : List Tok) (t : Cmd (List Char)) : Prop :=
  ∀ s, s <:+ line → ∀ rest, tokenize s = ts ++ rest → Follow p rest →
    ∃ cmd r, parsePhrase p line.length s = .ok (cmd, r) ∧ tokenize r.rest = rest ∧
      cmd.map (text line) = t

theorem parsepipe_of_exec {line : List Char} (hline : '\x00' ∉ line) {ts : List Tok}
    {t : Cmd (List Char)} (hexec : Complete line .exec ts t) : Complete line .pipe ts t := by
  intro s hs rest h hf
  obtain ⟨c, r, he, hr, hc⟩ := hexec s hs rest h hf.exec_of_pipe
  have hr0 := not_nul_of_suffix hline (r.suffix.trans hs)
  have hp : (peek r.rest ['|']).1 = false := peek_eq_false hr0 (by simp [symbols]) hr hf (by decide)
  refine ⟨c, r.trans (Rest.peeked r.rest ['|']), ?_, (tokenize_peeked ['|'] hr0).trans hr, hc⟩
  change parsepipe line.length s = _
  rw [parsepipe, show parseexec line.length s = .ok (c, r) from he]
  dsimp only
  rw [except_ok_bind]
  dsimp only
  rw [dif_neg (by simp [hp])]
  rfl

theorem parsepipe_of_pipe {line : List Char} (hline : '\x00' ∉ line) {ts us : List Tok}
    {left right : Cmd (List Char)} (hexec : Complete line .exec ts left)
    (hpipe : Complete line .pipe us right) :
    Complete line .pipe (ts ++ .bar :: us) (.pipe left right) := by
  intro s hs rest h hf
  obtain ⟨c1, r1, he, hr1, hc1⟩ := hexec s hs (.bar :: (us ++ rest))
    (by rw [h, List.append_assoc, List.cons_append]) (fun tok htok => by cases htok; decide)
  have hs1 := r1.suffix.trans hs
  have hr0 := not_nul_of_suffix hline hs1
  have hp : (peek r1.rest ['|']).1 = true := by
    rw [peek_eq hr0 (by simp [symbols]), hr1]
    rfl
  obtain ⟨c2, r2, hp2, hr2, hc2⟩ := hpipe _ ((Rest.pastToken r1.rest ['|']).suffix.trans hs1)
    rest (tokenize_pastToken ['|'] hr0 hr1) hf
  refine ⟨.pipe c1 c2, r1.trans ((Rest.pastToken r1.rest ['|']).trans r2), ?_, hr2,
    by rw [Cmd.map, hc1, hc2]⟩
  change parsepipe line.length s = _
  rw [parsepipe, show parseexec line.length s = .ok (c1, r1) from he]
  dsimp only
  rw [except_ok_bind]
  dsimp only
  rw [dif_pos hp,
    show parsepipe line.length (Rest.pastToken r1.rest ['|']).rest = .ok (c2, r2) from hp2]
  rfl

/-- A pipe and its `&`s, ending the line. -/
theorem parseline_of_back {line : List Char} (hline : '\x00' ∉ line) (n : Nat) {ts : List Tok}
    {t : Cmd (List Char)} (hpipe : Complete line .pipe ts t) :
    Complete line .line (ts ++ List.replicate n .amp) (backs n t) := by
  intro s hs rest h hf
  obtain ⟨c, r, hp1, hr, hc⟩ := hpipe s hs (List.replicate n .amp ++ rest)
    (by rw [h, List.append_assoc]) (Follow.amps n hf.pipe_of_line)
  have hs1 := r.suffix.trans hs
  have hamp : rest.head? ≠ some .amp := fun h' => absurd (hf _ h') (by decide)
  obtain ⟨hbacks, hrest⟩ := parseBacks_complete (not_nul_of_suffix hline hs1) c n hr hamp
  rcases hb : parseBacks c r.rest with ⟨c2, r2⟩
  rw [hb] at hbacks hrest
  dsimp only at hbacks hrest
  have hr20 := not_nul_of_suffix hline (r2.suffix.trans hs1)
  have hp : (peek r2.rest [';']).1 = false := peek_eq_false hr20 (by simp [symbols]) hrest hf (by decide)
  refine ⟨c2, r.trans (r2.trans (Rest.peeked r2.rest [';'])), ?_,
    (tokenize_peeked [';'] hr20).trans hrest, by rw [hbacks, Cmd.map_backs, hc]⟩
  change parseline line.length s = _
  rw [parseline, show parsepipe line.length s = .ok (c, r) from hp1]
  dsimp only
  rw [except_ok_bind]
  dsimp only
  rw [hb]
  dsimp only
  rw [dif_neg (by simp [hp])]
  rfl

/-- A pipe, its `&`s, then `;` and the rest of the line. -/
theorem parseline_of_list {line : List Char} (hline : '\x00' ∉ line) (n : Nat)
    {ts us : List Tok} {t u : Cmd (List Char)} (hpipe : Complete line .pipe ts t)
    (hnext : Complete line .line us u) :
    Complete line .line (ts ++ List.replicate n .amp ++ .semi :: us) (.list (backs n t) u) := by
  intro s hs rest h hf
  obtain ⟨c, r, hp1, hr, hc⟩ := hpipe s hs (List.replicate n .amp ++ .semi :: (us ++ rest))
    (by rw [h]; simp only [List.append_assoc, List.cons_append])
    (Follow.amps n fun tok htok => by cases htok; decide)
  have hs1 := r.suffix.trans hs
  obtain ⟨hbacks, hrest⟩ := parseBacks_complete (not_nul_of_suffix hline hs1) c n hr (by simp)
  rcases hb : parseBacks c r.rest with ⟨c2, r2⟩
  rw [hb] at hbacks hrest
  dsimp only at hbacks hrest
  have hs2 := r2.suffix.trans hs1
  have hr20 := not_nul_of_suffix hline hs2
  have hp : (peek r2.rest [';']).1 = true := by
    rw [peek_eq hr20 (by simp [symbols]), hrest]
    rfl
  obtain ⟨c3, r3, hp3, hr3, hc3⟩ := hnext _ ((Rest.pastToken r2.rest [';']).suffix.trans hs2)
    rest (tokenize_pastToken [';'] hr20 hrest) hf
  refine ⟨.list c2 c3, r.trans (r2.trans ((Rest.pastToken r2.rest [';']).trans r3)), ?_, hr3,
    by rw [Cmd.map, hbacks, Cmd.map_backs, hc, hc3]⟩
  change parseline line.length s = _
  rw [parseline, show parsepipe line.length s = .ok (c, r) from hp1]
  dsimp only
  rw [except_ok_bind]
  dsimp only
  rw [hb]
  dsimp only
  rw [dif_pos hp,
    show parseline line.length (Rest.pastToken r2.rest [';']).rest = .ok (c3, r3) from hp3]
  rfl

/-- `(`, a line, `)` and redirections. -/
theorem parseexec_of_block {line : List Char} (hline : '\x00' ∉ line) (rs : List Redir)
    {ts : List Tok} {t : Cmd (List Char)} (hbody : Complete line .line ts t) :
    Complete line .exec (.lparen :: ts ++ .rparen :: rs.flatMap Redir.toks) (Redir.wrap t rs) := by
  intro s hs rest h hf
  have hs0 := not_nul_of_suffix hline hs
  have htok : tokenize s = .lparen :: (ts ++ .rparen :: (rs.flatMap Redir.toks ++ rest)) := by
    rw [h]
    simp only [List.cons_append, List.append_assoc]
  have hp : (peek s ['(']).1 = true := by
    rw [peek_eq hs0 (by simp [symbols]), htok]
    rfl
  have hs1 := (Rest.pastToken s ['(']).suffix.trans hs
  obtain ⟨c1, r1, hl, hr1, hc1⟩ := hbody _ hs1 (.rparen :: (rs.flatMap Redir.toks ++ rest))
    (tokenize_pastToken ['('] hs0 htok) (fun tok htok => by cases htok; decide)
  have hs2 := r1.suffix.trans hs1
  have hr10 := not_nul_of_suffix hline hs2
  have hp2 : (peek r1.rest [')']).1 = true := by
    rw [peek_eq hr10 (by simp [symbols]), hr1]
    rfl
  obtain ⟨c2, r2, hred, hr2, hc2⟩ := parseredirs_complete hline
    ((Rest.pastToken r1.rest [')']).suffix.trans hs2) c1 rs (tokenize_pastToken [')'] hr10 hr1)
    hf.not_redir
  refine ⟨c2, (Rest.pastToken s ['(']).trans
    (r1.trans ((Rest.pastToken r1.rest [')']).trans r2)), ?_, hr2, by rw [hc2, hc1]⟩
  change parseexec line.length s = _
  rw [parseexec, if_pos hp, parseblock, dif_pos hp,
    show parseline line.length (Rest.pastToken s ['(']).rest = .ok (c1, r1) from hl]
  dsimp only
  rw [except_ok_bind]
  dsimp only
  rw [if_pos hp2, hred]
  rfl

/-- Words and redirections, in any order. -/
theorem parseexec_of_simple {line : List Char} (hline : '\x00' ∉ line) (items : List Item)
    (hlen : (Item.words items).length < maxArgs) :
    Complete line .exec (items.flatMap Item.toks)
      (Redir.wrap (.exec (Item.words items)) (Item.redirs items)) := by
  intro s hs rest h hf
  have hs0 := not_nul_of_suffix hline hs
  -- no `(`: the first token is a word, a redirection, or one that ends the `exec`
  have hp : (peek s ['(']).1 = false := by
    rw [peek_eq hs0 (by simp [symbols]), h]
    rcases items with _ | ⟨_ | ⟨k, w⟩, items⟩
    · rcases rest with _ | ⟨tok, rest⟩
      · rfl
      · exact (by decide : ∀ tok ∈ Phrase.exec.follow, tok.lead.any (· ∈ ['(']) = false) tok
          (hf tok rfl)
    · rfl
    · cases k <;> rfl
  -- the leading redirections go to `parseredirs`, the rest to the loop
  obtain ⟨hsplit, hhead⟩ := Item.splitRedirs_spec items
  have htoks : tokenize s = (Item.splitRedirs items).1.flatMap Redir.toks ++
      ((Item.splitRedirs items).2.flatMap Item.toks ++ rest) := by
    rw [h, ← List.append_assoc, ← Item.toks_redirs, ← List.flatMap_append, ← hsplit]
  have hwords : Item.words items = Item.words (Item.splitRedirs items).2 := by
    conv => lhs; rw [hsplit]
    exact Item.words_redirs_append _ _
  have hredirs : Item.redirs items =
      (Item.splitRedirs items).1 ++ Item.redirs (Item.splitRedirs items).2 := by
    conv => lhs; rw [hsplit]
    exact Item.redirs_redirs_append _ _
  obtain ⟨ret, r1, hred, hr1, hc1⟩ := parseredirs_complete hline hs (.exec [])
    (Item.splitRedirs items).1 htoks (Item.splitRedirs_not_redir items hf)
  obtain ⟨argv, ret', r2, hloop, hr2, hargv, hret'⟩ := execLoop_complete hline
    (r1.suffix.trans hs) [] ret (Item.splitRedirs items).2 hhead hr1 hf
    (by rw [List.length_nil, Nat.zero_add, ← hwords]; exact hlen)
  refine ⟨ret'.fillExec argv, r1.trans r2, ?_, hr2, ?_⟩
  · change parseexec line.length s = _
    rw [parseexec, if_neg (by simp [hp]), hred]
    dsimp only
    rw [except_ok_bind]
    dsimp only
    rw [hloop]
    rfl
  · rw [Cmd.map_fillExec, hret', hc1, hargv, Redir.wrap_fillExec, Redir.wrap_fillExec,
      ← Redir.wrap_append, hwords, hredirs]
    rfl

/-- Every derivation of the grammar is what the parser gives back. -/
theorem parse_complete {line : List Char} (hline : '\x00' ∉ line) {p : Phrase} {ts : List Tok}
    {t : Cmd (List Char)} (hd : Derives p ts t) : Complete line p ts t := by
  induction hd with
  | back n _ ih => exact parseline_of_back hline n ih
  | list n _ _ ih ih' => exact parseline_of_list hline n ih ih'
  | exec _ ih => exact parsepipe_of_exec hline ih
  | pipe _ _ ih ih' => exact parsepipe_of_pipe hline ih ih'
  | block rs _ ih => exact parseexec_of_block hline rs ih
  | simple items hlen => exact parseexec_of_simple hline items hlen

/-! ## `nulterminate` -/

theorem getElem?_terminate (args : List (Nat × Nat)) (buf : List Char) (i : Nat) :
    (args.foldl (fun buf a => buf.set a.2 '\x00') buf)[i]? =
      if ∃ a ∈ args, a.2 = i then buf[i]?.map fun _ => '\x00' else buf[i]? := by
  induction args generalizing buf with
  | nil => simp
  | cons a args ih =>
    rw [List.foldl_cons, ih, List.getElem?_set']
    have hcond : (∃ b ∈ a :: args, b.2 = i) ↔ a.2 = i ∨ ∃ b ∈ args, b.2 = i := by simp
    rw [if_congr hcond rfl rfl]
    by_cases ha : a.2 = i
    · simp only [ha, if_true, true_or]
      split <;> rcases buf[i]? with _ | c <;> rfl
    · simp only [ha, if_false, false_or]

theorem length_terminate (args : List (Nat × Nat)) (buf : List Char) :
    (args.foldl (fun buf a => buf.set a.2 '\x00') buf).length = buf.length := by
  induction args generalizing buf with
  | nil => rfl
  | cons a args ih => rw [List.foldl_cons, ih, List.length_set]

/-- `takeWhile` stops at the first element that fails `p`. -/
theorem takeWhile_eq_take {α : Type} {p : α → Bool} {l : List α} {k : Nat} (hk : k ≤ l.length)
    (hpos : ∀ j (hj : j < l.length), j < k → p l[j] = true)
    (hneg : ∀ hk' : k < l.length, p l[k] = false) : l.takeWhile p = l.take k := by
  induction l generalizing k with
  | nil => simp
  | cons x l ih =>
    cases k with
    | zero =>
      have hx : p x = false := hneg (Nat.zero_lt_succ _)
      rw [List.takeWhile_cons_of_neg (by simp [hx])]
      rfl
    | succ k =>
      have hx : p x = true := hpos 0 (by simp) (by omega)
      rw [List.takeWhile_cons_of_pos hx, List.take_succ_cons]
      exact congrArg (x :: ·) (ih (by simpa using hk) (fun j hj hjk => hpos (j + 1) (by simpa using hj) (by omega))
        (fun hk' => hneg (by simpa using hk')))

/-- `nulterminate` writes a NUL at the end of each word of the tree, in order. -/
theorem nulterminate_eq_foldl (cmd : Cmd (Nat × Nat)) (buf : List Char) :
    nulterminate cmd buf = cmd.args.foldl (fun buf a => buf.set a.2 '\x00') buf := by
  induction cmd generalizing buf with
  | exec argv => rfl
  | redir cmd file mode fd ih => rw [nulterminate, ih, Cmd.args, List.foldl_append]; rfl
  | pipe left right ihl ihr => rw [nulterminate, ihl, ihr, Cmd.args, List.foldl_append]
  | list left right ihl ihr => rw [nulterminate, ihl, ihr, Cmd.args, List.foldl_append]
  | back cmd ih => exact ih buf

/-- The line with a NUL after every word: each word then reads back as a C string. -/
theorem cstr_terminate {s : List Char} (hs : '\x00' ∉ s) {args : List (Nat × Nat)}
    (hargs : ∀ a ∈ args, WordAt s a) {a : Nat × Nat} (ha : a ∈ args) :
    cstr (args.foldl (fun buf a => buf.set a.2 '\x00') s) a.1 = text s a := by
  obtain ⟨hlt, hle, hword, -⟩ := hargs a ha
  set buf := args.foldl (fun buf a => buf.set a.2 '\x00') s with hbuf
  have hlen : buf.length = s.length := length_terminate args s
  -- no argument ends inside the word: another's end is not a word character
  have hin : ∀ i, a.1 ≤ i → i < a.2 → buf[i]? = s[i]? := by
    intro i h1 h2
    rw [hbuf, getElem?_terminate, if_neg]
    rintro ⟨b, hb, rfl⟩
    have hi : b.2 < s.length := by omega
    have hstop := (hargs b hb).stop hi
    rw [hword b.2 hi h1 h2] at hstop
    cases hstop
  unfold cstr text
  rw [takeWhile_eq_take (k := a.2 - a.1)]
  · ext i : 1
    simp only [List.getElem?_take, List.getElem?_drop]
    split
    · exact hin _ (by omega) (by omega)
    · rfl
  · simp only [List.length_drop]
    omega
  · -- the word's characters are the s's, none of them NUL
    intro j hj' hj
    have hget : (buf.drop a.1)[j]? = s[a.1 + j]? := by
      rw [List.getElem?_drop]
      exact hin _ (by omega) (by omega)
    rw [List.getElem?_eq_getElem hj'] at hget
    have hmem : (buf.drop a.1)[j] ∈ s := List.mem_of_getElem? hget.symm
    simp only [ne_eq, decide_eq_true_eq]
    rintro h
    exact hs (h ▸ hmem)
  · -- and a NUL at its end
    intro hk
    have hget : (buf.drop a.1)[a.2 - a.1]? = some '\x00' := by
      rw [List.getElem?_drop, Nat.add_sub_cancel' hlt.le, hbuf, getElem?_terminate,
        if_pos ⟨a, ha, rfl⟩, List.getElem?_eq_getElem (by simp only [List.length_drop] at hk; omega)]
      rfl
    rw [List.getElem?_eq_getElem hk, Option.some.injEq] at hget
    simp [hget]

/-- After `nulterminate`, the tree's C strings are the words of the line it was parsed from. -/
theorem cstr_nulterminate {line : List Char} (hline : '\x00' ∉ line) {cmd : Cmd (Nat × Nat)}
    (hargs : ∀ a ∈ cmd.args, WordAt line a) :
    cmd.map (fun a => cstr (nulterminate cmd line) a.1) = cmd.map (text line) :=
  cmd.map_congr fun a ha => by rw [nulterminate_eq_foldl]; exact cstr_terminate hline hargs ha

/-! ## The shell's grammar -/

/-- `parsecmd` returns, with no `panic`, exactly on the lines whose tokens derive a `line`
of the grammar, and then its tree is the derivation's, with the words read back from the
line as `nulterminate` leaves it. -/
theorem parsecmd_grammar (line : List Char) (hline : '\x00' ∉ line) (t : Cmd (List Char)) :
    (∃ cmd buf, parsecmd line = .ok (cmd, buf) ∧ cmd.map (fun a => cstr buf a.1) = t) ↔
      Derives .line (tokenize line) t := by
  constructor
  · rintro ⟨cmd, buf, h, rfl⟩
    rw [parsecmd] at h
    obtain ⟨⟨c, r⟩, hp, h⟩ := except_bind_eq_ok h
    dsimp only at h
    split at h
    · cases h
    next hend =>
      cases h
      obtain ⟨ts, hts, hder, hargs⟩ := parse_sound hline line (List.suffix_refl line) .line _ r hp
      have hrest : tokenize r.rest = [] := by
        rw [← tokenize_skipWhitespace (not_nul_of_suffix hline r.suffix)]
        exact (congrArg tokenize (not_not.mp hend)).trans tokenize_nil
      rw [cstr_nulterminate hline hargs, hts, hrest, List.append_nil]
      exact hder
  · intro hd
    obtain ⟨c, r, hp, hrest, hc⟩ := parse_complete hline hd line (List.suffix_refl line) []
      (List.append_nil _).symm (fun _ h => by cases h)
    obtain ⟨-, -, -, hargs⟩ := parse_sound hline line (List.suffix_refl line) .line c r hp
    have hend : (peek r.rest []).2 = [] :=
      skipWhitespace_eq_nil (not_nul_of_suffix hline r.suffix) hrest
    refine ⟨c, nulterminate c line, ?_, by rw [cstr_nulterminate hline hargs, hc]⟩
    rw [parsecmd, show parseline line.length line = .ok (c, r) from hp]
    dsimp only
    rw [except_ok_bind]
    dsimp only
    rw [if_neg (not_not.mpr hend)]
    rfl

theorem parsecmd_grammar_ls : '\x00' ∉ ['l', 's'] ∧
    ((∃ cmd buf, parsecmd ['l', 's'] = .ok (cmd, buf) ∧
        cmd.map (fun a => cstr buf a.1) = .exec [['l', 's']]) ↔
      Derives .line (tokenize ['l', 's']) (.exec [['l', 's']])) :=
  ⟨by decide, parsecmd_grammar _ (by decide) _⟩

end Sh

end Xv6
