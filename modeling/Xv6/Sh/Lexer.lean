import Mathlib.Data.List.TakeWhile
import Xv6.Sh.Grammar

/-!
# What `gettoken` and `peek` see

On a line with no NUL before its end, `gettoken` takes the line's first token in the
sense of `tokenize`, returns its code, and for a word the pointers around it
(`gettoken_of_tokenize_cons`); `peek` looks at the first character of that token
(`peek_of_tokenize_cons`); and with no token left, both stop at the NUL at `es`.
-/

namespace Xv6

namespace Sh

/-- `q` is the word `w` followed by `e`, which starts with no word character. -/
structure WordSplit (q w e : List Char) : Prop where
  eq : q = w ++ e
  ne : w ≠ []
  word : ∀ d ∈ w, isWordChar d = true
  stop : ∀ d ∈ e.head?, isWordChar d = false

@[simp] theorem tokenize_nil : tokenize [] = [] := by
  rw [tokenize]

theorem tokenize_cons_of_ws {c : Char} (s : List Char) (hc : c ∈ whitespace) :
    tokenize (c :: s) = tokenize s := by
  rw [tokenize, if_pos hc]

theorem tokenize_skipWhitespace {s : List Char} (hs : '\x00' ∉ s) :
    tokenize (skipWhitespace s) = tokenize s := by
  induction s with
  | nil => rw [skipWhitespace]
  | cons c s ih =>
    have hc : c ≠ '\x00' := fun h => hs (h ▸ List.mem_cons_self ..)
    rw [skipWhitespace]
    split
    next hws =>
      have hws : c ∈ whitespace := by simpa [strchr, hc] using hws
      rw [ih (fun h => hs (List.mem_cons_of_mem _ h)), tokenize_cons_of_ws s hws]
    · rfl

theorem skipWord_eq_dropWhile {s : List Char} (hs : '\x00' ∉ s) :
    skipWord s = s.dropWhile isWordChar := by
  induction s with
  | nil => rfl
  | cons c s ih =>
    have hc : c ≠ '\x00' := fun h => hs (h ▸ List.mem_cons_self ..)
    have hword : (!strchr whitespace c && !strchr symbols c) = isWordChar c := by
      simp [strchr, isWordChar, hc]
    rw [skipWord, List.dropWhile_cons, hword]
    split
    · exact ih (fun h => hs (List.mem_cons_of_mem _ h))
    · rfl

theorem dropWhile_head_not_word (s : List Char) : ∀ d ∈ (s.dropWhile isWordChar).head?,
    isWordChar d = false := by
  intro d hd
  have h := List.head?_dropWhile_not isWordChar s
  rw [Option.mem_def.mp hd] at h
  exact h

theorem eq_of_symTok {c : Char} {tok : Tok} (h : symTok c = some tok) :
    (tok = .lt ∧ c = '<') ∨ (tok = .gt ∧ c = '>') ∨ (tok = .bar ∧ c = '|') ∨
      (tok = .amp ∧ c = '&') ∨ (tok = .semi ∧ c = ';') ∨ (tok = .lparen ∧ c = '(') ∨
      (tok = .rparen ∧ c = ')') := by
  unfold symTok at h
  split_ifs at h <;> cases h <;> simp_all

theorem not_mem_symbols_of_symTok {c : Char} (h : symTok c = none) : c ∉ symbols := by
  unfold symTok at h
  split_ifs at h with hlt hgt hbar hamp hsemi hlp hrp
  simp only [symbols, List.mem_cons, List.not_mem_nil, or_false, not_or]
  exact ⟨hlt, hbar, hgt, hamp, hsemi, hlp, hrp⟩

/-- `gettoken`'s switch on a word character goes to the word loop. -/
theorem scanToken_word {c : Char} (t : List Char) (h0 : c ≠ '\x00') (hsym : c ∉ symbols) :
    scanToken (c :: t) = ('a', skipWord (c :: t)) := by
  simp only [symbols, List.mem_cons, List.not_mem_nil, or_false, not_or] at hsym
  obtain ⟨hlt, hbar, hgt, hamp, hsemi, hlp, hrp⟩ := hsym
  unfold scanToken
  split
  all_goals first
    | rfl
    | simp only [deref] at *; contradiction

/-- The first token of a line that starts with a character `c` that is not a blank:
`scanToken` takes it, and the rest of the tokens are those of what it leaves. -/
theorem scanToken_tokenize {c : Char} {t : List Char} (hws : c ∉ whitespace) (h0 : c ≠ '\x00')
    (ht : '\x00' ∉ t) :
    ∃ tok e, tokenize (c :: t) = tok :: tokenize e ∧ scanToken (c :: t) = (tok.code, e) ∧
      e <:+ t ∧ (tok.lead = if c ∈ symbols then some c else none) ∧
      ∀ w, tok = .word w → WordSplit (c :: t) w e := by
  rw [tokenize, if_neg hws]
  rcases hs : symTok c with _ | tok
  · -- a word: `c` and the word characters after it
    have hsym : c ∉ symbols := not_mem_symbols_of_symTok hs
    have hc : isWordChar c = true := by simp [isWordChar, hws, hsym]
    refine ⟨.word (c :: t.takeWhile isWordChar), t.dropWhile isWordChar, rfl, ?_,
      List.dropWhile_suffix _, by rw [if_neg hsym]; rfl, fun w hw => ?_⟩
    · rw [scanToken_word t h0 hsym, skipWord_eq_dropWhile (List.not_mem_cons_of_ne_of_not_mem
        (Ne.symm h0) ht), List.dropWhile_cons_of_pos hc]
      rfl
    · cases hw
      refine ⟨by rw [List.cons_append, List.takeWhile_append_dropWhile], List.cons_ne_nil _ _,
        fun d hd => ?_, dropWhile_head_not_word t⟩
      rcases List.mem_cons.mp hd with rfl | hd
      · exact hc
      · exact List.mem_takeWhile_imp hd
  · rcases eq_of_symTok hs with ⟨rfl, rfl⟩ | ⟨rfl, rfl⟩ | ⟨rfl, rfl⟩ | ⟨rfl, rfl⟩ | ⟨rfl, rfl⟩ |
        ⟨rfl, rfl⟩ | ⟨rfl, rfl⟩
    · exact ⟨.lt, t, rfl, rfl, List.suffix_refl t, rfl, fun _ h => by cases h⟩
    · -- `>` and `>>`
      by_cases hgtgt : t.head? = some '>'
      · obtain ⟨t', rfl⟩ : ∃ t', t = '>' :: t' := by
          cases t with
          | nil => cases hgtgt
          | cons d t' => exact ⟨t', by rw [Option.some_inj.mp hgtgt]⟩
        exact ⟨.gtgt, t', by simp, rfl, List.suffix_cons _ _, rfl, fun _ h => by cases h⟩
      · have hderef : deref t ≠ '>' := by
          cases t with
          | nil => decide
          | cons d t' => exact fun h => hgtgt (by rw [← h]; rfl)
        refine ⟨.gt, t, by simp [hgtgt], ?_, List.suffix_refl t, rfl, fun _ h => by cases h⟩
        rw [show scanToken ('>' :: t) = if deref t = '>' then ('+', t.tail) else ('>', t) from rfl,
          if_neg hderef]
        rfl
    · exact ⟨.bar, t, rfl, rfl, List.suffix_refl t, rfl, fun _ h => by cases h⟩
    · exact ⟨.amp, t, rfl, rfl, List.suffix_refl t, rfl, fun _ h => by cases h⟩
    · exact ⟨.semi, t, rfl, rfl, List.suffix_refl t, rfl, fun _ h => by cases h⟩
    · exact ⟨.lparen, t, rfl, rfl, List.suffix_refl t, rfl, fun _ h => by cases h⟩
    · exact ⟨.rparen, t, rfl, rfl, List.suffix_refl t, rfl, fun _ h => by cases h⟩

theorem skipWhitespace_cons {s t : List Char} {c : Char} (h : skipWhitespace s = c :: t) :
    c ∉ whitespace ∧ c ≠ '\x00' := by
  have hc := skipWhitespace_head h
  simp only [strchr, Bool.or_eq_false_iff, decide_eq_false_iff_not] at hc
  exact ⟨hc.2, hc.1⟩

theorem not_nul_of_suffix {s t : List Char} (hs : '\x00' ∉ s) (h : t <:+ s) : '\x00' ∉ t :=
  fun ht => hs (h.subset ht)

theorem skipWhitespace_eq_nil {s : List Char} (hs : '\x00' ∉ s) (h : tokenize s = []) :
    skipWhitespace s = [] := by
  cases hsk : skipWhitespace s with
  | nil => rfl
  | cons c t =>
    obtain ⟨hws, h0⟩ := skipWhitespace_cons hsk
    have hsuf : c :: t <:+ s := hsk ▸ skipWhitespace_suffix s
    have ht : '\x00' ∉ t := not_nul_of_suffix hs ((List.suffix_cons c t).trans hsuf)
    obtain ⟨tok, e, htok, -⟩ := scanToken_tokenize hws h0 ht
    rw [← tokenize_skipWhitespace hs, hsk, htok] at h
    cases h

/-- No token left: `gettoken` stops at the NUL at `es`. -/
theorem gettoken_of_tokenize_nil {s : List Char} (hs : '\x00' ∉ s) (h : tokenize s = []) :
    gettoken s = ('\x00', [], [], []) := by
  simp only [gettoken, skipWhitespace_eq_nil hs h]
  rfl

/-- `gettoken` takes the first token of the line: its code, and for a word `q` and `eq`
around it. -/
theorem gettoken_of_tokenize_cons {s : List Char} (hs : '\x00' ∉ s) {tok : Tok}
    {ts : List Tok} (h : tokenize s = tok :: ts) :
    (gettoken s).1 = tok.code ∧ tokenize (gettoken s).2.2.2 = ts ∧
      ∀ w, tok = .word w → WordSplit (gettoken s).2.1 w (gettoken s).2.2.1 := by
  cases hsk : skipWhitespace s with
  | nil => rw [← tokenize_skipWhitespace hs, hsk, tokenize_nil] at h; cases h
  | cons c t =>
    obtain ⟨hws, h0⟩ := skipWhitespace_cons hsk
    have hsuf : c :: t <:+ s := hsk ▸ skipWhitespace_suffix s
    have ht : '\x00' ∉ t := not_nul_of_suffix hs ((List.suffix_cons c t).trans hsuf)
    obtain ⟨tok', e, htok, hscan, he, -, hword⟩ := scanToken_tokenize hws h0 ht
    rw [← tokenize_skipWhitespace hs, hsk, htok] at h
    obtain ⟨rfl, hts⟩ := List.cons.inj h
    have hget : gettoken s = (tok'.code, c :: t, e, skipWhitespace e) := by
      simp only [gettoken, hsk, hscan]
    rw [hget]
    exact ⟨rfl, by rw [tokenize_skipWhitespace (not_nul_of_suffix ht he), hts], hword⟩

theorem peek_of_tokenize_nil {s : List Char} (toks : List Char) (hs : '\x00' ∉ s)
    (h : tokenize s = []) : (peek s toks).1 = false := by
  simp [peek, skipWhitespace_eq_nil hs h, deref]

/-- `peek` looks at the first character of the next token, which is a symbol's. -/
theorem peek_of_tokenize_cons {s toks : List Char} (hs : '\x00' ∉ s)
    (htoks : ∀ c ∈ toks, c ∈ symbols) {tok : Tok} {ts : List Tok} (h : tokenize s = tok :: ts) :
    (peek s toks).1 = tok.lead.any (· ∈ toks) := by
  cases hsk : skipWhitespace s with
  | nil => rw [← tokenize_skipWhitespace hs, hsk, tokenize_nil] at h; cases h
  | cons c t =>
    obtain ⟨hws, h0⟩ := skipWhitespace_cons hsk
    have hsuf : c :: t <:+ s := hsk ▸ skipWhitespace_suffix s
    have ht : '\x00' ∉ t := not_nul_of_suffix hs ((List.suffix_cons c t).trans hsuf)
    obtain ⟨tok', e, htok, -, -, hlead, -⟩ := scanToken_tokenize hws h0 ht
    rw [← tokenize_skipWhitespace hs, hsk, htok] at h
    obtain ⟨rfl, -⟩ := List.cons.inj h
    have hpeek : (peek s toks).1 = decide (c ∈ toks) := by
      simp [peek, hsk, deref, strchr, h0]
    rw [hpeek, hlead]
    split
    · rfl
    next hsym => simpa using fun hc => hsym (htoks c hc)

/-! ## The pointers of the parser -/

theorem tokenize_peeked {s : List Char} (toks : List Char) (hs : '\x00' ∉ s) :
    tokenize (Rest.peeked s toks).rest = tokenize s :=
  tokenize_skipWhitespace hs

theorem tokenize_next {s : List Char} (hs : '\x00' ∉ s) {tok : Tok} {ts : List Tok}
    (h : tokenize s = tok :: ts) : tokenize (Rest.next s).rest = ts :=
  (gettoken_of_tokenize_cons hs h).2.1

theorem tokenize_pastToken {s : List Char} (toks : List Char) (hs : '\x00' ∉ s) {tok : Tok}
    {ts : List Tok} (h : tokenize s = tok :: ts) : tokenize (Rest.pastToken s toks).rest = ts :=
  tokenize_next (not_nul_of_suffix hs (skipWhitespace_suffix s))
    (by rw [tokenize_skipWhitespace hs, h])

end Sh

end Xv6
