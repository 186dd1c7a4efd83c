import Xv6.Param

/-!
# grep's matcher

The matcher of Kernighan and Pike that `grep.c` carries: `match`, `matchhere` and
`matchstar`, over a pattern and a text given by their characters before the `NUL`.
`matchstar`'s loop is `starFrom`, with `matchhere` of the rest of the pattern passed as
`here`; so `matchhere` recurses structurally on the pattern, `starFrom` on the text, and the
three functions end on every input.

What they decide is stated over the pattern read as `items`: `c*` (any run of characters `c`
accepts), a final `$` (the end of the text), and any other character (one character it
accepts), with `.` accepting every character.  `Spells is u` says the items spell `u`.

* `matchhere_iff`: `matchhere(re, text)` holds exactly when the items spell a prefix of the
  text, all of it when they end with `$`;
* `matchFrom_iff`: `match`'s loop finds such a prefix of some suffix, the empty one included;
* `match_iff`: `match(re, text)`, anchored by a leading `^` or not.
-/

namespace Xv6

namespace Grep

/-- `re[0]=='.' || re[0]==*text`, and `*text++==c || c=='.'`: `c` of the pattern accepts `t`. -/
def accepts (c t : Char) : Bool := c == '.' || c == t

/-- `matchstar(c, re, text)`'s loop, `here` being `matchhere(re, ·)`: `do{ if(matchhere(re,
text)) return 1; }while(*text!='\0' && (*text++==c || c=='.'));` -/
def starFrom (c : Char) (here : List Char → Bool) : List Char → Bool
  | [] => here []
  | t :: text => here (t :: text) || (accepts c t && starFrom c here text)

/-- `matchhere(re, text)`: search for `re` at the beginning of `text`. -/
def matchhere : List Char → List Char → Bool
  | [], _ => true
  | c :: '*' :: re, text => starFrom c (matchhere re) text
  | ['$'], text => text.isEmpty
  | c :: re, t :: text => accepts c t && matchhere re text
  | _ :: _, [] => false

/-- `matchstar(c, re, text)`: search for `c*re` at the beginning of `text`. -/
def matchstar (c : Char) (re text : List Char) : Bool := starFrom c (matchhere re) text

/-- `match`'s loop: `do{ if(matchhere(re, text)) return 1; }while(*text++ != '\0');` -/
def matchFrom (re : List Char) : List Char → Bool
  | [] => matchhere re []
  | t :: text => matchhere re (t :: text) || matchFrom re text

/-- `match(re, text)`: a leading `^` anchors the search at the start of the text. -/
def matchRe : List Char → List Char → Bool
  | '^' :: re, text => matchhere re text
  | re, text => matchFrom re text

theorem matchhere_star (c : Char) (re text : List Char) :
    matchhere (c :: '*' :: re) text = matchstar c re text := by
  cases text <;> rfl

/-! ## The pattern's items -/

/-- An item of a pattern. -/
inductive Item where
  /-- `c*`: a run of characters `c` accepts. -/
  | star (c : Char)
  /-- `$` as the pattern's last character: the end of the text. -/
  | eol
  /-- Any other character: one character it accepts. -/
  | char (c : Char)
  deriving DecidableEq

/-- The pattern read left to right as items, `c*` before `$` and `$` only at the end, as
`matchhere` tests them. -/
def items : List Char → List Item
  | [] => []
  | c :: '*' :: re => .star c :: items re
  | ['$'] => [.eol]
  | c :: re => .char c :: items re

/-- `Spells is u`: the items spell the characters `u`; `$` spells nothing. -/
inductive Spells : List Item → List Char → Prop
  | nil : Spells [] []
  | star {c : Char} {is : List Item} {w u : List Char} (run : ∀ t ∈ w, accepts c t = true) :
      Spells is u → Spells (.star c :: is) (w ++ u)
  | eol {is : List Item} {u : List Char} : Spells is u → Spells (.eol :: is) u
  | char {c t : Char} {is : List Item} {u : List Char} (ok : accepts c t = true) :
      Spells is u → Spells (.char c :: is) (t :: u)

/-- The items of `re` spell a prefix of `text`, all of it when they end with `$`. -/
def SpellsPrefix (re text : List Char) : Prop :=
  ∃ u v, text = u ++ v ∧ Spells (items re) u ∧ (Item.eol ∈ items re → v = [])

theorem spells_nil_iff {u : List Char} : Spells [] u ↔ u = [] := by
  constructor
  · intro h
    cases h
    rfl
  · rintro rfl
    exact .nil

theorem spells_eol_iff {u : List Char} : Spells [.eol] u ↔ u = [] := by
  constructor
  · intro h
    cases h with
    | eol rest => exact spells_nil_iff.mp rest
  · rintro rfl
    exact .eol .nil

/-- What a `c*` item followed by `is` spells: a run of characters `c` accepts, then what `is`
spells. -/
theorem spells_star_iff {c : Char} {is : List Item} {u : List Char} :
    Spells (.star c :: is) u ↔ ∃ w r, u = w ++ r ∧ (∀ t ∈ w, accepts c t = true) ∧ Spells is r := by
  constructor
  · intro h
    cases h with
    | star run rest => exact ⟨_, _, rfl, run, rest⟩
  · rintro ⟨w, r, rfl, run, rest⟩
    exact .star run rest

theorem spells_char_iff {c : Char} {is : List Item} {u : List Char} :
    Spells (.char c :: is) u ↔ ∃ t r, u = t :: r ∧ accepts c t = true ∧ Spells is r := by
  constructor
  · intro h
    cases h with
    | char ok rest => exact ⟨_, _, rfl, ok, rest⟩
  · rintro ⟨t, r, rfl, ok, rest⟩
    exact .char ok rest

/-! ## `matchstar` -/

/-- `matchstar`'s loop tries `here` after every run of characters `c` accepts, from the
empty one on. -/
theorem starFrom_iff (c : Char) (here : List Char → Bool) (text : List Char) :
    starFrom c here text = true ↔
      ∃ w v, text = w ++ v ∧ (∀ t ∈ w, accepts c t = true) ∧ here v = true := by
  induction text with
  | nil =>
    rw [starFrom]
    constructor
    · intro h
      exact ⟨[], [], rfl, by simp, h⟩
    · rintro ⟨w, v, split, -, h⟩
      obtain ⟨rfl, rfl⟩ := List.append_eq_nil_iff.mp split.symm
      exact h
  | cons t text ih =>
    simp only [starFrom, Bool.or_eq_true, Bool.and_eq_true, ih]
    constructor
    · rintro (now | ⟨ok, w, v, rfl, run, h⟩)
      · exact ⟨[], t :: text, rfl, by simp, now⟩
      · refine ⟨t :: w, v, rfl, ?_, h⟩
        intro x mem
        rcases List.mem_cons.mp mem with rfl | mem
        · exact ok
        · exact run x mem
    · rintro ⟨w, v, split, run, h⟩
      rcases w with _ | ⟨x, w⟩
      · rw [List.nil_append] at split
        subst split
        exact .inl h
      · rw [List.cons_append, List.cons.injEq] at split
        obtain ⟨rfl, rfl⟩ := split
        exact .inr ⟨run _ List.mem_cons_self, w, v, rfl,
          fun y mem => run y (List.mem_cons_of_mem _ mem), h⟩

/-! ## `matchhere` -/

theorem spellsPrefix_nil (text : List Char) : SpellsPrefix [] text :=
  ⟨[], text, rfl, .nil, fun mem => absurd mem (by simp [items])⟩

theorem spellsPrefix_star_iff (c : Char) (re text : List Char) :
    SpellsPrefix (c :: '*' :: re) text ↔
      ∃ w v, text = w ++ v ∧ (∀ t ∈ w, accepts c t = true) ∧ SpellsPrefix re v := by
  simp only [SpellsPrefix, items, List.mem_cons, reduceCtorEq, false_or, spells_star_iff]
  constructor
  · rintro ⟨u, v, rfl, ⟨w, r, rfl, run, rest⟩, atEnd⟩
    exact ⟨w, r ++ v, by rw [List.append_assoc], run, r, v, rfl, rest, atEnd⟩
  · rintro ⟨w, v, rfl, run, r, v', rfl, rest, atEnd⟩
    exact ⟨w ++ r, v', by rw [List.append_assoc], ⟨w, r, rfl, run, rest⟩, atEnd⟩

theorem spellsPrefix_eol_iff (text : List Char) : SpellsPrefix ['$'] text ↔ text = [] := by
  simp only [SpellsPrefix, items, List.mem_singleton, forall_const, spells_eol_iff]
  constructor
  · rintro ⟨u, v, rfl, rfl, rfl⟩
    rfl
  · rintro rfl
    exact ⟨[], [], rfl, rfl, rfl⟩

/-- A literal character, not followed by `*` and not a final `$`. -/
theorem spellsPrefix_char_iff {c : Char} {re : List Char} (items_eq : items (c :: re) = .char c :: items re)
    (text : List Char) :
    SpellsPrefix (c :: re) text ↔
      ∃ t rest, text = t :: rest ∧ accepts c t = true ∧ SpellsPrefix re rest := by
  simp only [SpellsPrefix, items_eq, List.mem_cons, reduceCtorEq, false_or, spells_char_iff]
  constructor
  · rintro ⟨u, v, rfl, ⟨t, r, rfl, ok, rest⟩, atEnd⟩
    exact ⟨t, r ++ v, rfl, ok, r, v, rfl, rest, atEnd⟩
  · rintro ⟨t, rest, rfl, ok, r, v, rfl, spelt, atEnd⟩
    exact ⟨t :: r, v, rfl, ⟨t, r, rfl, ok, spelt⟩, atEnd⟩

/-! ### `matchhere` and `items` at a literal character -/

section Literal

variable {c : Char} {re : List Char}

theorem matchhere_char (notStar : ∀ r, re ≠ '*' :: r) (notEol : ¬ (c = '$' ∧ re = []))
    (t : Char) (text : List Char) : matchhere (c :: re) (t :: text) = (accepts c t && matchhere re text) := by
  rcases re with _ | ⟨d, r⟩
  · have : c ≠ '$' := fun same => notEol ⟨same, rfl⟩
    simp [matchhere, this]
  · -- the case of `matchhere` after `c*` asks for `notStar`, which `simp` finds in context
    simp [matchhere]

theorem matchhere_char_nil (notStar : ∀ r, re ≠ '*' :: r) (notEol : ¬ (c = '$' ∧ re = [])) :
    matchhere (c :: re) [] = false := by
  rcases re with _ | ⟨d, r⟩
  · have : c ≠ '$' := fun same => notEol ⟨same, rfl⟩
    simp [matchhere, this]
  · -- the case of `matchhere` after `c*` asks for `notStar`, which `simp` finds in context
    simp [matchhere]

theorem items_char (notStar : ∀ r, re ≠ '*' :: r) (notEol : ¬ (c = '$' ∧ re = [])) :
    items (c :: re) = .char c :: items re := by
  rcases re with _ | ⟨d, r⟩
  · have : c ≠ '$' := fun same => notEol ⟨same, rfl⟩
    simp [items, this]
  · simp [items]

end Literal

/-- `matchhere(re, text)` holds exactly when the items of `re` spell a prefix of `text`, all
of it when they end with `$`.  The induction is on the pattern's length, its cases those of
`matchhere`: the empty pattern, `c*`, a final `$`, and a literal character. -/
theorem matchhere_iff (re text : List Char) : matchhere re text = true ↔ SpellsPrefix re text := by
  induction hlen : re.length using Nat.strong_induction_on generalizing re text with
  | _ len ih =>
  rcases re with _ | ⟨c, re⟩
  · simp only [matchhere, true_iff]
    exact spellsPrefix_nil text
  by_cases star : ∃ r, re = '*' :: r
  · -- `c*`: `matchstar` tries the rest after every run of `c`
    obtain ⟨r, rfl⟩ := star
    rw [matchhere_star, matchstar, starFrom_iff, spellsPrefix_star_iff]
    have rest : ∀ v, matchhere r v = true ↔ SpellsPrefix r v := fun v =>
      ih r.length (by simp at hlen; omega) r v rfl
    simp only [rest]
  have notStar : ∀ r, re ≠ '*' :: r := fun r same => star ⟨r, same⟩
  by_cases eol : c = '$' ∧ re = []
  · obtain ⟨rfl, rfl⟩ := eol
    rw [spellsPrefix_eol_iff]
    cases text <;> simp [matchhere]
  -- a literal character
  have rest : ∀ v, matchhere re v = true ↔ SpellsPrefix re v := fun v =>
    ih re.length (by simp at hlen; omega) re v rfl
  rw [spellsPrefix_char_iff (items_char notStar eol)]
  rcases text with _ | ⟨t, text⟩
  · simp [matchhere_char_nil notStar eol]
  · rw [matchhere_char notStar eol, Bool.and_eq_true, rest]
    constructor
    · rintro ⟨ok, spelt⟩
      exact ⟨t, text, rfl, ok, spelt⟩
    · rintro ⟨t', rest', same, ok, spelt⟩
      rw [List.cons.injEq] at same
      obtain ⟨rfl, rfl⟩ := same
      exact ⟨ok, spelt⟩

/-! ## `match` -/

/-- `match`'s loop: `matchhere` holds at some suffix of the text, the empty one included. -/
theorem matchFrom_iff (re text : List Char) :
    matchFrom re text = true ↔ ∃ p s, text = p ++ s ∧ SpellsPrefix re s := by
  induction text with
  | nil =>
    rw [matchFrom, matchhere_iff]
    constructor
    · intro h
      exact ⟨[], [], rfl, h⟩
    · rintro ⟨p, s, split, h⟩
      obtain ⟨rfl, rfl⟩ := List.append_eq_nil_iff.mp split.symm
      exact h
  | cons t text ih =>
    rw [matchFrom, Bool.or_eq_true, matchhere_iff, ih]
    constructor
    · rintro (here | ⟨p, s, rfl, h⟩)
      · exact ⟨[], t :: text, rfl, here⟩
      · exact ⟨t :: p, s, rfl, h⟩
    · rintro ⟨p, s, split, h⟩
      rcases p with _ | ⟨x, p⟩
      · rw [List.nil_append] at split
        subst split
        exact .inl h
      · rw [List.cons_append, List.cons.injEq] at split
        obtain ⟨rfl, rfl⟩ := split
        exact .inr ⟨p, s, rfl, h⟩

theorem matchRe_anchored (re text : List Char) : matchRe ('^' :: re) text = matchhere re text := rfl

theorem matchRe_of_not_anchored {re : List Char} (h : re.head? ≠ some '^') (text : List Char) :
    matchRe re text = matchFrom re text := by
  rcases re with _ | ⟨c, re⟩
  · rfl
  · have : c ≠ '^' := fun same => h (by rw [same]; rfl)
    simp [matchRe, this]

/-- `match(re, text)` holds exactly when the items of `re`, after a leading `^`, spell a prefix
of the text, and otherwise a prefix of some suffix of it; a final `$` asks for the prefix to
reach the end of the text. -/
theorem match_iff (re text : List Char) :
    matchRe re text = true ↔
      if re.head? = some '^' then SpellsPrefix re.tail text
      else ∃ p s, text = p ++ s ∧ SpellsPrefix re s := by
  by_cases anchored : re.head? = some '^'
  · obtain ⟨rest, rfl⟩ : ∃ rest, re = '^' :: rest := by
      rcases re with _ | ⟨c, rest⟩
      · cases anchored
      · exact ⟨rest, by rw [Option.some.inj anchored]⟩
    rw [if_pos anchored, matchRe_anchored, matchhere_iff, List.tail_cons]
  · rw [if_neg anchored, matchRe_of_not_anchored anchored, matchFrom_iff]

end Grep

end Xv6
