import Xv6.Sh.Parse

/-!
# The shell's grammar

What sh's parser is meant to accept: the tokens of a line (`tokenize`: words are maximal
runs of characters that are neither blanks nor `symbols`, and `>>` is one token) and the
grammar

    line  ::= pipe '&'* [';' line]
    pipe  ::= exec ['|' pipe]
    exec  ::= '(' line ')' redir*  |  redir* (word redir*)*
    redir ::= ('<' | '>' | '>>') word

with fewer than `MAXARGS` words in an `exec`, as a relation `Derives` between a phrase,
its tokens and its tree.  An `exec` of words and redirections is any sequence of them, its
tree the `execcmd` of its words inside its redirections, the first innermost.
-/

namespace Xv6

namespace Sh

/-- A token of the line. -/
inductive Tok where
  | word (w : List Char)
  | lt
  | gt
  | gtgt
  | bar
  | amp
  | semi
  | lparen
  | rparen
  deriving DecidableEq, Repr

/-- A character of a word: neither a blank nor one of `symbols`. -/
def isWordChar (c : Char) : Bool := c ∉ whitespace && c ∉ symbols

/-- The token a symbol character makes on its own. -/
def symTok (c : Char) : Option Tok :=
  if c = '<' then some .lt
  else if c = '>' then some .gt
  else if c = '|' then some .bar
  else if c = '&' then some .amp
  else if c = ';' then some .semi
  else if c = '(' then some .lparen
  else if c = ')' then some .rparen
  else none

/-- The tokens of a line. -/
def tokenize : List Char → List Tok
  | [] => []
  | c :: s =>
    if c ∈ whitespace then tokenize s
    else match symTok c with
      | some .gt => if s.head? = some '>' then .gtgt :: tokenize s.tail else .gt :: tokenize s
      | some t => t :: tokenize s
      | none => .word (c :: s.takeWhile isWordChar) :: tokenize (s.dropWhile isWordChar)
termination_by s => s.length
decreasing_by
  all_goals simp only [List.length_cons, List.length_tail]
  all_goals first
    | omega
    | exact Nat.lt_succ_of_le (List.dropWhile_suffix _).length_le

/-- What `peek` sees of a token: its first character, for a token that is a symbol. -/
def Tok.lead : Tok → Option Char
  | .word _ => none
  | .lt => some '<'
  | .gt => some '>'
  | .gtgt => some '>'
  | .bar => some '|'
  | .amp => some '&'
  | .semi => some ';'
  | .lparen => some '('
  | .rparen => some ')'

/-- What `gettoken` returns for a token. -/
def Tok.code : Tok → Char
  | .word _ => 'a'
  | .lt => '<'
  | .gt => '>'
  | .gtgt => '+'
  | .bar => '|'
  | .amp => '&'
  | .semi => ';'
  | .lparen => '('
  | .rparen => ')'

/-! ## The grammar -/

/-- The tree with each word `a` read as `f a`. -/
def Cmd.map {α β : Type} (f : α → β) : Cmd α → Cmd β
  | .exec argv => .exec (argv.map f)
  | .redir cmd file mode fd => .redir (cmd.map f) (f file) mode fd
  | .pipe left right => .pipe (left.map f) (right.map f)
  | .list left right => .list (left.map f) (right.map f)
  | .back cmd => .back (cmd.map f)

/-- A redirection's operator: `<`, `>` or `>>`. -/
inductive RedirKind where
  | input
  | output
  | append
  deriving DecidableEq, Repr

/-- The operator's token. -/
def RedirKind.tok : RedirKind → Tok
  | .input => .lt
  | .output => .gt
  | .append => .gtgt

/-- The `mode` of the operator's `redircmd`. -/
def RedirKind.mode : RedirKind → Nat
  | .input => oRdonly
  | .output => oWronly ||| oCreate
  | .append => oWronly ||| oCreate

/-- The `fd` of the operator's `redircmd`. -/
def RedirKind.fd : RedirKind → Nat
  | .input => 0
  | .output => 1
  | .append => 1

/-- A redirection: its operator and its file's word. -/
abbrev Redir := RedirKind × List Char

/-- The tokens of a redirection. -/
def Redir.toks (r : Redir) : List Tok := [r.1.tok, .word r.2]

/-- The redirections `rs` around `cmd`, the first innermost. -/
def Redir.wrap (cmd : Cmd (List Char)) (rs : List Redir) : Cmd (List Char) :=
  rs.foldl (fun cmd r => .redir cmd r.2 r.1.mode r.1.fd) cmd

/-- A word or a redirection of an `exec`. -/
inductive Item where
  | word (w : List Char)
  | redir (r : Redir)

/-- The tokens of an item. -/
def Item.toks : Item → List Tok
  | .word w => [.word w]
  | .redir r => r.toks

/-- The words of a list of items. -/
def Item.words : List Item → List (List Char)
  | [] => []
  | .word w :: items => w :: Item.words items
  | .redir _ :: items => Item.words items

/-- The redirections of a list of items. -/
def Item.redirs : List Item → List Redir
  | [] => []
  | .word _ :: items => Item.redirs items
  | .redir r :: items => r :: Item.redirs items

/-- `n` `backcmd`s around `cmd`. -/
def backs {α : Type} : Nat → Cmd α → Cmd α
  | 0, cmd => cmd
  | n + 1, cmd => backs n (.back cmd)

/-- The phrases of the grammar. -/
inductive Phrase where
  | line
  | pipe
  | exec
  deriving DecidableEq, Repr

/-- `Derives p ts t`: the tokens `ts` are a `p` of the grammar, with tree `t`. -/
inductive Derives : Phrase → List Tok → Cmd (List Char) → Prop where
  /-- `line ::= pipe '&'*` -/
  | back {ts : List Tok} {cmd : Cmd (List Char)} (n : Nat) :
      Derives .pipe ts cmd → Derives .line (ts ++ List.replicate n .amp) (backs n cmd)
  /-- `line ::= pipe '&'* ';' line` -/
  | list {ts us : List Tok} {cmd rest : Cmd (List Char)} (n : Nat) :
      Derives .pipe ts cmd → Derives .line us rest →
      Derives .line (ts ++ List.replicate n .amp ++ .semi :: us) (.list (backs n cmd) rest)
  /-- `pipe ::= exec` -/
  | exec {ts : List Tok} {cmd : Cmd (List Char)} :
      Derives .exec ts cmd → Derives .pipe ts cmd
  /-- `pipe ::= exec '|' pipe` -/
  | pipe {ts us : List Tok} {left right : Cmd (List Char)} :
      Derives .exec ts left → Derives .pipe us right →
      Derives .pipe (ts ++ .bar :: us) (.pipe left right)
  /-- `exec ::= '(' line ')' redir*` -/
  | block {ts : List Tok} {cmd : Cmd (List Char)} (rs : List Redir) :
      Derives .line ts cmd →
      Derives .exec (.lparen :: ts ++ .rparen :: rs.flatMap Redir.toks) (Redir.wrap cmd rs)
  /-- `exec ::= redir* (word redir*)*`, with fewer than `MAXARGS` words -/
  | simple (items : List Item) : (Item.words items).length < maxArgs →
      Derives .exec (items.flatMap Item.toks) (Redir.wrap (.exec (Item.words items)) (Item.redirs items))

end Sh

end Xv6
