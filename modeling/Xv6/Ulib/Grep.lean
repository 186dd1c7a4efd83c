import Xv6.Ulib.Regex

/-!
# grep's read loop

`grep(pattern, fd)` reads the file into `buf[1024]`, writes every complete line that `match`
accepts, and keeps the part after the last newline at the front of `buf` for the next read.
The file is a pipe here: each `read` returns at most what was asked of the bytes its writer
had put in, so the reads are a list of chunks, `readChunk` taking from the first.

* `scanLines_joinLines`: the inner loop over a buffer of complete lines and a tail without a
  newline writes the accepted lines and leaves the tail;
* `grep_whole_lines`: when every read returns whole lines, `grep` writes exactly the accepted
  lines of the stream;
* `grepLoop_drops_partial` and `grep_split_line`: a read that leaves the buffer without a
  newline is thrown away (`if(p == buf) m = 0;`), so a line split by the reads loses its
  first part.
-/

namespace Xv6

namespace Grep

/-- `strchr(s, c)`: the offset of the first `c` before the string's `NUL`; the end of the list
is the `buf[m] = '\0'` that `grep` writes after the bytes read. -/
def strchr : List Char → Char → Option Nat
  | [], _ => none
  | x :: s, c => if x = '\x00' then none else if x = c then some 0 else (strchr s c).map (· + 1)

theorem strchr_lt {s : List Char} {c : Char} {q : Nat} (h : strchr s c = some q) :
    q < s.length := by
  induction s generalizing q with
  | nil => cases h
  | cons x s ih =>
    simp only [strchr] at h
    split at h
    · cases h
    · split at h
      · cases h; simp
      · obtain ⟨q', found, rfl⟩ := Option.map_eq_some_iff.mp h
        simpa using ih found

theorem strchr_of_not_mem {s : List Char} {c : Char} (h : c ∉ s) : strchr s c = none := by
  induction s with
  | nil => rfl
  | cons x s ih =>
    have other : x ≠ c := fun same => h (same ▸ List.mem_cons_self)
    simp [strchr, other, ih (fun mem => h (List.mem_cons_of_mem x mem))]

/-- The first newline after a line that holds neither a newline nor a `NUL`. -/
theorem strchr_line {line : List Char} (t : List Char) (clean : '\n' ∉ line ∧ '\x00' ∉ line) :
    strchr (line ++ '\n' :: t) '\n' = some line.length := by
  induction line with
  | nil => simp [strchr]
  | cons x line ih =>
    have tail : '\n' ∉ line ∧ '\x00' ∉ line := by simp_all
    have notNul : x ≠ '\x00' := fun same => clean.2 (same ▸ List.mem_cons_self)
    have notNl : x ≠ '\n' := fun same => clean.1 (same ▸ List.mem_cons_self)
    simp [strchr, notNul, notNl, ih tail]

/-- `grep`'s inner loop from `p`: `while((q = strchr(p, '\n')) != 0)` writes the line before
`q`, with its newline, when `match(pattern, p)` accepts it (`*q = 0` ends the text there), and
goes on from `q+1`; it returns what was written and the bytes from the final `p`. -/
def scanLines (pattern p : List Char) : List Char × List Char :=
  match _found : strchr p '\n' with
  | none => ([], p)
  | some q =>
    let line := p.take q
    let next := scanLines pattern (p.drop (q + 1))
    ((if matchRe pattern line then line ++ ['\n'] else []) ++ next.1, next.2)
termination_by p.length
decreasing_by have := strchr_lt _found; simp only [List.length_drop]; omega

theorem scanLines_of_none {pattern p : List Char} (h : strchr p '\n' = none) :
    scanLines pattern p = ([], p) := by
  rw [scanLines]
  split
  · rfl
  · simp_all

theorem scanLines_of_some {pattern p : List Char} {q : Nat} (h : strchr p '\n' = some q) :
    scanLines pattern p =
      ((if matchRe pattern (p.take q) then p.take q ++ ['\n'] else []) ++
        (scanLines pattern (p.drop (q + 1))).1, (scanLines pattern (p.drop (q + 1))).2) := by
  rw [scanLines]
  split
  · simp_all
  · rename_i q' found
    rw [h, Option.some.injEq] at found
    subst found
    rfl

/-- `read(fd, buf+m, n)` from a pipe (`piperead`): at most `n` of the bytes the writer has put
in, the rest left for the next read; an empty chunk is the end of the file. -/
def readChunk (n : Nat) : List (List Char) → List Char × List (List Char)
  | [] => ([], [])
  | c :: cs => (c.take n, if n < c.length then c.drop n :: cs else cs)

/-- The bytes and chunks the pipe still holds. -/
def pending (chunks : List (List Char)) : Nat := (chunks.map List.length).sum + chunks.length

theorem pending_readChunk {n : Nat} {chunks : List (List Char)}
    (got : 0 < (readChunk n chunks).1.length) :
    pending (readChunk n chunks).2 < pending chunks := by
  cases chunks with
  | nil => simp [readChunk] at got
  | cons c cs =>
    simp only [readChunk, List.length_take] at got ⊢
    split
    · simp only [pending, List.map_cons, List.sum_cons, List.length_drop, List.length_cons]
      omega
    · simp only [pending, List.map_cons, List.sum_cons, List.length_cons]
      omega

/-- `grep(pattern, fd)`'s loop, `buf` holding the `m` bytes kept from the reads before. -/
def grepLoop (pattern : List Char) (chunks : List (List Char)) (buf : List Char) : List Char :=
  let r := readChunk (1024 - buf.length - 1) chunks
  if 0 < r.1.length then
    let buf := buf ++ r.1
    let scan := scanLines pattern buf
    -- `if(p == buf) m = 0;`, then `m -= p - buf; memmove(buf, p, m);` when `m > 0`
    let m := if scan.2.length = buf.length then 0 else buf.length
    scan.1 ++ grepLoop pattern r.2 (if 0 < m then scan.2 else [])
  else []
termination_by pending chunks
decreasing_by exact pending_readChunk ‹_›

/-- `grep(pattern, fd)`, from `m = 0`. -/
def grep (pattern : List Char) (chunks : List (List Char)) : List Char := grepLoop pattern chunks []

/-- One pass of the outer loop, for a read that returned bytes. -/
theorem grepLoop_read {pattern buf got : List Char} {chunks rest : List (List Char)}
    (read : readChunk (1024 - buf.length - 1) chunks = (got, rest)) (some : 0 < got.length) :
    grepLoop pattern chunks buf =
      (scanLines pattern (buf ++ got)).1 ++
        grepLoop pattern rest
          (if (scanLines pattern (buf ++ got)).2.length = (buf ++ got).length then []
           else (scanLines pattern (buf ++ got)).2) := by
  rw [grepLoop]
  simp only [read, if_pos some]
  by_cases thrown : (scanLines pattern (buf ++ got)).2.length = (buf ++ got).length
  · rw [if_pos thrown, if_pos thrown, if_neg (Nat.lt_irrefl 0)]
  · have kept : 0 < (buf ++ got).length := by rw [List.length_append]; omega
    rw [if_neg thrown, if_neg thrown, if_pos kept]

/-! ## The specification: lines and what `grep` should write -/

/-- The stream of lines, each ended by its newline. -/
def joinLines (ls : List (List Char)) : List Char := ls.flatMap (· ++ ['\n'])

/-- What `grep` should write of those lines: the ones `match` accepts, in order, each with its
newline. -/
def linesOut (pattern : List Char) (ls : List (List Char)) : List Char :=
  joinLines (ls.filter (matchRe pattern))

/-- A line of the stream: no newline and no `NUL` in it. -/
def Clean (line : List Char) : Prop := '\n' ∉ line ∧ '\x00' ∉ line

instance : DecidablePred Clean := fun _ => inferInstanceAs (Decidable (_ ∧ _))

theorem linesOut_append (pattern : List Char) (ls ls' : List (List Char)) :
    linesOut pattern (ls ++ ls') = linesOut pattern ls ++ linesOut pattern ls' := by
  simp [linesOut, joinLines, List.filter_append]

theorem length_joinLines_pos {ls : List (List Char)} (h : ls ≠ []) : 0 < (joinLines ls).length := by
  obtain ⟨l, ls, rfl⟩ := List.exists_cons_of_ne_nil h
  simp [joinLines]

/-- The inner loop over complete lines and a tail without a newline writes the accepted lines
and stops at the tail. -/
theorem scanLines_joinLines (pattern : List Char) {ls : List (List Char)} {t : List Char}
    (clean : ∀ l ∈ ls, Clean l) (tail : '\n' ∉ t) :
    scanLines pattern (joinLines ls ++ t) = (linesOut pattern ls, t) := by
  induction ls with
  | nil => simpa [joinLines, linesOut] using scanLines_of_none (strchr_of_not_mem tail)
  | cons l ls ih =>
    have line : Clean l := clean l List.mem_cons_self
    have shape : joinLines (l :: ls) ++ t = l ++ '\n' :: (joinLines ls ++ t) := by
      simp [joinLines]
    have take : (l ++ '\n' :: (joinLines ls ++ t)).take l.length = l := by simp
    have drop : (l ++ '\n' :: (joinLines ls ++ t)).drop (l.length + 1) = joinLines ls ++ t := by
      simp
    rw [shape, scanLines_of_some (strchr_line _ line), take, drop,
      ih (fun l' mem => clean l' (List.mem_cons_of_mem l mem))]
    have out : linesOut pattern (l :: ls) =
        (if matchRe pattern l then l ++ ['\n'] else []) ++ linesOut pattern ls := by
      by_cases accepted : matchRe pattern l <;> simp [linesOut, joinLines, accepted]
    rw [out]

/-! ## Whole lines per read -/

/-- When every read returns whole lines, at most the 1023 bytes `grep` asks for, `grep` writes
exactly the lines of the stream that `match` accepts. -/
theorem grep_whole_lines (pattern : List Char) (lss : List (List (List Char)))
    (clean : ∀ ls ∈ lss, ∀ l ∈ ls, Clean l) (nonempty : ∀ ls ∈ lss, ls ≠ [])
    (fits : ∀ ls ∈ lss, (joinLines ls).length ≤ 1023) :
    grep pattern (lss.map joinLines) = linesOut pattern lss.flatten := by
  induction lss with
  | nil => simp [grep, grepLoop, readChunk, linesOut, joinLines]
  | cons ls lss ih =>
    have some : 0 < (joinLines ls).length := length_joinLines_pos (nonempty ls List.mem_cons_self)
    have whole : readChunk (1024 - ([] : List Char).length - 1) (joinLines ls :: lss.map joinLines)
        = (joinLines ls, lss.map joinLines) := by
      have fit := fits ls List.mem_cons_self
      simp only [readChunk, List.length_nil]
      rw [List.take_of_length_le (by omega), if_neg (by omega)]
    have scan : scanLines pattern ([] ++ joinLines ls) = (linesOut pattern ls, []) := by
      simpa using scanLines_joinLines pattern (clean ls List.mem_cons_self) List.not_mem_nil
    rw [List.map_cons, grep, grepLoop_read whole some, scan, List.flatten_cons, linesOut_append]
    have kept : ¬ ([] : List Char).length = ([] ++ joinLines ls).length := by simp; omega
    rw [if_neg kept]
    exact congrArg _ (ih (fun ls' mem => clean ls' (List.mem_cons_of_mem ls mem))
      (fun ls' mem => nonempty ls' (List.mem_cons_of_mem ls mem))
      (fun ls' mem => fits ls' (List.mem_cons_of_mem ls mem)))

/-! ## A read without a newline -/

/-- A read into the empty buffer that brings no newline writes nothing and is thrown away. -/
theorem grepLoop_drops_partial (pattern : List Char) {c : List Char} (cs : List (List Char))
    (some : 0 < c.length) (noNewline : '\n' ∉ c) (fit : c.length ≤ 1023) :
    grepLoop pattern (c :: cs) [] = grepLoop pattern cs [] := by
  have whole : readChunk (1024 - ([] : List Char).length - 1) (c :: cs) = (c, cs) := by
    simp only [readChunk, List.length_nil]
    rw [List.take_of_length_le (by omega), if_neg (by omega)]
  rw [grepLoop_read whole some, List.nil_append, scanLines_of_none (strchr_of_not_mem noNewline)]
  simp

/-- A line split by the reads after its first part `a` loses that part: `grep` matches only
what came after. -/
theorem grep_split_line (pattern : List Char) {a b : List Char} (first : 0 < a.length)
    (aClean : '\n' ∉ a) (bClean : Clean b) (aFits : a.length ≤ 1023)
    (bFits : b.length + 1 ≤ 1023) :
    grep pattern [a, b ++ ['\n']] = linesOut pattern [b] := by
  rw [grep, grepLoop_drops_partial pattern _ first aClean aFits]
  have asked : b.length + 1 ≤ 1024 - ([] : List Char).length - 1 := by simpa using bFits
  have whole := grep_whole_lines pattern [[b]] (by simpa using bClean) (by simp)
    (by simpa [joinLines] using asked)
  simpa [grep, joinLines] using whole

/-- `grep h` on the one line `hello`: read whole it is printed, read as `hel` and then `lo\n`
(as a pipe gives it when its writer writes it in two parts) nothing is. -/
theorem grep_drops_hello :
    linesOut ['h'] [['h', 'e', 'l', 'l', 'o']] = ['h', 'e', 'l', 'l', 'o', '\n'] ∧
    grep ['h'] [['h', 'e', 'l', 'l', 'o', '\n']] = ['h', 'e', 'l', 'l', 'o', '\n'] ∧
    grep ['h'] [['h', 'e', 'l'], ['l', 'o', '\n']] = [] := by
  have whole := grep_whole_lines ['h'] [[['h', 'e', 'l', 'l', 'o']]] (by decide) (by decide)
    (by decide)
  have split := grep_split_line ['h'] (a := ['h', 'e', 'l']) (b := ['l', 'o']) (by decide)
    (by decide) (by decide) (by decide) (by decide)
  refine ⟨by decide, ?_, ?_⟩
  · have chunks : [[['h', 'e', 'l', 'l', 'o']]].map joinLines = [['h', 'e', 'l', 'l', 'o', '\n']] :=
      by decide
    rw [← chunks, whole]
    decide
  · rw [show ['l', 'o', '\n'] = ['l', 'o'] ++ ['\n'] from rfl, split]
    decide

end Grep

end Xv6
