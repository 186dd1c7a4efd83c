import Mathlib

/-!
# Parameters, blocks and faults

The constants of `param.h`, `fs.h` and `memlayout.h` that the modelled kernel code reads,
under the source's names, the block and disk types every layer shares, and `Fault`, the
ways a kernel path can stop instead of returning: a `panic` with the source's message, a
sleep that nothing ends, or undefined behaviour in C (an array access past its bound, a
null dereference), each a fault of its own here so that no theorem can pass over it.
-/

namespace Xv6

/-! ## `param.h` -/

/-- `MAXOPBLOCKS`: the most blocks one file-system operation may write. -/
def maxOpBlocks : Nat := 10

/-- `LOGSIZE`: the slots of the in-memory log header. -/
def logSize : Nat := maxOpBlocks * 3

/-- `NBUF`: the buffers of the block cache. -/
def nbuf : Nat := maxOpBlocks * 3

/-- `FSSIZE`: the blocks of the disk image, and the bound `idestart` checks. -/
def fsSize : Nat := 1000

/-- `NINODE`: the entries of the in-memory inode cache. -/
def ninode : Nat := 50

theorem ninode_pos : 0 < ninode := by decide

theorem nbuf_pos : 0 < nbuf := by decide

/-! ## `fs.h` -/

/-- `BSIZE`: the bytes of a block. -/
def bsize : Nat := 512

/-- `NDIRECT`: the direct block addresses of an inode. -/
def ndirect : Nat := 12

-- A block's words and an inode's addresses have a `0`: one named instance each, so that
-- every definition that writes the literal names the same proof.
instance neZero_words : NeZero (128 : Nat) := ⟨by decide⟩

instance (priority := 2000) neZero_addrs : NeZero (ndirect + 1) := ⟨Nat.succ_ne_zero _⟩

/-- `NINDIRECT`: the addresses an indirect block holds, `BSIZE / sizeof(uint)`. -/
def nindirect : Nat := bsize / 4

/-- `MAXFILE`: the largest file, in blocks. -/
def maxFile : Nat := ndirect + nindirect

/-- `BPB`: the bitmap bits of one block. -/
def bpb : Nat := bsize * 8

/-- `DIRSIZ`: the bytes of a directory entry's name. -/
def dirSiz : Nat := 14

/-! ## Blocks and faults -/

/-- The bytes of one block, `uchar data[BSIZE]`. -/
abbrev Block := Fin bsize → UInt8

/-- Block contents by block number. -/
abbrev Disk := Nat → Block

/-- The all-zero block, what `mkfs` writes to every block before it lays out the image. -/
def zeroBlock : Block := fun _ => 0

/-- How a kernel path stops without returning. -/
inductive Fault where
  /-- `panic(msg)`. -/
  | panic (msg : String)
  /-- An array index past the array's bound. -/
  | outOfBounds
  /-- `acquiresleep` on a sleep-lock the caller itself holds: it sleeps for ever. -/
  | selfDeadlock
  /-- A load or store through the null pointer. -/
  | nullDeref
  deriving DecidableEq, Repr

@[simp] theorem except_ok_bind {ε α β : Type} (a : α) (f : α → Except ε β) :
    (Except.ok a >>= f) = f a := rfl

@[simp] theorem except_pure {ε α : Type} (a : α) : (pure a : Except ε α) = .ok a := rfl

@[simp] theorem except_error_bind {ε α β : Type} (e : ε) (f : α → Except ε β) :
    (Except.error e >>= f) = .error e := rfl

/-- A bind that fails: its first step failed, or returned and the rest failed. -/
theorem except_bind_eq_error {ε α β : Type} {x : Except ε α} {g : α → Except ε β}
    {f : ε} (h : (x >>= g) = .error f) : x = .error f ∨ ∃ a, x = .ok a ∧ g a = .error f := by
  cases x with
  | error e =>
      cases h
      exact .inl rfl
  | ok a => exact .inr ⟨a, rfl, h⟩

/-- A bind that returns: its first step returned, and so did the rest. -/
theorem except_bind_eq_ok {ε α β : Type} {x : Except ε α} {g : α → Except ε β} {b : β}
    (h : (x >>= g) = .ok b) : ∃ a, x = .ok a ∧ g a = .ok b := by
  cases x with
  | error e => cases h
  | ok a => exact ⟨a, rfl, h⟩

/-- A loop whose every iteration succeeds is the pure loop. -/
theorem foldlM_except_ok {α β : Type} {f : β → α → Except Fault β} {g : β → α → β}
    (l : List α) (b : β) (h : ∀ x ∈ l, ∀ acc, f acc x = .ok (g acc x)) :
    l.foldlM f b = .ok (l.foldl g b) := by
  induction l generalizing b with
  | nil => rfl
  | cons x l ih =>
      rw [List.foldlM_cons, h x List.mem_cons_self, except_ok_bind, List.foldl_cons]
      exact ih _ (fun y hy => h y (List.mem_cons_of_mem _ hy))

/-- A loop whose every iteration leaves its state as it is returns that state. -/
theorem foldlM_except_fixed {α β ε : Type} {f : β → α → Except ε β} {b : β} :
    ∀ (l : List α), (∀ x ∈ l, f b x = .ok b) → l.foldlM f b = .ok b
  | [], _ => rfl
  | x :: l, h => by
    rw [List.foldlM_cons, h x List.mem_cons_self, except_ok_bind]
    exact foldlM_except_fixed l fun y hy => h y (List.mem_cons_of_mem _ hy)

/-- The loop rule for a relation between the states before and after: if every iteration
that returns relates its states, and the relation is reflexive and transitive, so does a loop
that returns. -/
theorem foldlM_except_rel {α β ε : Type} {f : β → α → Except ε β} {R : β → β → Prop}
    (refl : ∀ b, R b b) (trans : ∀ a b c, R a b → R b c → R a c)
    (step : ∀ acc x acc', f acc x = .ok acc' → R acc acc') :
    ∀ (l : List α) (b b' : β), l.foldlM f b = .ok b' → R b b'
  | [], b, b', h => by
    cases h
    exact refl b
  | x :: l, b, b', h => by
    rw [List.foldlM_cons] at h
    obtain ⟨mid, first, rest⟩ := except_bind_eq_ok h
    exact trans _ _ _ (step b x mid first) (foldlM_except_rel refl trans step l mid b' rest)

/-- A run whose outcome, mapped through `f`, is the fault `e` stopped with `e`. -/
theorem except_eq_error_of_map {α β : Type} {f : α → β} {x : Except Fault α} {e : Fault}
    (h : (f <$> x) = .error e) : x = .error e := by
  cases x with
  | error e' =>
      cases h
      rfl
  | ok a => cases h

/-- An `Except` read as an `Option` holds a value exactly when it returned it. -/
theorem except_toOption_eq_some {ε α : Type} {e : Except ε α} {a : α} :
    e.toOption = some a ↔ e = .ok a := by
  cases e <;> simp [Except.toOption]

/-- A C `int` or `uint` value passed where a `uint` is expected: reduced modulo `2^32`. -/
def toUint (x : Int) : Nat := (x % 2 ^ 32).toNat

theorem toUint_ofNat {x : Nat} (hx : x < 2 ^ 32) : toUint x = x := by
  unfold toUint
  omega

end Xv6
