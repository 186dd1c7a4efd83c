import Mathlib.Data.List.Basic
import Mathlib.Data.UInt
import Mathlib.Logic.Function.Basic

/-!
# A ring of cells between two free-running counters

A FIFO of at most `N` elements kept in `N` cells: two 32-bit counters only ever go up,
wrapping modulo `2^32`, and the element at position `k` of the FIFO sits in cell
`(head + k) % N`, `head` being the counter of the oldest element.  Because `N` divides
`2^32`, the cell of a counter does not notice the wrap, and the FIFO stays whole across it.

* `Holds.push`: storing at the cell of `head + length` appends to the FIFO, while there is
  room;
* `Holds.pop`: the cell of `head` holds the first element, and the rest start at `head + 1`;
* `ofNat_eq_ofNat_iff`: with both lengths below `2^32`, the counters tell how many elements
  there are, so `tail = head + N` and `head = tail` test for full and empty.
-/

namespace Ring

variable {α : Type*} {N : Nat}

section

variable (hN : N ∣ 2 ^ 32)

include hN in
theorem pos : 0 < N := Nat.pos_of_dvd_of_pos hN (by decide)

/-- The cell of counter value `c`: `c % N`. -/
def cell (c : UInt32) : Fin N := ⟨c.toNat % N, Nat.mod_lt _ (pos hN)⟩

/-- The cells from counter `head` on hold the FIFO `xs`, oldest first. -/
def Holds (buf : Fin N → α) (head : UInt32) (xs : List α) : Prop :=
  ∀ k (hk : k < xs.length), buf (cell hN (head + UInt32.ofNat k)) = xs[k]

include hN in
/-- The wrap of the counter leaves its cell alone. -/
theorem cell_add_val (c : UInt32) (k : Nat) :
    (cell hN (c + UInt32.ofNat k)).val = (c.toNat + k) % N := by
  simp only [cell, UInt32.toNat_add, UInt32.toNat_ofNat']
  rw [Nat.mod_mod_of_dvd _ hN, ← Nat.add_mod_mod, Nat.mod_mod_of_dvd _ hN, Nat.add_mod_mod]

include hN in
/-- Positions less than `N` apart lie in different cells. -/
theorem cell_ne {c : UInt32} {k l : Nat} (hkl : k < l) (hl : l < k + N) :
    cell hN (c + UInt32.ofNat k) ≠ cell hN (c + UInt32.ofNat l) := by
  intro h
  have hv := congrArg Fin.val h
  rw [cell_add_val hN, cell_add_val hN] at hv
  -- the two positions differ by a positive multiple of `N`, yet by less than `N`
  have h0 := Nat.sub_mod_eq_zero_of_mod_eq hv.symm
  rw [show c.toNat + l - (c.toNat + k) = l - k by omega, Nat.mod_eq_of_lt (by omega)] at h0
  omega

theorem Holds.nil (buf : Fin N → α) (head : UInt32) : Holds hN buf head [] :=
  fun _ hk => absurd hk (Nat.not_lt_zero _)

/-- Storing `x` in the cell past the FIFO's end appends `x`, while there is room. -/
theorem Holds.push {buf : Fin N → α} {head : UInt32} {xs : List α} (h : Holds hN buf head xs)
    (room : xs.length < N) (x : α) :
    Holds hN (Function.update buf (cell hN (head + UInt32.ofNat xs.length)) x) head (xs ++ [x]) := by
  intro k hk
  rw [List.length_append, List.length_singleton] at hk
  rcases Nat.lt_succ_iff_lt_or_eq.mp hk with old | rfl
  · rw [Function.update_of_ne (cell_ne hN old (by omega)), List.getElem_append_left old]
    exact h k old
  · simp

/-- The cell of `head` holds the oldest element; the others start at `head + 1`. -/
theorem Holds.pop {buf : Fin N → α} {head : UInt32} {x : α} {xs : List α}
    (h : Holds hN buf head (x :: xs)) :
    buf (cell hN head) = x ∧ Holds hN buf (head + 1) xs := by
  have first := h 0 (by simp)
  rw [List.getElem_cons_zero, show UInt32.ofNat 0 = 0 from rfl, add_zero] at first
  refine ⟨first, fun k hk => ?_⟩
  have := h (k + 1) (by simp; omega)
  rwa [UInt32.ofNat_add, UInt32.ofNat_one, ← add_assoc, add_right_comm _ _ (1 : UInt32),
    List.getElem_cons_succ] at this

/-- A prefix of the FIFO is held as well. -/
theorem Holds.take {buf : Fin N → α} {head : UInt32} {xs : List α} (h : Holds hN buf head xs)
    (m : Nat) : Holds hN buf head (xs.take m) := by
  intro k hk
  rw [List.getElem_take]
  exact h k (by simp at hk; omega)

end

/-- With both below `2^32`, two lengths that give the same counter are equal. -/
theorem ofNat_eq_ofNat_iff {k l : Nat} (hk : k < 2 ^ 32) (hl : l < 2 ^ 32) :
    UInt32.ofNat k = UInt32.ofNat l ↔ k = l := by
  constructor
  · intro h
    have := congrArg UInt32.toNat h
    rwa [UInt32.toNat_ofNat_of_lt' hk, UInt32.toNat_ofNat_of_lt' hl] at this
  · rintro rfl
    rfl

/-- The counter `length` past `head` is `head` itself only for the empty FIFO. -/
theorem add_ofNat_eq_self_iff {head : UInt32} {k : Nat} (hk : k < 2 ^ 32) :
    head + UInt32.ofNat k = head ↔ k = 0 := by
  rw [← ofNat_eq_ofNat_iff hk (by decide : 0 < 2 ^ 32)]
  constructor
  · intro h
    simpa using h
  · intro h
    rw [h, show UInt32.ofNat 0 = 0 from rfl, add_zero]

end Ring
