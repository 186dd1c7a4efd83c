import Mathlib.Logic.Function.Basic
import Mathlib.Data.List.Basic

/-!
# Sequences of single-cell writes

A store maps every address to a value, and a write sets one address.  A device that
performs its writes one at a time and may stop after any of them leaves the store at a
*prefix* of its write sequence: `Writes.apply (ws.take k) d`.

The lemmas here are what a crash argument needs of that picture:

* `Writes.apply_append`: applying a sequence is applying its parts in order;
* `Writes.apply_of_forall_ne`: an address no write names keeps its value (the frame rule);
* `Writes.apply_eq_of_mem`: once some write names an address, the address's final value
  no longer depends on the store the writes started from;
* `Writes.apply_take_apply`: running a whole sequence over one of its own prefixes ends
  where running it once ends, which is why a recovery that replays a write sequence is
  idempotent.
-/

namespace Writes

variable {ι α : Type*} [DecidableEq ι]

/-- Apply the writes `ws`, first to last, to the store `d`. -/
def apply : List (ι × α) → (ι → α) → ι → α
  | [], d => d
  | (i, v) :: ws, d => apply ws (Function.update d i v)

@[simp] theorem apply_nil (d : ι → α) : apply [] d = d := rfl

@[simp] theorem apply_cons (i : ι) (v : α) (ws : List (ι × α)) (d : ι → α) :
    apply ((i, v) :: ws) d = apply ws (Function.update d i v) := rfl

theorem apply_append (ws vs : List (ι × α)) (d : ι → α) :
    apply (ws ++ vs) d = apply vs (apply ws d) := by
  induction ws generalizing d with
  | nil => rfl
  | cons w ws ih =>
      obtain ⟨i, v⟩ := w
      exact ih _

theorem apply_singleton (i : ι) (v : α) (d : ι → α) :
    apply [(i, v)] d = Function.update d i v := rfl

/-- The frame rule: an address that no write names keeps its value. -/
theorem apply_of_forall_ne {ws : List (ι × α)} {x : ι} (h : ∀ w ∈ ws, w.1 ≠ x)
    (d : ι → α) : apply ws d x = d x := by
  induction ws generalizing d with
  | nil => rfl
  | cons w ws ih =>
      obtain ⟨i, v⟩ := w
      have hix : i ≠ x := h (i, v) List.mem_cons_self
      rw [apply_cons, ih (fun w hw => h w (List.mem_cons_of_mem _ hw)),
        Function.update_of_ne hix.symm]

/-- Two stores that agree at `x`, or any two stores once some write names `x`, agree at
`x` after the same writes. -/
theorem apply_congr_at {ws : List (ι × α)} {x : ι} {d d' : ι → α}
    (h : (∃ w ∈ ws, w.1 = x) ∨ d x = d' x) : apply ws d x = apply ws d' x := by
  induction ws generalizing d d' with
  | nil =>
      rcases h with ⟨w, hw, -⟩ | h
      · cases hw
      · exact h
  | cons w ws ih =>
      obtain ⟨i, v⟩ := w
      apply ih
      by_cases hix : i = x
      · subst hix
        right
        simp only [Function.update_self]
      · rcases h with ⟨w, hw, hwx⟩ | h
        · rcases List.mem_cons.mp hw with rfl | hw
          · exact absurd hwx hix
          · exact Or.inl ⟨w, hw, hwx⟩
        · right
          rw [Function.update_of_ne (Ne.symm hix), Function.update_of_ne (Ne.symm hix), h]

theorem apply_eq_of_mem {ws : List (ι × α)} {x : ι} (h : ∃ w ∈ ws, w.1 = x)
    (d d' : ι → α) : apply ws d x = apply ws d' x :=
  apply_congr_at (Or.inl h)

/-- Replaying a whole write sequence after any prefix of it ends where one run ends. -/
theorem apply_take_apply (ws : List (ι × α)) (k : Nat) (d : ι → α) :
    apply ws (apply (ws.take k) d) = apply ws d := by
  funext x
  apply apply_congr_at
  by_cases hx : ∃ w ∈ ws, w.1 = x
  · exact Or.inl hx
  · right
    apply apply_of_forall_ne
    intro w hw hwx
    exact hx ⟨w, List.mem_of_mem_take hw, hwx⟩

/-- Writes to distinct addresses, one per element of a duplicate-free list: each element's
address ends with that element's value. -/
theorem apply_map_of_injOn {β : Type*} {l : List β} {a : β → ι} {v : β → α}
    (hnd : l.Nodup) (hinj : ∀ y ∈ l, ∀ z ∈ l, a y = a z → y = z) {x : β} (hx : x ∈ l)
    (d : ι → α) : apply (l.map fun y => (a y, v y)) d (a x) = v x := by
  induction l generalizing d with
  | nil => cases hx
  | cons y l ih =>
      have hy : y ∉ l := (List.nodup_cons.mp hnd).1
      rw [List.map_cons, apply_cons]
      by_cases hxy : x = y
      · subst hxy
        have later : ∀ w ∈ l.map (fun y => (a y, v y)), w.1 ≠ a x := by
          intro w hw heq
          obtain ⟨z, hz, rfl⟩ := List.mem_map.mp hw
          exact hy (hinj z (List.mem_cons_of_mem _ hz) x List.mem_cons_self heq ▸ hz)
        rw [apply_of_forall_ne later, Function.update_self]
      · exact ih (List.nodup_cons.mp hnd).2
          (fun p hp q hq => hinj p (List.mem_cons_of_mem _ hp) q (List.mem_cons_of_mem _ hq))
          ((List.mem_cons.mp hx).resolve_left hxy) _

/-- A crash inside the second of two write sequences: the first has fully landed. -/
theorem apply_take_append_of_le {ws vs : List (ι × α)} {k : Nat} (hk : ws.length ≤ k)
    (d : ι → α) : apply ((ws ++ vs).take k) d = apply (vs.take (k - ws.length)) (apply ws d) := by
  rw [List.take_append, List.take_of_length_le hk, apply_append]

/-- The value the last write to `x` sets is the value `x` holds at the end. -/
theorem apply_append_singleton_self (ws : List (ι × α)) (x : ι) (v : α) (d : ι → α) :
    apply (ws ++ [(x, v)]) d x = v := by
  rw [apply_append, apply_singleton, Function.update_self]

end Writes
