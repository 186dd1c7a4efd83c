import Mathlib.Logic.Function.Basic
import Mathlib.Data.List.Nodup

/-!
# Circular doubly linked lists with a sentinel

Nodes of type `β`, and one more node, `none`, the list's head; `nxt` and `prv` are the two
pointer fields of every node, the head's included.  `Linked nxt prv x l y` says that
`nxt` leads from `x` through the nodes of `l`, in order, to `y`, and that `prv` leads back
the same way.  A ring is `Linked nxt prv none l none`: the head, then `l`, then the head
again.

The lemmas are what a proof about code that edits such a list through its pointers needs:

* `Linked.frame`: writes to pointer fields the path does not read keep it;
* `Linked.reverse`: the `prv` path is the `nxt` path backwards;
* `walk_eq_find`: a scan that follows the pointers from the head until it finds a node or
  is back at the head returns the list's first such node;
* `linked_pushFront`, `linked_unlink`: the four writes that put a node first, and the two
  that take a node out, leave a ring.
-/

namespace DList

variable {β : Type*}

/-- `nxt` leads from `x` through `l` to `y`, and `prv` back. -/
def Linked (nxt prv : Option β → Option β) : Option β → List β → Option β → Prop
  | x, [], y => nxt x = y ∧ prv y = x
  | x, b :: l, y => nxt x = some b ∧ prv (some b) = x ∧ Linked nxt prv (some b) l y

variable {nxt prv : Option β → Option β}

@[simp] theorem linked_nil {x y : Option β} : Linked nxt prv x [] y ↔ nxt x = y ∧ prv y = x :=
  Iff.rfl

@[simp] theorem linked_cons {x y : Option β} {b : β} {l : List β} :
    Linked nxt prv x (b :: l) y ↔ nxt x = some b ∧ prv (some b) = x ∧ Linked nxt prv (some b) l y :=
  Iff.rfl

/-- A path splits at any of its nodes. -/
theorem linked_append {x y : Option β} {b : β} {l₁ l₂ : List β} :
    Linked nxt prv x (l₁ ++ b :: l₂) y ↔ Linked nxt prv x l₁ (some b) ∧ Linked nxt prv (some b) l₂ y := by
  induction l₁ generalizing x with
  | nil => simp only [List.nil_append, linked_cons, linked_nil, and_assoc]
  | cons a l₁ ih => simp only [List.cons_append, linked_cons, ih, and_assoc]

/-- The node after `x` is `y` or a node of the path. -/
theorem Linked.nxt_mem {x y : Option β} {l : List β} (h : Linked nxt prv x l y) :
    nxt x = y ∨ ∃ a ∈ l, nxt x = some a := by
  cases l with
  | nil => exact .inl h.1
  | cons b l => exact .inr ⟨b, List.mem_cons_self, h.1⟩

/-- The node before `y` is `x` or a node of the path. -/
theorem Linked.prv_mem {x y : Option β} {l : List β} (h : Linked nxt prv x l y) :
    prv y = x ∨ ∃ a ∈ l, prv y = some a := by
  induction l generalizing x with
  | nil => exact .inl h.2
  | cons b l ih =>
    rcases ih h.2.2 with e | ⟨a, ha, e⟩
    · exact .inr ⟨b, List.mem_cons_self, e⟩
    · exact .inr ⟨a, List.mem_cons_of_mem _ ha, e⟩

/-- The frame rule: the path reads `nxt` at `x` and at the nodes of `l`, and `prv` at the
nodes of `l` and at `y`; pointer functions that agree there carry the same path. -/
theorem Linked.frame {nxt' prv' : Option β → Option β} {x y : Option β} {l : List β}
    (h : Linked nxt prv x l y) (hx : nxt' x = nxt x) (hy : prv' y = prv y)
    (hn : ∀ a ∈ l, nxt' (some a) = nxt (some a)) (hp : ∀ a ∈ l, prv' (some a) = prv (some a)) :
    Linked nxt' prv' x l y := by
  induction l generalizing x with
  | nil => exact ⟨hx.trans h.1, hy.trans h.2⟩
  | cons b l ih =>
    refine ⟨hx.trans h.1, (hp b List.mem_cons_self).trans h.2.1, ?_⟩
    exact ih h.2.2 (hn b List.mem_cons_self) (fun a ha => hn a (List.mem_cons_of_mem _ ha))
      (fun a ha => hp a (List.mem_cons_of_mem _ ha))

/-- Read backwards, the path is the `prv` path from `y` to `x`. -/
theorem Linked.reverse {x y : Option β} {l : List β} (h : Linked nxt prv x l y) :
    Linked prv nxt y l.reverse x := by
  induction l generalizing x with
  | nil => exact ⟨h.2, h.1⟩
  | cons b l ih =>
    rw [List.reverse_cons, linked_append]
    exact ⟨ih h.2.2, h.2.1, h.1⟩

/-! ## Scans -/

/-- `for(b = start; b != &head; b = ptr(b)) if(p(b)) return b;`, for at most `fuel` nodes. -/
def walk (ptr : Option β → Option β) (p : β → Bool) : Nat → Option β → Option β
  | 0, _ => none
  | _, none => none
  | fuel + 1, some b => if p b then some b else walk ptr p fuel (ptr (some b))

/-- A scan along a path that ends at the head finds the path's first node with the
property, given fuel for every node. -/
theorem walk_eq_find {p : β → Bool} {x : Option β} {l : List β} {fuel : Nat}
    (h : Linked nxt prv x l none) (hfuel : l.length ≤ fuel) :
    walk nxt p fuel (nxt x) = l.find? p := by
  induction l generalizing x fuel with
  | nil =>
    rw [h.1]
    cases fuel <;> rfl
  | cons b l ih =>
    obtain ⟨fuel, rfl⟩ := Nat.exists_eq_add_of_lt (Nat.lt_of_lt_of_le (Nat.succ_pos _) hfuel)
    rw [h.1]
    simp only [walk, List.find?_cons]
    cases p b
    · exact ih h.2.2 (by simp only [List.length_cons] at hfuel; omega)
    · rfl

/-- A scan returns only a node with the property. -/
theorem walk_some {ptr : Option β → Option β} {p : β → Bool} {fuel : Nat} {x : Option β} {b : β}
    (h : walk ptr p fuel x = some b) : p b = true := by
  induction fuel generalizing x with
  | zero => cases h
  | succ fuel ih =>
    cases x with
    | none => cases h
    | some a =>
      simp only [walk] at h
      split at h
      · rename_i ha
        cases h
        exact ha
      · exact ih h

/-- Taking out a node without the property leaves what a scan finds. -/
theorem find?_erase_of_not [DecidableEq β] {p : β → Bool} {l : List β} {x : β} (hx : p x = false) :
    (l.erase x).find? p = l.find? p := by
  induction l with
  | nil => rfl
  | cons a l ih =>
    by_cases hax : a = x
    · subst hax
      rw [List.erase_cons_head, List.find?_cons_of_neg (by simp [hx])]
    · rw [List.erase_cons_tail (by simpa using hax)]
      cases hpa : p a
      · rw [List.find?_cons_of_neg (by simp [hpa]), List.find?_cons_of_neg (by simp [hpa]), ih]
      · rw [List.find?_cons_of_pos hpa, List.find?_cons_of_pos hpa]

/-- The first node with a property keeps being found under a stronger property it has. -/
theorem find?_of_imp {p q : β → Bool} {l : List β} {b : β} (himp : ∀ a, q a = true → p a = true)
    (hq : q b = true) (h : l.find? p = some b) : l.find? q = some b := by
  induction l with
  | nil => cases h
  | cons a l ih =>
    cases hpa : p a
    · rw [List.find?_cons_of_neg (by simp [hpa])] at h
      have hqa : q a = false := by
        cases hqa : q a
        · rfl
        · simpa [hpa] using himp a hqa
      rw [List.find?_cons_of_neg (by simp [hqa]), ih h]
    · rw [List.find?_cons_of_pos hpa] at h
      cases h
      exact List.find?_cons_of_pos hq

/-- The only node with a property is the one found. -/
theorem find?_eq_of_unique {p : β → Bool} {l : List β} {b : β} (hb : b ∈ l) (hpb : p b = true)
    (huniq : ∀ a ∈ l, p a = true → a = b) : l.find? p = some b := by
  cases h : l.find? p with
  | none => exact absurd hpb (List.find?_eq_none.mp h b hb)
  | some a => rw [huniq a (List.mem_of_find?_eq_some h) (List.find?_some h)]

/-! ## Editing a ring -/

variable [DecidableEq β]

/-- `b->next = head.next; b->prev = &head; head.next->prev = b; head.next = b;` puts `b`,
which is not on the ring, first. -/
theorem linked_pushFront {l : List β} {b : β} (h : Linked nxt prv none l none) (hl : l.Nodup)
    (hb : b ∉ l) :
    Linked (Function.update (Function.update nxt (some b) (nxt none)) none (some b))
      (Function.update (Function.update prv (some b) none) (nxt none) (some b)) none (b :: l) none := by
  have hfirst : nxt none ≠ some b := by
    rcases h.nxt_mem with e | ⟨a, ha, e⟩ <;> rw [e]
    · simp
    · rintro ⟨⟩
      exact hb ha
  refine ⟨by simp, ?_, ?_⟩
  · rw [Function.update_of_ne hfirst.symm, Function.update_self]
  cases l with
  | nil =>
    have hnone : nxt none = none := h.1
    simp [hnone]
  | cons a l =>
    obtain ⟨ha, -, hrest⟩ := h
    have hba : b ≠ a := fun e => hb (e ▸ List.mem_cons_self)
    obtain ⟨hal, hl⟩ := List.nodup_cons.mp hl
    refine ⟨by simp [ha], by simp [ha], hrest.frame (by simp [hba.symm]) (by simp [ha]) ?_ ?_⟩
    · intro c hc
      have hbc : c ≠ b := fun e => hb (e ▸ List.mem_cons_of_mem _ hc)
      simp [hbc]
    · intro c hc
      have hbc : c ≠ b := fun e => hb (e ▸ List.mem_cons_of_mem _ hc)
      have hac : c ≠ a := fun e => hal (e ▸ hc)
      simp [ha, hbc, hac]

/-- `b->next->prev = b->prev; b->prev->next = b->next;` takes `b` off a path on which each
node appears once, between two nodes not on it; `b`'s own pointers are left as they were. -/
theorem linked_unlink {x y : Option β} {l₁ l₂ : List β} {b : β}
    (h : Linked nxt prv x (l₁ ++ b :: l₂) y) (hnd : (l₁ ++ b :: l₂).Nodup)
    (hx : ∀ a ∈ l₁ ++ b :: l₂, x ≠ some a) (hy : ∀ a ∈ l₁ ++ b :: l₂, y ≠ some a) :
    Linked (Function.update nxt (prv (some b)) (nxt (some b)))
      (Function.update prv (nxt (some b)) (prv (some b))) x (l₁ ++ l₂) y := by
  induction l₁ generalizing x with
  | nil =>
    -- `b` was first: what follows it now follows `x`
    obtain ⟨-, hbx, hrest⟩ := h
    rw [hbx]
    cases l₂ with
    | nil => simp [hrest.1]
    | cons c l₂ =>
      obtain ⟨hbc, -, hc⟩ := hrest
      rw [hbc]
      have hxc : x ≠ some c := hx c (by simp)
      have hyc : y ≠ some c := hy c (by simp)
      have hcl : c ∉ l₂ := (List.nodup_cons.mp (List.nodup_cons.mp hnd).2).1
      refine ⟨by simp, by simp, hc.frame (by simp [hxc.symm]) (by simp [hyc]) ?_ ?_⟩
      · intro a ha
        have hxa : x ≠ some a := hx a (by simp [ha])
        simp [hxa.symm]
      · intro a ha
        have hac : a ≠ c := fun e => hcl (e ▸ ha)
        simp [hac]
  | cons a l₁ ih =>
    obtain ⟨hxa, hax, hrest⟩ := h
    obtain ⟨ha, hnd⟩ := List.nodup_cons.mp hnd
    have hrest' := linked_append.mp hrest
    -- `b`'s neighbours are off the first edge `x → a`
    have hp : x ≠ prv (some b) := by
      rcases hrest'.1.prv_mem with e | ⟨c, hc, e⟩ <;> rw [e]
      · exact hx a List.mem_cons_self
      · exact hx c (List.mem_cons_of_mem _ (List.mem_append_left _ hc))
    have hn : some a ≠ nxt (some b) := by
      rcases hrest'.2.nxt_mem with e | ⟨c, hc, e⟩ <;> rw [e]
      · exact (hy a List.mem_cons_self).symm
      · rintro ⟨⟩
        exact ha (List.mem_append_right _ (List.mem_cons_of_mem _ hc))
    refine ⟨by rw [Function.update_of_ne hp, hxa], by rw [Function.update_of_ne hn, hax], ?_⟩
    refine ih hrest hnd (fun c hc => ?_) (fun c hc => hy c (List.mem_cons_of_mem _ hc))
    rintro ⟨⟩
    exact ha hc

end DList
