import Mathlib

/-!
# Singly linked cycles

Nodes of type `α` with one pointer field `nxt`.  `Walk nxt l y` says that `nxt` leads from each
node of `l` to the next one, and from the last to `y`; a cycle through `x` is
`Walk nxt (x :: l) x`.

* `walk_append`, `Walk.frame`: a walk splits anywhere, and survives writes to nodes it does not
  leave from;
* `Walk.splice`: the nodes after one node replaced by others, as a list surgery does it;
* `Walk.rotate`, `Walk.from`, `Walk.injOn`, `Walk.closed`: a cycle read from another of its
  nodes; on a cycle of distinct nodes each node has one predecessor, and `nxt` stays on it;
* `Walk.succ_of_sorted`, `Walk.gap_iff`: on a cycle whose nodes ascend by a key, `nxt` of a node
  is the next node up, or the first node from the highest; the node after which a new key goes
  is the one node that a test on it and its successor picks;
* `search_walk`, `search_cycle`, `search_mem`: a loop that follows `nxt` until a test holds stops
  at the first node where the test holds, however far round the cycle it starts.
-/

namespace Cycle

variable {α : Type*} {nxt nxt' : α → α}

/-- `nxt` leads from each node of `l` to the next one, and from the last to `y`. -/
def Walk (nxt : α → α) : List α → α → Prop
  | [], _ => True
  | a :: l, y => nxt a = l.headD y ∧ Walk nxt l y

@[simp] theorem walk_nil {y : α} : Walk nxt [] y := trivial

@[simp] theorem walk_cons {a y : α} {l : List α} : Walk nxt (a :: l) y ↔ nxt a = l.headD y ∧ Walk nxt l y :=
  Iff.rfl

/-- A walk splits anywhere: the first part leads to where the second starts. -/
theorem walk_append {y : α} {l₁ l₂ : List α} :
    Walk nxt (l₁ ++ l₂) y ↔ Walk nxt l₁ (l₂.headD y) ∧ Walk nxt l₂ y := by
  induction l₁ with
  | nil => simp
  | cons a l₁ ih =>
    have head : (l₁ ++ l₂).headD y = l₁.headD (l₂.headD y) := by cases l₁ <;> rfl
    simp only [List.cons_append, walk_cons, ih, head, and_assoc]

/-- Where a walk passes `p`, `nxt p` is the node after it. -/
theorem Walk.next {y p : α} {l₁ l₂ : List α} (h : Walk nxt (l₁ ++ p :: l₂) y) : nxt p = l₂.headD y :=
  (walk_append.mp h).2.1

/-- A walk reads `nxt` at its nodes only. -/
theorem Walk.frame {y : α} {l : List α} (h : Walk nxt l y) (same : ∀ a ∈ l, nxt' a = nxt a) :
    Walk nxt' l y := by
  induction l with
  | nil => trivial
  | cons a l ih =>
    exact ⟨(same a List.mem_cons_self).trans h.1, ih h.2 fun b hb => same b (List.mem_cons_of_mem _ hb)⟩

/-- The nodes `S` after `p` replaced by `S'`: the new `nxt` leads from `p` through `S'` to where
`S` led, and is the old one off them. -/
theorem Walk.splice {y p : α} {P S S' C : List α} (h : Walk nxt (P ++ p :: S ++ C) y)
    (new : Walk nxt' (p :: S') (C.headD y)) (same : ∀ a ∈ P ++ C, nxt' a = nxt a) :
    Walk nxt' (P ++ p :: S' ++ C) y := by
  obtain ⟨front, back⟩ := walk_append.mp h
  obtain ⟨before, -⟩ := walk_append.mp front
  refine walk_append.mpr ⟨walk_append.mpr ⟨?_, new⟩, back.frame fun a ha => same a (List.mem_append_right _ ha)⟩
  exact before.frame fun a ha => same a (List.mem_append_left _ ha)

/-- The cycle through `x` read from its node `b`. -/
theorem Walk.rotate {x b : α} {l₁ l₂ : List α} (h : Walk nxt (x :: l₁ ++ b :: l₂) x) :
    Walk nxt (b :: l₂ ++ x :: l₁) b := by
  obtain ⟨first, second⟩ := walk_append.mp h
  exact walk_append.mpr ⟨second, first⟩

/-- The nodes a cycle read from `b` visits are those it visits read from `x`. -/
theorem rotate_perm {x b : α} {l₁ l₂ : List α} : (b :: l₂ ++ x :: l₁).Perm (x :: l₁ ++ b :: l₂) :=
  List.perm_append_comm

/-- `nxt` maps the nodes of a walk to the nodes after them. -/
theorem Walk.map {a y : α} {l : List α} (h : Walk nxt (a :: l) y) : (a :: l).map nxt = l ++ [y] := by
  induction l generalizing a with
  | nil => simpa using h.1
  | cons b l ih =>
    rw [List.map_cons, ih h.2, h.1]
    rfl

section cycle

variable {x : α} {l : List α}

/-- The cycle read from any of its nodes. -/
theorem Walk.from (h : Walk nxt (x :: l) x) {s : α} (hs : s ∈ x :: l) :
    ∃ m, Walk nxt (s :: m) s ∧ (s :: m).Perm (x :: l) := by
  rcases List.mem_cons.mp hs with rfl | hs
  · exact ⟨l, h, List.Perm.refl _⟩
  · obtain ⟨l₁, l₂, rfl⟩ := List.append_of_mem hs
    exact ⟨l₂ ++ x :: l₁, h.rotate, rotate_perm⟩

/-- `nxt` keeps to a cycle. -/
theorem Walk.closed (h : Walk nxt (x :: l) x) {a : α} (ha : a ∈ x :: l) : nxt a ∈ x :: l := by
  have image : nxt a ∈ (x :: l).map nxt := List.mem_map_of_mem ha
  rw [h.map] at image
  exact List.perm_append_singleton x l |>.subset image

/-- On a cycle of distinct nodes, each node has one predecessor. -/
theorem Walk.injOn (h : Walk nxt (x :: l) x) (distinct : (x :: l).Nodup) {a b : α} (ha : a ∈ x :: l)
    (hb : b ∈ x :: l) (same : nxt a = nxt b) : a = b := by
  have image : ((x :: l).map nxt).Nodup := by
    rw [h.map]
    exact (List.perm_append_singleton x l).nodup_iff.mpr distinct
  exact List.inj_on_of_nodup_map image ha hb same

/-- On a cycle whose nodes ascend by `key` from `x`, `nxt` takes a node to the lowest node
above it, and the highest node back to `x`. -/
theorem Walk.succ_of_sorted {β : Type*} [LinearOrder β] {key : α → β} {a : α} (h : Walk nxt (x :: l) x)
    (sorted : (x :: l).Pairwise fun a b => key a < key b) (ha : a ∈ x :: l) :
    (nxt a ∈ x :: l ∧ key a < key (nxt a) ∧ ∀ c ∈ x :: l, key a < key c → key (nxt a) ≤ key c) ∨
      (nxt a = x ∧ ∀ c ∈ x :: l, key c ≤ key a) := by
  obtain ⟨l₁, l₂, split⟩ := List.append_of_mem ha
  have next : nxt a = l₂.headD x := (split ▸ h).next
  rw [split] at sorted ⊢
  obtain ⟨-, from_a, before⟩ := List.pairwise_append.mp sorted
  have below : ∀ c ∈ l₁, key c < key a := fun c hc => before c hc a List.mem_cons_self
  obtain ⟨above, after⟩ := List.pairwise_cons.mp from_a
  cases l₂ with
  | nil =>
    -- `a` is the highest node
    refine .inr ⟨next, fun c hc => ?_⟩
    rcases List.mem_append.mp hc with hc | hc
    · exact (below c hc).le
    · rw [List.mem_singleton.mp hc]
  | cons b l₂ =>
    -- the node after `a` is the lowest node above it
    rw [next]
    refine .inl ⟨by simp, above b List.mem_cons_self, fun c hc up => ?_⟩
    rcases List.mem_append.mp hc with hc | hc
    · exact absurd (below c hc) (not_lt.mpr up.le)
    rcases List.mem_cons.mp hc with rfl | hc
    · exact absurd up (lt_irrefl _)
    rcases List.mem_cons.mp hc with rfl | hc
    · exact le_rfl
    · exact ((List.pairwise_cons.mp after).1 c hc).le

/-- On a cycle ascending from `x`, cut after `p` into keys below `t` and keys above it: `p` is
the one node with `t` between it and the node after it, or, for the highest node, `t` beyond
either end. -/
theorem Walk.gap_iff {β : Type*} [LinearOrder β] {key : α → β} {p a : α} {P Q : List α} {t : β}
    (h : Walk nxt (x :: l) x) (sorted : (x :: l).Pairwise fun a b => key a < key b)
    (split : x :: l = P ++ p :: Q) (below : ∀ c ∈ P ++ [p], key c < t) (above : ∀ c ∈ Q, t < key c)
    (ha : a ∈ x :: l) :
    (key a < t ∧ t < key (nxt a) ∨ key (nxt a) ≤ key a ∧ (key a < t ∨ t < key (nxt a))) ↔ a = p := by
  have sides : ∀ c ∈ x :: l, c ∈ P ++ [p] ∨ c ∈ Q := by
    intro c hc
    rw [split] at hc
    simpa [or_assoc] using hc
  have p_top : ∀ c ∈ P, key c < key p := by
    rw [split] at sorted
    exact fun c hc => (List.pairwise_append.mp sorted).2.2 c hc p List.mem_cons_self
  have x_low : x ∈ P ++ [p] := by
    cases P with
    | nil => simp [List.cons.inj split]
    | cons c P => simp [List.cons.inj split]
  have p_mem : p ∈ x :: l := by simp [split]
  constructor
  · rintro stop
    rcases sides a ha with low | high
    · rcases List.mem_append.mp low with low | same
      · -- below `p`, the node after `a` is at most `p`, so `t` is not in the gap
        have lt := p_top a low
        exfalso
        rcases h.succ_of_sorted sorted ha with ⟨-, up, least⟩ | ⟨-, top⟩
        · have at_most := least p p_mem lt
          have p_low := below p (by simp)
          rcases stop with ⟨-, gap⟩ | ⟨down, -⟩
          · exact absurd gap (not_lt.mpr (at_most.trans p_low.le))
          · exact absurd down (not_le.mpr up)
        · exact absurd (top p p_mem) (not_le.mpr lt)
      · exact List.mem_singleton.mp same
    · -- above `t`, only the highest node wraps, and `t` lies above `x`
      have up := above a high
      exfalso
      rcases h.succ_of_sorted sorted ha with ⟨-, rise, -⟩ | ⟨wrap, -⟩
      · rcases stop with ⟨lt, -⟩ | ⟨down, -⟩
        · exact absurd lt (not_lt.mpr up.le)
        · exact absurd down (not_le.mpr rise)
      · rw [wrap] at stop
        have := below x x_low
        rcases stop with ⟨lt, -⟩ | ⟨-, lt | gt⟩
        · exact absurd lt (not_lt.mpr up.le)
        · exact absurd lt (not_lt.mpr up.le)
        · exact absurd gt (not_lt.mpr this.le)
  · rintro rfl
    have lt := below a (by simp)
    rcases h.succ_of_sorted sorted ha with ⟨next, rise, -⟩ | ⟨wrap, top⟩
    · -- the node after `p` is above it, so past the cut
      refine .inl ⟨lt, ?_⟩
      rcases sides _ next with low | high
      · rcases List.mem_append.mp low with low | same
        · exact absurd (p_top _ low) (not_lt.mpr rise.le)
        · rw [List.mem_singleton.mp same] at rise
          exact absurd rise (lt_irrefl _)
      · exact above _ high
    · rw [wrap]
      exact .inr ⟨top x List.mem_cons_self, .inl lt⟩

end cycle

/-- `for(p = x; !stop(p); p = nxt(p))`, for at most `fuel` nodes. -/
def search (nxt : α → α) (stop : α → Bool) : Nat → α → Option α
  | 0, _ => none
  | k + 1, p => if stop p then some p else search nxt stop k (nxt p)

variable {stop : α → Bool}

/-- Along a walk from `x` to `b` whose nodes fail the test, the loop stops at `b`. -/
theorem search_walk {x b : α} {l : List α} {k : Nat} (h : Walk nxt (x :: l) b)
    (skip : ∀ a ∈ x :: l, stop a = false) (found : stop b = true) (fuel : l.length + 2 ≤ k) :
    search nxt stop k x = some b := by
  induction l generalizing x k with
  | nil =>
    obtain ⟨k, rfl⟩ : ∃ j, k = j + 2 := ⟨k - 2, by simp only [List.length_nil] at fuel; omega⟩
    rw [search, if_neg (by rw [skip x List.mem_cons_self]; decide), h.1, List.headD_nil, search, if_pos found]
  | cons a l ih =>
    obtain ⟨k, rfl⟩ : ∃ j, k = j + 1 := ⟨k - 1, by omega⟩
    rw [search, if_neg (by rw [skip x List.mem_cons_self]; decide), h.1, List.headD_cons]
    exact ih h.2 (fun c hc => skip c (List.mem_cons_of_mem _ hc)) (by simp only [List.length_cons] at fuel; omega)

/-- On a cycle whose nodes are distinct, the loop started at any node stops at the one node
where the test holds, within one turn. -/
theorem search_cycle {x s b : α} {l : List α} {k : Nat} (h : Walk nxt (x :: l) x) (distinct : (x :: l).Nodup)
    (hs : s ∈ x :: l) (hb : b ∈ x :: l) (only : ∀ a ∈ x :: l, stop a = true ↔ a = b)
    (fuel : l.length + 1 ≤ k) : search nxt stop k s = some b := by
  obtain ⟨m, from_s, perm⟩ := h.from hs
  have len : m.length = l.length := by simpa using perm.length_eq
  have only' : ∀ a ∈ s :: m, stop a = true ↔ a = b := fun a ha => only a (perm.subset ha)
  obtain ⟨k, rfl⟩ : ∃ j, k = j + 1 := ⟨k - 1, by omega⟩
  by_cases here : s = b
  · rw [search, if_pos ((only' s List.mem_cons_self).mpr here), here]
  -- `b` lies further round, and the nodes before it fail the test
  obtain ⟨m₁, m₂, rfl⟩ := List.append_of_mem ((List.mem_cons.mp (perm.symm.subset hb)).resolve_left
    (Ne.symm here))
  have nodup : (s :: (m₁ ++ b :: m₂)).Nodup := perm.nodup_iff.mpr distinct
  have to_b : Walk nxt (s :: m₁) b := (walk_append.mp (show Walk nxt (s :: m₁ ++ b :: m₂) s from from_s)).1
  refine search_walk to_b (fun a ha => ?_) ((only' b (by simp)).mpr rfl) ?_
  · have ne : a ≠ b := by
      rintro rfl
      rcases List.mem_cons.mp ha with rfl | ha
      · exact here rfl
      · exact (List.nodup_append.mp (List.nodup_cons.mp nodup).2).2.2 a ha a List.mem_cons_self rfl
    cases hstop : stop a
    · rfl
    · exact absurd ((only' a (by rcases List.mem_cons.mp ha with rfl | ha <;> simp [*])).mp hstop) ne
  · simp only [List.length_append, List.length_cons] at len
    omega

/-- Started on a set that `nxt` keeps to, the loop stops only on it, where the test holds. -/
theorem search_mem {R : List α} {s r : α} {k : Nat} (closed : ∀ a ∈ R, nxt a ∈ R) (hs : s ∈ R)
    (h : search nxt stop k s = some r) : r ∈ R ∧ stop r = true := by
  induction k generalizing s with
  | zero => cases h
  | succ k ih =>
    rw [search] at h
    split at h
    · rename_i found
      cases h
      exact ⟨hs, found⟩
    · exact ih (closed s hs) h

end Cycle
