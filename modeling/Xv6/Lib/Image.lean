import Mathlib.Data.List.Basic

/-!
# Images and writes into them

An image is the list of a file's bytes.  `writeAt img off src` stores `src` from offset
`off` on, growing the image where `src` runs past its end: what a write at an offset no
further than the end does to a file.

* `getElem?_writeAt`: each element of the result comes from the written list or from the
  image;
* `length_writeAt`: the image grows to `max img.length (off + src.length)`;
* `writeAt_append`: two writes, the second where the first stops, are one write.
-/

namespace Image

variable {α : Type*}

/-- `img` with `src` stored from `off` on. -/
def writeAt (img : List α) (off : Nat) (src : List α) : List α :=
  img.take off ++ src ++ img.drop (off + src.length)

section

variable {img : List α} {off : Nat}

theorem length_writeAt (h : off ≤ img.length) (src : List α) :
    (writeAt img off src).length = max img.length (off + src.length) := by
  simp only [writeAt, List.length_append, List.length_take, List.length_drop]
  omega

theorem getElem?_writeAt (h : off ≤ img.length) (src : List α) (k : Nat) :
    (writeAt img off src)[k]? = if off ≤ k ∧ k < off + src.length then src[k - off]? else img[k]? := by
  have taken : (img.take off).length = off := by simp [h]
  unfold writeAt
  split
  · rename_i inside
    rw [List.getElem?_append_left (by simp only [List.length_append, taken]; omega),
      List.getElem?_append_right (by omega), taken]
  · rename_i outside
    by_cases before : k < off
    · rw [List.getElem?_append_left (by simp only [List.length_append, taken]; omega),
        List.getElem?_append_left (by omega), List.getElem?_take_of_lt before]
    · rw [List.getElem?_append_right (by simp only [List.length_append, taken]; omega),
        List.getElem?_drop]
      congr 1
      simp only [List.length_append, taken]
      omega

theorem writeAt_nil : writeAt img off [] = img := by
  simp [writeAt]

/-- A write at the end appends. -/
theorem writeAt_length (img src : List α) : writeAt img img.length src = img ++ src := by
  simp [writeAt]

/-- A write of `a` and then of `b` where `a` ends is the write of `a ++ b`. -/
theorem writeAt_append (h : off ≤ img.length) (a b : List α) :
    writeAt (writeAt img off a) (off + a.length) b = writeAt img off (a ++ b) := by
  have grown : off + a.length ≤ (writeAt img off a).length := by
    rw [length_writeAt h]
    omega
  apply List.ext_getElem?
  intro k
  rw [getElem?_writeAt grown, getElem?_writeAt h, getElem?_writeAt h, List.length_append]
  by_cases second : off + a.length ≤ k ∧ k < off + a.length + b.length
  · rw [if_pos second, if_pos (by omega), List.getElem?_append_right (by omega)]
    congr 1
    omega
  · rw [if_neg second]
    by_cases first : off ≤ k ∧ k < off + a.length
    · rw [if_pos first, if_pos (by omega), List.getElem?_append_left (by omega)]
    · rw [if_neg first, if_neg (by omega)]

end

/-! ## Reading a list at offsets -/

/-- The first `n` elements of `l`, read with a default. -/
theorem map_range_getD {l : List α} {n : Nat} (h : n ≤ l.length) (x : α) :
    (List.range n).map (l.getD · x) = l.take n := by
  apply List.ext_getElem (by simp [h])
  intro k hk hk'
  simp only [List.length_map, List.length_range] at hk
  simp [List.getD_eq_getElem?_getD, List.getElem?_eq_getElem (show k < l.length by omega)]

/-- Reading `m + r` elements from `t` on is reading `m` of them, then `r` from `t + m` on. -/
theorem map_range_getD_drop_add (l : List α) (x : α) (t m r : Nat) :
    (List.range (m + r)).map ((l.drop t).getD · x) =
      (List.range m).map ((l.drop t).getD · x) ++ (List.range r).map ((l.drop (t + m)).getD · x) := by
  rw [List.range_add, List.map_append, List.map_map]
  congr 1
  apply List.map_congr_left
  intro j _
  simp [List.getD_eq_getElem?_getD, List.getElem?_drop, Nat.add_assoc]

end Image
