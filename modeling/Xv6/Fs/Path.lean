import Xv6.Fs.Dir

/-!
# What a path names

`namex` reads a path one element at a time through `skipelem`. Here the path is read
whole: its elements are its `/`-separated pieces that are not empty, and the loop of
`namex` is the walk `namexWalk` over those elements, each cut to `DIRSIZ` bytes.

* `skipelemNames_eq`: calling `skipelem` again and again gives the elements in order, cut;
* `namex_eq_walk`: `namex` starts where the path says and walks its elements;
* `namei_cutPath`: a path resolves as the path with each element cut to `DIRSIZ` bytes;
* `nameiparent_eq`: `nameiparent` walks all elements but the last as `namex` does for
  `parentPath`, and then keeps the directory it reached, if it is one, with the last element
  as the name.
-/

namespace Xv6

/-- The elements of a path: its pieces between slashes that are not empty. -/
def components (path : List UInt8) : List (List UInt8) :=
  (path.splitOn slash).filter (· ≠ [])

/-- The path with each of its pieces cut to its first `DIRSIZ` bytes, the slashes kept. -/
def cutPath (path : List UInt8) : List UInt8 :=
  [slash].intercalate ((path.splitOn slash).map (·.take dirSiz))

/-- The path of all elements but the last, from where the path starts. -/
def parentPath (path : List UInt8) : List UInt8 :=
  let dirs := [slash].intercalate (components path).dropLast
  if path.head? = some slash then slash :: dirs else dirs

/-- The names `skipelem` leaves in `name` when it is called again on what it returned,
for at most `fuel` calls and until it returns `0`. -/
def skipelemNames : Nat → List UInt8 → List (List UInt8)
  | 0, _ => []
  | fuel + 1, path =>
    match skipelem path with
    | none => []
    | some (rest, name) => name :: skipelemNames fuel rest

/-! ## The elements of a path -/

theorem components_nil : components [] = [] := by
  simp [components]

theorem components_slash_cons (path : List UInt8) :
    components (slash :: path) = components path := by
  simp [components, List.splitOn_cons_eq_if_modifyHead]

theorem components_slashes_append {pre : List UInt8} (h : ∀ c ∈ pre, c = slash)
    (path : List UInt8) : components (pre ++ path) = components path := by
  induction pre with
  | nil => rfl
  | cons c pre ih =>
    obtain ⟨rfl, rest⟩ := List.forall_mem_cons.mp h
    rw [List.cons_append, components_slash_cons, ih rest]

theorem components_dropWhile_slash (path : List UInt8) :
    components path = components (path.dropWhile (· = slash)) := by
  conv_lhs => rw [← List.takeWhile_append_dropWhile (p := fun x => decide (x = slash)) (l := path)]
  exact components_slashes_append (fun x hx => by simpa using List.mem_takeWhile_imp hx) _

theorem components_elem_append {elem path : List UInt8} (nonempty : elem ≠ [])
    (noSlash : slash ∉ elem) (sep : path = [] ∨ path.head? = some slash) :
    components (elem ++ path) = elem :: components path := by
  rcases sep with rfl | sep
  · simp [components, List.splitOn_eq_singleton noSlash, nonempty]
  · obtain ⟨rest, rfl⟩ : ∃ rest, path = slash :: rest := by
      cases path with
      | nil => cases sep
      | cons c rest => exact ⟨rest, by simpa using sep⟩
    rw [components_slash_cons]
    simp [components, List.splitOn_append_cons_self_of_not_mem noSlash, nonempty]

theorem mem_splitOn_slash {path piece : List UInt8} (h : piece ∈ path.splitOn slash) :
    slash ∉ piece := by
  induction path generalizing piece with
  | nil => simp_all
  | cons c path ih =>
    rw [List.splitOn_cons_eq_if_modifyHead] at h
    split at h
    · rcases List.mem_cons.mp h with rfl | h
      · simp
      · exact ih h
    · -- `c` joins the first piece of the rest
      obtain ⟨first, more, split⟩ := List.exists_cons_of_ne_nil (List.splitOn_ne_nil slash path)
      rw [split, List.modifyHead_cons] at h
      rcases List.mem_cons.mp h with rfl | h
      · have hc : c ≠ slash := by simpa using ‹¬(c == slash) = true›
        exact fun mem => (List.mem_cons.mp mem).elim (fun e => hc e.symm)
          (ih (split ▸ List.mem_cons_self))
      · exact ih (split ▸ List.mem_cons_of_mem _ h)

theorem mem_components {path piece : List UInt8} (h : piece ∈ components path) :
    piece ≠ [] ∧ slash ∉ piece := by
  obtain ⟨mem, nonempty⟩ := List.mem_filter.mp h
  exact ⟨of_decide_eq_true nonempty, mem_splitOn_slash mem⟩

/-! ## `skipelem` -/

theorem skipelem_eq_none_iff (path : List UInt8) :
    skipelem path = none ↔ ∀ c ∈ path, c = slash := by
  unfold skipelem
  split
  · rename_i hp
    simpa using List.dropWhile_eq_nil_iff.mp hp
  · rename_i hp
    simp only [reduceCtorEq, false_iff]
    intro all
    exact hp (List.dropWhile_eq_nil_iff.mpr (by simpa using all))

/-- One call of `skipelem`: the element it cuts into `name` is the path's first, and the rest
it returns starts at the next element. -/
theorem skipelem_some {path rest name : List UInt8} (h : skipelem path = some (rest, name)) :
    ∃ elem, components path = elem :: components rest ∧ name = elem.take dirSiz ∧
      rest.head? ≠ some slash := by
  unfold skipelem at h
  generalize hp : path.dropWhile (· = slash) = p at h
  cases p with
  | nil => cases h
  | cons c cs =>
    obtain ⟨rfl, rfl⟩ := Prod.mk.inj (Option.some.inj h)
    have hne : path.dropWhile (· = slash) ≠ [] := by
      rw [hp]
      exact List.cons_ne_nil c cs
    have hc : c ≠ slash := by simpa [hp] using List.head_dropWhile_not _ hne
    generalize helem : (c :: cs).takeWhile (· ≠ slash) = elem
    generalize hafter : (c :: cs).dropWhile (· ≠ slash) = after
    have split : elem ++ after = c :: cs := helem ▸ hafter ▸ List.takeWhile_append_dropWhile
    have dropEq : (c :: cs).drop elem.length = after := by
      rw [← (List.drop_left : (elem ++ after).drop elem.length = after), split]
    refine ⟨elem, ?_, rfl, ?_⟩
    · -- slashes, the element, then from the next slash on
      rw [components_dropWhile_slash path, hp, ← components_dropWhile_slash, dropEq]
      conv_lhs => rw [← split]
      refine components_elem_append ?_ ?_ ?_
      · rw [← helem]
        simp [hc]
      · intro mem
        rw [← helem] at mem
        simpa using List.mem_takeWhile_imp mem
      · cases after with
        | nil => exact .inl rfl
        | cons d ds =>
          -- the element ends where a slash is
          have hd := List.head?_dropWhile_not (fun x => decide (x ≠ slash)) (c :: cs)
          rw [hafter] at hd
          exact .inr (by simpa using hd)
    · rw [dropEq]
      intro head
      have hd := List.head?_dropWhile_not (fun x => decide (x = slash)) after
      rw [head] at hd
      simp at hd

theorem components_eq_nil_iff (path : List UInt8) :
    components path = [] ↔ ∀ c ∈ path, c = slash := by
  constructor
  · intro nil
    rw [← skipelem_eq_none_iff]
    match h : skipelem path with
    | none => rfl
    | some (rest, name) =>
      obtain ⟨elem, comps, -⟩ := skipelem_some h
      simp [comps] at nil
  · intro all
    simpa [components_nil] using components_slashes_append all []

/-- Called again and again on what it returns, `skipelem` gives the path's elements in
order, each cut to `DIRSIZ` bytes, when it may be called once more than the path is long. -/
theorem skipelemNames_eq : ∀ (fuel : Nat) (path : List UInt8), path.length < fuel →
    skipelemNames fuel path = (components path).map (·.take dirSiz)
  | 0, _, h => absurd h (Nat.not_lt_zero _)
  | fuel + 1, path, h => by
    rw [skipelemNames]
    match hs : skipelem path with
    | none => simp [(components_eq_nil_iff path).mpr ((skipelem_eq_none_iff path).mp hs)]
    | some (rest, name) =>
      obtain ⟨elem, comps, rfl, -⟩ := skipelem_some hs
      have shorter : rest.length < fuel := by
        have := skipelem_length hs
        omega
      simp [comps, skipelemNames_eq fuel rest shorter]

-- "/a//b/" has the elements "a" and "b"
example : skipelemNames 7 [47, 97, 47, 47, 98, 47] = [[97], [98]] := by decide

/-- What `skipelem` returns is empty exactly when it has no element left. -/
theorem rest_eq_nil_iff {rest : List UInt8} (h : rest.head? ≠ some slash) :
    rest = [] ↔ components rest = [] := by
  rw [components_eq_nil_iff]
  cases rest with
  | nil => simp
  | cons c cs =>
    have hc : c ≠ slash := fun e => h (by rw [e]; rfl)
    simp [hc]

/-! ## Cut paths and parent paths -/

theorem components_cutPath (path : List UInt8) :
    components (cutPath path) = (components path).map (·.take dirSiz) := by
  have pieces : ∀ l ∈ (path.splitOn slash).map (·.take dirSiz), slash ∉ l := by
    intro l hl
    obtain ⟨piece, mem, rfl⟩ := List.mem_map.mp hl
    exact fun h => mem_splitOn_slash mem (List.mem_of_mem_take h)
  have nonempty : (path.splitOn slash).map (·.take dirSiz) ≠ [] := by simp
  rw [components, cutPath, List.splitOn_intercalate slash pieces nonempty, components,
    List.filter_map]
  congr 1
  -- a piece cut to `DIRSIZ` bytes is empty only if it was
  apply List.filter_congr
  intro piece _
  simp [List.take_eq_nil_iff, dirSiz]

theorem cutPath_head? (path : List UInt8) :
    (cutPath path).head? = some slash ↔ path.head? = some slash := by
  cases path with
  | nil => simp [cutPath]
  | cons c t =>
    obtain ⟨first, more, split⟩ := List.exists_cons_of_ne_nil (List.splitOn_ne_nil slash t)
    by_cases hc : c = slash
    · subst hc
      simp [cutPath, List.splitOn_cons_eq_if_modifyHead, split, List.intercalate_cons_of_ne_nil]
    · have cut : (c :: first).take dirSiz = c :: first.take (dirSiz - 1) := rfl
      simp [cutPath, List.splitOn_cons_eq_if_modifyHead, hc, split, cut]

theorem components_intercalate {names : List (List UInt8)}
    (h : ∀ n ∈ names, n ≠ [] ∧ slash ∉ n) : components ([slash].intercalate names) = names := by
  cases names with
  | nil => exact components_nil
  | cons n ns =>
    rw [components, List.splitOn_intercalate slash (fun l hl => (h l hl).2) (List.cons_ne_nil _ _)]
    exact List.filter_eq_self.mpr (fun l hl => decide_eq_true (h l hl).1)

theorem intercalate_head? {names : List (List UInt8)} (h : ∀ n ∈ names, n ≠ [] ∧ slash ∉ n) :
    ([slash].intercalate names).head? ≠ some slash := by
  match names, h with
  | [], _ => simp
  | [] :: _, h => exact absurd rfl (h [] List.mem_cons_self).1
  | (x :: n) :: ns, h =>
    have hx : x ≠ slash := fun e => (h _ List.mem_cons_self).2 (e ▸ List.mem_cons_self)
    simpa using hx

theorem dropLast_components {path n : List UInt8} (h : n ∈ (components path).dropLast) :
    n ≠ [] ∧ slash ∉ n :=
  mem_components (List.dropLast_subset _ h)

theorem components_parentPath (path : List UInt8) :
    components (parentPath path) = (components path).dropLast := by
  unfold parentPath
  split
  · rw [components_slash_cons, components_intercalate (fun _ => dropLast_components)]
  · exact components_intercalate (fun _ => dropLast_components)

theorem parentPath_head? (path : List UInt8) :
    (parentPath path).head? = some slash ↔ path.head? = some slash := by
  unfold parentPath
  split
  · simp_all
  · rename_i hp
    simp [hp, intercalate_head? (fun _ => dropLast_components)]

namespace Fs

/-- Where `namex` starts: the root for a path that begins with a slash, the current
directory otherwise, with a reference taken on it. -/
def namexStart (s : Fs) (path : List UInt8) : Except Fault (Fs × Fin ninode) :=
  if path.head? = some slash then s.iget rootDev rootIno else pure (s.idup s.cwd, s.cwd)

/-- The loop of `namex` over the names still to look up: each turn locks the directory
reached, checks that it is one, stops one name early for `nameiparent`, and looks the
name up. -/
def namexWalk (s : Fs) (nameiparent : Bool) : List (List UInt8) → Fin ninode → List UInt8 →
    Except Fault (Fs × Option (Fin ninode) × List UInt8)
  | [], ip, name => if nameiparent then do
      let s ← s.iput ip
      return (s, none, name)
    else return (s, some ip, name)
  | name :: names, ip, _ => do
    let s ← s.ilock ip
    if (s.icache ip).din.type ≠ tDir then do
      let s ← s.iunlockput ip
      return (s, none, name)
    else if nameiparent ∧ names = [] then do
      let s ← s.iunlock ip
      return (s, some ip, name)
    else do
      let (s, next) ← s.dirlookup ip name
      match next with
      | none => do
        let s ← s.iunlockput ip
        return (s, none, name)
      | some (next, _) => do
        let s ← s.iunlockput ip
        s.namexWalk nameiparent names next name

/-- `nameiparent`'s last turn: lock the directory reached and keep it, unlocked, if it is
one, with the last element as the name. -/
def parentStep (s : Fs) (ip : Fin ninode) (name : List UInt8) :
    Except Fault (Fs × Option (Fin ninode) × List UInt8) := do
  let s ← s.ilock ip
  if (s.icache ip).din.type ≠ tDir then do
    let s ← s.iunlockput ip
    return (s, none, name)
  else do
    let s ← s.iunlock ip
    return (s, some ip, name)

/-- `namex`'s loop, given enough fuel, is the walk over the path's elements. -/
theorem namexLoop_eq_walk (nameiparent : Bool) (fuel : Nat) :
    ∀ (s : Fs) (path : List UInt8) (ip : Fin ninode) (name : List UInt8), path.length < fuel →
      s.namexLoop nameiparent fuel path ip name =
        s.namexWalk nameiparent ((components path).map (·.take dirSiz)) ip name := by
  induction fuel with
  | zero => exact fun _ _ _ _ h => absurd h (Nat.not_lt_zero _)
  | succ fuel ih =>
    intro s path ip name h
    match hs : skipelem path with
    | none =>
      rw [namexLoop, hs, (components_eq_nil_iff path).mpr ((skipelem_eq_none_iff path).mp hs)]
      rfl
    | some (rest, elemName) =>
      obtain ⟨elem, comps, rfl, headNot⟩ := skipelem_some hs
      have shorter : rest.length < fuel := by
        have := skipelem_length hs
        omega
      -- `namex` stops one level early when nothing is left of the path, which is when no
      -- element is left
      have last : (rest = []) = ((components rest).map (·.take dirSiz) = []) := by
        rw [List.map_eq_nil_iff, rest_eq_nil_iff headNot]
      rw [namexLoop, hs, comps, List.map_cons, namexWalk]
      simp only [fun s ip name => ih s rest ip name shorter]
      congr 1
      funext s1
      congr 1
      -- the walk tests for the last element where `namex` tests for the end of the path
      congr 1
      rw [last]

theorem namex_eq_walk (s : Fs) (path : List UInt8) (nameiparent : Bool) :
    s.namex path nameiparent = (do
      let (s, ip) ← s.namexStart path
      s.namexWalk nameiparent ((components path).map (·.take dirSiz)) ip []) := by
  have start : s.namex path nameiparent = (do
      let (s, ip) ← s.namexStart path
      s.namexLoop nameiparent (path.length + 1) path ip []) := by
    unfold namex namexStart
    split <;> rfl
  rw [start]
  congr 1
  funext ⟨s', ip⟩
  exact namexLoop_eq_walk nameiparent (path.length + 1) s' path ip [] (Nat.lt_succ_self _)

theorem namexStart_of_head {p q : List UInt8} (h : p.head? = some slash ↔ q.head? = some slash)
    (s : Fs) : s.namexStart p = s.namexStart q := by
  simp only [namexStart, h]

/-- A path resolves as the path with each of its elements cut to `DIRSIZ` bytes. -/
theorem namei_cutPath (s : Fs) (path : List UInt8) : s.namei (cutPath path) = s.namei path := by
  have twice : ((components path).map (·.take dirSiz)).map (·.take dirSiz) =
      (components path).map (·.take dirSiz) := by
    simp [Function.comp_def]
  rw [namei, namei, namex_eq_walk, namex_eq_walk, namexStart_of_head (cutPath_head? path),
    components_cutPath, twice]

/-- `nameiparent`'s walk over the elements and a last one is `namei`'s walk over the
elements, then `parentStep` on the last. -/
theorem namexWalk_parent (last : List UInt8) (names : List (List UInt8)) :
    ∀ (s : Fs) (ip : Fin ninode) (name : List UInt8),
      s.namexWalk true (names ++ [last]) ip name = (do
        let (s, r, name) ← s.namexWalk false names ip name
        match r with
        | none => return (s, none, name)
        | some ip => s.parentStep ip last) := by
  induction names with
  | nil =>
    intro s ip name
    simp [namexWalk, parentStep]
  | cons n names ih =>
    intro s ip name
    simp only [List.cons_append, namexWalk]
    cases hl : s.ilock ip with
    | error e => rfl
    | ok s1 =>
      simp only [except_ok_bind]
      by_cases dir : (s1.icache ip).din.type = tDir
      · -- a directory: a name follows, so both look the element up
        simp only [dir, ne_eq, not_true_eq_false, if_false, Bool.false_eq_true, false_and,
          List.append_eq_nil_iff, List.cons_ne_self, and_false]
        cases hd : s1.dirlookup ip n with
        | error e => rfl
        | ok r =>
          obtain ⟨s2, next⟩ := r
          cases next with
          | none =>
            simp only [except_ok_bind]
            cases s2.iunlockput ip <;> rfl
          | some found =>
            obtain ⟨next, off⟩ := found
            simp only [except_ok_bind]
            cases s2.iunlockput ip with
            | error e => rfl
            | ok s3 => exact ih s3 next n
      · simp only [dir, ne_eq, not_false_eq_true, if_true]
        cases s1.iunlockput ip <;> rfl

/-- `nameiparent(path, name)`: nothing, after dropping the start, when the path has no
element; otherwise what `namex` (`namei` with the name) reaches for the elements but the
last, followed by `parentStep` with the last element cut to `DIRSIZ` bytes. -/
theorem nameiparent_eq (s : Fs) (path : List UInt8) :
    s.nameiparent path = (match (components path).getLast? with
      | none => do
        let (s, ip) ← s.namexStart path
        let s ← s.iput ip
        return (s, none, [])
      | some last => do
        let (s, r, name) ← s.namex (parentPath path) false
        match r with
        | none => return (s, none, name)
        | some ip => s.parentStep ip (last.take dirSiz)) := by
  rw [nameiparent, namex_eq_walk, namex_eq_walk, namexStart_of_head (parentPath_head? path),
    components_parentPath]
  rcases List.eq_nil_or_concat (components path) with nil | ⟨init, last, concat⟩
  · rw [nil]
    rfl
  · rw [concat, List.concat_eq_append, List.getLast?_concat, List.dropLast_concat,
      List.map_append, List.map_singleton]
    cases s.namexStart path with
    | error e => rfl
    | ok start => exact namexWalk_parent _ _ start.1 start.2 []

end Fs

/-- The path layer as `namex` reads it: `skipelem` returns `0` exactly on a path of slashes,
and otherwise takes the first element; the names it leaves are the elements in order, cut to
`DIRSIZ` bytes; so `namei` resolves a path as the path with its elements cut, and
`nameiparent` is `namex` on the elements but the last, then the check that the last
directory is one. -/
theorem namex_resolves_components (path : List UInt8) :
    (skipelem path = none ↔ ∀ c ∈ path, c = slash) ∧
    (∀ rest name, skipelem path = some (rest, name) →
      ∃ elem, components path = elem :: components rest ∧ name = elem.take dirSiz) ∧
    skipelemNames (path.length + 1) path = (components path).map (·.take dirSiz) ∧
    ∀ s : Fs, s.namei (cutPath path) = s.namei path ∧
      s.nameiparent path = (match (components path).getLast? with
        | none => do
          let (s, ip) ← s.namexStart path
          let s ← s.iput ip
          return (s, none, [])
        | some last => do
          let (s, r, name) ← s.namex (parentPath path) false
          match r with
          | none => return (s, none, name)
          | some ip => s.parentStep ip (last.take dirSiz)) :=
  ⟨skipelem_eq_none_iff path,
    fun _ _ h => (skipelem_some h).imp fun _ found => ⟨found.1, found.2.1⟩,
    skipelemNames_eq _ path (Nat.lt_succ_self _),
    fun s => ⟨s.namei_cutPath path, s.nameiparent_eq path⟩⟩

end Xv6
