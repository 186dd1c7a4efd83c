import Xv6.Lib.Window
import Xv6.Ulib.Memmove
import Xv6.Vm.Growproc

/-!
# The CGA console

`console.c`'s `cgaputc(c)` reads the cursor from the CRT controller's registers 14 and 15,
moves it for `c` (a newline to the start of the next row, `BACKSPACE` back a cell, any other
character written at the cursor and passed), panics when the cursor has left the screen,
scrolls the screen up a row once the cursor reaches row `24`, writes the cursor back and
blanks the cell under it.  `consputc` sends the character to the serial port first, and
`consolewrite` puts each byte of a write.

The kernel addresses the text buffer `crt`, `P2V(0xb8000)`, through the direct map: its
`memmove` runs on kernel addresses (`kview`), and byte `j` of the buffer is physical
`0xb8000 + j`, at `offset` `j`.

What the console is for is `Term`: a terminal of `24` rows of `80` cells and a cursor, where
a printed character goes to the cursor's cell and moves the cursor on, a line feed on the
bottom row moves the rows up, and the cell under the cursor is blank.

* `cgaputc_safe`: from any cursor on the screen, `cgaputc` never panics, leaves the cursor at
  most at the start of row `24`, and writes nothing outside the buffer's `2000` cells;
* `cgaputc_refines`: from a cursor in rows `0..23`, `cgaputc` is `Term.put` on those rows'
  cells, and writes nothing outside them;
* `consolewrite_safe`, `consolewrite_refines`: the same for every write, the serial port
  receiving the write's bytes.
-/

namespace Xv6

/-! ## `cgaputc` -/

/-- `BACKSPACE`. -/
def backspace : Int := 0x100

/-- `crt`: the CGA text buffer, `P2V(0xb8000)`. -/
def crt : UInt32 := p2v 0xb8000

/-- What `cgaputc` reads and writes: memory, which holds the text buffer, and the CRT
controller's registers 14 and 15, the high and the low byte of the cursor position. -/
structure Cga where
  mem : PhysMem
  cursorHi : UInt8
  cursorLo : UInt8

/-- The cursor position as `cgaputc` reads it: `inb(CRTPORT+1) << 8`, then `|= inb(CRTPORT+1)`. -/
def Cga.cursor (s : Cga) : Int := (s.cursorHi.toNat <<< 8 ||| s.cursorLo.toNat : Nat)

/-- `crt[i] = x`: the two bytes of the `ushort` at `crt + i`, through the direct map. -/
def setCell (mem : PhysMem) (i : Int) (x : UInt16) : PhysMem :=
  let a := crt + UInt32.ofInt (2 * i)
  Function.update (Function.update mem (v2p a) (LittleEndian.byte16 x 0)) (v2p (a + 1))
    (LittleEndian.byte16 x 1)

/-- `(c&0xff) | 0x0700`: the character's low byte, grey on black. -/
def glyph (c : Int) : UInt16 := UInt16.ofInt (c % 256) ||| 0x0700

/-- Memory as the kernel addresses it through the direct map. -/
def kview (mem : PhysMem) : Mem := fun a => mem (v2p a)

/-- Physical memory from what the kernel addresses. -/
def ofKview (m : Mem) : PhysMem := fun a => m (p2v a)

/-- The cursor's move for `c`; a character other than a newline or `BACKSPACE` is written at
the cursor first (`crt[pos++]`).  `pos % 80` is C's remainder. -/
def advance (mem : PhysMem) (pos c : Int) : PhysMem × Int :=
  if c = 10 then (mem, pos + (80 - pos.tmod 80))
  else if c = backspace then (mem, if pos > 0 then pos - 1 else pos)
  else (setCell mem pos (glyph c), pos + 1)

/-- `memmove(crt, crt+80, sizeof(crt[0])*23*80)`: rows `1..23` moved up a row. -/
def scrollCopy (mem : PhysMem) : PhysMem :=
  ofKview (Mem.memmove (kview mem) crt (crt + 2 * 80) (2 * 23 * 80))

/-- The scroll once the cursor reaches row `24`: the rows moved up, the cursor moved up a
row, and the buffer cleared from it to the end of row `23`. -/
def scroll (mem : PhysMem) (pos : Int) : PhysMem × Int :=
  if pos.tdiv 80 ≥ 24 then
    let pos := pos - 80
    (memset (scrollCopy mem) (crt + UInt32.ofInt (2 * pos)) 0 (2 * UInt32.ofInt (24 * 80 - pos)).toNat,
      pos)
  else (mem, pos)

/-- `cgaputc` after the cursor's move: the panic test, the scroll, and the cursor written to
the CRT controller (`(uchar)(pos>>8)`, `(uchar)pos`) and blanked (`' ' | 0x0700`). -/
def cgaFinish (mem : PhysMem) (pos : Int) : Except Fault Cga :=
  if pos < 0 ∨ pos > 25 * 80 then .error (.panic "pos under/overflow")
  else
    let scrolled := scroll mem pos
    .ok ⟨setCell scrolled.1 scrolled.2 (0x20 ||| 0x0700), UInt8.ofInt (scrolled.2.shiftRight 8),
      UInt8.ofInt scrolled.2⟩

/-- `cgaputc(c)`. -/
def cgaputc (s : Cga) (c : Int) : Except Fault Cga :=
  let moved := advance s.mem s.cursor c
  cgaFinish moved.1 moved.2

/-- The console's output side: the CGA state and the serial port. -/
structure Console where
  cga : Cga
  /-- `uart`: `uartinit` found a serial port. -/
  uart : Bool
  /-- The bytes `uartputc` has sent to `COM1`, first byte first. -/
  serial : List UInt8

/-- `uartputc(c)`: the byte `(uchar)c` to `COM1` when there is a serial port.  Its wait for
the transmitter, at most `128` polls of the line status, changes nothing of what it sends. -/
def uartputc (s : Console) (c : Int) : Console :=
  if s.uart then { s with serial := s.serial ++ [UInt8.ofInt c] } else s

/-- `consputc(c)`: `BACKSPACE` goes to the serial port as `'\b' ' ' '\b'`.  `panicked`, which
only a `panic` on another processor sets, is left out. -/
def consputc (s : Console) (c : Int) : Except Fault Console :=
  let s := if c = backspace then uartputc (uartputc (uartputc s 8) 32) 8 else uartputc s c
  (cgaputc s.cga c).map fun cga => { s with cga := cga }

/-- `consolewrite`'s loop under `cons.lock`: `consputc(buf[i] & 0xff)` for each byte. -/
def consolewrite (s : Console) (buf : List UInt8) : Except Fault Console :=
  buf.foldlM (fun s b => consputc s b.toNat) s

/-! ## The terminal -/

/-- A terminal of `24` rows of `80` cells, and its cursor. -/
structure Term where
  cells : Fin 24 → Fin 80 → UInt16
  row : Fin 24
  col : Fin 80

namespace Term

/-- Cell `(r, c)` set to `x`. -/
def set (cells : Fin 24 → Fin 80 → UInt16) (r : Fin 24) (c : Fin 80) (x : UInt16) :
    Fin 24 → Fin 80 → UInt16 :=
  Function.update cells r (Function.update (cells r) c x)

/-- The rows moved up by one, and a row of zero cells at the bottom. -/
def scrollUp (cells : Fin 24 → Fin 80 → UInt16) : Fin 24 → Fin 80 → UInt16 := fun r =>
  if h : r.val + 1 < 24 then cells ⟨r.val + 1, h⟩ else fun _ => 0

/-- To the start of the next row; on the bottom row, the rows move up instead. -/
def lineFeed (t : Term) : Term :=
  if h : t.row.val + 1 < 24 then { t with row := ⟨t.row.val + 1, h⟩, col := 0 }
  else { t with cells := scrollUp t.cells, col := 0 }

/-- Back a cell: from the start of a row to the end of the row above, and nowhere from the
first cell. -/
def back (t : Term) : Term :=
  if 0 < t.col.val then { t with col := ⟨t.col.val - 1, Nat.lt_of_le_of_lt (Nat.sub_le _ _) t.col.isLt⟩ }
  else if 0 < t.row.val then
    { t with row := ⟨t.row.val - 1, Nat.lt_of_le_of_lt (Nat.sub_le _ _) t.row.isLt⟩, col := Fin.last 79 }
  else t

/-- `x` at the cursor, and the cursor on, to the next row from the last column. -/
def print (t : Term) (x : UInt16) : Term :=
  if h : t.col.val + 1 < 80 then { t with cells := set t.cells t.row t.col x, col := ⟨t.col.val + 1, h⟩ }
  else lineFeed { t with cells := set t.cells t.row t.col x }

/-- The cell under the cursor blanked. -/
def blank (t : Term) : Term := { t with cells := set t.cells t.row t.col (0x20 ||| 0x0700) }

/-- A character to the terminal: a newline, a backspace or a glyph, and the cursor's cell
blanked. -/
def put (t : Term) (c : Int) : Term :=
  blank (if c = 10 then t.lineFeed else if c = backspace then t.back else t.print (glyph c))

/-- Characters to the terminal, first character first. -/
def putAll (t : Term) (cs : List Int) : Term := cs.foldl put t

end Term

/-! ## Addresses in the buffer -/

/-- How far physical address `a` lies into the text buffer. -/
def offset (a : UInt32) : Nat := (a - 0xb8000).toNat

theorem eq_offset (a : UInt32) : a = 0xb8000 + UInt32.ofNat (offset a) := by
  rw [offset, UInt32.ofNat_toNat, add_sub_cancel]

theorem offset_add {j : Nat} (hj : j < 2 ^ 20) : offset (0xb8000 + UInt32.ofNat j) = j := by
  rw [offset, add_sub_cancel_left, UInt32.toNat_ofNat']
  omega

/-- Byte `j` of `crt`, through the direct map. -/
theorem v2p_crt_add (j : Nat) : v2p (crt + UInt32.ofNat j) = 0xb8000 + UInt32.ofNat j := by
  rw [v2p, crt, p2v, add_right_comm, add_sub_cancel_right]

theorem ofInt_two_mul {i : Int} (hi : 0 ≤ i) (hi' : i < 2 ^ 20) :
    UInt32.ofInt (2 * i) = UInt32.ofNat (2 * i.toNat) := by
  rw [UInt32.ofInt]
  congr 1
  omega

/-- `a` is byte `j` of the buffer exactly when it lies `j` bytes into it. -/
theorem eq_add_iff_offset {a : UInt32} {j : Nat} (hj : j < 2 ^ 20) :
    a = 0xb8000 + UInt32.ofNat j ↔ offset a = j := by
  constructor
  · rintro rfl
    exact offset_add hj
  · intro h
    rw [eq_offset a, h]

/-- `a - b < n`, for `b` the byte `j` of the buffer, is `a` among the `n` bytes from it. -/
theorem sub_toNat_lt_iff_offset {a : UInt32} {j n : Nat} (hn : j + n ≤ 2 ^ 20) :
    (a - (0xb8000 + UInt32.ofNat j)).toNat < n ↔ j ≤ offset a ∧ offset a < j + n := by
  have hj : (UInt32.ofNat j).toNat = j := UInt32.toNat_ofNat_of_lt' (by simp only [UInt32.size]; omega)
  rw [sub_add_eq_sub_sub, Window.sub_toNat_lt_iff (by omega), hj]
  rfl

/-! ## What each write does to the buffer -/

variable {mem : PhysMem}

/-- `crt[i] = x` writes bytes `2i` and `2i+1` of the buffer. -/
theorem setCell_apply {i : Int} (hi : 0 ≤ i) (hi' : i < 2 ^ 18) (x : UInt16) (a : UInt32) :
    setCell mem i x a = if offset a = 2 * i.toNat + 1 then LittleEndian.byte16 x 1
      else if offset a = 2 * i.toNat then LittleEndian.byte16 x 0 else mem a := by
  have one : (1 : UInt32) = UInt32.ofNat 1 := rfl
  have low : v2p (crt + UInt32.ofInt (2 * i)) = 0xb8000 + UInt32.ofNat (2 * i.toNat) := by
    rw [ofInt_two_mul hi (by omega), v2p_crt_add]
  have high : v2p (crt + UInt32.ofInt (2 * i) + 1) = 0xb8000 + UInt32.ofNat (2 * i.toNat + 1) := by
    rw [ofInt_two_mul hi (by omega), one, Mem.add_ofNat_add_ofNat, v2p_crt_add]
  unfold setCell
  rw [low, high, Function.update_apply, Function.update_apply]
  simp only [eq_add_iff_offset (show 2 * i.toNat < 2 ^ 20 by omega),
    eq_add_iff_offset (show 2 * i.toNat + 1 < 2 ^ 20 by omega)]

/-- `memset(crt + p, 0, n)` clears bytes `2p .. 2p+n-1` of the buffer. -/
theorem memset_crt_apply {p : Int} (hp : 0 ≤ p) {n : Nat} (hn : 2 * p.toNat + n ≤ 2 ^ 20) (a : UInt32) :
    memset mem (crt + UInt32.ofInt (2 * p)) 0 n a =
      if 2 * p.toNat ≤ offset a ∧ offset a < 2 * p.toNat + n then 0 else mem a := by
  unfold memset
  rw [ofInt_two_mul hp (by omega), v2p_crt_add]
  simp only [sub_toNat_lt_iff_offset hn]

/-- The scroll's `memmove`: bytes `0 .. 3679` of the buffer from `160` bytes further on. -/
theorem scrollCopy_apply (a : UInt32) :
    scrollCopy mem a = if offset a < 3680 then mem (a + 160) else mem a := by
  have moved := Mem.memmove_moves (kview mem) crt (crt + 2 * 80) (2 * 23 * 80) (by decide) (by decide)
  have count : (2 * 23 * 80 : UInt32).toNat = 3680 := rfl
  rw [count] at moved
  unfold scrollCopy ofKview
  split_ifs with inside
  · -- `a` is byte `offset a` of the destination
    have dst : p2v a = crt + UInt32.ofNat (offset a) := by
      conv_lhs => rw [eq_offset a]
      rw [p2v, crt, p2v]
      abel
    have src : v2p (crt + 2 * 80 + UInt32.ofNat (offset a)) = a + 160 := by
      conv_rhs => rw [eq_offset a]
      rw [v2p, crt, p2v, show (2 * 80 : UInt32) = 160 from rfl]
      abel
    rw [dst, moved.copied _ inside, kview, src]
  · -- and outside the destination nothing changed
    have outside : ∀ i < 3680, p2v a ≠ crt + UInt32.ofNat i := by
      intro i hi same
      have back := congrArg v2p same
      rw [v2p_p2v, v2p_crt_add, eq_add_iff_offset (by omega)] at back
      omega
    rw [moved.frame _ outside, kview, v2p_p2v]

/-! ## Cells -/

/-- Cell `k` of the buffer: the `ushort` at physical `0xb8000 + 2k`. -/
def cellAt (mem : PhysMem) (k : Nat) : UInt16 :=
  LittleEndian.word16 (mem (0xb8000 + UInt32.ofNat (2 * k))) (mem (0xb8000 + UInt32.ofNat (2 * k + 1)))

theorem cellAt_setCell {i : Int} (hi : 0 ≤ i) (hi' : i < 2 ^ 18) (x : UInt16) {k : Nat} (hk : k < 2 ^ 18) :
    cellAt (setCell mem i x) k = if k = i.toNat then x else cellAt mem k := by
  unfold cellAt
  rw [setCell_apply hi hi', setCell_apply hi hi', offset_add (by omega), offset_add (by omega)]
  by_cases same : k = i.toNat
  · rw [if_neg (by omega), if_pos (by omega), if_pos (by omega), if_pos same]
    exact LittleEndian.word16_byte16 x
  · rw [if_neg (by omega), if_neg (by omega), if_neg (by omega), if_neg (by omega), if_neg same]

theorem cellAt_scrollCopy {k : Nat} (hk : k < 2 ^ 18) :
    cellAt (scrollCopy mem) k = if k < 1840 then cellAt mem (k + 80) else cellAt mem k := by
  have moved (j : Nat) : (0xb8000 : UInt32) + UInt32.ofNat j + 160 = 0xb8000 + UInt32.ofNat (j + 160) := by
    rw [UInt32.ofNat_add, ← add_assoc]
    rfl
  unfold cellAt
  rw [scrollCopy_apply, scrollCopy_apply, offset_add (by omega), offset_add (by omega), moved, moved]
  by_cases up : k < 1840
  · rw [if_pos (by omega), if_pos (by omega), if_pos up, show 2 * (k + 80) = 2 * k + 160 by omega,
      show 2 * k + 160 + 1 = 2 * k + 1 + 160 by omega]
  · rw [if_neg (by omega), if_neg (by omega), if_neg up]

theorem cellAt_memset {p : Int} (hp : 0 ≤ p) {n : Nat} (hn : 2 * p.toNat + 2 * n ≤ 2 ^ 20) {k : Nat}
    (hk : k < 2 ^ 18) :
    cellAt (memset mem (crt + UInt32.ofInt (2 * p)) 0 (2 * n)) k =
      if p.toNat ≤ k ∧ k < p.toNat + n then 0 else cellAt mem k := by
  unfold cellAt
  rw [memset_crt_apply hp hn, memset_crt_apply hp hn, offset_add (by omega), offset_add (by omega)]
  by_cases cleared : p.toNat ≤ k ∧ k < p.toNat + n
  · rw [if_pos ⟨by omega, by omega⟩, if_pos ⟨by omega, by omega⟩, if_pos cleared]
    rfl
  · rw [if_neg (fun h => cleared ⟨by omega, by omega⟩), if_neg (fun h => cleared ⟨by omega, by omega⟩),
      if_neg cleared]

/-! ## The cursor -/

theorem Cga.cursor_eq (s : Cga) : s.cursor = 256 * s.cursorHi.toNat + s.cursorLo.toNat := by
  rw [Cga.cursor, ← Nat.shiftLeft_add_eq_or_of_lt s.cursorLo.toNat_lt, Nat.shiftLeft_eq]
  push_cast
  ring

/-- Writing a position to the CRT controller and reading it back gives it again. -/
theorem Cga.cursor_mk (m : PhysMem) {p : Int} (hp : 0 ≤ p) (hp' : p < 2 ^ 16) :
    Cga.cursor ⟨m, UInt8.ofInt (p.shiftRight 8), UInt8.ofInt p⟩ = p := by
  have shift : p.shiftRight 8 = p / 256 := Int.shiftRight_eq_div_pow p 8
  rw [Cga.cursor_eq, shift]
  simp only [UInt8.ofInt, UInt8.toNat_ofNat']
  omega

/-! ## One call: the cursor stays on the screen -/

theorem setCell_of_ne {i : Int} (hi : 0 ≤ i) (hi' : i < 2 ^ 18) (x : UInt16) {a : UInt32}
    (away : offset a < 2 * i.toNat ∨ 2 * i.toNat + 1 < offset a) : setCell mem i x a = mem a := by
  rw [setCell_apply hi hi', if_neg (by omega), if_neg (by omega)]

theorem scroll_of_lt {pos : Int} (h0 : 0 ≤ pos) (h : pos < 1920) : scroll mem pos = (mem, pos) := by
  unfold scroll
  rw [if_neg (by rw [Int.tdiv_eq_ediv_of_nonneg h0]; omega)]

theorem scroll_of_ge {pos : Int} (h : 1920 ≤ pos) (h' : pos ≤ 2000) :
    scroll mem pos = (memset (scrollCopy mem) (crt + UInt32.ofInt (2 * (pos - 80))) 0
      (2 * (2000 - pos).toNat), pos - 80) := by
  have count : (2 * UInt32.ofInt (24 * 80 - (pos - 80))).toNat = 2 * (2000 - pos).toNat := by
    rw [UInt32.toNat_mul, UInt32.ofInt, UInt32.toNat_ofNat']
    simp only [UInt32.reduceToNat]
    omega
  unfold scroll
  rw [if_pos (by rw [Int.tdiv_eq_ediv_of_nonneg (by omega)]; omega)]
  dsimp only
  rw [count]

/-- The scroll's cells: the rows moved up, and the buffer cleared from the new cursor to the
end of row `23`. -/
theorem cellAt_scroll {pos : Int} (h : 1920 ≤ pos) (h' : pos ≤ 2000) {k : Nat} (hk : k < 2 ^ 18) :
    cellAt (scroll mem pos).1 k =
      if (pos - 80).toNat ≤ k ∧ k < 1920 then 0 else if k < 1840 then cellAt mem (k + 80) else cellAt mem k := by
  rw [scroll_of_ge h h', cellAt_memset (by omega) (by omega) hk, cellAt_scrollCopy hk]
  rw [show (pos - 80).toNat + (2000 - pos).toNat = 1920 by omega]

/-- The scroll keeps the cursor at most at the start of row `24`, and writes only rows `0..23`. -/
theorem scroll_bound {pos : Int} (h0 : 0 ≤ pos) (h : pos ≤ 2000) :
    0 ≤ (scroll mem pos).2 ∧ (scroll mem pos).2 ≤ 1920 ∧
      ∀ a, 3840 ≤ offset a → (scroll mem pos).1 a = mem a := by
  by_cases low : pos < 1920
  · rw [scroll_of_lt h0 low]
    exact ⟨h0, by omega, fun _ _ => rfl⟩
  · rw [scroll_of_ge (by omega) h]
    refine ⟨by omega, by omega, fun a above => ?_⟩
    dsimp only
    rw [memset_crt_apply (p := pos - 80) (by omega) (by omega), if_neg (by omega), scrollCopy_apply,
      if_neg (by omega)]

theorem cgaFinish_eq {pos : Int} (h0 : 0 ≤ pos) (h : pos ≤ 2000) :
    cgaFinish mem pos = .ok ⟨setCell (scroll mem pos).1 (scroll mem pos).2 (0x20 ||| 0x0700),
      UInt8.ofInt ((scroll mem pos).2.shiftRight 8), UInt8.ofInt (scroll mem pos).2⟩ := by
  unfold cgaFinish
  rw [if_neg (by omega)]

theorem cgaFinish_safe {pos : Int} (h0 : 0 ≤ pos) (h : pos ≤ 2000) :
    ∃ s', cgaFinish mem pos = .ok s' ∧ s'.cursor ≤ 1920 ∧ ∀ a, 4000 ≤ offset a → s'.mem a = mem a := by
  obtain ⟨lo, hi, kept⟩ := @scroll_bound mem pos h0 h
  refine ⟨_, cgaFinish_eq h0 h, ?_, fun a above => ?_⟩
  · rw [Cga.cursor_mk _ lo (by omega)]
    exact hi
  · show setCell _ (scroll mem pos).2 _ a = mem a
    rw [setCell_of_ne (i := (scroll mem pos).2) lo (by omega) _ (by omega), kept a (by omega)]

/-- The cursor's move from a cursor on the screen stays within `25*80` and writes inside the
buffer's `2000` cells. -/
theorem advance_bound {pos : Int} (h0 : 0 ≤ pos) (h : pos < 2000) (c : Int) :
    0 ≤ (advance mem pos c).2 ∧ (advance mem pos c).2 ≤ 2000 ∧
      ∀ a, 4000 ≤ offset a → (advance mem pos c).1 a = mem a := by
  unfold advance
  split_ifs with nl bs back
  · rw [Int.tmod_eq_emod_of_nonneg h0]
    exact ⟨by omega, by omega, fun _ _ => rfl⟩
  · exact ⟨by omega, by omega, fun _ _ => rfl⟩
  · exact ⟨h0, by omega, fun _ _ => rfl⟩
  · exact ⟨by omega, by omega, fun a above => setCell_of_ne (i := pos) h0 (by omega) _ (by omega)⟩

theorem Cga.cursor_nonneg (s : Cga) : 0 ≤ s.cursor := by
  rw [Cga.cursor_eq]
  omega

/-- **`cgaputc` keeps the cursor on the screen.**  From any cursor position on the screen,
`cgaputc` does not panic, leaves the cursor at most at the start of row `24`, and writes no
byte outside the buffer's `2000` cells. -/
theorem cgaputc_safe {s : Cga} (h : s.cursor < 2000) (c : Int) :
    ∃ s', cgaputc s c = .ok s' ∧ s'.cursor ≤ 1920 ∧ ∀ a, 4000 ≤ offset a → s'.mem a = s.mem a := by
  obtain ⟨lo, hi, kept⟩ := @advance_bound s.mem s.cursor s.cursor_nonneg h c
  obtain ⟨s', finish, bound, kept'⟩ := cgaFinish_safe lo hi
  exact ⟨s', finish, bound, fun a above => (kept' a above).trans (kept a above)⟩

/-! ## One call: the terminal -/

/-- The cells of rows `0..23` in memory are `cells`. -/
def Displays (mem : PhysMem) (cells : Fin 24 → Fin 80 → UInt16) : Prop :=
  ∀ r c, cellAt mem (80 * r.val + c.val) = cells r c

/-- The CGA state shows the terminal: the cursor at the terminal's, and its cells in rows
`0..23`. -/
structure Shows (s : Cga) (t : Term) : Prop where
  cursor : s.cursor = 80 * t.row.val + t.col.val
  cells : Displays s.mem t.cells

variable {cells : Fin 24 → Fin 80 → UInt16}

/-- `crt[80r + c] = x` is `Term.set` of cell `(r, c)`. -/
theorem Displays.set (h : Displays mem cells) (r : Fin 24) (c : Fin 80) (x : UInt16) :
    Displays (setCell mem (80 * r.val + c.val : Nat) x) (Term.set cells r c x) := by
  intro r' c'
  have := r.isLt
  have := c.isLt
  have := r'.isLt
  have := c'.isLt
  rw [cellAt_setCell (by omega) (by omega) x (by omega), Int.toNat_natCast, Term.set]
  by_cases same : r' = r ∧ c' = c
  · obtain ⟨rfl, rfl⟩ := same
    rw [if_pos rfl, Function.update_self, Function.update_self]
  · -- a cell of another row or another column
    have differ : 80 * r'.val + c'.val ≠ 80 * r.val + c.val := fun eq =>
      same ⟨Fin.ext (by omega), Fin.ext (by omega)⟩
    rw [if_neg differ, h r' c']
    by_cases hr : r' = r
    · subst hr
      rw [Function.update_self, Function.update_of_ne (fun hc => same ⟨rfl, hc⟩)]
    · rw [Function.update_of_ne hr]

/-- The scroll from the start of row `24` is `Term.scrollUp`. -/
theorem Displays.scroll (h : Displays mem cells) : Displays (scroll mem 1920).1 (Term.scrollUp cells) := by
  intro r c
  have := c.isLt
  rw [cellAt_scroll le_rfl (by norm_num) (by omega), Term.scrollUp]
  by_cases up : r.val + 1 < 24
  · rw [if_neg (by omega), if_pos (by omega), dif_pos up, ← h ⟨r.val + 1, up⟩ c]
    congr 1
    simp only
    omega
  · rw [if_pos ⟨by omega, by omega⟩, dif_neg up]

/-- The rest of `cgaputc` from a move that the scroll takes to `t`'s cursor, on memory that
the scroll leaves showing `t`'s cells: the terminal with the cursor's cell blanked. -/
theorem cgaFinish_shows {pos : Int} (h0 : 0 ≤ pos) (h : pos ≤ 2000) {t : Term}
    (shown : Displays (scroll mem pos).1 t.cells)
    (at_ : (scroll mem pos).2 = 80 * t.row.val + t.col.val) :
    ∃ s', cgaFinish mem pos = .ok s' ∧ Shows s' t.blank ∧
      ∀ a, 3840 ≤ offset a → s'.mem a = (scroll mem pos).1 a := by
  have := t.row.isLt
  have := t.col.isLt
  obtain ⟨lo, hi, -⟩ := @scroll_bound mem pos h0 h
  refine ⟨_, cgaFinish_eq h0 h, ⟨?_, ?_⟩, fun a above => ?_⟩
  · rw [Cga.cursor_mk _ (by omega) (by omega), at_]
    rfl
  · show Displays (setCell (scroll mem pos).1 (scroll mem pos).2 _) _
    rw [at_]
    exact shown.set t.row t.col _
  · show setCell _ (scroll mem pos).2 _ a = _
    rw [setCell_of_ne (i := (scroll mem pos).2) (by omega) (by omega) _ (by omega)]

/-- `cgaFinish_shows` for a move inside rows `0..23`, which does not scroll. -/
theorem cgaFinish_row {t : Term} (shown : Displays mem t.cells) {pos : Int}
    (at_ : pos = 80 * t.row.val + t.col.val) :
    ∃ s', cgaFinish mem pos = .ok s' ∧ Shows s' t.blank ∧ ∀ a, 3840 ≤ offset a → s'.mem a = mem a := by
  have := t.row.isLt
  have := t.col.isLt
  have still : scroll mem pos = (mem, pos) := scroll_of_lt (by omega) (by omega)
  obtain ⟨s', finish, shows, kept⟩ := @cgaFinish_shows mem pos (by omega) (by omega) t
    (by rw [still]; exact shown) (by rw [still]; exact at_)
  exact ⟨s', finish, shows, by rwa [still] at kept⟩

/-- `cgaFinish_shows` for a move to the start of row `24`, which scrolls: the cursor at the
start of row `23`. -/
theorem cgaFinish_bottom (shown : Displays mem cells) {r : Fin 24} (last : r.val = 23) :
    ∃ s', cgaFinish mem 1920 = .ok s' ∧ Shows s' (Term.blank ⟨Term.scrollUp cells, r, 0⟩) ∧
      ∀ a, 3840 ≤ offset a → s'.mem a = mem a := by
  have up : (scroll mem 1920).2 = 1840 := by
    rw [scroll_of_ge le_rfl (by norm_num)]
    rfl
  obtain ⟨s', finish, shows, kept⟩ := @cgaFinish_shows mem 1920 (by norm_num) (by norm_num)
    ⟨Term.scrollUp cells, r, 0⟩ shown.scroll (by rw [up, last]; rfl)
  obtain ⟨-, -, kept'⟩ := @scroll_bound mem 1920 (by norm_num) (by norm_num)
  exact ⟨s', finish, shows, fun a above => (kept a above).trans (kept' a above)⟩

theorem cgaputc_eq (s : Cga) (c : Int) :
    cgaputc s c = cgaFinish (advance s.mem s.cursor c).1 (advance s.mem s.cursor c).2 := rfl

/-- **`cgaputc` is the terminal's `put`.**  From a state that shows a terminal, `cgaputc c`
does not panic, shows the terminal after `put c`, and writes nothing outside rows `0..23`.
The cases are the cursor's three moves, and in each whether the move leaves the row or the
screen. -/
theorem cgaputc_refines {s : Cga} {t : Term} (h : Shows s t) (c : Int) :
    ∃ s', cgaputc s c = .ok s' ∧ Shows s' (t.put c) ∧ ∀ a, 3840 ≤ offset a → s'.mem a = s.mem a := by
  obtain ⟨cursor, cells⟩ := h
  have hr := t.row.isLt
  have hc := t.col.isLt
  rw [cgaputc_eq, Term.put]
  by_cases nl : c = 10
  · -- a newline: to the start of the next row
    have moved : advance s.mem s.cursor c = (s.mem, 80 * ((t.row.val : Int) + 1)) := by
      rw [advance, if_pos nl, cursor, Int.tmod_eq_emod_of_nonneg (by omega)]
      congr 1
      omega
    rw [moved, if_pos nl, Term.lineFeed]
    dsimp only
    split_ifs with last
    · exact @cgaFinish_row _ ⟨t.cells, ⟨t.row.val + 1, last⟩, 0⟩ cells _ (by simp)
    · rw [show 80 * ((t.row.val : Int) + 1) = 1920 by omega]
      exact cgaFinish_bottom cells (by omega)
  by_cases bs : c = backspace
  · -- back a cell
    have moved : advance s.mem s.cursor c = (s.mem, if s.cursor > 0 then s.cursor - 1 else s.cursor) := by
      rw [advance, if_neg nl, if_pos bs]
    rw [moved, if_neg nl, if_pos bs, Term.back]
    dsimp only
    by_cases col : 0 < t.col.val
    · rw [if_pos (by omega), if_pos col]
      exact cgaFinish_row (t := ⟨t.cells, t.row, ⟨t.col.val - 1, by omega⟩⟩) cells (by simp; omega)
    by_cases row : 0 < t.row.val
    · rw [if_pos (by omega), if_neg col, if_pos row]
      exact cgaFinish_row (t := ⟨t.cells, ⟨t.row.val - 1, by omega⟩, Fin.last 79⟩) cells (by simp; omega)
    · rw [if_neg (by omega), if_neg col, if_neg row]
      exact cgaFinish_row cells cursor
  -- a glyph, written at the cursor
  have moved : advance s.mem s.cursor c =
      (setCell s.mem (80 * t.row.val + t.col.val : Nat) (glyph c), s.cursor + 1) := by
    rw [advance, if_neg nl, if_neg bs, cursor]
    push_cast
    rfl
  have shown := cells.set t.row t.col (glyph c)
  have kept (a : UInt32) (above : 3840 ≤ offset a) :
      setCell s.mem (80 * t.row.val + t.col.val : Nat) (glyph c) a = s.mem a :=
    setCell_of_ne (i := (80 * t.row.val + t.col.val : Nat)) (by omega) (by omega) _
      (by simp only [Int.toNat_natCast]; omega)
  rw [moved, if_neg nl, if_neg bs, Term.print]
  dsimp only
  split_ifs with more
  · obtain ⟨s', finish, shows, kept'⟩ :=
      @cgaFinish_row _ ⟨Term.set t.cells t.row t.col (glyph c), t.row, ⟨t.col.val + 1, more⟩⟩ shown
        (s.cursor + 1) (by simp; omega)
    exact ⟨s', finish, shows, fun a above => (kept' a above).trans (kept a above)⟩
  rw [Term.lineFeed]
  dsimp only
  split_ifs with last
  · obtain ⟨s', finish, shows, kept'⟩ :=
      @cgaFinish_row _ ⟨Term.set t.cells t.row t.col (glyph c), ⟨t.row.val + 1, last⟩, 0⟩ shown
        (s.cursor + 1) (by simp; omega)
    exact ⟨s', finish, shows, fun a above => (kept' a above).trans (kept a above)⟩
  · rw [show s.cursor + 1 = 1920 by omega]
    obtain ⟨s', finish, shows, kept'⟩ := cgaFinish_bottom shown (r := t.row) (by omega)
    exact ⟨s', finish, shows, fun a above => (kept' a above).trans (kept a above)⟩

/-! ## Every write -/

theorem ofInt_toNat_byte (b : UInt8) : UInt8.ofInt (b.toNat : Int) = b := by
  rw [UInt8.ofInt, Int.emod_eq_of_lt (by omega) (by have := b.toNat_lt; omega), Int.toNat_natCast,
    UInt8.ofNat_toNat]

/-- `consputc` of a byte of a write: the byte to the serial port, and `cgaputc`. -/
theorem consputc_byte (s : Console) (b : UInt8) :
    consputc s b.toNat = (cgaputc s.cga b.toNat).map fun cga =>
      { s with cga := cga, serial := s.serial ++ if s.uart then [b] else [] } := by
  have byte : (b.toNat : Int) ≠ backspace := by
    have := b.toNat_lt
    unfold backspace
    omega
  unfold consputc uartputc
  rw [if_neg byte]
  cases uart : s.uart
  · simp [uart]
  · simp [ofInt_toNat_byte]

theorem consolewrite_cons (s : Console) (b : UInt8) (buf : List UInt8) :
    consolewrite s (b :: buf) = consputc s b.toNat >>= fun s => consolewrite s buf := by
  rw [consolewrite, List.foldlM_cons]
  rfl

/-- **A write keeps the cursor on the screen.**  From any cursor on the screen, as the BIOS
leaves it, a `consolewrite` of any bytes never panics, writes nothing outside the buffer's
`2000` cells, and leaves the cursor at most at the start of row `24`, or the state as it was
for an empty write.  The induction is on the bytes; `cgaputc_safe` is the step. -/
theorem consolewrite_safe {s : Console} (h : s.cga.cursor < 2000) (buf : List UInt8) :
    ∃ s', consolewrite s buf = .ok s' ∧ (s'.cga.cursor ≤ 1920 ∨ s' = s) ∧
      ∀ a, 4000 ≤ offset a → s'.cga.mem a = s.cga.mem a := by
  induction buf generalizing s with
  | nil => exact ⟨s, rfl, .inr rfl, fun _ _ => rfl⟩
  | cons b buf ih =>
    obtain ⟨cga, put, bound, kept⟩ := cgaputc_safe h b.toNat
    let s₁ : Console := { s with cga := cga, serial := s.serial ++ if s.uart then [b] else [] }
    obtain ⟨s', rest, bound', kept'⟩ := ih (s := s₁) (by show cga.cursor < 2000; omega)
    refine ⟨s', ?_, .inl ?_, fun a above => (kept' a above).trans (kept a above)⟩
    · rw [consolewrite_cons, consputc_byte, put]
      exact rest
    · rcases bound' with below | rfl
      · exact below
      · exact bound

/-- The BIOS left the cursor on the screen's last cell; a write of `"ab\n"` from there. -/
theorem consolewrite_safe_last_cell :
    Cga.cursor ⟨fun _ => 0, 7, 207⟩ < 2000 ∧
      ∃ s', consolewrite ⟨⟨fun _ => 0, 7, 207⟩, true, []⟩ [97, 98, 10] = .ok s' ∧
        (s'.cga.cursor ≤ 1920 ∨ s' = ⟨⟨fun _ => 0, 7, 207⟩, true, []⟩) ∧
        ∀ a, 4000 ≤ offset a → s'.cga.mem a = 0 := by
  have last : Cga.cursor ⟨fun _ => 0, 7, 207⟩ < 2000 := by
    rw [Cga.cursor_eq]
    decide
  exact ⟨last, consolewrite_safe (s := ⟨⟨fun _ => 0, 7, 207⟩, true, []⟩) last _⟩

/-- **The console is a terminal.**  From a CGA state that shows a terminal, a `consolewrite`
of any bytes never panics, shows the terminal after `Term.putAll` of the bytes, sends the
bytes to the serial port when there is one, and writes nothing outside rows `0..23`.  The
induction is on the bytes; `cgaputc_refines` is the step. -/
theorem consolewrite_refines {s : Console} {t : Term} (h : Shows s.cga t) (buf : List UInt8) :
    ∃ s', consolewrite s buf = .ok s' ∧ Shows s'.cga (t.putAll (buf.map fun b => (b.toNat : Int))) ∧
      s'.uart = s.uart ∧ s'.serial = s.serial ++ (if s.uart then buf else []) ∧
      ∀ a, 3840 ≤ offset a → s'.cga.mem a = s.cga.mem a := by
  induction buf generalizing s t with
  | nil => exact ⟨s, rfl, h, rfl, by simp, fun _ _ => rfl⟩
  | cons b buf ih =>
    obtain ⟨cga, put, shows, kept⟩ := cgaputc_refines h b.toNat
    let s₁ : Console := { s with cga := cga, serial := s.serial ++ if s.uart then [b] else [] }
    obtain ⟨s', rest, shows', uart, serial, kept'⟩ := ih (s := s₁) shows
    refine ⟨s', ?_, shows', uart, ?_, fun a above => (kept' a above).trans (kept a above)⟩
    · rw [consolewrite_cons, consputc_byte, put]
      exact rest
    · rw [serial]
      cases uart : s.uart <;> simp [s₁, uart]

/-- A blank screen with the cursor at its first cell shows the blank terminal; a write of
`"hi"` to it. -/
theorem consolewrite_refines_blank :
    Shows ⟨fun _ => 0, 0, 0⟩ ⟨fun _ _ => 0, 0, 0⟩ ∧
      ∃ s', consolewrite ⟨⟨fun _ => 0, 0, 0⟩, true, []⟩ [104, 105] = .ok s' ∧
        Shows s'.cga (Term.putAll ⟨fun _ _ => 0, 0, 0⟩ ([104, 105].map fun b : UInt8 => (b.toNat : Int))) ∧
        s'.uart = true ∧ s'.serial = [] ++ (if true then [104, 105] else []) ∧
        ∀ a, 3840 ≤ offset a → s'.cga.mem a = 0 := by
  have blank : Shows ⟨fun _ => 0, 0, 0⟩ ⟨fun _ _ => 0, 0, 0⟩ := ⟨by decide, fun _ _ => rfl⟩
  exact ⟨blank, consolewrite_refines (s := ⟨⟨fun _ => 0, 0, 0⟩, true, []⟩) blank _⟩

end Xv6
