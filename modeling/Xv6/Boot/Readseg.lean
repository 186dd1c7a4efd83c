import Xv6.Lib.Window
import Xv6.Vm.Copyout

/-!
# The boot loader's disk reads

`bootmain.c`'s `readsect` and `readseg`, and `x86.h`'s `stosb`.  The boot loader reads the
kernel from drive `0` of the IDE controller, the kernel's byte `k` in sector `k / 512 + 1`
(`kernelByte`): `readsect` writes the sector number into the task-file registers and
`insl` copies the sector's 128 words to memory; `readseg` rounds its destination down to a
sector boundary and reads sector after sector until it has passed the end.

* `taskFile_of_lt`: below `2^28`, the registers name sector `offset` of drive `0`;
* `readsegLoop_eq`: a loop that does not wrap copies consecutive sectors into consecutive
  windows of memory and leaves the rest of it alone;
* `readseg_window`: `readseg` writes the kernel's bytes from the start of `offset`'s sector
  on, from `pa` rounded down, and nothing outside.

`waitdisk`'s polling of the status port is not modelled: a command here completes.
-/

namespace Xv6

namespace Boot

/-- `SECTSIZE`. -/
def sectSize : UInt32 := 512

/-- The drive and sector the controller reads after `readsect` has written `offset` into the
task-file registers: the sector number from `0x1F3`, `0x1F4`, `0x1F5` and the low four bits
of `0x1F6`, the drive from its bit `4`. -/
def taskFile (offset : UInt32) : Nat × Nat :=
  let head : UInt8 := ((offset >>> 24) ||| 0xE0).toUInt8
  (((head >>> 4) &&& 1).toNat,
    offset.toUInt8.toNat + (offset >>> 8).toUInt8.toNat * 2 ^ 8 +
      (offset >>> 16).toUInt8.toNat * 2 ^ 16 + (head &&& 0x0F).toNat * 2 ^ 24)

/-- Byte `k` of the sector `readsect` reads for `offset`. -/
def sectorByte (disk : Nat → Nat → Block) (offset : UInt32) (k : Nat) : UInt8 :=
  disk (taskFile offset).1 (taskFile offset).2 ⟨k % bsize, Nat.mod_lt _ (by decide)⟩

/-- Byte `k` of the kernel: sector `k / 512 + 1` of drive `0`, the boot block being sector `0`. -/
def kernelByte (disk : Nat → Nat → Block) (k : Nat) : UInt8 :=
  disk 0 (k / bsize + 1) ⟨k % bsize, Nat.mod_lt _ (by decide)⟩

/-- `readsect(dst, offset)`: the controller reads the sector the task file names, and `insl`
stores its 128 words, byte by byte in order, from `dst` on. -/
def readsect (disk : Nat → Nat → Block) (mem : PhysMem) (dst offset : UInt32) : PhysMem :=
  fun a => if (a - dst).toNat < bsize then sectorByte disk offset (a - dst).toNat else mem a

/-- `readseg`'s loop: one sector per turn while `pa < epa`.  `pa` moves by `SECTSIZE` modulo
`2^32` and is back where it started after `2^23` turns, so with the fuel `readseg` gives, the
loop runs out of fuel exactly when it never ends. -/
def readsegLoop (disk : Nat → Nat → Block) :
    Nat → PhysMem → UInt32 → UInt32 → UInt32 → Option PhysMem
  | 0, _, _, _, _ => none
  | fuel + 1, mem, pa, epa, offset =>
    if pa < epa then readsegLoop disk fuel (readsect disk mem pa offset) (pa + sectSize) epa (offset + 1)
    else some mem

/-- `readseg(pa, count, offset)`: `count` bytes of the kernel from `offset` on to `pa`, from the
start of `offset`'s sector, so that it may write more than asked. -/
def readseg (disk : Nat → Nat → Block) (mem : PhysMem) (pa count offset : UInt32) : Option PhysMem :=
  readsegLoop disk (2 ^ 23) mem (pa - offset % sectSize) (pa + count) (offset / sectSize + 1)

/-- `stosb(addr, data, cnt)`: `cnt` bytes of `data` from `addr` on. -/
def stosb (mem : PhysMem) (addr : UInt32) (data : UInt8) (cnt : UInt32) : PhysMem :=
  fun a => if (a - addr).toNat < cnt.toNat then data else mem a

/-! ## The task file -/

/-- The high byte `readsect` writes to `0x1F6` for a sector number below `2^28`: bit `4`
clear, so drive `0`, and the sector number's top nibble below it. -/
theorem head_bits {y : UInt32} (hy : y.toNat < 16) :
    (((y ||| 0xE0).toUInt8 >>> 4) &&& 1).toNat = 0 ∧ ((y ||| 0xE0).toUInt8 &&& 0x0F).toNat = y.toNat := by
  have nibbles : ∀ k : Fin 16, ((((UInt32.ofNat k.val) ||| 0xE0).toUInt8 >>> 4) &&& 1).toNat = 0 ∧
      (((UInt32.ofNat k.val) ||| 0xE0).toUInt8 &&& 0x0F).toNat = (UInt32.ofNat k.val).toNat := by
    decide
  simpa using nibbles ⟨y.toNat, hy⟩

/-- Below `2^28` the task file names sector `offset` of drive `0`. -/
theorem taskFile_of_lt {offset : UInt32} (h : offset.toNat < 2 ^ 28) : taskFile offset = (0, offset.toNat) := by
  have top : (offset >>> 24).toNat < 16 := by
    rw [UInt32.toNat_shiftRight]
    simp only [UInt32.reduceToNat, Nat.reduceMod, Nat.shiftRight_eq_div_pow]
    omega
  obtain ⟨drive, nibble⟩ := head_bits top
  unfold taskFile
  dsimp only
  rw [drive, nibble]
  simp only [UInt32.toNat_toUInt8, UInt32.toNat_shiftRight, UInt32.reduceToNat, Nat.reduceMod,
    Nat.shiftRight_eq_div_pow]
  congr 1
  omega

/-- The bytes of the sector `readsect` reads for sector number `s`, below `2^28`, are the
kernel's from `(s - 1) * 512` on. -/
theorem sectorByte_eq {disk : Nat → Nat → Block} {s : UInt32} (pos : 1 ≤ s.toNat)
    (h : s.toNat < 2 ^ 28) {k : Nat} (hk : k < 512) :
    sectorByte disk s k = kernelByte disk ((s.toNat - 1) * 512 + k) := by
  unfold sectorByte kernelByte
  rw [taskFile_of_lt h]
  simp only [bsize]
  congr 2
  · omega
  · omega

/-! ## The loop -/

/-- `readsect` writes the `512` bytes from `dst`, when they do not wrap. -/
theorem readsect_apply {disk : Nat → Nat → Block} {mem : PhysMem} {dst : UInt32} (offset : UInt32)
    (fits : dst.toNat + 512 ≤ 2 ^ 32) (a : UInt32) :
    readsect disk mem dst offset a =
      if dst.toNat ≤ a.toNat ∧ a.toNat < dst.toNat + 512 then
        sectorByte disk offset (a.toNat - dst.toNat) else mem a := by
  show (if (a - dst).toNat < 512 then _ else _) = _
  by_cases inside : dst.toNat ≤ a.toNat ∧ a.toNat < dst.toNat + 512
  · rw [if_pos ((Window.sub_toNat_lt_iff fits).mpr inside), if_pos inside, Window.sub_toNat inside.1]
  · rw [if_neg (fun h => inside ((Window.sub_toNat_lt_iff fits).mp h)), if_neg inside]

/-- **The loop that does not wrap.**  From `pa`, `n` turns to pass `epa`, the last of them
ending below `2^32`: the loop returns with sector `offset + i` in the `i`-th window of `512`
bytes from `pa`, and the rest of memory as it was.  The induction is on `n`; each turn's
window lies below the ones the rest of the loop writes. -/
theorem readsegLoop_eq (disk : Nat → Nat → Block) (n : Nat) :
    ∀ (fuel : Nat) (mem : PhysMem) (pa epa offset : UInt32), n < fuel →
      epa.toNat ≤ pa.toNat + 512 * n → pa.toNat + 512 * n < epa.toNat + 512 →
      pa.toNat + 512 * n < 2 ^ 32 →
      readsegLoop disk fuel mem pa epa offset = some fun a =>
        if pa.toNat ≤ a.toNat ∧ a.toNat < pa.toNat + 512 * n then
          sectorByte disk (offset + UInt32.ofNat ((a.toNat - pa.toNat) / 512)) ((a.toNat - pa.toNat) % 512)
        else mem a := by
  induction n with
  | zero =>
    rintro (_ | fuel) mem pa epa offset more past - -
    · cases more
    have done : ¬pa < epa := by
      rw [UInt32.lt_iff_toNat_lt]
      omega
    rw [readsegLoop, if_neg done]
    refine congrArg some (funext fun a => ?_)
    rw [if_neg (by omega)]
  | succ n ih =>
    rintro (_ | fuel) mem pa epa offset more past last fits
    · cases more
    -- `omega` is given `512 * n + 512` rather than `512 * (n + 1)`
    rw [Nat.mul_succ] at past last fits ⊢
    have going : pa < epa := by
      rw [UInt32.lt_iff_toNat_lt]
      omega
    have next : (pa + sectSize).toNat = pa.toNat + 512 := by
      rw [UInt32.toNat_add]
      simp only [sectSize, UInt32.reduceToNat]
      omega
    rw [readsegLoop, if_pos going, ih fuel _ _ epa _ (by omega) (by rw [next]; omega)
      (by rw [next]; omega) (by rw [next]; omega)]
    refine congrArg some (funext fun a => ?_)
    rw [next, readsect_apply offset (by omega)]
    clear going next
    by_cases first : pa.toNat ≤ a.toNat ∧ a.toNat < pa.toNat + 512
    · -- the first turn's window: sector `offset` itself
      have notRest : ¬(pa.toNat + 512 ≤ a.toNat ∧ a.toNat < pa.toNat + 512 + 512 * n) := by omega
      have whole : pa.toNat ≤ a.toNat ∧ a.toNat < pa.toNat + (512 * n + 512) := ⟨first.1, by omega⟩
      rw [if_neg notRest, if_pos first, if_pos whole]
      have zero : (a.toNat - pa.toNat) / 512 = 0 := by omega
      rw [zero, Nat.mod_eq_of_lt (by omega)]
      simp
    · by_cases rest : pa.toNat + 512 ≤ a.toNat ∧ a.toNat < pa.toNat + 512 + 512 * n
      · -- a later turn's window: one sector further on
        have whole : pa.toNat ≤ a.toNat ∧ a.toNat < pa.toNat + (512 * n + 512) :=
          ⟨by omega, by omega⟩
        rw [if_pos rest, if_pos whole]
        have step : (a.toNat - pa.toNat) / 512 = (a.toNat - (pa.toNat + 512)) / 512 + 1 := by omega
        have within : (a.toNat - pa.toNat) % 512 = (a.toNat - (pa.toNat + 512)) % 512 := by omega
        have later : offset + 1 + UInt32.ofNat ((a.toNat - (pa.toNat + 512)) / 512) =
            offset + (UInt32.ofNat ((a.toNat - (pa.toNat + 512)) / 512) + 1) := by
          rw [UInt32.add_assoc, UInt32.add_comm 1]
        rw [step, within, UInt32.ofNat_add, UInt32.ofNat_one, later]
      · have outside : ¬(pa.toNat ≤ a.toNat ∧ a.toNat < pa.toNat + (512 * n + 512)) := by
          rintro ⟨lo, hi⟩
          by_cases low : a.toNat < pa.toNat + 512
          · exact first ⟨lo, low⟩
          · exact rest ⟨by omega, by omega⟩
        rw [if_neg rest, if_neg first, if_neg outside]

/-- **What `readseg` writes.**  When rounding `pa` down does not go below `0`, the sectors it
reads end below `2^32` and lie below `2^28`: `readseg` returns with the kernel's bytes from the
start of `offset`'s sector in the window of whole sectors from `pa - offset % 512` that covers
`pa .. pa + count`, and the rest of memory as it was. -/
theorem readseg_window {disk : Nat → Nat → Block} {mem : PhysMem} {pa count offset : UInt32}
    (below : offset.toNat % 512 ≤ pa.toNat)
    (fits : pa.toNat - offset.toNat % 512 + 512 * ((count.toNat + offset.toNat % 512 + 511) / 512) < 2 ^ 32)
    (lba : offset.toNat / 512 + 1 + (count.toNat + offset.toNat % 512 + 511) / 512 ≤ 2 ^ 28) :
    readseg disk mem pa count offset = some fun a =>
      if pa.toNat - offset.toNat % 512 ≤ a.toNat ∧
          a.toNat < pa.toNat - offset.toNat % 512 + 512 * ((count.toNat + offset.toNat % 512 + 511) / 512) then
        kernelByte disk (offset.toNat - offset.toNat % 512 + (a.toNat - (pa.toNat - offset.toNat % 512)))
      else mem a := by
  have low : (pa - offset % sectSize).toNat = pa.toNat - offset.toNat % 512 := by
    rw [Window.sub_toNat (by simp only [UInt32.toNat_mod, sectSize, UInt32.reduceToNat]; exact below)]
    simp [sectSize]
  have epa : (pa + count).toNat = pa.toNat + count.toNat := by
    rw [UInt32.toNat_add]
    omega
  have first : (offset / sectSize + 1).toNat = offset.toNat / 512 + 1 := by
    rw [UInt32.toNat_add, UInt32.toNat_div]
    simp only [sectSize, UInt32.reduceToNat]
    omega
  unfold readseg
  rw [readsegLoop_eq disk ((count.toNat + offset.toNat % 512 + 511) / 512) _ _ _ _ _
    (by omega) (by rw [low, epa]; omega) (by rw [low, epa]; omega) (by rw [low]; exact fits)]
  congr 1
  funext a
  rw [low]
  split_ifs with inside
  · -- the sector of the `i`-th window is the kernel's sector `offset / 512 + i`
    have sector : (offset / sectSize + 1 +
        UInt32.ofNat ((a.toNat - (pa.toNat - offset.toNat % 512)) / 512)).toNat =
        offset.toNat / 512 + 1 + (a.toNat - (pa.toNat - offset.toNat % 512)) / 512 := by
      rw [UInt32.toNat_add, first, UInt32.toNat_ofNat']
      omega
    rw [sectorByte_eq (by omega) (by omega) (Nat.mod_lt _ (by decide)), sector]
    congr 1
    omega
  · rfl

/-- `stosb` over bytes that do not wrap. -/
theorem stosb_apply {mem : PhysMem} {addr : UInt32} {data : UInt8} {cnt : UInt32}
    (fits : addr.toNat + cnt.toNat ≤ 2 ^ 32) (a : UInt32) :
    stosb mem addr data cnt a =
      if addr.toNat ≤ a.toNat ∧ a.toNat < addr.toNat + cnt.toNat then data else mem a := by
  unfold stosb
  by_cases inside : addr.toNat ≤ a.toNat ∧ a.toNat < addr.toNat + cnt.toNat
  · rw [if_pos ((Window.sub_toNat_lt_iff fits).mpr inside), if_pos inside]
  · rw [if_neg (fun h => inside ((Window.sub_toNat_lt_iff fits).mp h)), if_neg inside]

end Boot

end Xv6
