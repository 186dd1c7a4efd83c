import Mathlib.Data.Nat.Bitwise
import Mathlib.Tactic.NormNum.Basic

/-!
# Little-endian words in bytes

`word32 b0 b1 b2 b3` assembles four bytes, least significant first, the way C code
writes `b[0] + (b[1]<<8) + (b[2]<<16) + (b[3]<<24)`; `byte32 x k` is the byte
`(uchar)(x >> 8k)` a store of `x` writes at position `k`.  The two are inverse:
`word32_byte32`.  `word16` and `byte16` are the same for the two bytes of a `short`.
-/

namespace LittleEndian

/-- Four bytes, least significant first, as one word. -/
def word32 (b0 b1 b2 b3 : UInt8) : UInt32 :=
  b0.toUInt32 + (b1.toUInt32 <<< 8) + (b2.toUInt32 <<< 16) + (b3.toUInt32 <<< 24)

/-- Byte `k` (least significant first) of a word: `(uchar)(x >> 8k)`. -/
def byte32 (x : UInt32) (k : Nat) : UInt8 := (x >>> UInt32.ofNat (8 * k)).toUInt8

/-- Storing the four bytes of a word and reading them back gives the word. -/
theorem word32_byte32 (x : UInt32) :
    word32 (byte32 x 0) (byte32 x 1) (byte32 x 2) (byte32 x 3) = x := by
  apply UInt32.toNat_inj.mp
  have h0 : (UInt32.ofNat (8 * 0)).toNat = 0 := rfl
  have h8 : (UInt32.ofNat (8 * 1)).toNat = 8 := rfl
  have h16 : (UInt32.ofNat (8 * 2)).toNat = 16 := rfl
  have h24 : (UInt32.ofNat (8 * 3)).toNat = 24 := rfl
  have s8 : (8 : UInt32).toNat = 8 := rfl
  have s16 : (16 : UInt32).toNat = 16 := rfl
  have s24 : (24 : UInt32).toNat = 24 := rfl
  simp only [word32, byte32, UInt32.toNat_add, UInt32.toNat_shiftLeft, UInt32.toNat_shiftRight,
    UInt8.toNat_toUInt32, UInt32.toNat_toUInt8, h0, h8, h16, h24, s8, s16, s24,
    Nat.shiftLeft_eq, Nat.shiftRight_eq_div_pow]
  have hx := x.toNat_lt
  norm_num
  omega

/-- Four zero bytes are the zero word. -/
theorem word32_zero : word32 0 0 0 0 = 0 := rfl

/-- Two bytes, least significant first, as one half-word. -/
def word16 (b0 b1 : UInt8) : UInt16 := b0.toUInt16 + (b1.toUInt16 <<< 8)

/-- Byte `k` (least significant first) of a half-word. -/
def byte16 (x : UInt16) (k : Nat) : UInt8 := (x >>> UInt16.ofNat (8 * k)).toUInt8

theorem word16_byte16 (x : UInt16) : word16 (byte16 x 0) (byte16 x 1) = x := by
  apply UInt16.toNat_inj.mp
  have h0 : (UInt16.ofNat (8 * 0)).toNat = 0 := rfl
  have h8 : (UInt16.ofNat (8 * 1)).toNat = 8 := rfl
  have s8 : (8 : UInt16).toNat = 8 := rfl
  simp only [word16, byte16, UInt16.toNat_add, UInt16.toNat_shiftLeft, UInt16.toNat_shiftRight,
    UInt8.toNat_toUInt16, UInt16.toNat_toUInt8, h0, h8, s8, Nat.shiftLeft_eq,
    Nat.shiftRight_eq_div_pow]
  have hx := x.toNat_lt
  norm_num
  omega

end LittleEndian
