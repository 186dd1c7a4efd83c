import Xv6.Param

/-!
# `printint` and `atoi`

`printf.c` and `console.c` print an `int` by the same loop: the digits of `x` in `base`,
least significant first, into `buf[16]`, then a `-` for a negative `x` when a sign is asked
for, then the buffer backward.  The two files differ in their digit tables (upper- and
lower-case hex) and in where the characters go; `printDigits` is the loop over a digit
table, and each `printint` is it at its file's table.  `atoi` (`ulib.c`) reads the digits
back in `int`.

* `digitLoop_eq`: the loop stores the Mathlib digits of `x` (a `0` for `0`), so it ends
  within its `32` turns for every base from `2` on;
* `printDigits_eq`: what `printint` prints is the sign and then `numeral`, the digits most
  significant first, of `|x|` or of `x` read as a `uint`;
* `atoi_numeral`: `atoi` of a numeral is its value, modulo `2^32` as `int` holds it.
-/

namespace Xv6

/-- `digits[]` of `printf.c`. -/
def Printf.digits : List Char := "0123456789ABCDEF".toList

/-- `digits[]` of `console.c`. -/
def Console.digits : List Char := "0123456789abcdef".toList

/-- `do{ buf[i++] = digits[x % base]; }while((x /= base) != 0);`: the characters the loop
stores, least significant digit first.  A `uint` has at most `32` digits in a base of at
least `2`, so `32` turns end the loop (`digitLoop_eq`). -/
def digitLoop (digits : List Char) (base : UInt32) : Nat → UInt32 → List Char
  | 0, _ => []
  | fuel + 1, x =>
    digits.getD (x % base).toNat ' ' ::
      if x / base ≠ 0 then digitLoop digits base fuel (x / base) else []

/-- `printint(xx, base, sgn)` over the digit table `digits`: the characters it prints.  `x` is
`-xx` in `int` read as a `uint` when `xx` is negative and a sign is asked for, and `xx` read
as a `uint` otherwise; `x % base` converts `base` to `uint`. -/
def printDigits (digits : List Char) (xx base : Int32) (sgn : Bool) : List Char :=
  let neg := sgn && decide (xx < 0)
  let x := if neg then (-xx).toUInt32 else xx.toUInt32
  let buf := digitLoop digits base.toUInt32 32 x ++ if neg then ['-'] else []
  -- `while(--i >= 0) putc(fd, buf[i]);`
  buf.reverse

/-- `printint(fd, xx, base, sgn)` (`printf.c`): the characters it writes to `fd`. -/
def Printf.printint (xx base : Int32) (sgn : Bool) : List Char :=
  printDigits Printf.digits xx base sgn

/-- `printint(xx, base, sign)` (`console.c`): the characters it passes to `consputc`.  Its
test `sign && (sign = xx < 0)` leaves `sign` set exactly when `printf.c`'s `neg` is. -/
def Console.printint (xx base : Int32) (sign : Bool) : List Char :=
  printDigits Console.digits xx base sign

/-- `atoi`'s loop: `n = n*10 + *s++ - '0'`, in `int`, while `*s` is a digit. -/
def atoiLoop (n : Int32) : List Char → Int32
  | c :: s => if '0' ≤ c ∧ c ≤ '9' then atoiLoop (n * 10 + Int32.ofNat c.toNat - 48) s else n
  | [] => n

/-- `atoi(s)` (`ulib.c`), `s` the characters before its `NUL`. -/
def atoi (s : List Char) : Int32 := atoiLoop 0 s

/-- The digits of `n` in base `b`, most significant first, and `[0]` for `0`: the Mathlib
digits, which have no leading zero, reversed. -/
def numeral (b n : Nat) : List Nat := if n = 0 then [0] else (Nat.digits b n).reverse

/-! ## The digit loop -/

/-- The loop stores the digits of `x`, least significant first.  The induction is on the
fuel; a turn that leaves a nonzero quotient needs the next. -/
theorem digitLoop_eq (digits : List Char) {base : UInt32} (hb : 2 ≤ base.toNat) :
    ∀ (fuel : Nat) (x : UInt32), 0 < fuel → x.toNat < base.toNat ^ fuel →
      digitLoop digits base fuel x = (numeral base.toNat x.toNat).reverse.map (digits.getD · ' ')
  | 0, _, pos, _ => absurd pos (Nat.lt_irrefl 0)
  | fuel + 1, x, _, hx => by
    have quot : (x / base).toNat = x.toNat / base.toNat := UInt32.toNat_div x base
    have rem : (x % base).toNat = x.toNat % base.toNat := UInt32.toNat_mod x base
    rw [digitLoop]
    by_cases last : x / base = 0
    · -- one digit: `x < base`
      have small : x.toNat < base.toNat := by
        have := congrArg UInt32.toNat last
        rw [quot, UInt32.toNat_zero, Nat.div_eq_zero_iff] at this
        omega
      rw [if_neg (not_not.mpr last), rem, Nat.mod_eq_of_lt small]
      by_cases zero : x.toNat = 0
      · simp [numeral, zero]
      · simp [numeral, zero, Nat.digits_of_lt base.toNat x.toNat zero small]
    · have big : base.toNat ≤ x.toNat := by
        by_contra small
        apply last
        apply UInt32.toNat_inj.mp
        rw [quot, UInt32.toNat_zero]
        exact Nat.div_eq_of_lt (by omega)
      have more : 0 < fuel := by
        rcases fuel with _ | fuel
        · rw [pow_one] at hx
          omega
        · omega
      have next : (x / base).toNat < base.toNat ^ fuel := by
        rw [quot, Nat.div_lt_iff_lt_mul (by omega), ← pow_succ]
        exact hx
      have nonzero : x.toNat / base.toNat ≠ 0 := by
        rw [← quot]
        exact fun z => last (UInt32.toNat_inj.mp (by simpa using z))
      rw [if_pos last, digitLoop_eq digits hb fuel (x / base) more next, rem]
      have xpos : x.toNat ≠ 0 := by omega
      simp only [numeral, nonzero, xpos, if_false, List.reverse_reverse,
        Nat.digits_def' (show 1 < base.toNat by omega) (Nat.pos_of_ne_zero xpos), List.map_cons,
        quot]

/-! ## The magnitude `printint` prints -/

theorem toNat_toUInt32 (x : Int32) :
    (x.toUInt32.toNat : Int) = if x.toInt < 0 then x.toInt + 2 ^ 32 else x.toInt := by
  rw [Int32.toInt, ← Int32.toNat_toBitVec, BitVec.toInt_eq_toNat_cond]
  have := x.toBitVec.isLt
  split_ifs <;> omega

/-- `x = -xx` read as a `uint`, for a negative `xx`: `|xx|`, also for `INT_MIN`. -/
theorem toNat_toUInt32_neg {xx : Int32} (neg : xx < 0) :
    (-xx).toUInt32.toNat = xx.toInt.natAbs := by
  have lt := Int32.lt_iff_toInt_lt.mp neg
  have sum := toNat_toUInt32 xx
  rw [Int32.toInt_zero, if_pos lt] at *
  rw [Int32.toUInt32_neg, UInt32.toNat_neg]
  have range := xx.le_toInt
  have := xx.toUInt32.toNat_lt
  simp only [UInt32.size]
  omega

theorem toNat_toUInt32_of_nonneg {xx : Int32} (nonneg : ¬ xx < 0) :
    xx.toUInt32.toNat = xx.toInt.natAbs := by
  have sum := toNat_toUInt32 xx
  have ge : 0 ≤ xx.toInt := by
    have := mt Int32.lt_iff_toInt_lt.mpr nonneg
    rw [Int32.toInt_zero] at this
    omega
  rw [if_neg (by omega)] at sum
  omega

/-- What `printint(xx, base, sgn)` prints, for a base from `2` on: the sign when `xx` is
negative and a sign was asked for, then the digits of `|xx|`, or of `xx` read as a `uint`. -/
theorem printDigits_eq (digits : List Char) (xx base : Int32) (sgn : Bool)
    (hb : 2 ≤ base.toUInt32.toNat) :
    printDigits digits xx base sgn =
      (if sgn ∧ xx < 0 then ['-'] else []) ++
        (numeral base.toUInt32.toNat
          (if sgn ∧ xx < 0 then xx.toInt.natAbs else xx.toUInt32.toNat)).map (digits.getD · ' ') := by
  have enough : ∀ y : UInt32, y.toNat < base.toUInt32.toNat ^ 32 := fun y =>
    lt_of_lt_of_le y.toNat_lt (Nat.pow_le_pow_left hb 32)
  unfold printDigits
  by_cases neg : sgn ∧ xx < 0
  · have flag : (sgn && decide (xx < 0)) = true := by simp [neg.1, neg.2]
    simp only [flag, if_true, if_pos neg, digitLoop_eq digits hb 32 _ (by decide) (enough _),
      List.reverse_append, List.reverse_cons, List.reverse_nil, List.nil_append,
      List.singleton_append, ← List.map_reverse, List.reverse_reverse, toNat_toUInt32_neg neg.2]
  · have flag : (sgn && decide (xx < 0)) = false := by
      cases sgn <;> simp_all
    simp only [flag, Bool.false_eq_true, if_false, if_neg neg, List.append_nil, List.nil_append,
      digitLoop_eq digits hb 32 _ (by decide) (enough _), ← List.map_reverse,
      List.reverse_reverse]

/-! ## The digit tables -/

theorem printf_digit {d : Nat} (h : d < 16) : Printf.digits.getD d ' ' = (Nat.digitChar d).toUpper := by
  have table : ∀ d < 16, Printf.digits.getD d ' ' = (Nat.digitChar d).toUpper := by decide
  exact table d h

theorem console_digit {d : Nat} (h : d < 16) : Console.digits.getD d ' ' = Nat.digitChar d := by
  have table : ∀ d < 16, Console.digits.getD d ' ' = Nat.digitChar d := by decide
  exact table d h

theorem toUpper_digitChar {d : Nat} (h : d < 10) : (Nat.digitChar d).toUpper = Nat.digitChar d := by
  have table : ∀ d < 10, (Nat.digitChar d).toUpper = Nat.digitChar d := by decide
  exact table d h

theorem lt_of_mem_numeral {b n d : Nat} (hb : 2 ≤ b) (h : d ∈ numeral b n) : d < b := by
  unfold numeral at h
  split at h
  · rw [List.mem_singleton] at h
    omega
  · exact Nat.digits_lt_base (by omega) (List.mem_reverse.mp h)

/-- A numeral read through a digit table that agrees with `f` below the base. -/
theorem map_numeral_congr {b n : Nat} (hb : 2 ≤ b) {f g : Nat → Char}
    (agree : ∀ d < b, f d = g d) : (numeral b n).map f = (numeral b n).map g :=
  List.map_congr_left fun d mem => agree d (lt_of_mem_numeral hb mem)

theorem numeral_head_ne_zero (b : Nat) {n : Nat} (hn : n ≠ 0) : (numeral b n).head? ≠ some 0 := by
  rw [numeral, if_neg hn, List.head?_reverse,
    List.getLast?_eq_some_getLast (Nat.digits_ne_nil_iff_ne_zero.mpr hn)]
  exact fun same => Nat.getLast_digit_ne_zero b hn (Option.some.inj same)

theorem length_numeral {b n k : Nat} (hb : 2 ≤ b) (hk : 0 < k) (h : n < b ^ k) :
    (numeral b n).length ≤ k := by
  unfold numeral
  split
  · rw [List.length_singleton]
    omega
  · rw [List.length_reverse]
    exact (Nat.digits_length_le_iff (by omega) n).mpr h

/-! ## `atoi` -/

theorem digitChar_is_digit {d : Nat} (h : d < 10) :
    '0' ≤ Nat.digitChar d ∧ Nat.digitChar d ≤ '9' ∧ (Nat.digitChar d).toNat = 48 + d := by
  have table : ∀ d < 10, '0' ≤ Nat.digitChar d ∧ Nat.digitChar d ≤ '9' ∧
      (Nat.digitChar d).toNat = 48 + d := by decide
  exact table d h

/-- `atoi`'s loop over decimal digits accumulates their value, modulo `2^32` as `int` does.
The induction is on the digits. -/
theorem atoiLoop_digits (l : List Nat) (hl : ∀ d ∈ l, d < 10) (a : Nat) :
    atoiLoop (Int32.ofNat a) (l.map Nat.digitChar) = Int32.ofNat (l.foldl (fun y x => x + 10 * y) a) := by
  induction l generalizing a with
  | nil => rfl
  | cons d l ih =>
    obtain ⟨lo, hi, code⟩ := digitChar_is_digit (hl d List.mem_cons_self)
    rw [List.map_cons, atoiLoop, if_pos ⟨lo, hi⟩, code, List.foldl_cons,
      ← ih (fun x hx => hl x (List.mem_cons_of_mem _ hx))]
    congr 1
    rw [Int32.ofNat_add, Int32.ofNat_add, Int32.ofNat_mul]
    grind

theorem foldl_numeral (n : Nat) : (numeral 10 n).foldl (fun y x => x + 10 * y) 0 = n := by
  unfold numeral
  split
  · rename_i zero
    simp [zero]
  · have value := Nat.ofDigits_digits 10 n
    rw [Nat.ofDigits_eq_foldr] at value
    rw [List.foldl_reverse]
    simpa using value

/-- `atoi` of the decimal numeral of `n` is `n` modulo `2^32`, as `int` holds it. -/
theorem atoi_numeral (n : Nat) : atoi ((numeral 10 n).map Nat.digitChar) = Int32.ofNat n := by
  rw [atoi, show (0 : Int32) = Int32.ofNat 0 from rfl,
    atoiLoop_digits _ (fun d mem => lt_of_mem_numeral (by decide) mem), foldl_numeral]

/-! ## The two `printint`s -/

theorem printint_exact (x : Int32) :
    Printf.printint x 10 true =
        (if x < 0 then ['-'] else []) ++ (numeral 10 x.toInt.natAbs).map Nat.digitChar ∧
      Console.printint x 10 true =
        (if x < 0 then ['-'] else []) ++ (numeral 10 x.toInt.natAbs).map Nat.digitChar ∧
      Printf.printint x 16 false =
        (numeral 16 x.toUInt32.toNat).map (fun d => (Nat.digitChar d).toUpper) ∧
      Console.printint x 16 false = (numeral 16 x.toUInt32.toNat).map Nat.digitChar ∧
      (x ≠ 0 → (numeral 10 x.toInt.natAbs).head? ≠ some 0 ∧
        (numeral 16 x.toUInt32.toNat).head? ≠ some 0) ∧
      (Printf.printint x 10 true).length ≤ 16 ∧ (Printf.printint x 16 false).length ≤ 16 ∧
      (Console.printint x 10 true).length ≤ 16 ∧ (Console.printint x 16 false).length ≤ 16 ∧
      (0 ≤ x → atoi (Printf.printint x 10 true) = x) := by
  have ten : (10 : Int32).toUInt32.toNat = 10 := rfl
  have sixteen : (16 : Int32).toUInt32.toNat = 16 := rfl
  -- `|x|` has at most ten decimal digits, and `x` as a `uint` at most eight hex ones
  have abs_lt : x.toInt.natAbs ≤ 2 ^ 31 := by
    have := x.le_toInt
    have := x.toInt_lt
    omega
  have decimal := length_numeral (b := 10) (k := 10) (n := x.toInt.natAbs) (by decide) (by decide)
    (by omega)
  have hex := length_numeral (b := 16) (k := 8) (n := x.toUInt32.toNat) (by decide) (by decide)
    x.toUInt32.toNat_lt
  have decimalU := length_numeral (b := 10) (k := 10) (n := x.toUInt32.toNat) (by decide)
    (by decide) (lt_of_lt_of_le x.toUInt32.toNat_lt (by decide))
  have printfDec : Printf.printint x 10 true =
      (if x < 0 then ['-'] else []) ++ (numeral 10 x.toInt.natAbs).map Nat.digitChar := by
    rw [Printf.printint, printDigits_eq _ _ _ _ (by rw [ten]; decide), ten]
    by_cases neg : x < 0
    · simp only [neg, and_self, if_true]
      exact congrArg _ (map_numeral_congr (by decide) fun d hd => by
        rw [printf_digit (by omega), toUpper_digitChar hd])
    · simp only [neg, and_false, if_false, toNat_toUInt32_of_nonneg neg]
      exact map_numeral_congr (by decide) fun d hd => by
        rw [printf_digit (by omega), toUpper_digitChar hd]
  have consoleDec : Console.printint x 10 true =
      (if x < 0 then ['-'] else []) ++ (numeral 10 x.toInt.natAbs).map Nat.digitChar := by
    rw [Console.printint, printDigits_eq _ _ _ _ (by rw [ten]; decide), ten]
    by_cases neg : x < 0
    · simp only [neg, and_self, if_true]
      exact congrArg _ (map_numeral_congr (by decide) fun d hd => console_digit (by omega))
    · simp only [neg, and_false, if_false, toNat_toUInt32_of_nonneg neg]
      exact map_numeral_congr (by decide) fun d hd => console_digit (by omega)
  have printfHex : Printf.printint x 16 false =
      (numeral 16 x.toUInt32.toNat).map fun d => (Nat.digitChar d).toUpper := by
    rw [Printf.printint, printDigits_eq _ _ _ _ (by rw [sixteen]; decide), sixteen]
    simp only [Bool.false_eq_true, false_and, if_false, List.nil_append]
    exact map_numeral_congr (by decide) fun d hd => printf_digit hd
  have consoleHex : Console.printint x 16 false = (numeral 16 x.toUInt32.toNat).map Nat.digitChar := by
    rw [Console.printint, printDigits_eq _ _ _ _ (by rw [sixteen]; decide), sixteen]
    simp only [Bool.false_eq_true, false_and, if_false, List.nil_append]
    exact map_numeral_congr (by decide) fun d hd => console_digit hd
  have signLen : (if x < 0 then ['-'] else ([] : List Char)).length ≤ 1 := by split <;> simp
  refine ⟨printfDec, consoleDec, printfHex, consoleHex, fun nonzero => ⟨?_, ?_⟩, ?_, ?_, ?_, ?_, ?_⟩
  · -- `x ≠ 0` has a nonzero magnitude and a nonzero `uint` reading
    have : x.toInt ≠ 0 := fun zero => nonzero (Int32.toInt_inj.mp (by rw [zero]; rfl))
    exact numeral_head_ne_zero 10 (by omega)
  · have : x.toInt ≠ 0 := fun zero => nonzero (Int32.toInt_inj.mp (by rw [zero]; rfl))
    have reading := toNat_toUInt32 x
    exact numeral_head_ne_zero 16 (by split_ifs at reading <;> omega)
  · rw [printfDec, List.length_append, List.length_map]
    omega
  · rw [printfHex, List.length_map]
    omega
  · rw [consoleDec, List.length_append, List.length_map]
    omega
  · rw [consoleHex, List.length_map]
    omega
  · intro nonneg
    have ge : 0 ≤ x.toInt := by
      have := Int32.le_iff_toInt_le.mp nonneg
      rwa [Int32.toInt_zero] at this
    have notNeg : ¬ x < 0 := fun neg => by
      have := Int32.lt_iff_toInt_lt.mp neg
      rw [Int32.toInt_zero] at this
      omega
    rw [printfDec, if_neg notNeg, List.nil_append, atoi_numeral,
      show x.toInt.natAbs = x.toNatClampNeg by rw [← Int32.toNat_toInt]; omega]
    exact Int32.ofNat_toNatClampNeg x nonneg

end Xv6
