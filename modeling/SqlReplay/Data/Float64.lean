import Mathlib.Algebra.Order.Ring.Int
import Mathlib.Tactic.Ring

/-!
# IEEE doubles

The arithmetic of `f64` that the tool depends on, on the bits of a double and in natural numbers. A
finite double is `significand * 2 ^ exponent`, and the bits without the sign count the doubles from
zero upwards. That makes rounding short: `nearest` scales a ratio until its integral part has 53
bits, rounds it half to even, and adds the exponent, so that the carry of a rounding up runs into
the exponent by itself and everything beyond the largest double is infinite.

What is proved about it is that it is exact where the result is a double: a number `n * 2 ^ j` with
`n` of at most 53 bits is its own nearest double.
-/

namespace SqlReplay

/-- An IEEE 754 double. -/
structure F64 where
  bits : UInt64
  deriving DecidableEq, Repr

namespace F64

/-- Neither an infinity nor a NaN: the exponent is not all ones. -/
def isFinite (x : F64) : Bool := (x.bits >>> 52) &&& 0x7FF != 0x7FF

def zero : F64 := ⟨0⟩

/-- The bits of infinity. -/
def infinityBits : ℕ := 0x7FF * 2 ^ 52

def ofMagnitude (negative : Bool) (m : ℕ) : F64 := ⟨UInt64.ofNat (negative.toNat * 2 ^ 63 + m)⟩

/-- The bits without the sign. -/
def magnitude (x : F64) : ℕ := x.bits.toNat % 2 ^ 63

def isNegative (x : F64) : Bool := 2 ^ 63 ≤ x.bits.toNat

def significand (x : F64) : ℕ :=
  if x.magnitude < 2 ^ 52 then x.magnitude else 2 ^ 52 + x.magnitude % 2 ^ 52

/-- The exponent of the last digit of the significand. -/
def exponent (x : F64) : ℤ := (max (x.magnitude / 2 ^ 52) 1 : ℕ) - 1075

def nan : F64 := ofMagnitude false (infinityBits + 2 ^ 51)

/-! ## Rounding -/

/-- The binary logarithm of a positive ratio, rounded down. -/
def ratioLog (num den : ℕ) : ℤ :=
  if den ≤ num then Nat.log2 (num / den) else -(Nat.log2 ((den - 1) / num) + 1 : ℕ)

/-- `a / b` rounded to the nearest integer, half to even. -/
def halfEven (a b : ℕ) : ℕ :=
  if b < 2 * (a % b) ∨ (b = 2 * (a % b) ∧ a / b % 2 = 1) then a / b + 1 else a / b

/-- The double nearest to a ratio. -/
def nearest (negative : Bool) (num den : ℕ) : F64 :=
  if num = 0 then ofMagnitude negative 0
  else
    let e := max (ratioLog num den - 52) (-1074)
    let m := halfEven (num * 2 ^ (-e).toNat) (den * 2 ^ e.toNat)
    ofMagnitude negative (min ((e + 1074).toNat * 2 ^ 52 + m) infinityBits)

/-- `x * y`. -/
def mul (x y : F64) : F64 :=
  let negative := x.isNegative != y.isNegative
  if infinityBits < x.magnitude ∨ infinityBits < y.magnitude then nan
  else if x.magnitude = infinityBits ∨ y.magnitude = infinityBits then
    if x.magnitude = 0 ∨ y.magnitude = 0 then nan else ofMagnitude negative infinityBits
  else
    let e := x.exponent + y.exponent
    nearest negative (x.significand * y.significand * 2 ^ e.toNat) (2 ^ (-e).toNat)

/-- `x.round() as i64`: half away from zero, and saturating. -/
def roundToI64 (x : F64) : ℤ :=
  if infinityBits < x.magnitude then 0
  else
    let unit := 2 ^ (-x.exponent).toNat
    let n : ℕ := (2 * (x.significand * 2 ^ x.exponent.toNat) + unit) / (2 * unit)
    if x.isNegative then max (-n) (-2 ^ 63) else min n (2 ^ 63 - 1)

example :
    mul (nearest false 1 10) (nearest false 3 1) = nearest false 5404319552844596 (2 ^ 54) := by
  decide

/-! ## Exactness -/

theorem halfEven_mul {m b : ℕ} (hb : 0 < b) : halfEven (m * b) b = m := by
  rw [halfEven, Nat.mul_mod_left, Nat.mul_div_cancel m hb, if_neg]
  omega

theorem ratioLog_mul {N den : ℕ} (hN : 0 < N) (hden : 0 < den) :
    ratioLog (N * den) den = Nat.log2 N := by
  rw [ratioLog, if_pos (Nat.le_mul_of_pos_left den hN), Nat.mul_div_cancel N hden]

theorem magnitude_ofMagnitude {m : ℕ} (hm : m < 2 ^ 63) :
    (ofMagnitude false m).magnitude = m ∧ (ofMagnitude false m).isNegative = false := by
  have hbits : (ofMagnitude false m).bits.toNat = m := by
    change (0 * 2 ^ 63 + m) % 2 ^ 64 = m
    omega
  refine ⟨?_, ?_⟩
  · rw [magnitude, hbits, Nat.mod_eq_of_lt hm]
  · rw [isNegative, hbits]
    exact decide_eq_false (Nat.not_le.mpr hm)

/-- The double with a significand of 53 bits at an exponent. -/
theorem fields_ofMagnitude {E m : ℕ} (hlow : 2 ^ 52 ≤ m) (hhigh : m < 2 ^ 53) (hE : E < 2046) :
    (ofMagnitude false (E * 2 ^ 52 + m)).significand = m ∧
      (ofMagnitude false (E * 2 ^ 52 + m)).exponent = E - 1074 ∧
      (ofMagnitude false (E * 2 ^ 52 + m)).magnitude < infinityBits ∧
      (ofMagnitude false (E * 2 ^ 52 + m)).isNegative = false := by
  obtain ⟨hmagnitude, hsign⟩ := magnitude_ofMagnitude (m := E * 2 ^ 52 + m) (by omega)
  have hdiv : (E * 2 ^ 52 + m) / 2 ^ 52 = E + 1 := by omega
  have hmod : (E * 2 ^ 52 + m) % 2 ^ 52 = m - 2 ^ 52 := by omega
  refine ⟨?_, ?_, ?_, hsign⟩
  · rw [significand, hmagnitude, hmod, if_neg (by omega)]
    omega
  · rw [exponent, hmagnitude, hdiv]
    omega
  · rw [hmagnitude, infinityBits]
    omega

/-- A finite double that is not negative and has an integral value. -/
structure IsNat (x : F64) (N : ℕ) : Prop where
  sign : x.isNegative = false
  finite : x.magnitude < infinityBits
  value : x.significand * 2 ^ x.exponent.toNat = N * 2 ^ (-x.exponent).toNat

/-- A number of at most 53 bits, times a power of two, is a double. -/
protected theorem IsNat.nearest (n j den : ℕ) (hn : 0 < n) (hbits : n < 2 ^ 53) (hj : j ≤ 900)
    (hden : 0 < den) : IsNat (nearest false (n * 2 ^ j * den) den) (n * 2 ^ j) := by
  have hN : 0 < n * 2 ^ j := Nat.mul_pos hn (Nat.two_pow_pos j)
  have hlog : Nat.log2 (n * 2 ^ j) ≤ 52 + j := by
    refine Nat.lt_succ_iff.mp ((Nat.log2_lt hN.ne').mpr ?_)
    calc n * 2 ^ j < 2 ^ 53 * 2 ^ j := Nat.mul_lt_mul_of_pos_right hbits (Nat.two_pow_pos j)
      _ = 2 ^ (52 + j).succ := by rw [← pow_add]; congr 1; omega
  have hlow := Nat.log2_self_le hN.ne'
  have hhigh := Nat.lt_log2_self (n := n * 2 ^ j)
  generalize hb : Nat.log2 (n * 2 ^ j) = b at hlog hlow hhigh
  have he : max ((b : ℤ) - 52) (-1074) = b - 52 := by omega
  -- the significand, and why it has 53 bits
  obtain ⟨m, hm, hmlow, hmhigh⟩ : ∃ m, n * 2 ^ j * 2 ^ (-((b : ℤ) - 52)).toNat =
      m * 2 ^ ((b : ℤ) - 52).toNat ∧ 2 ^ 52 ≤ m ∧ m < 2 ^ 53 := by
    rcases Nat.le_total b 52 with hle | hle
    · refine ⟨n * 2 ^ j * 2 ^ (52 - b), ?_, ?_, ?_⟩
      · rw [show (-((b : ℤ) - 52)).toNat = 52 - b by omega,
          show ((b : ℤ) - 52).toNat = 0 by omega, pow_zero, mul_one]
      · calc 2 ^ 52 = 2 ^ b * 2 ^ (52 - b) := by rw [← pow_add]; congr 1; omega
          _ ≤ n * 2 ^ j * 2 ^ (52 - b) := Nat.mul_le_mul_right _ hlow
      · calc n * 2 ^ j * 2 ^ (52 - b) < 2 ^ (b + 1) * 2 ^ (52 - b) :=
              Nat.mul_lt_mul_of_pos_right hhigh (Nat.two_pow_pos _)
          _ = 2 ^ 53 := by rw [← pow_add]; congr 1; omega
    · have hsplit : n * 2 ^ j = n * 2 ^ (j - (b - 52)) * 2 ^ (b - 52) := by
        rw [mul_assoc, ← pow_add, show j - (b - 52) + (b - 52) = j by omega]
      refine ⟨n * 2 ^ (j - (b - 52)), ?_, ?_, ?_⟩
      · rw [show (-((b : ℤ) - 52)).toNat = 0 by omega,
          show ((b : ℤ) - 52).toNat = b - 52 by omega, pow_zero, mul_one]
        exact hsplit
      · refine Nat.le_of_mul_le_mul_right (c := 2 ^ (b - 52)) ?_ (Nat.two_pow_pos _)
        rw [← hsplit, ← pow_add, show 52 + (b - 52) = b by omega]
        exact hlow
      · refine Nat.lt_of_mul_lt_mul_right (a := 2 ^ (b - 52)) ?_
        rw [← hsplit, ← pow_add, show 53 + (b - 52) = b + 1 by omega]
        exact hhigh
  have hnearest : nearest false (n * 2 ^ j * den) den =
      ofMagnitude false ((b + 1022) * 2 ^ 52 + m) := by
    have hhalf : halfEven (n * 2 ^ j * den * 2 ^ (-((b : ℤ) - 52)).toNat)
        (den * 2 ^ ((b : ℤ) - 52).toNat) = m := by
      rw [mul_right_comm, hm, mul_assoc, mul_comm (2 ^ _) den]
      exact halfEven_mul (Nat.mul_pos hden (Nat.two_pow_pos _))
    rw [nearest, if_neg (Nat.mul_pos hN hden).ne', ratioLog_mul hN hden, hb, he]
    dsimp only
    rw [hhalf, show ((b : ℤ) - 52 + 1074).toNat = b + 1022 by omega, infinityBits,
      Nat.min_eq_left (by omega)]
  obtain ⟨hsignificand, hexponent, hfinite, hsign⟩ :=
    fields_ofMagnitude (E := b + 1022) hmlow hmhigh (by omega)
  have hexponent' : (ofMagnitude false ((b + 1022) * 2 ^ 52 + m)).exponent = (b : ℤ) - 52 := by
    rw [hexponent]
    omega
  rw [hnearest]
  exact ⟨hsign, hfinite, by rw [hsignificand, hexponent', hm]⟩

theorem IsNat.mul {x y : F64} {M N n j : ℕ} (hx : IsNat x M) (hy : IsNat y N)
    (hMN : M * N = n * 2 ^ j) (hn : 0 < n) (hbits : n < 2 ^ 53) (hj : j ≤ 900) :
    IsNat (x.mul y) (M * N) := by
  have hratio : x.significand * y.significand * 2 ^ (x.exponent + y.exponent).toNat =
      n * 2 ^ j * 2 ^ (-(x.exponent + y.exponent)).toNat := by
    refine Nat.eq_of_mul_eq_mul_right
      (Nat.two_pow_pos ((-x.exponent).toNat + (-y.exponent).toNat)) ?_
    calc x.significand * y.significand * 2 ^ (x.exponent + y.exponent).toNat *
          2 ^ ((-x.exponent).toNat + (-y.exponent).toNat)
        = x.significand * y.significand * 2 ^ ((x.exponent + y.exponent).toNat +
            ((-x.exponent).toNat + (-y.exponent).toNat)) := by rw [mul_assoc, ← pow_add]
      _ = x.significand * y.significand * 2 ^ (x.exponent.toNat + y.exponent.toNat +
            (-(x.exponent + y.exponent)).toNat) := by
          rw [show (x.exponent + y.exponent).toNat + ((-x.exponent).toNat + (-y.exponent).toNat) =
            x.exponent.toNat + y.exponent.toNat + (-(x.exponent + y.exponent)).toNat by omega]
      _ = x.significand * 2 ^ x.exponent.toNat * (y.significand * 2 ^ y.exponent.toNat) *
            2 ^ (-(x.exponent + y.exponent)).toNat := by rw [pow_add, pow_add]; ring
      _ = n * 2 ^ j * 2 ^ (-(x.exponent + y.exponent)).toNat *
            2 ^ ((-x.exponent).toNat + (-y.exponent).toNat) := by
          rw [hx.value, hy.value, ← hMN, pow_add]
          ring
  rw [F64.mul, hx.sign, hy.sign, if_neg, if_neg, hMN]
  · dsimp only
    rw [hratio]
    exact IsNat.nearest n j _ hn hbits hj (Nat.two_pow_pos _)
  · rw [not_or]
    exact ⟨hx.finite.ne, hy.finite.ne⟩
  · rw [not_or]
    exact ⟨hx.finite.not_gt, hy.finite.not_gt⟩

theorem IsNat.roundToI64 {x : F64} {N : ℕ} (hx : IsNat x N) (hN : N < 2 ^ 63) :
    x.roundToI64 = N := by
  have hhalf (unit : ℕ) (hunit : 0 < unit) : (2 * (N * unit) + unit) / (2 * unit) = N := by
    rw [show 2 * (N * unit) + unit = unit + 2 * unit * N by ring,
      Nat.add_mul_div_left _ _ (by omega), Nat.div_eq_of_lt (by omega), Nat.zero_add]
  rw [F64.roundToI64, if_neg hx.finite.not_gt, hx.sign, if_neg Bool.false_ne_true, hx.value,
    hhalf _ (Nat.two_pow_pos _)]
  omega

end F64

end SqlReplay
