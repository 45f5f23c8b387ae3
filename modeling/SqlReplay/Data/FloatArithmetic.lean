import SqlReplay.Data.Float64

/-!
# Sums, quotients and the order of doubles

The rest of what comparing two runs asks of `f64`. A sum is taken exactly at the smaller of the two
exponents and rounded once, a quotient is rounded from the ratio of the significands, and the
special cases are those of the standard: opposite infinities and zero divided by zero have no
number.

The comparisons are false of what is not a number, and do not tell the two zeros apart; the total
order (`f64::total_cmp`) places everything.

What is proved is how a double compares with itself: its difference from itself is zero, or not a
number at infinity, and remains so divided by it (`selfChange`).
-/

namespace SqlReplay

namespace F64

def isNaN (x : F64) : Bool := infinityBits < x.magnitude

/-- `-x`. -/
protected def neg (x : F64) : F64 := ofMagnitude (!x.isNegative) x.magnitude

/-- The significand with the sign. -/
def signed (x : F64) : ℤ := if x.isNegative then -x.significand else x.significand

/-- `x + y`. A sum of zero is negative only of two negative doubles. -/
protected def add (x y : F64) : F64 :=
  if x.isNaN ∨ y.isNaN then nan
  else if x.magnitude = infinityBits then
    if y.magnitude = infinityBits ∧ x.isNegative ≠ y.isNegative then nan else x
  else if y.magnitude = infinityBits then y
  else
    let e := min x.exponent y.exponent
    let sum := x.signed * 2 ^ (x.exponent - e).toNat + y.signed * 2 ^ (y.exponent - e).toNat
    if sum = 0 then ofMagnitude (x.isNegative && y.isNegative) 0
    else nearest (sum < 0) (sum.natAbs * 2 ^ e.toNat) (2 ^ (-e).toNat)

/-- `x - y`. -/
protected def sub (x y : F64) : F64 := x.add y.neg

/-- `x / y`. -/
protected def div (x y : F64) : F64 :=
  let negative := x.isNegative != y.isNegative
  if x.isNaN ∨ y.isNaN then nan
  else if x.magnitude = infinityBits then
    if y.magnitude = infinityBits then nan else ofMagnitude negative infinityBits
  else if y.magnitude = infinityBits then ofMagnitude negative 0
  else if y.magnitude = 0 then
    if x.magnitude = 0 then nan else ofMagnitude negative infinityBits
  else
    let e := x.exponent - y.exponent
    nearest negative (x.significand * 2 ^ e.toNat) (y.significand * 2 ^ (-e).toNat)

/-- Where a double stands, the two zeros at one place. -/
def place (x : F64) : ℤ := if x.isNegative then -x.magnitude else x.magnitude

/-- `x < y`. -/
protected def lt (x y : F64) : Prop := x.isNaN = false ∧ y.isNaN = false ∧ x.place < y.place

/-- `x <= y`. -/
protected def le (x y : F64) : Prop := x.isNaN = false ∧ y.isNaN = false ∧ x.place ≤ y.place

/-- `f64::total_cmp`. -/
def totalCmp (x y : F64) : Ordering :=
  let key (x : F64) : ℤ := if x.isNegative then -x.magnitude - 1 else x.magnitude
  compare (key x) (key y)

/-- `n as f64`. -/
def ofNat (n : ℕ) : F64 := nearest false n 1

instance instNatCast : NatCast F64 := ⟨ofNat⟩
instance instOfNat100 : OfNat F64 100 := ⟨ofNat 100⟩
instance instNeg : Neg F64 := ⟨F64.neg⟩
instance instSub : Sub F64 := ⟨F64.sub⟩
instance instMul : Mul F64 := ⟨F64.mul⟩
instance instDiv : Div F64 := ⟨F64.div⟩
instance instLT : LT F64 := ⟨F64.lt⟩
instance instLE : LE F64 := ⟨F64.le⟩
instance instOrd : Ord F64 := ⟨totalCmp⟩

instance decidableLT (x y : F64) : Decidable (x < y) :=
  inferInstanceAs (Decidable (x.isNaN = false ∧ y.isNaN = false ∧ x.place < y.place))

instance decidableLE (x y : F64) : Decidable (x ≤ y) :=
  inferInstanceAs (Decidable (x.isNaN = false ∧ y.isNaN = false ∧ x.place ≤ y.place))

/-! ## Signs -/

theorem magnitude_lt (x : F64) : x.magnitude < 2 ^ 63 := Nat.mod_lt _ (Nat.two_pow_pos 63)

theorem fields_ofMagnitude' (negative : Bool) {m : ℕ} (hm : m < 2 ^ 63) :
    (ofMagnitude negative m).magnitude = m ∧ (ofMagnitude negative m).isNegative = negative := by
  have hbits : (ofMagnitude negative m).bits.toNat = negative.toNat * 2 ^ 63 + m := by
    unfold ofMagnitude
    rw [UInt64.toNat_ofNat']
    have hsign := Bool.toNat_le negative
    refine Nat.mod_eq_of_lt ?_
    omega
  unfold magnitude isNegative
  rw [hbits]
  refine ⟨?_, ?_⟩
  · rw [Nat.mul_add_mod_self_right, Nat.mod_eq_of_lt hm]
  · cases negative with
    | false =>
      rw [Bool.toNat_false, Nat.zero_mul, Nat.zero_add]
      exact decide_eq_false (Nat.not_le.mpr hm)
    | true =>
      rw [Bool.toNat_true, Nat.one_mul]
      exact decide_eq_true (Nat.le_add_right _ _)

theorem magnitude_neg (x : F64) : x.neg.magnitude = x.magnitude :=
  (fields_ofMagnitude' _ x.magnitude_lt).1

theorem isNegative_neg (x : F64) : x.neg.isNegative = !x.isNegative :=
  (fields_ofMagnitude' _ x.magnitude_lt).2

theorem place_neg (x : F64) : x.neg.place = -x.place := by
  unfold place
  rw [magnitude_neg, isNegative_neg]
  cases x.isNegative with
  | false => rfl
  | true => exact (neg_neg _).symm

theorem signed_neg (x : F64) : x.neg.signed = -x.signed := by
  have hsignificand : x.neg.significand = x.significand := by
    unfold significand
    rw [magnitude_neg]
  unfold signed
  rw [hsignificand, isNegative_neg]
  cases x.isNegative with
  | false => rfl
  | true => exact (neg_neg _).symm

theorem exponent_neg (x : F64) : x.neg.exponent = x.exponent := by
  unfold exponent
  rw [magnitude_neg]

theorem isNaN_neg (x : F64) : x.neg.isNaN = x.isNaN := by
  unfold isNaN
  rw [magnitude_neg]

/-! ## A double and itself -/

theorem isNaN_nan : nan.isNaN = true := by decide

theorem not_le_of_isNaN {x : F64} (h : x.isNaN = true) (y z : F64) : ¬ y ≤ x ∧ ¬ x ≤ z :=
  ⟨fun hle ↦ Bool.false_ne_true (hle.2.1.symm.trans h),
    fun hle ↦ Bool.false_ne_true (hle.1.symm.trans h)⟩

theorem isNaN_div_of_left {x : F64} (h : x.isNaN = true) (y : F64) : (x / y).isNaN = true := by
  change (x.div y).isNaN = true
  unfold F64.div
  rw [if_pos (Or.inl h)]
  exact isNaN_nan

theorem isNaN_mul_of_left {x : F64} (h : x.isNaN = true) (y : F64) : (x * y).isNaN = true := by
  change (x.mul y).isNaN = true
  unfold F64.mul
  rw [if_pos (Or.inl (of_decide_eq_true h))]
  exact isNaN_nan

/-- A positive double less itself: zero, unless it is infinite. -/
theorem sub_self_of_pos {x : F64} (hneg : x.isNegative = false) (hnan : x.isNaN = false) :
    x - x = zero ∨ (x - x).isNaN = true := by
  change x.add x.neg = zero ∨ (x.add x.neg).isNaN = true
  unfold F64.add
  rw [isNaN_neg, magnitude_neg, isNegative_neg, exponent_neg, signed_neg, hnan, hneg,
    if_neg (not_or.mpr ⟨Bool.false_ne_true, Bool.false_ne_true⟩)]
  by_cases hinf : x.magnitude = infinityBits
  · right
    rw [if_pos hinf, if_pos ⟨hinf, Bool.false_ne_true⟩]
    exact isNaN_nan
  · left
    rw [if_neg hinf, if_neg hinf]
    dsimp only
    rw [if_pos (by rw [neg_mul, add_neg_cancel])]
    rfl

/-- The relative change of a positive double against itself, in percent, is zero or no number. -/
theorem selfChange {x : F64} (h : ((0 : ℕ) : F64) < x) :
    (x - x) / x * 100 = zero ∨ ((x - x) / x * 100).isNaN = true := by
  obtain ⟨-, hnan, hplace⟩ := h
  have hzero : ((0 : ℕ) : F64).place = 0 := by decide
  rw [hzero] at hplace
  have hneg : x.isNegative = false := by
    cases hn : x.isNegative with
    | false => rfl
    | true =>
      unfold place at hplace
      rw [if_pos hn] at hplace
      omega
  have hmag : x.magnitude ≠ 0 := by
    intro hm
    unfold place at hplace
    rw [if_neg (Bool.eq_false_iff.mp hneg), hm] at hplace
    exact lt_irrefl _ hplace
  rcases sub_self_of_pos hneg hnan with hsub | hsub
  · left
    -- Zero over a positive double, times a hundred.
    have hdiv : zero / x = zero := by
      change zero.div x = zero
      have hz : zero.magnitude = 0 := rfl
      unfold F64.div
      rw [hnan, hneg, if_neg (not_or.mpr ⟨by decide, Bool.false_ne_true⟩),
        if_neg (by rw [hz]; decide)]
      by_cases hinf : x.magnitude = infinityBits
      · rw [if_pos hinf]
        rfl
      · rw [if_neg hinf, if_neg hmag]
        have hs : zero.significand = 0 := rfl
        dsimp only
        rw [hs, Nat.zero_mul]
        rfl
    rw [hsub, hdiv]
    decide
  · exact Or.inr (isNaN_mul_of_left (isNaN_div_of_left hsub x) 100)

/-- Zero is between a positive double and its negation. -/
theorem zero_between {t : F64} (ht : ((0 : ℕ) : F64) < t) : ¬ t ≤ zero ∧ ¬ zero ≤ -t := by
  obtain ⟨-, -, hplace⟩ := ht
  have hzero : ((0 : ℕ) : F64).place = 0 := by decide
  have hzero' : zero.place = 0 := by decide
  rw [hzero] at hplace
  constructor
  · rintro ⟨-, -, hle⟩
    rw [hzero'] at hle
    omega
  · rintro ⟨-, -, hle⟩
    have hneg : (-t).place = -t.place := place_neg t
    rw [hzero', hneg] at hle
    omega

end F64

end SqlReplay
