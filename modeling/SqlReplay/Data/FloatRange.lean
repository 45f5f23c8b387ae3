import SqlReplay.Data.FloatArithmetic

/-!
# Where rounding overflows

A ratio is rounded to infinity only if it is about as large as the largest double. Bounds that are
far below it are all that the program's quantities need, so the statements are about powers of two:
a ratio below `2 ^ k` is rounded to a double below it or not much above (`magnitude_nearest_lt`),
and a quotient of numbers of 64 bits is finite (`isFinite_ofNat_div`).
-/

namespace SqlReplay

namespace F64

/-- A ratio is less than the power of two above its logarithm. -/
theorem lt_of_ratioLog {num den : ℕ} (hnum : 0 < num) (hden : 0 < den) :
    num * 2 ^ (-ratioLog num den).toNat < den * 2 ^ ((ratioLog num den).toNat + 1) := by
  rw [ratioLog]
  split_ifs with hle
  · have hlog := Nat.lt_log2_self (n := num / den)
    have hbound : num < den * 2 ^ (Nat.log2 (num / den) + 1) := by
      rw [mul_comm]
      exact (Nat.div_lt_iff_lt_mul hden).mp hlog
    rw [show (-((Nat.log2 (num / den) : ℕ) : ℤ)).toNat = 0 by omega, Int.toNat_natCast, pow_zero,
      mul_one]
    exact hbound
  · have hpos : (den - 1) / num ≠ 0 := (Nat.div_pos (by omega) hnum).ne'
    have hlog := Nat.log2_self_le hpos
    have hbound : num * 2 ^ Nat.log2 ((den - 1) / num) < den := by
      have hmul := (Nat.le_div_iff_mul_le hnum).mp hlog
      rw [mul_comm] at hmul
      omega
    rw [show (-(-((Nat.log2 ((den - 1) / num) + 1 : ℕ) : ℤ))).toNat =
        Nat.log2 ((den - 1) / num) + 1 by omega,
      show (-((Nat.log2 ((den - 1) / num) + 1 : ℕ) : ℤ)).toNat = 0 by omega, pow_succ, zero_add,
      pow_one, ← mul_assoc]
    exact Nat.mul_lt_mul_of_pos_right hbound Nat.two_pos

theorem ratioLog_lt {num den k : ℕ} (hden : 0 < den) (h : num < den * 2 ^ k) :
    ratioLog num den < k ∨ num < den := by
  rw [ratioLog]
  split_ifs with hle
  · left
    have hpos : num / den ≠ 0 := (Nat.div_pos hle hden).ne'
    have hlt : num / den < 2 ^ k := Nat.div_lt_of_lt_mul h
    exact_mod_cast (Nat.log2_lt hpos).mpr hlt
  · exact Or.inr (not_le.mp hle)

/-- A ratio below a power of two is rounded to a double with no greater exponent. -/
theorem magnitude_nearest_lt (negative : Bool) {num den k : ℕ} (hden : 0 < den)
    (h : num < den * 2 ^ k) (hk : k ≤ 1000) :
    (nearest negative num den).magnitude < (k + 1024) * 2 ^ 52 := by
  rw [nearest]
  split_ifs with hnum
  · rw [(fields_ofMagnitude' negative (by omega)).1]
    omega
  set e : ℤ := max (ratioLog num den - 52) (-1074) with he
  set m := halfEven (num * 2 ^ (-e).toNat) (den * 2 ^ e.toNat)
  have hpos : 0 < num := Nat.pos_of_ne_zero hnum
  -- the significand has 53 bits, or is the next power of two
  have hm : m ≤ 2 ^ 53 := by
    have hlog := lt_of_ratioLog hpos hden
    have hratio : num * 2 ^ (-e).toNat < den * 2 ^ e.toNat * 2 ^ 53 := by
      refine Nat.lt_of_mul_lt_mul_right (a := 2 ^ (-ratioLog num den).toNat) ?_
      calc num * 2 ^ (-e).toNat * 2 ^ (-ratioLog num den).toNat
          = num * 2 ^ (-ratioLog num den).toNat * 2 ^ (-e).toNat := by ring
        _ < den * 2 ^ ((ratioLog num den).toNat + 1) * 2 ^ (-e).toNat :=
            Nat.mul_lt_mul_of_pos_right hlog (Nat.two_pow_pos _)
        _ = den * 2 ^ ((ratioLog num den).toNat + 1 + (-e).toNat) := by rw [mul_assoc, ← pow_add]
        _ ≤ den * 2 ^ (e.toNat + 53 + (-ratioLog num den).toNat) := by
            refine Nat.mul_le_mul_left _ (Nat.pow_le_pow_right Nat.two_pos ?_)
            omega
        _ = den * 2 ^ e.toNat * 2 ^ 53 * 2 ^ (-ratioLog num den).toNat := by
            rw [pow_add, pow_add]
            ring
    have hdiv : num * 2 ^ (-e).toNat / (den * 2 ^ e.toNat) < 2 ^ 53 := Nat.div_lt_of_lt_mul hratio
    dsimp only [m]
    rw [halfEven]
    split_ifs
    · exact hdiv
    · exact hdiv.le
  have hexp : (e + 1074).toNat ≤ k + 1021 := by
    rcases ratioLog_lt hden h with hlt | hlt
    · omega
    · have hneg : ratioLog num den < 0 := by
        rw [ratioLog, if_neg (not_le.mpr hlt)]
        omega
      omega
  have hbits : (e + 1074).toNat * 2 ^ 52 + m < (k + 1024) * 2 ^ 52 := by omega
  have hmin : min ((e + 1074).toNat * 2 ^ 52 + m) infinityBits < 2 ^ 63 := by
    rw [infinityBits]
    omega
  rw [(fields_ofMagnitude' negative hmin).1]
  exact lt_of_le_of_lt (min_le_left _ _) hbits

/-- A double is finite if its exponent is not the largest one. -/
theorem isFinite_of_magnitude_lt {x : F64} (h : x.magnitude < infinityBits) :
    x.isFinite = true := by
  rw [isFinite, bne_iff_ne]
  intro heq
  have hbits := congrArg UInt64.toNat heq
  have hexp : x.bits.toNat / 2 ^ 52 % 2 ^ 11 = 2 ^ 11 - 1 := by
    rw [← Nat.and_two_pow_sub_one_eq_mod, ← Nat.shiftRight_eq_div_pow]
    simpa using hbits
  rw [magnitude, infinityBits] at h
  omega

theorem significand_lt (x : F64) : x.significand < 2 ^ 53 := by
  rw [significand]
  split_ifs <;> omega

/-- A positive number that a double is equal to bounds its exponent from below. -/
theorem IsNat.le_exponent {x : F64} {N : ℕ} (h : IsNat x N) (hN : 0 < N) : -52 ≤ x.exponent := by
  by_contra hlt
  have hvalue := h.value
  rw [show x.exponent.toNat = 0 by omega, pow_zero, mul_one] at hvalue
  have hpow : 2 ^ 53 ≤ 2 ^ (-x.exponent).toNat := Nat.pow_le_pow_right Nat.two_pos (by omega)
  have hle : 2 ^ (-x.exponent).toNat ≤ N * 2 ^ (-x.exponent).toNat := Nat.le_mul_of_pos_left _ hN
  have hsig := x.significand_lt
  omega

theorem IsNat.significand_pos {x : F64} {N : ℕ} (h : IsNat x N) (hN : 0 < N) :
    0 < x.significand := by
  by_contra hzero
  have hvalue := h.value
  rw [Nat.eq_zero_of_not_pos hzero, zero_mul] at hvalue
  exact (Nat.mul_pos hN (Nat.two_pow_pos _)).ne hvalue

/-- The quotient of a number of 64 bits and a positive one is finite. -/
theorem isFinite_ofNat_div {n d : ℕ} (hn : n < 2 ^ 64) (hd : 0 < d) (hd' : d < 2 ^ 53) :
    (ofNat n / ofNat d).isFinite = true := by
  have hx : (ofNat n).magnitude < (64 + 1024) * 2 ^ 52 :=
    magnitude_nearest_lt false Nat.one_pos (by rwa [one_mul]) (by decide)
  have hy : IsNat (ofNat d) d := by
    have hnat := IsNat.nearest d 0 1 hd hd' (Nat.zero_le _) Nat.one_pos
    rw [pow_zero, mul_one, mul_one] at hnat
    exact hnat
  have hpos := hy.significand_pos hd
  have hzero : (ofNat d).magnitude ≠ 0 := by
    intro heq
    rw [significand, heq] at hpos
    exact absurd hpos (by decide)
  have hfinite := hy.finite
  have hlow := hy.le_exponent hd
  have hhigh : (ofNat n).exponent ≤ 12 := by
    rw [exponent]
    omega
  have hsig := (ofNat n).significand_lt
  generalize ofNat n = x at hx hhigh hsig
  generalize ofNat d = y at hy hpos hzero hfinite hlow
  apply isFinite_of_magnitude_lt
  change (x.div y).magnitude < infinityBits
  have hxfinite : x.magnitude < infinityBits := hx.trans (by decide)
  have hnan : ¬(x.isNaN = true ∨ y.isNaN = true) := by
    simp only [isNaN, decide_eq_true_eq]
    omega
  rw [F64.div, if_neg hnan, if_neg hxfinite.ne, if_neg hfinite.ne, if_neg hzero]
  dsimp only
  set e := x.exponent - y.exponent
  refine lt_trans (magnitude_nearest_lt (k := 118) _ (Nat.mul_pos hpos (Nat.two_pow_pos _)) ?_
    (by decide)) (by decide)
  calc x.significand * 2 ^ e.toNat < 2 ^ 53 * 2 ^ e.toNat :=
        Nat.mul_lt_mul_of_pos_right hsig (Nat.two_pow_pos _)
    _ ≤ 2 ^ 118 := by
        rw [← pow_add]
        exact Nat.pow_le_pow_right Nat.two_pos (by omega)
    _ ≤ y.significand * 2 ^ (-e).toNat * 2 ^ 118 :=
        Nat.le_mul_of_pos_left _ (Nat.mul_pos hpos (Nat.two_pow_pos _))

end F64

end SqlReplay
