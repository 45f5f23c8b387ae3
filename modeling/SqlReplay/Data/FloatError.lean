import Mathlib.Algebra.Order.Field.Basic
import Mathlib.Data.Rat.Cast.Order
import Mathlib.Tactic.FieldSimp
import Mathlib.Tactic.Linarith
import SqlReplay.Data.FloatRange

/-!
# The error of rounding

Values of finite doubles as rational numbers, and how far rounding is off: by half a unit in the
last place, which is `2 ^ -53` of the ratio, or less than any double when the ratio is that small
(`abs_nearest_sub_le`). Rounding keeps the order (`magnitude_nearest_mono`).

Both results look at a rounded ratio in the same way: as a significand of at most 53 bits at an
exponent, full unless the exponent is the least one (`nearest_spec`).
-/

namespace SqlReplay

namespace F64

/-- The value of a finite double without the sign. -/
def absValue (x : F64) : ℚ := x.significand * 2 ^ x.exponent

/-! ## Integers -/

/-- Half a unit is the most that rounding to an integer changes. -/
theorem halfEven_spec (a : ℕ) {b : ℕ} (hb : 0 < b) :
    2 * (b * halfEven a b) ≤ 2 * a + b ∧ 2 * a ≤ 2 * (b * halfEven a b) + b := by
  have hdiv := Nat.div_add_mod a b
  have hmod := Nat.mod_lt a hb
  rw [halfEven]
  split_ifs with hup
  · rw [Nat.mul_add, Nat.mul_one]
    omega
  · omega

theorem abs_halfEven_sub_le (a : ℕ) {b : ℕ} (hb : 0 < b) :
    |(halfEven a b : ℚ) - a / b| ≤ 1 / 2 := by
  obtain ⟨hup, hdown⟩ := halfEven_spec a hb
  have hb' : (0 : ℚ) < b := by exact_mod_cast hb
  have hup' : (2 : ℚ) * (b * halfEven a b) ≤ 2 * a + b := by exact_mod_cast hup
  have hdown' : (2 : ℚ) * a ≤ 2 * (b * halfEven a b) + b := by exact_mod_cast hdown
  have hle : (halfEven a b : ℚ) - 1 / 2 ≤ a / b := by
    rw [le_div_iff₀ hb']
    linarith
  have hge : (a : ℚ) / b ≤ halfEven a b + 1 / 2 := by
    rw [div_le_iff₀ hb']
    linarith
  rw [abs_le]
  constructor <;> linarith

theorem halfEven_mono {a b a' b' : ℕ} (hb : 0 < b) (hb' : 0 < b') (h : a * b' ≤ a' * b) :
    halfEven a b ≤ halfEven a' b' := by
  have hquot : a / b ≤ a' / b' := by
    rw [Nat.le_div_iff_mul_le hb']
    refine Nat.le_of_mul_le_mul_right (c := b) ?_ hb
    calc a / b * b' * b = a / b * b * b' := by ring
      _ ≤ a * b' := Nat.mul_le_mul_right _ (Nat.div_mul_le_self a b)
      _ ≤ a' * b := h
  rcases hquot.lt_or_eq with hlt | heq
  · -- the integral part decides
    have hlow : a' / b' ≤ halfEven a' b' := by
      rw [halfEven]
      split_ifs <;> omega
    have hhigh : halfEven a b ≤ a / b + 1 := by
      rw [halfEven]
      split_ifs <;> omega
    omega
  · -- the remainders are ordered as the ratios are
    have hrem : a % b * b' ≤ a' % b' * b := by
      have ha := Nat.div_add_mod a b
      have ha' := Nat.div_add_mod a' b'
      rw [← ha, ← ha', heq] at h
      have hsplit : b * (a' / b') * b' = b' * (a' / b') * b := by ring
      rw [Nat.add_mul, Nat.add_mul, hsplit] at h
      exact Nat.le_of_add_le_add_left h
    -- what is rounded up below is rounded up above
    have hup : (b < 2 * (a % b) ∨ (b = 2 * (a % b) ∧ a / b % 2 = 1)) →
        b' < 2 * (a' % b') ∨ (b' = 2 * (a' % b') ∧ a' / b' % 2 = 1) := by
      rintro (hmore | ⟨hhalf, hodd⟩)
      · left
        refine Nat.lt_of_mul_lt_mul_right (a := b) ?_
        calc b' * b = b * b' := Nat.mul_comm _ _
          _ < 2 * (a % b) * b' := Nat.mul_lt_mul_of_pos_right hmore hb'
          _ = 2 * (a % b * b') := Nat.mul_assoc _ _ _
          _ ≤ 2 * (a' % b' * b) := Nat.mul_le_mul_left _ hrem
          _ = 2 * (a' % b') * b := (Nat.mul_assoc _ _ _).symm
      · have hle : b' ≤ 2 * (a' % b') := by
          refine Nat.le_of_mul_le_mul_right (c := b) ?_ hb
          calc b' * b = 2 * (a % b) * b' := by rw [← hhalf, Nat.mul_comm]
            _ = 2 * (a % b * b') := Nat.mul_assoc _ _ _
            _ ≤ 2 * (a' % b' * b) := Nat.mul_le_mul_left _ hrem
            _ = 2 * (a' % b') * b := (Nat.mul_assoc _ _ _).symm
        rcases hle.lt_or_eq with hlt' | heq'
        · exact Or.inl hlt'
        · exact Or.inr ⟨heq', heq ▸ hodd⟩
    unfold halfEven
    split_ifs with hu hu'
    · omega
    · exact absurd (hup hu) hu'
    · omega
    · omega

/-! ## Ratios -/

theorem two_zpow_mul (z : ℤ) : (2 : ℚ) ^ z * 2 ^ (-z).toNat = 2 ^ z.toNat := by
  rcases Int.le_total 0 z with hz | hz
  · rw [show (-z).toNat = 0 by omega, pow_zero, mul_one, ← zpow_natCast, Int.toNat_of_nonneg hz]
  · rw [show z.toNat = 0 by omega, pow_zero, ← zpow_natCast, Int.toNat_of_nonneg (by omega),
      ← zpow_add₀ two_ne_zero, add_neg_cancel, zpow_zero]

/-- A ratio is between the power of two of its logarithm and the next one. -/
theorem ratioLog_spec {num den : ℕ} (hnum : 0 < num) (hden : 0 < den) :
    (2 : ℚ) ^ ratioLog num den ≤ num / den ∧ (num : ℚ) / den < 2 ^ (ratioLog num den + 1) := by
  have hlow : den * 2 ^ (ratioLog num den).toNat ≤ num * 2 ^ (-ratioLog num den).toNat := by
    rw [ratioLog]
    split_ifs with hle
    · have hpos : num / den ≠ 0 := (Nat.div_pos hle hden).ne'
      have hbound := (Nat.le_div_iff_mul_le hden).mp (Nat.log2_self_le hpos)
      rw [show (-((Nat.log2 (num / den) : ℕ) : ℤ)).toNat = 0 by omega, Int.toNat_natCast, pow_zero,
        mul_one, mul_comm]
      exact hbound
    · have hlog := Nat.lt_log2_self (n := (den - 1) / num)
      have hbound : den ≤ num * 2 ^ (Nat.log2 ((den - 1) / num) + 1) := by
        have hlt := (Nat.div_lt_iff_lt_mul hnum).mp hlog
        rw [mul_comm] at hlt
        omega
      rw [show (-(-((Nat.log2 ((den - 1) / num) + 1 : ℕ) : ℤ))).toNat =
          Nat.log2 ((den - 1) / num) + 1 by omega,
        show (-((Nat.log2 ((den - 1) / num) + 1 : ℕ) : ℤ)).toNat = 0 by omega, pow_zero, mul_one]
      exact hbound
  have hhigh := lt_of_ratioLog hnum hden
  have hden' : (0 : ℚ) < den := by exact_mod_cast hden
  generalize ratioLog num den = L at hlow hhigh
  have hscale := two_zpow_mul L
  have hpos : (0 : ℚ) < 2 ^ (-L).toNat := by positivity
  constructor
  · rw [le_div_iff₀ hden']
    refine le_of_mul_le_mul_right ?_ hpos
    calc (2 : ℚ) ^ L * den * 2 ^ (-L).toNat = den * 2 ^ L.toNat := by rw [← hscale]; ring
      _ ≤ num * 2 ^ (-L).toNat := by exact_mod_cast hlow
  · rw [div_lt_iff₀ hden']
    refine lt_of_mul_lt_mul_right ?_ hpos.le
    calc (num : ℚ) * 2 ^ (-L).toNat < den * 2 ^ (L.toNat + 1) := by exact_mod_cast hhigh
      _ = 2 ^ (L + 1) * den * 2 ^ (-L).toNat := by
          rw [pow_succ, ← hscale, zpow_add_one₀ two_ne_zero]
          ring

/-- What a ratio is rounded to: a significand at an exponent. -/
structure Rounds (num den : ℕ) (m : ℕ) (e : ℤ) : Prop where
  exponent : -1074 ≤ e
  significand : m ≤ 2 ^ 53
  /-- The significand is full, unless the exponent is the least one. -/
  full : e = -1074 ∨ 2 ^ 52 ≤ m
  error : |(m : ℚ) * 2 ^ e - num / den| ≤ 2 ^ e / 2
  le : e = -1074 ∨ (2 : ℚ) ^ (e + 52) ≤ num / den
  nearest : ∀ negative, nearest negative num den =
    ofMagnitude negative (min ((e + 1074).toNat * 2 ^ 52 + m) infinityBits)

theorem nearest_spec {num den : ℕ} (hnum : 0 < num) (hden : 0 < den) :
    ∃ m e, Rounds num den m e ∧ e = max (ratioLog num den - 52) (-1074) ∧
      m = halfEven (num * 2 ^ (-e).toNat) (den * 2 ^ e.toNat) := by
  obtain ⟨hlow, hhigh⟩ := ratioLog_spec hnum hden
  set e : ℤ := max (ratioLog num den - 52) (-1074) with he
  have hb : 0 < den * 2 ^ e.toNat := Nat.mul_pos hden (Nat.two_pow_pos _)
  have hhalf := abs_halfEven_sub_le (num * 2 ^ (-e).toNat) hb
  set m := halfEven (num * 2 ^ (-e).toNat) (den * 2 ^ e.toNat) with hm
  have hpow : (0 : ℚ) < 2 ^ e := zpow_pos two_pos e
  have hden' : (0 : ℚ) < den := by exact_mod_cast hden
  -- what is rounded to an integer is the ratio, scaled
  have hscaled : ((num * 2 ^ (-e).toNat : ℕ) : ℚ) / ((den * 2 ^ e.toNat : ℕ) : ℚ) =
      num / den / 2 ^ e := by
    rw [div_div, div_eq_div_iff (by positivity) (by positivity)]
    push_cast
    rw [← two_zpow_mul e]
    ring
  rw [hscaled] at hhalf
  have herror : |(m : ℚ) * 2 ^ e - num / den| ≤ 2 ^ e / 2 := by
    calc |(m : ℚ) * 2 ^ e - num / den| = |((m : ℚ) - num / den / 2 ^ e) * 2 ^ e| := by
          rw [sub_mul, div_mul_cancel₀ _ hpow.ne']
      _ = |(m : ℚ) - num / den / 2 ^ e| * 2 ^ e := by rw [abs_mul, abs_of_pos hpow]
      _ ≤ 1 / 2 * 2 ^ e := mul_le_mul_of_nonneg_right hhalf hpow.le
      _ = 2 ^ e / 2 := by ring
  obtain ⟨hdown, hup⟩ := abs_le.mp herror
  have hle : e = -1074 ∨ (2 : ℚ) ^ (e + 52) ≤ num / den := by
    rcases Int.le_total (ratioLog num den - 52) (-1074) with hleast | hmore
    · exact Or.inl (max_eq_right hleast)
    · right
      rw [he, max_eq_left hmore, sub_add_cancel]
      exact hlow
  have hlt : (num : ℚ) / den < 2 ^ (e + 53) := by
    refine hhigh.trans_le (zpow_le_zpow_right₀ one_le_two ?_)
    omega
  refine ⟨m, e, ⟨le_max_right _ _, ?_, ?_, herror, hle, fun negative ↦ ?_⟩, rfl, rfl⟩
  · -- below 2 ^ 53 and a half
    have hbound : (m : ℚ) * 2 ^ e < (2 ^ 53 + 1 : ℕ) * 2 ^ e := by
      rw [zpow_add₀ two_ne_zero] at hlt
      push_cast
      norm_num at hlt ⊢
      nlinarith
    have hnat := lt_of_mul_lt_mul_right hbound hpow.le
    exact Nat.lt_succ_iff.mp (by exact_mod_cast hnat)
  · refine hle.imp_right fun hratio ↦ ?_
    have hbound : ((2 ^ 52 - 1 : ℕ) : ℚ) * 2 ^ e < m * 2 ^ e := by
      rw [zpow_add₀ two_ne_zero] at hratio
      norm_num at hratio ⊢
      nlinarith
    have hnat := lt_of_mul_lt_mul_right hbound hpow.le
    have hlt : 2 ^ 52 - 1 < m := by exact_mod_cast hnat
    omega
  · rw [F64.nearest, if_neg hnum.ne']

/-! ## Values -/

theorem absValue_ofMagnitude (negative : Bool) {m : ℕ} {e : ℤ} (he : -1074 ≤ e) (hm : m ≤ 2 ^ 53)
    (hfull : e = -1074 ∨ 2 ^ 52 ≤ m) (hfinite : (e + 1074).toNat * 2 ^ 52 + m < infinityBits) :
    absValue (ofMagnitude negative ((e + 1074).toNat * 2 ^ 52 + m)) = m * 2 ^ e := by
  have hmagnitude := (fields_ofMagnitude' negative (hfinite.trans (by decide))).1
  obtain ⟨E, hE⟩ := Int.eq_ofNat_of_zero_le (show 0 ≤ e + 1074 by omega)
  rw [hE, Int.toNat_natCast] at hmagnitude ⊢
  rw [absValue, significand, exponent, hmagnitude]
  rcases hm.lt_or_eq with hlt | rfl
  · rcases Nat.lt_or_ge m (2 ^ 52) with hlow | hhigh
    · -- a subnormal one
      obtain rfl : E = 0 := by omega
      rw [Nat.zero_mul, Nat.zero_add, if_pos hlow, Nat.div_eq_of_lt hlow,
        show ((max 0 1 : ℕ) : ℤ) - 1075 = e by omega]
    · rw [if_neg (by omega), show 2 ^ 52 + (E * 2 ^ 52 + m) % 2 ^ 52 = m by omega,
        show ((max ((E * 2 ^ 52 + m) / 2 ^ 52) 1 : ℕ) : ℤ) - 1075 = e by omega]
  · -- the carry has run into the exponent
    rw [if_neg (by omega), show 2 ^ 52 + (E * 2 ^ 52 + 2 ^ 53) % 2 ^ 52 = 2 ^ 52 by omega,
      show ((max ((E * 2 ^ 52 + 2 ^ 53) / 2 ^ 52) 1 : ℕ) : ℤ) - 1075 = e + 1 by omega,
      zpow_add_one₀ two_ne_zero]
    push_cast
    ring

theorem absValue_nonneg (x : F64) : 0 ≤ absValue x :=
  mul_nonneg (Nat.cast_nonneg _) (zpow_pos two_pos _).le

/-- **The error of rounding a ratio.** -/
theorem abs_nearest_sub_le (negative : Bool) {num den : ℕ} (hden : 0 < den)
    (h : (num : ℚ) / den < 2 ^ 1000) :
    |absValue (nearest negative num den) - num / den| ≤
      max ((num : ℚ) / den / 2 ^ 53) (2 ^ (-1075 : ℤ)) := by
  rcases Nat.eq_zero_or_pos num with rfl | hnum
  · have hzero : absValue (nearest negative 0 den) = 0 := by
      rw [nearest, if_pos rfl, absValue, significand,
        (fields_ofMagnitude' negative (Nat.two_pow_pos 63)).1, if_pos (Nat.two_pow_pos 52),
        Nat.cast_zero, zero_mul]
    rw [hzero, Nat.cast_zero, zero_div, sub_zero, abs_zero]
    exact le_max_of_le_right (zpow_pos two_pos _).le
  obtain ⟨m, e, hrounds, -⟩ := nearest_spec hnum hden
  have hbound : e < 948 := by
    rcases hrounds.le with hleast | hle
    · omega
    · have hlt := (zpow_lt_zpow_iff_right₀ (one_lt_two (α := ℚ))).mp
        (hle.trans_lt (h.trans_eq (zpow_natCast (2 : ℚ) 1000).symm))
      omega
  have hexponent := hrounds.exponent
  have hsignificand := hrounds.significand
  have hfinite : (e + 1074).toNat * 2 ^ 52 + m < infinityBits := by
    rw [infinityBits]
    omega
  rw [hrounds.nearest, min_eq_left hfinite.le,
    absValue_ofMagnitude negative hexponent hsignificand hrounds.full hfinite]
  refine hrounds.error.trans ?_
  rcases hrounds.le with rfl | hle
  · refine le_max_of_le_right (le_of_eq ?_)
    rw [show (-1074 : ℤ) = -1075 + 1 by rfl, zpow_add_one₀ two_ne_zero,
      mul_div_cancel_right₀ _ two_ne_zero]
  · refine le_max_of_le_left ?_
    calc (2 : ℚ) ^ e / 2 = 2 ^ (e + 52) / 2 ^ 53 := by
          rw [zpow_add₀ two_ne_zero]
          norm_num
          ring
      _ ≤ (num : ℚ) / den / 2 ^ 53 := div_le_div_of_nonneg_right hle (by positivity)

/-! ## Order -/

theorem ratioLog_mono {num den num' den' : ℕ} (hnum : 0 < num) (hnum' : 0 < num') (hden : 0 < den)
    (hden' : 0 < den') (h : (num : ℚ) / den ≤ num' / den') :
    ratioLog num den ≤ ratioLog num' den' := by
  have hlow := (ratioLog_spec hnum hden).1
  have hhigh := (ratioLog_spec hnum' hden').2
  have hlt := (zpow_lt_zpow_iff_right₀ (one_lt_two (α := ℚ))).mp ((hlow.trans h).trans_lt hhigh)
  omega

/-- Rounding keeps the order. -/
theorem magnitude_nearest_mono {num den num' den' : ℕ} (hden : 0 < den) (hden' : 0 < den')
    (h : (num : ℚ) / den ≤ num' / den') :
    (nearest false num den).magnitude ≤ (nearest false num' den').magnitude := by
  have hcross : num * den' ≤ num' * den := by
    rw [div_le_div_iff₀ (by exact_mod_cast hden) (by exact_mod_cast hden')] at h
    exact_mod_cast h
  rcases Nat.eq_zero_or_pos num with rfl | hnum
  · rw [nearest, if_pos rfl, (fields_ofMagnitude' false (Nat.two_pow_pos 63)).1]
    exact Nat.zero_le _
  have hnum' : 0 < num' := Nat.pos_of_mul_pos_right ((Nat.mul_pos hnum hden').trans_le hcross)
  obtain ⟨m, e, hrounds, he, hm⟩ := nearest_spec hnum hden
  obtain ⟨m', e', hrounds', he', hm'⟩ := nearest_spec hnum' hden'
  have hlog := ratioLog_mono hnum hnum' hden hden' h
  have hexponent := hrounds.exponent
  have hsignificand := hrounds.significand
  have hbits : (e + 1074).toNat * 2 ^ 52 + m ≤ (e' + 1074).toNat * 2 ^ 52 + m' := by
    rcases (show e ≤ e' by omega).lt_or_eq with hlt | heq
    · -- a full significand at a greater exponent
      have hfull : 2 ^ 52 ≤ m' := by
        rcases hrounds'.full with hleast | hfull
        · omega
        · exact hfull
      omega
    · refine Nat.add_le_add (by rw [heq]) ?_
      rw [hm, hm', ← heq]
      refine halfEven_mono (Nat.mul_pos hden (Nat.two_pow_pos _))
        (Nat.mul_pos hden' (Nat.two_pow_pos _)) ?_
      calc num * 2 ^ (-e).toNat * (den' * 2 ^ e.toNat)
          = num * den' * (2 ^ (-e).toNat * 2 ^ e.toNat) := by ring
        _ ≤ num' * den * (2 ^ (-e).toNat * 2 ^ e.toNat) := Nat.mul_le_mul_right _ hcross
        _ = num' * 2 ^ (-e).toNat * (den * 2 ^ e.toNat) := by ring
  have hmin (k : ℕ) : min k infinityBits < 2 ^ 63 := (min_le_right _ _).trans_lt (by decide)
  rw [hrounds.nearest, hrounds'.nearest, (fields_ofMagnitude' false (hmin _)).1,
    (fields_ofMagnitude' false (hmin _)).1]
  exact min_le_min_right _ hbits

/-- The bits count the doubles in the order of their values. -/
theorem absValue_mono {x y : F64} (h : x.magnitude ≤ y.magnitude) : absValue x ≤ absValue y := by
  rw [absValue, absValue]
  rcases Nat.lt_or_ge (max (x.magnitude / 2 ^ 52) 1) (max (y.magnitude / 2 ^ 52) 1) with hlt | hge
  · have hexponent : x.exponent + 1 ≤ y.exponent := by
      rw [exponent, exponent]
      omega
    have hfull : 2 ^ 52 ≤ y.significand := by
      rw [significand]
      split_ifs <;> omega
    calc (x.significand : ℚ) * 2 ^ x.exponent ≤ 2 ^ 53 * 2 ^ x.exponent :=
          mul_le_mul_of_nonneg_right (by exact_mod_cast x.significand_lt.le) (zpow_pos two_pos _).le
      _ = 2 ^ 52 * 2 ^ (x.exponent + 1) := by
          rw [zpow_add_one₀ two_ne_zero]
          ring
      _ ≤ 2 ^ 52 * 2 ^ y.exponent :=
          mul_le_mul_of_nonneg_left (zpow_le_zpow_right₀ one_le_two hexponent) (by positivity)
      _ ≤ y.significand * 2 ^ y.exponent :=
          mul_le_mul_of_nonneg_right (by exact_mod_cast hfull) (zpow_pos two_pos _).le
  · have hexponent : x.exponent = y.exponent := by
      rw [exponent, exponent]
      omega
    have hsignificand : x.significand ≤ y.significand := by
      rw [significand, significand]
      split_ifs <;> omega
    rw [hexponent]
    exact mul_le_mul_of_nonneg_right (by exact_mod_cast hsignificand) (zpow_pos two_pos _).le

/-! ## Quotients -/

/-- A rounded ratio is a number with the sign that it is given. -/
theorem nearest_number (negative : Bool) (num den : ℕ) :
    (nearest negative num den).magnitude ≤ infinityBits ∧
      (nearest negative num den).isNegative = negative := by
  rw [nearest]
  split_ifs
  · obtain ⟨hmagnitude, hsign⟩ := fields_ofMagnitude' negative (Nat.two_pow_pos 63)
    exact ⟨hmagnitude.trans_le (Nat.zero_le _), hsign⟩
  · dsimp only
    set bits := (max (ratioLog num den - 52) (-1074) + 1074).toNat * 2 ^ 52 + _
    obtain ⟨hmagnitude, hsign⟩ := fields_ofMagnitude' negative
      ((min_le_right bits infinityBits).trans_lt (by decide))
    exact ⟨hmagnitude.trans_le (min_le_right _ _), hsign⟩

theorem absValue_pos {x : F64} (h : x.magnitude ≠ 0) : 0 < absValue x := by
  have hsignificand : 0 < x.significand := by
    rw [significand]
    split_ifs
    · exact Nat.pos_of_ne_zero h
    · omega
  exact mul_pos (by exact_mod_cast hsignificand) (zpow_pos two_pos _)

/-- A quotient is the ratio of the values, rounded. -/
theorem div_eq_nearest {x y : F64} (hx : x.magnitude < infinityBits)
    (hy : y.magnitude < infinityBits) (hzero : y.magnitude ≠ 0) :
    ∃ num den : ℕ, 0 < den ∧ (num : ℚ) / den = absValue x / absValue y ∧
      x / y = nearest (x.isNegative != y.isNegative) num den := by
  have hpos := absValue_pos hzero
  have hsignificand : 0 < y.significand := by
    by_contra hnone
    rw [absValue, Nat.eq_zero_of_not_pos hnone, Nat.cast_zero, zero_mul] at hpos
    exact lt_irrefl _ hpos
  set e := x.exponent - y.exponent with he
  refine ⟨x.significand * 2 ^ e.toNat, y.significand * 2 ^ (-e).toNat,
    Nat.mul_pos hsignificand (Nat.two_pow_pos _), ?_, ?_⟩
  · have hsplit : (2 : ℚ) ^ x.exponent = 2 ^ e * 2 ^ y.exponent := by
      rw [← zpow_add₀ two_ne_zero, he, sub_add_cancel]
    rw [div_eq_div_iff (by positivity) hpos.ne', absValue, absValue, hsplit]
    push_cast
    rw [← two_zpow_mul e]
    ring
  · have hnan : ¬(x.isNaN = true ∨ y.isNaN = true) := by
      simp only [isNaN, decide_eq_true_eq]
      omega
    change x.div y = _
    rw [F64.div, if_neg hnan, if_neg hx.ne, if_neg hy.ne, if_neg hzero]

/-- The error of a natural number as a double. -/
theorem abs_ofNat_sub_le {n : ℕ} (hn : n < 2 ^ 64) :
    |absValue (ofNat n) - n| ≤ (n : ℚ) / 2 ^ 53 := by
  rcases Nat.eq_zero_or_pos n with rfl | hpos
  · have hzero : absValue (ofNat 0) = 0 := by
      change ((0 : ℕ) : ℚ) * _ = 0
      rw [Nat.cast_zero, zero_mul]
    rw [hzero, Nat.cast_zero, sub_zero, abs_zero, zero_div]
  have hcast : (n : ℚ) / (1 : ℕ) = n := by rw [Nat.cast_one, div_one]
  have hbound : (n : ℚ) < 2 ^ 1000 := by
    calc (n : ℚ) < 2 ^ 64 := by exact_mod_cast hn
      _ ≤ 2 ^ 1000 := pow_le_pow_right₀ one_le_two (by decide)
  have herror := abs_nearest_sub_le false Nat.one_pos (hcast.trans_lt hbound)
  rw [hcast] at herror
  refine herror.trans (max_le le_rfl ?_)
  have hone : (1 : ℚ) ≤ n := by exact_mod_cast hpos
  calc (2 : ℚ) ^ (-1075 : ℤ) ≤ 2 ^ (-53 : ℤ) := zpow_le_zpow_right₀ one_le_two (by decide)
    _ = 1 / 2 ^ 53 := by rw [zpow_neg, one_div]; rfl
    _ ≤ n / 2 ^ 53 := div_le_div_of_nonneg_right hone (by positivity)

end F64

end SqlReplay
