import Mathlib.Algebra.Order.Floor.Semifield
import Mathlib.Data.Rat.Floor
import SqlReplay.Data.FloatError
import SqlReplay.Report.Baseline

/-!
# The schedule of a paced replay

At a speed factor an event is due when its distance from the first event of the capture, divided by
the factor, has passed since the pass began. The distance is computed in doubles and rounded to
microseconds. What that loses is a microsecond and a tiny part of the distance (`dueOffset_error`),
and the order is kept exactly: an event that is captured no later is due no later
(`dueOffset_mono`).

How late events are let through is summed up by an accumulator, of which the report is made
(`LagAgg.Holds`).
-/

namespace SqlReplay

/-! ## Rounding to an integer -/

namespace F64

theorem roundToU64_eq {x : F64} (hnumber : x.magnitude ≤ infinityBits)
    (hsign : x.isNegative = false) :
    x.roundToU64 = min ⌊absValue x + 1 / 2⌋₊ (2 ^ 64 - 1) := by
  have hhalf : absValue x + 1 / 2 =
      ((2 * (x.significand * 2 ^ x.exponent.toNat) + 2 ^ (-x.exponent).toNat : ℕ) : ℚ) /
        ((2 * 2 ^ (-x.exponent).toNat : ℕ) : ℚ) := by
    have hscale := two_zpow_mul x.exponent
    rw [absValue, eq_div_iff (by positivity)]
    push_cast
    rw [← hscale]
    ring
  rw [roundToU64, hsign, if_neg (by simpa using hnumber), hhalf, Nat.floor_div_eq_div]

/-- Half is the most that rounding to an integer changes. -/
theorem abs_roundToU64_sub_le {x : F64} (hnumber : x.magnitude ≤ infinityBits)
    (hsign : x.isNegative = false) (h : absValue x + 1 / 2 < 2 ^ 64) :
    |(x.roundToU64 : ℚ) - absValue x| ≤ 1 / 2 := by
  have hpos : 0 ≤ absValue x + 1 / 2 := by
    have hnonneg := absValue_nonneg x
    linarith
  have hfloor := Nat.floor_le hpos
  have hlt := Nat.lt_floor_add_one (absValue x + 1 / 2)
  have hmin : ⌊absValue x + 1 / 2⌋₊ ≤ 2 ^ 64 - 1 := by
    have hbound := (Nat.floor_lt (n := 2 ^ 64) hpos).mpr (by exact_mod_cast h)
    omega
  rw [roundToU64_eq hnumber hsign, min_eq_left hmin, abs_le]
  constructor <;> linarith

theorem roundToU64_mono {x y : F64} (hy : y.magnitude ≤ infinityBits)
    (hxsign : x.isNegative = false) (hysign : y.isNegative = false)
    (h : x.magnitude ≤ y.magnitude) : x.roundToU64 ≤ y.roundToU64 := by
  rw [roundToU64_eq (h.trans hy) hxsign, roundToU64_eq hy hysign]
  exact min_le_min_right _ (Nat.floor_mono (add_le_add_left (absValue_mono h) _))

end F64

/-! ## The schedule -/

/-- A speed factor: a finite number, and positive. -/
structure SpeedFactor where
  value : F64
  finite : value.magnitude < F64.infinityBits
  sign : value.isNegative = false
  positive : value.magnitude ≠ 0

/-- How fast a capture is replayed. -/
inductive Speed where
  | max
  | factor (f : SpeedFactor)

/-- `i64::saturating_sub`. -/
def saturatingSubI64 (a b : ℤ) : ℤ := max (-2 ^ 63) (min (a - b) (2 ^ 63 - 1))

/-- `due_offset_micros`. -/
def dueOffsetMicros (evTsMicros baseTsMicros : ℤ) (speed : F64) : ℕ :=
  let gap := max (saturatingSubI64 evTsMicros baseTsMicros) 0
  (F64.ofNat gap.toNat / speed).roundToU64

/-! ## The schedule in numbers -/

/-- An event is not before the origin, and is due within the range of the clock. -/
structure InRange (f : SpeedFactor) (base : ℤ) (ev : Event) : Prop where
  origin : base ≤ ev.tsMicros
  span : ev.tsMicros - base < 2 ^ 63
  range : ((ev.tsMicros - base : ℤ) : ℚ) / f.value.absValue < 2 ^ 63

/-- The distance of an event from the origin, in microseconds of the replay. -/
def scaledOffset (f : SpeedFactor) (base : ℤ) (ev : Event) : ℚ :=
  ((ev.tsMicros - base : ℤ) : ℚ) / f.value.absValue

theorem ofNat_finite {n : ℕ} (hn : n < 2 ^ 64) : (F64.ofNat n).magnitude < F64.infinityBits :=
  (F64.magnitude_nearest_lt false Nat.one_pos (by rwa [one_mul]) (by decide : 64 ≤ 1000)).trans
    (by decide)

/-- The quotient that is rounded to a due offset. -/
theorem exists_quotient (f : SpeedFactor) {n : ℕ} (hn : n < 2 ^ 64) :
    ∃ num den : ℕ, 0 < den ∧ (num : ℚ) / den = (F64.ofNat n).absValue / f.value.absValue ∧
      F64.ofNat n / f.value = F64.nearest false num den := by
  obtain ⟨num, den, hden, hratio, hquotient⟩ :=
    F64.div_eq_nearest (ofNat_finite hn) f.finite f.positive
  have hsign : (F64.ofNat n).isNegative = false := (F64.nearest_number false n 1).2
  rw [hsign, f.sign] at hquotient
  exact ⟨num, den, hden, hratio, hquotient⟩

theorem gap_lt (ts base : ℤ) : (max (saturatingSubI64 ts base) 0).toNat < 2 ^ 63 := by
  rw [saturatingSubI64]
  omega

/-- What the doubles lose of a gap and its quotient. -/
theorem quotient_error (f : SpeedFactor) {n : ℕ} (hn : n < 2 ^ 64)
    (hrange : (n : ℚ) / f.value.absValue < 2 ^ 63) :
    |(F64.ofNat n / f.value).absValue - n / f.value.absValue| ≤
      n / f.value.absValue / 2 ^ 52 + n / f.value.absValue / 2 ^ 53 + 1 / 4 := by
  have hv : 0 < f.value.absValue := F64.absValue_pos f.positive
  obtain ⟨num, den, hden, hratio, hquotient⟩ := exists_quotient f hn
  rw [hquotient]
  set v := f.value.absValue
  set q : ℚ := n / v with hq
  have hqpos : 0 ≤ q := div_nonneg (Nat.cast_nonneg _) hv.le
  -- the error of the gap as a double, scaled
  have hgap : |(num : ℚ) / den - q| ≤ q / 2 ^ 53 := by
    have herror := F64.abs_ofNat_sub_le hn
    rw [hratio, hq, ← sub_div, abs_div, abs_of_pos hv, div_right_comm]
    exact div_le_div_of_nonneg_right herror hv.le
  have hle : (num : ℚ) / den ≤ 2 * q := by
    have hhalf : q / 2 ^ 53 ≤ q := div_le_self hqpos (one_le_pow₀ one_le_two)
    have hupper := (abs_le.mp hgap).2
    linarith
  have hsmall : (num : ℚ) / den < 2 ^ 64 := by linarith
  -- the error of the quotient
  have hdivision : |(F64.nearest false num den).absValue - num / den| ≤ q / 2 ^ 52 + 1 / 4 := by
    have herror := F64.abs_nearest_sub_le false hden
      (hsmall.trans_le (pow_le_pow_right₀ one_le_two (by decide : 64 ≤ 1000)))
    refine herror.trans (max_le ?_ ?_)
    · calc (num : ℚ) / den / 2 ^ 53 ≤ 2 * q / 2 ^ 53 :=
            div_le_div_of_nonneg_right hle (by positivity)
        _ = q / 2 ^ 52 := by ring
        _ ≤ q / 2 ^ 52 + 1 / 4 := le_add_of_nonneg_right (by norm_num)
    · calc (2 : ℚ) ^ (-1075 : ℤ) ≤ 2 ^ (-2 : ℤ) :=
            zpow_le_zpow_right₀ one_le_two (by decide : (-1075 : ℤ) ≤ -2)
        _ = 1 / 4 := by norm_num
        _ ≤ q / 2 ^ 52 + 1 / 4 := le_add_of_nonneg_left (by positivity)
  calc |(F64.nearest false num den).absValue - q|
      ≤ |(F64.nearest false num den).absValue - num / den| + |(num : ℚ) / den - q| :=
        abs_sub_le _ _ _
    _ ≤ (q / 2 ^ 52 + 1 / 4) + q / 2 ^ 53 := add_le_add hdivision hgap
    _ = q / 2 ^ 52 + q / 2 ^ 53 + 1 / 4 := by ring

/-- A due offset is a microsecond off at most, and what the doubles lose. -/
theorem dueOffset_error {f : SpeedFactor} {base : ℤ} {ev : Event} (h : InRange f base ev) :
    |(dueOffsetMicros ev.tsMicros base f.value : ℚ) - scaledOffset f base ev| ≤
      1 + scaledOffset f base ev / 2 ^ 51 := by
  obtain ⟨horigin, hspan, hrange⟩ := h
  obtain ⟨n, hn⟩ := Int.eq_ofNat_of_zero_le (sub_nonneg.mpr horigin)
  have hgap : (max (saturatingSubI64 ev.tsMicros base) 0).toNat = n := by
    rw [saturatingSubI64]
    omega
  have hbound : n < 2 ^ 64 := by omega
  have hoffset : scaledOffset f base ev = n / f.value.absValue := by
    rw [scaledOffset, hn, Int.cast_natCast]
  rw [hn, Int.cast_natCast] at hrange
  rw [dueOffsetMicros, hgap, hoffset]
  have hquotient := abs_le.mp (quotient_error f hbound hrange)
  obtain ⟨num, den, -, -, hnearest⟩ := exists_quotient f hbound
  obtain ⟨hnumber, hsign⟩ := F64.nearest_number false num den
  rw [← hnearest] at hnumber hsign
  set q : ℚ := n / f.value.absValue with hq
  have hqpos : 0 ≤ q := div_nonneg (Nat.cast_nonneg _) (F64.absValue_nonneg _)
  have hsplit : q / 2 ^ 51 = 2 * (q / 2 ^ 52) := by ring
  have hsplit' : q / 2 ^ 53 = q / 2 ^ 52 / 2 := by ring
  have htiny : q / 2 ^ 52 < 2 ^ 11 := by
    rw [div_lt_iff₀ (by positivity)]
    exact hrange.trans_eq (by norm_num)
  have hrounded : (F64.ofNat n / f.value).absValue + 1 / 2 < 2 ^ 64 := by
    norm_num at hrange htiny ⊢
    linarith
  have hround := abs_le.mp (F64.abs_roundToU64_sub_le hnumber hsign hrounded)
  have h52 : 0 ≤ q / 2 ^ 52 := by positivity
  rw [abs_le]
  constructor <;> linarith

/-- An event that is captured no later is due no later. -/
theorem dueOffset_mono (f : SpeedFactor) (base : ℤ) {ts ts' : ℤ} (h : ts ≤ ts') :
    dueOffsetMicros ts base f.value ≤ dueOffsetMicros ts' base f.value := by
  have hgap : (max (saturatingSubI64 ts base) 0).toNat ≤
      (max (saturatingSubI64 ts' base) 0).toNat := by
    rw [saturatingSubI64, saturatingSubI64]
    omega
  rw [dueOffsetMicros, dueOffsetMicros]
  have hn := gap_lt ts base
  have hn' := gap_lt ts' base
  generalize (max (saturatingSubI64 ts base) 0).toNat = n at hgap hn
  generalize (max (saturatingSubI64 ts' base) 0).toNat = n' at hgap hn'
  obtain ⟨num, den, hden, hratio, hquotient⟩ := exists_quotient f (hn.trans (by decide))
  obtain ⟨num', den', hden', hratio', hquotient'⟩ := exists_quotient f (hn'.trans (by decide))
  have hdouble : (F64.ofNat n).absValue ≤ (F64.ofNat n').absValue := by
    refine F64.absValue_mono (F64.magnitude_nearest_mono Nat.one_pos Nat.one_pos ?_)
    rw [Nat.cast_one, div_one, div_one]
    exact_mod_cast hgap
  rw [hquotient, hquotient']
  refine F64.roundToU64_mono (F64.nearest_number _ _ _).1 (F64.nearest_number _ _ _).2
    (F64.nearest_number _ _ _).2 (F64.magnitude_nearest_mono hden hden' ?_)
  rw [hratio, hratio']
  exact div_le_div_of_nonneg_right hdouble (F64.absValue_nonneg _)

/-! ## The pacer -/

/-- The pacing-fidelity accumulator. -/
structure LagAgg where
  pacedEvents : ℕ := 0
  maxLagUs : ℕ := 0
  sumLagUs : ℕ := 0
  deriving DecidableEq, Repr

/-- The microseconds of a lag in nanoseconds. -/
def lagMicros (lag : ℕ) : ℕ := lag / 1000 % 2 ^ 64

def LagAgg.record (a : LagAgg) (lag : ℕ) : LagAgg where
  pacedEvents := a.pacedEvents + 1
  maxLagUs := max a.maxLagUs (lagMicros lag)
  sumLagUs := (a.sumLagUs + lagMicros lag) % 2 ^ 64

def LagAgg.report (a : LagAgg) (speed : F64) : Aggregate.PacingReport F64 where
  speed := speed
  pacedEvents := a.pacedEvents
  maxLagUs := a.maxLagUs
  meanLagUs := if 0 < a.pacedEvents then F64.ofNat a.sumLagUs / F64.ofNat a.pacedEvents else .zero

/-- The pacer, without its accumulator. Moments are nanoseconds of one clock. -/
inductive Pacer where
  | max
  | paced (speed : SpeedFactor) (baseTsMicros : ℤ) (start : ℕ)

namespace Pacer

protected def new (speed : Speed) (baseTsMicros : ℤ) (now : ℕ) : Pacer :=
  match speed with
  | .max => .max
  | .factor f => .paced f baseTsMicros now

/-- `Pacer::due`. -/
def due (p : Pacer) (ev : Event) : Option ℕ :=
  match p with
  | .max => none
  | .paced speed baseTsMicros start =>
    some (start + 1000 * dueOffsetMicros ev.tsMicros baseTsMicros speed.value)

/-- `Pacer::pace`, behind the wait. -/
def recordLag (p : Pacer) (lag : LagAgg) (ev : Event) (now : ℕ) : LagAgg :=
  match p.due ev with
  | none => lag
  | some due => lag.record (now - due)

def report (p : Pacer) (lag : LagAgg) : Option (Aggregate.PacingReport F64) :=
  match p with
  | .max => none
  | .paced speed _ _ => some (lag.report speed.value)

end Pacer

/-! ## The lags -/

/-- What the accumulator is of the lags. -/
structure LagAgg.Holds (a : LagAgg) (lags : List ℕ) : Prop where
  count : a.pacedEvents = lags.length
  le : ∀ lag ∈ lags, lagMicros lag ≤ a.maxLagUs
  attained : a.maxLagUs = 0 ∨ ∃ lag ∈ lags, a.maxLagUs = lagMicros lag
  sum : a.sumLagUs = (lags.map lagMicros).sum % 2 ^ 64

theorem LagAgg.holds_new : LagAgg.Holds {} [] :=
  ⟨rfl, fun _ h ↦ absurd h List.not_mem_nil, Or.inl rfl, rfl⟩

theorem LagAgg.Holds.record {a : LagAgg} {lags : List ℕ} (h : a.Holds lags) (lag : ℕ) :
    (a.record lag).Holds (lags ++ [lag]) := by
  constructor
  · rw [LagAgg.record, h.count, List.length_append, List.length_singleton]
  · intro x hx
    rcases List.mem_append.mp hx with hx | hx
    · exact (h.le x hx).trans (le_max_left _ _)
    · rw [List.mem_singleton.mp hx]
      exact le_max_right _ _
  · rcases le_total (lagMicros lag) a.maxLagUs with hle | hle
    · have hmax : (a.record lag).maxLagUs = a.maxLagUs := max_eq_left hle
      rw [hmax]
      refine h.attained.imp_right ?_
      rintro ⟨x, hx, heq⟩
      exact ⟨x, List.mem_append_left _ hx, heq⟩
    · right
      exact ⟨lag, List.mem_append_right _ (List.mem_singleton_self lag), max_eq_right hle⟩
  · rw [List.map_append, List.sum_append, List.map_singleton, List.sum_singleton, LagAgg.record,
      h.sum, Nat.mod_add_mod]

end SqlReplay
