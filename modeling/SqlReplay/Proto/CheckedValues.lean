import SqlReplay.Proto.CheckedDecoder
import Mathlib.Data.Nat.Bitwise

/-!
# Checked values

The checked reader compared with the plain one, from the primitives up to the attribute section of
a query. Each index is below the length that `take` was asked for, and a bitmap has a bit for every
parameter, so all of it is safe but for the hours of a TIME value (`checks_timeValue`). A section
panics exactly when one of the values that it comes to does (`checks_behind`).
-/

namespace SqlReplay

/-! ## Primitives -/

section Primitives

variable {a : ℕ} {b : Bytes}

theorem safe_take (n : ℕ) : Safe maxLogicalPacket (CheckedReader.take n) (Reader.take n) :=
  .take (by decide) n

/-- What `take` returns has the length that was asked for, and there is no more than the payload. -/
theorem length_of_take {n : ℕ} (h : Returns maxLogicalPacket (Reader.take n) b) :
    b.length = n ∧ n ≤ maxLogicalPacket := by
  obtain ⟨p, rest, hp, htake⟩ := h
  rw [Reader.take_apply] at htake
  split_ifs at htake with hshort
  obtain ⟨rfl, -⟩ := Prod.mk.inj (Option.some.inj htake)
  have hlen : (p.take n).length = n := by
    rw [List.length_take]
    omega
  exact ⟨hlen, by omega⟩

theorem u8_eq : Reader.u8 = (do let s ← Reader.take 1; pure (s.getD 0 0)) := by
  funext b
  rw [Reader.bind_apply, Reader.take_apply]
  cases b <;> rfl

theorem safe_u8 : Safe maxLogicalPacket CheckedReader.u8 Reader.u8 := by
  rw [u8_eq]
  refine (safe_take 1).bind fun s hs ↦ Safe.lift (Checked.index_of_lt s 0 0 ?_)
  rw [(length_of_take hs).1]
  exact Nat.one_pos

theorem le_eq (n : ℕ) : Reader.le n = (do let s ← Reader.take n; pure (leNat s)) :=
  (bind_pure_comp leNat (Reader.take n)).symm

theorem safe_leIndexed (n : ℕ) :
    Safe maxLogicalPacket (CheckedReader.leIndexed n) (Reader.le n) := by
  rw [le_eq]
  refine (safe_take n).bind fun s hs ↦ Checks.lift_bind ?_ (Safe.pure _)
  have hlen := (length_of_take hs).1
  rw [Checked.indices_range' s 0 n (by omega), List.drop_zero, List.take_of_length_le hlen.le]

theorem safe_leArray (n : ℕ) : Safe maxLogicalPacket (CheckedReader.leArray n) (Reader.le n) := by
  rw [le_eq]
  refine (safe_take n).bind fun s hs ↦ ?_
  rw [if_pos (length_of_take hs).1]
  exact Safe.pure _

theorem safe_lenencInt : Safe maxLogicalPacket CheckedReader.lenencInt Reader.lenencInt := by
  refine safe_u8.bind fun n _ ↦ ?_
  split_ifs
  · exact Safe.pure _
  · exact safe_leIndexed 2
  · exact safe_leIndexed 3
  · rw [le_eq]
    refine (safe_take 8).bind fun s hs ↦ ?_
    exact Checks.lift_bind (Checked.exactly_of_length (length_of_take hs).1) (Safe.pure _)
  · exact Safe.fail

theorem safe_lenencBytes :
    Safe maxLogicalPacket CheckedReader.lenencBytes Reader.lenencBytes :=
  safe_lenencInt.bind fun n _ ↦ safe_take n

theorem le_lt {n : ℕ} {rest : Bytes} (h : Reader.le n b = some (a, rest)) : a < 256 ^ n := by
  rw [Reader.le, Reader.map_apply, Reader.take_apply] at h
  split_ifs at h with hshort
  · exact (Option.some_ne_none _ h.symm).elim
  obtain ⟨rfl, -⟩ := Prod.mk.inj (Option.some.inj h)
  refine (leNat_lt _).trans_le (Nat.pow_le_pow_right (by decide) ?_)
  exact (List.length_take_le n b)

/-- A length-encoded integer fits 64 bits. -/
theorem lenencInt_lt {rest : Bytes} (h : Reader.lenencInt b = some (a, rest)) :
    a < 2 ^ 64 := by
  rw [Reader.lenencInt, Reader.bind_apply, Reader.u8_apply] at h
  split_ifs at h with hshort
  · exact (Option.some_ne_none _ h.symm).elim
  rw [Option.bind_some] at h
  dsimp only at h
  split_ifs at h with h1 h2 h3 h4
  · obtain ⟨rfl, -⟩ := Prod.mk.inj (Option.some.inj h)
    exact (UInt8.toNat_lt _).trans (by decide)
  · exact (le_lt h).trans (by decide)
  · exact (le_lt h).trans (by decide)
  · exact (le_lt h).trans_eq (by decide)
  · exact (Option.some_ne_none _ h.symm).elim
end Primitives

/-! ## Values -/

theorem dateTextChecked_eq {b : Bytes} (h : 4 ≤ b.length) :
    dateTextChecked b = some (dateText b) := by
  have hyear : Checked.indices b [0, 1] = some (b.take 2) :=
    Checked.indices_range' b 0 2 (by omega)
  have hmonth := Checked.index_of_lt b 2 0 (by omega)
  have hday := Checked.index_of_lt b 3 0 (by omega)
  simp [dateTextChecked, dateText, hyear, hmonth, hday]

theorem clockTextChecked_eq {b : Bytes} {i : ℕ} (h : i + 3 ≤ b.length) :
    clockTextChecked b i = some (clockText b i) := by
  have hhour := Checked.index_of_lt b i 0 (by omega)
  have hminute := Checked.index_of_lt b (i + 1) 0 (by omega)
  have hsecond := Checked.index_of_lt b (i + 2) 0 (by omega)
  simp [clockTextChecked, clockText, hhour, hminute, hsecond]

theorem microsTextChecked_eq {b : Bytes} {i : ℕ} (h : i + 4 ≤ b.length) :
    microsTextChecked b i = some (microsText b i) := by
  have hmicros : Checked.indices b [i, i + 1, i + 2, i + 3] = some ((b.drop i).take 4) :=
    Checked.indices_range' b i 4 h
  simp [microsTextChecked, microsText, hmicros]

/-- A date's literal: every index is below the length that the length byte gave. -/
theorem safe_dateValue : Safe maxLogicalPacket CheckedReader.dateValue dateValue := by
  refine safe_u8.bind fun len _ ↦ (safe_take len.toNat).bind fun b hb ↦ ?_
  have hlen := (length_of_take hb).1
  split_ifs with h0 h
  · subst h0
    exact Safe.pure _
  · rcases h with rfl | rfl | rfl
    · apply Safe.lift
      have hb4 : b.length = 4 := hlen
      simp [dateLiteralChecked, dateTextChecked_eq (b := b) (by omega)]
    · apply Safe.lift
      have hb7 : b.length = 7 := hlen
      simp [dateLiteralChecked, dateTextChecked_eq (b := b) (by omega),
        clockTextChecked_eq (b := b) (i := 4) (by omega)]
    · apply Safe.lift
      have hb11 : b.length = 11 := hlen
      simp [dateLiteralChecked, dateTextChecked_eq (b := b) (by omega),
        clockTextChecked_eq (b := b) (i := 4) (by omega),
        microsTextChecked_eq (b := b) (i := 7) (by omega)]
  · rw [not_or, not_or] at h
    split
    · next heq => exact absurd (UInt8.toNat_inj.mp heq) h0
    · next heq => exact absurd (UInt8.toNat_inj.mp heq) h.1
    · next heq => exact absurd (UInt8.toNat_inj.mp heq) h.2.1
    · next heq => exact absurd (UInt8.toNat_inj.mp heq) h.2.2
    · exact Safe.fail

/-- The hours of the bytes of a TIME of length `len` fit. -/
def HoursFitIn (len : UInt8) (b : Bytes) : Prop :=
  len = 8 ∨ len = 12 → leNat ((b.drop 1).take 4) * 24 + leNat [b.getD 5 0] < 2 ^ 32

theorem timeLiteralChecked_of_fit {len : ℕ} {b : Bytes} (hlen : b.length = len) (h8 : 8 ≤ len)
    (h : leNat ((b.drop 1).take 4) * 24 + leNat [b.getD 5 0] < 2 ^ 32) :
    timeLiteralChecked len b = some (singleQuote :: ((if b.headD 0 ≠ 0 then [ch '-'] else []) ++
      zeroPadded 2 (leNat ((b.drop 1).take 4) * 24 + leNat [b.getD 5 0]) ++
      ch ':' :: zeroPadded 2 (leNat [b.getD 6 0]) ++ ch ':' :: zeroPadded 2 (leNat [b.getD 7 0])) ++
      (if len = 12 then microsText b 8 else []) ++ [singleQuote]) := by
  have hsign : Checked.index b 0 = some (b.headD 0) := by
    cases b with
    | nil => exact absurd (h8.trans hlen.ge) (by decide)
    | cons c rest => rfl
  have hdays : Checked.indices b [1, 2, 3, 4] = some ((b.drop 1).take 4) :=
    Checked.indices_range' b 1 4 (by omega)
  have hrest := Checked.index_of_lt b 5 0 (by omega)
  have hminute := Checked.index_of_lt b 6 0 (by omega)
  have hsecond := Checked.index_of_lt b 7 0 (by omega)
  rw [leNat_singleton] at h
  have hmul : Checked.mul 32 (leNat ((b.drop 1).take 4)) 24 =
      some (leNat ((b.drop 1).take 4) * 24) := Checked.mul_of_lt (by omega)
  have hadd := Checked.add_of_lt h
  have hmicros : timeMicrosChecked len b = some (if len = 12 then microsText b 8 else []) := by
    rw [timeMicrosChecked]
    split_ifs with hlong
    · exact microsTextChecked_eq (by omega)
    · rfl
  simp only [timeLiteralChecked, hsign, hdays, hmul, hrest, hadd, hmicros, hminute, hsecond,
    leNat_singleton, bind, Option.bind_some]

theorem timeLiteralChecked_of_not_fit {len : ℕ} {b : Bytes} (hlen : b.length = len) (h8 : 8 ≤ len)
    (h : ¬leNat ((b.drop 1).take 4) * 24 + leNat [b.getD 5 0] < 2 ^ 32) :
    timeLiteralChecked len b = none := by
  have hsign : Checked.index b 0 = some (b.headD 0) := by
    cases b with
    | nil => exact absurd (h8.trans hlen.ge) (by decide)
    | cons c rest => rfl
  have hdays : Checked.indices b [1, 2, 3, 4] = some ((b.drop 1).take 4) :=
    Checked.indices_range' b 1 4 (by omega)
  have hrest := Checked.index_of_lt b 5 0 (by omega)
  rw [leNat_singleton] at h
  simp only [timeLiteralChecked, hsign, hdays, hrest, bind, Option.bind_some]
  -- the product alone can be too large, and so can the sum
  by_cases hmul : leNat ((b.drop 1).take 4) * 24 < 2 ^ 32
  · rw [Checked.mul_of_lt hmul, Option.bind_some, Checked.add, if_neg h, Option.bind_none]
  · rw [Checked.mul, if_neg hmul, Option.bind_none]

theorem hoursFit_iff (b : Bytes) :
    WireValue.HoursFit ⟨FieldType.TIME, b⟩ ↔
      ∀ len rest, Reader.u8 b = some (len, rest) →
        ∀ v after, Reader.take len.toNat rest = some (v, after) → HoursFitIn len v := by
  cases b with
  | nil => 
    constructor
    · intro _ len rest h
      exact (Option.some_ne_none _ h.symm).elim
    · intro _ h hmem
      exact absurd hmem (Option.not_mem_none h)
  | cons len b =>
    have hhours (v : Bytes) (hv : v = b.take len.toNat) (hlen : len = 8 ∨ len = 12) :
        leNat ((v.drop 1).take 4) * 24 + leNat [v.getD 5 0] =
          leNat ((b.drop 1).take 4) * 24 + leNat [b.getD 5 0] := by
      subst hv
      rcases hlen with rfl | rfl
      · rw [List.drop_take, List.take_take, List.getD_eq_getElem?_getD, List.getElem?_take]
        rfl
      · rw [List.drop_take, List.take_take, List.getD_eq_getElem?_getD, List.getElem?_take]
        rfl
    constructor
    · intro h len' rest hu8 v after htake hlen
      obtain ⟨rfl, rfl⟩ := Prod.mk.inj (Option.some.inj hu8)
      rw [Reader.take_apply] at htake
      split_ifs at htake with hshort
      obtain ⟨rfl, -⟩ := Prod.mk.inj (Option.some.inj htake)
      rw [hhours _ rfl hlen]
      apply h
      exact Option.mem_def.mpr (if_pos ⟨rfl, hlen, Nat.le_of_not_lt hshort⟩)
    · intro h n hn
      rw [WireValue.hours?] at hn
      dsimp only at hn
      split_ifs at hn with hlen
      · obtain rfl := Option.mem_some.mp hn
        have htake : Reader.take len.toNat b = some (b.take len.toNat, b.drop len.toNat) := by
          rw [Reader.take_apply, if_neg (Nat.not_lt.mpr hlen.2.2)]
        have hfit := h len b rfl _ _ htake hlen.2.1
        rwa [hhours _ rfl hlen.2.1] at hfit
      · exact absurd hn (Option.not_mem_none n)

/-- The one step that can panic, and when. -/
theorem checks_timeValue :
    Checks maxLogicalPacket CheckedReader.timeValue timeValue
      fun b ↦ WireValue.HoursFit ⟨FieldType.TIME, b⟩ := by
  refine Checks.congr (safe_u8.bind_checks fun len _ ↦
    (safe_take len.toNat).bind_checks fun b hb ↦
      (?_ : Checks _ _ _ fun _ ↦ HoursFitIn len b)) fun b ↦ (hoursFit_iff b).symm
  have hlen := (length_of_take hb).1
  by_cases h0 : len = 0
  · subst h0
    exact (Safe.pure _).congr fun _ ↦ (iff_true_intro fun h ↦ absurd h (by decide)).symm
  rw [if_neg h0]
  by_cases h : len = 8 ∨ len = 12
  · rw [if_pos h]
    have hiff : leNat ((b.drop 1).take 4) * 24 + leNat [b.getD 5 0] < 2 ^ 32 ↔ HoursFitIn len b :=
      (imp_iff_right h).symm
    rcases h with rfl | rfl
    · refine (Checks.lift (fun hfit ↦ ?_) fun hnot ↦ ?_).congr fun _ ↦ hiff
      · rw [timeLiteralChecked_of_fit hlen (by decide) hfit, Nat.mod_eq_of_lt hfit]
        simp
      · exact timeLiteralChecked_of_not_fit hlen (by decide) hnot
    · refine (Checks.lift (fun hfit ↦ ?_) fun hnot ↦ ?_).congr fun _ ↦ hiff
      · rw [timeLiteralChecked_of_fit hlen (by decide) hfit, Nat.mod_eq_of_lt hfit]
        simp
      · exact timeLiteralChecked_of_not_fit hlen (by decide) hnot
  · rw [if_neg h]
    have hother : ∀ k : UInt8, k = 0 ∨ k = 8 ∨ k = 12 → len.toNat ≠ k.toNat := by
      intro k hk heq
      obtain rfl := UInt8.toNat_inj.mp heq
      exact hk.elim h0 h
    have hfail : Safe maxLogicalPacket (CheckedReader.fail : CheckedReader UInt8 Bytes) failure :=
      Safe.fail
    dsimp only
    split
    · next heq => exact absurd heq (hother 0 (.inl rfl))
    · next heq => exact absurd heq (hother 8 (.inr (.inl rfl)))
    · next heq => exact absurd heq (hother 12 (.inr (.inr rfl)))
    · exact hfail.congr fun _ ↦ (iff_true_intro fun h' ↦ absurd h' h).symm

theorem WireValue.hoursFit_of_ne {v : WireValue} (h : v.ftype ≠ FieldType.TIME) : v.HoursFit := by
  intro n hn
  rw [WireValue.hours?] at hn
  split at hn
  · exact absurd hn (Option.not_mem_none n)
  · rw [if_neg fun hand ↦ h hand.1] at hn
    exact absurd hn (Option.not_mem_none n)

theorem safe_integerValue {x : CheckedReader UInt8 ℕ} (bytes : ℕ) (isUnsigned : Bool)
    (h : Safe maxLogicalPacket x (Reader.le bytes)) :
    Safe maxLogicalPacket (do let v ← x; pure (integerText bytes isUnsigned v))
      (integerValue bytes isUnsigned) :=
  h.bind fun _ _ ↦ Safe.pure _

theorem le_one : Reader.le 1 = (do let v ← Reader.u8; pure v.toNat) := by
  funext b
  rw [Reader.le, Reader.map_apply, Reader.take_apply, Reader.bind_apply]
  cases b <;> rfl

theorem safe_tinyValue (isUnsigned : Bool) : Safe maxLogicalPacket
    (do let v ← CheckedReader.u8; pure (integerText 1 isUnsigned v.toNat))
    (integerValue 1 isUnsigned) := by
  rw [integerValue, le_one, bind_assoc]
  exact safe_u8.bind fun _ _ ↦ Safe.pure _

theorem safe_decimalValue : Safe maxLogicalPacket CheckedReader.decimalValue decimalValue := by
  refine safe_lenencBytes.bind fun b _ ↦ ?_
  split_ifs
  · exact Safe.fail
  · exact Safe.pure _
  · exact Safe.pure _

/-- All other types are safe. -/
theorem safe_decodeBinaryValue {t : UInt8} (f : UInt8) (h : t ≠ FieldType.TIME) :
    Safe maxLogicalPacket (CheckedReader.decodeBinaryValue t f) (decodeBinaryValue t f) := by
  refine Safe.ite (fun _ ↦ Safe.pure _) fun _ ↦ ?_
  refine Safe.ite (fun _ ↦ safe_tinyValue _) fun _ ↦ ?_
  refine Safe.ite (fun _ ↦ safe_integerValue 2 _ (safe_leIndexed 2)) fun _ ↦ ?_
  refine Safe.ite (fun _ ↦ safe_integerValue 4 _ (safe_leArray 4)) fun _ ↦ ?_
  refine Safe.ite (fun _ ↦ safe_integerValue 8 _ (safe_leArray 8)) fun _ ↦ ?_
  refine Safe.ite (fun _ ↦ (safe_leArray 4).map _) fun _ ↦ ?_
  refine Safe.ite (fun _ ↦ (safe_leArray 8).map _) fun _ ↦ ?_
  refine Safe.ite (fun _ ↦ safe_dateValue) fun _ ↦ ?_
  refine Safe.ite (fun htime ↦ absurd htime h) fun _ ↦ ?_
  refine Safe.ite (fun _ ↦ safe_decimalValue) fun _ ↦ ?_
  refine Safe.ite (fun _ ↦ safe_lenencBytes.map _) fun _ ↦ ?_
  exact Safe.ite (fun _ ↦ safe_lenencBytes.map _) fun _ ↦ Safe.fail

theorem checks_decodeBinaryValue (t f : UInt8) :
    Checks maxLogicalPacket (CheckedReader.decodeBinaryValue t f) (decodeBinaryValue t f)
      fun b ↦ WireValue.HoursFit ⟨t, b⟩ := by
  by_cases h : t = FieldType.TIME
  · subst h
    exact checks_timeValue
  · exact (safe_decodeBinaryValue f h).congr fun b ↦
      (iff_true_intro (WireValue.hoursFit_of_ne h)).symm

/-! ## Parameter sections -/

/-- The bit that the mask picks out is the one that the shift brings to the front. -/
theorem mask_ne_zero_iff (b : UInt8) {i : ℕ} (h : i < 8) :
    (b &&& (1 <<< i.toUInt8) != 0) = ((b >>> i.toUInt8) &&& 1 != 0) := by
  have hi : i.toUInt8.toNat % 8 = i := by
    rw [Nat.toUInt8, UInt8.toNat_ofNat', Nat.mod_eq_of_lt (a := i) (by omega), Nat.mod_eq_of_lt h]
  have hpow : 2 ^ i < 256 := Nat.pow_lt_pow_right (by decide) h
  have hmask : (b &&& (1 <<< i.toUInt8)).toNat = (b.toNat.testBit i).toNat * 2 ^ i := by
    rw [UInt8.toNat_and, UInt8.toNat_shiftLeft, hi, UInt8.toNat_one, Nat.one_shiftLeft,
      Nat.mod_eq_of_lt hpow, Nat.and_two_pow]
  have hshift : ((b >>> i.toUInt8) &&& 1).toNat = (b.toNat.testBit i).toNat := by
    rw [UInt8.toNat_and, UInt8.toNat_shiftRight, hi, UInt8.toNat_one, Nat.toNat_testBit,
      Nat.and_one_is_mod, Nat.shiftRight_eq_div_pow]
  rw [bne, bne, ← Bool.coe_iff_coe]
  simp only [Bool.not_eq_true', beq_eq_false_iff_ne, ne_eq, ← UInt8.toNat_inj, hmask, hshift]
  simp

theorem isNullParam_checked {bitmap : Bytes} {i : ℕ} (h : i / 8 < bitmap.length) :
    CheckedReader.isNullParam bitmap i = some (isNullParam bitmap i) := by
  have hamount : Checked.shiftAmount 8 (i % 8) = some (i % 8) :=
    Checked.shiftAmount_of_lt (Nat.mod_lt i (by decide))
  show (Checked.index bitmap (i / 8)).bind _ = _
  rw [Checked.index_of_lt bitmap (i / 8) 0 h, Option.bind_some, hamount]
  exact congrArg some (mask_ne_zero_iff _ (Nat.mod_lt i (by decide)))

theorem safe_paramTypes (named : Bool) (n : ℕ) :
    Safe maxLogicalPacket (CheckedReader.paramTypes named n) (paramTypes named n) := by
  induction n with
  | zero => exact Safe.pure _
  | succ n ih =>
    refine safe_u8.bind fun t _ ↦ safe_u8.bind fun f _ ↦ ?_
    cases named with
    | false => exact ih.bind fun _ _ ↦ Safe.pure _
    | true => exact safe_lenencBytes.bind fun _ _ ↦ ih.bind fun _ _ ↦ Safe.pure _

theorem checks_paramValues (bitmap : Bytes) (sent : ℕ → Option Bytes) (types : List ParamType)
    (i : ℕ) (h : i + types.length ≤ 8 * bitmap.length) :
    Checks maxLogicalPacket (CheckedReader.paramValues bitmap sent i types)
      (paramValues bitmap sent i types)
      fun b ↦ ∀ v ∈ valuesFrom bitmap sent i types b, v.HoursFit := by
  induction types generalizing i with
  | nil =>
    exact (Safe.pure _).congr fun b ↦ (iff_true_intro fun _ h ↦ absurd h List.not_mem_nil).symm
  | cons type types ih =>
    obtain ⟨t, f⟩ := type
    rw [List.length_cons] at h
    have hrest := ih (i + 1) (by omega)
    refine Checks.lift_bind (isNullParam_checked (by omega)) ?_
    cases hnull : isNullParam bitmap i with
    | true =>
      have hvalues (b : Bytes) : valuesFrom bitmap sent i ((t, f) :: types) b =
          valuesFrom bitmap sent (i + 1) types b := by
        rw [valuesFrom, hnull, Bool.true_or, if_pos rfl]
      rw [if_pos rfl, paramValues, if_pos hnull]
      exact (hrest.bind_safe fun _ _ ↦ Safe.pure _).congr fun b ↦ by rw [hvalues]
    | false =>
      rw [if_neg Bool.false_ne_true, paramValues, if_neg (by rw [hnull]; exact Bool.false_ne_true)]
      cases hsent : sent i with
      | some text =>
        have hvalues (b : Bytes) : valuesFrom bitmap sent i ((t, f) :: types) b =
            valuesFrom bitmap sent (i + 1) types b := by
          rw [valuesFrom, hsent, Option.isSome_some, Bool.or_true, if_pos rfl]
        exact (hrest.bind_safe fun _ _ ↦ Safe.pure _).congr fun b ↦ by rw [hvalues]
      | none =>
        refine ((checks_decodeBinaryValue t f).bind fun v _ ↦
          hrest.bind_safe fun _ _ ↦ Safe.pure _).congr fun b ↦ ?_
        rw [valuesFrom, hnull, hsent, Option.isSome_none, Bool.or_false,
          if_neg Bool.false_ne_true, List.forall_mem_cons]
        refine and_congr_right fun _ ↦ ?_
        have hskip : skipValue t b = (decodeBinaryValue t f b).map fun p ↦ ((), p.2) := by
          rw [← skipValue_eq t f, dropped, Reader.bind_apply]
          cases decodeBinaryValue t f b <;> rfl
        rw [behind, hskip]
        cases hv : decodeBinaryValue t f b with
        | none => simp
        | some p => simp [Prod.ext_iff]

theorem safe_bitmapAndFlag {n : ℕ} (h : n < 2 ^ 64) :
    Safe maxLogicalPacket (CheckedReader.bitmapAndFlag n)
      (do
        let bitmap ← Reader.take ((n + 7) / 8)
        let newParamsBound ← Reader.u8
        pure (bitmap, newParamsBound)) :=
  Checks.lift_bind (Checked.divCeil_eq (by decide) h)
    ((safe_take _).bind fun _ _ ↦ safe_u8.bind fun _ _ ↦ Safe.pure _)

theorem lenencInt_of_returns {n : ℕ} (h : Returns maxLogicalPacket Reader.lenencInt n) :
    n < 2 ^ 64 := by
  obtain ⟨b, rest, -, hb⟩ := h
  exact lenencInt_lt hb

theorem behind_of_none {α : Type} {y : Reader α} {values : α → Bytes → List WireValue} {b : Bytes}
    (h : y b = none) : behind y values b = [] := by
  rw [behind, h]

theorem behind_of_some {α : Type} {y : Reader α} {values : α → Bytes → List WireValue}
    {a : α} {b rest : Bytes} (h : y b = some (a, rest)) : behind y values b = values a rest := by
  rw [behind, h]

theorem forall_behind {α : Type} {y : Reader α} {values : α → Bytes → List WireValue}
    {b : Bytes} :
    (∀ v ∈ behind y values b, v.HoursFit) ↔
      ∀ a rest, y b = some (a, rest) → ∀ v ∈ values a rest, v.HoursFit := by
  cases h : y b with
  | none =>
    rw [behind_of_none h]
    simp
  | some p =>
    rw [behind_of_some h]
    simp [Prod.ext_iff]

/-- A safe reader in front: the values to look at are those behind it. -/
theorem checks_behind {α β : Type} {x : CheckedReader UInt8 α} {y : Reader α}
    {f : α → CheckedReader UInt8 β} {g : α → Reader β} {values : α → Bytes → List WireValue}
    (h : Safe maxLogicalPacket x y)
    (hf : ∀ a, Returns maxLogicalPacket y a →
      Checks maxLogicalPacket (f a) (g a) fun b ↦ ∀ v ∈ values a b, v.HoursFit) :
    Checks maxLogicalPacket (x >>= f) (y >>= g) fun b ↦ ∀ v ∈ behind y values b, v.HoursFit :=
  (h.bind_checks hf).congr fun _ ↦ forall_behind.symm

/-- No values, no condition. -/
theorem checks_noValues {α : Type} {x : CheckedReader UInt8 α} {y : Reader α}
    (h : Safe maxLogicalPacket x y) :
    Checks maxLogicalPacket x y fun _ ↦ ∀ v ∈ ([] : List WireValue), v.HoursFit :=
  h.congr fun _ ↦ (iff_true_intro (List.forall_mem_nil _)).symm

theorem safe_rest : Safe maxLogicalPacket CheckedReader.rest Reader.rest := Safe.rest

/-- Readers run one after the other, backwards. -/
theorem Reader.bind_eq_some {α β : Type} {x : Reader α} {f : α → Reader β} {r after : Bytes} {b : β}
    (h : (x >>= f) r = some (b, after)) :
    ∃ a rest, x r = some (a, rest) ∧ f a rest = some (b, after) := by
  rw [Reader.bind_apply] at h
  obtain ⟨p, hx, hf⟩ := Option.bind_eq_some_iff.mp h
  exact ⟨p.1, p.2, hx, hf⟩

/-- As many types are read as there are parameters. -/
theorem length_of_paramTypes {named : Bool} {n : ℕ} {types : List ParamType} {b rest : Bytes}
    (h : paramTypes named n b = some (types, rest)) : types.length = n := by
  induction n generalizing b types rest with
  | zero =>
    obtain ⟨rfl, -⟩ := Prod.mk.inj (Option.some.inj h)
    rfl
  | succ n ih =>
    obtain ⟨t, b₁, -, h⟩ := Reader.bind_eq_some h
    obtain ⟨f, b₂, -, h⟩ := Reader.bind_eq_some h
    have htail (c : Bytes) (hc : (do let ts ← paramTypes named n; pure ((t, f) :: ts) :
        Reader (List ParamType)) c = some (types, rest)) : types.length = n + 1 := by
      obtain ⟨ts, b₃, hts, hpure⟩ := Reader.bind_eq_some hc
      obtain ⟨rfl, -⟩ := Prod.mk.inj (Option.some.inj hpure)
      rw [List.length_cons, ih hts]
    cases named with
    | false => exact htail b₂ h
    | true =>
      obtain ⟨-, b₃, -, h⟩ := Reader.bind_eq_some h
      exact htail b₃ h

/-- A bitmap that is there is large enough for the types' allocation. -/
theorem capacity_of_bitmap {n : ℕ} (h : (n + 7) / 8 ≤ maxLogicalPacket) :
    Checked.capacity 2 n = some () := by
  have hmax : maxLogicalPacket < 2 ^ 32 := by decide
  exact Checked.capacity_of_lt (by omega)

theorem checks_attributesThenText :
    Checks maxLogicalPacket CheckedReader.attributesThenText attributesThenText
      fun b ↦ ∀ v ∈ queryValues true b, v.HoursFit := by
  refine checks_behind safe_lenencInt fun n hn ↦ checks_behind safe_lenencInt fun m hm ↦ ?_
  rw [attributeValues]
  by_cases hpos : 0 < n
  · rw [if_pos hpos, if_pos hpos, if_pos hpos]
    refine Checks.lift_bind (Checked.divCeil_eq (by decide) (lenencInt_of_returns hn)) ?_
    refine checks_behind (safe_take _) fun bitmap hbitmap ↦ checks_behind safe_u8 fun flag _ ↦ ?_
    have hlen := length_of_take hbitmap
    refine Checks.lift_bind (capacity_of_bitmap hlen.2) ?_
    by_cases hflag : flag = 1
    · rw [if_pos hflag, if_pos hflag, if_pos hflag]
      refine checks_behind (safe_paramTypes true n) fun types htypes ↦ ?_
      obtain ⟨_, _, -, htypes⟩ := htypes
      have hfits : 0 + types.length ≤ 8 * bitmap.length := by
        rw [hlen.1, length_of_paramTypes htypes]
        omega
      exact (checks_paramValues bitmap _ types 0 hfits).bind_safe fun _ _ ↦ safe_rest
    · rw [if_neg hflag, if_neg hflag, if_neg hflag]
      exact checks_noValues (Safe.fail.bind fun _ _ ↦ safe_rest)
  · rw [if_neg hpos, if_neg hpos, if_neg hpos]
    exact checks_noValues safe_rest

end SqlReplay
