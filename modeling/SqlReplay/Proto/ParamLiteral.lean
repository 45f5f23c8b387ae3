import SqlReplay.Proto.Binary
import SqlReplay.Sql.StringLiteral
import SqlReplay.Sql.Literals

/-!
# Parameter values as literals

A parameter value is written into a statement as one literal of SQL: `NULL`, a number with or
without a minus sign, a quoted string, or a hexadecimal string. This is so for every type and for
any bytes, with one exception. A decimal is sent as a text, and goes into the statement as it is if
every character of it may stand in a number. That does not make it a number: `-`, `1-2` and `--`
pass.

`Yields` says what a reader can return, whatever it reads. It is closed under what readers are
built with, so the statement about a type follows its reader.
-/

namespace SqlReplay

open Fingerprint

/-! ## What a reader returns -/

section Yields

variable {α β : Type} {x : Reader α} {P : α → Prop} {Q : β → Prop}

/-- Whatever the reader returns has the property. -/
def Yields (x : Reader α) (P : α → Prop) : Prop := ∀ b v r, x b = some (v, r) → P v

namespace Yields

protected theorem pure {a : α} (h : P a) : Yields (pure a) P := by
  intro b v r heq
  rw [Reader.pure_apply] at heq
  cases heq
  exact h

protected theorem failure : Yields (failure : Reader α) P := fun _ _ _ h ↦ by cases h

/-- What the first reader returns is of account. -/
theorem bind_of {f : α → Reader β} (hx : Yields x P) (hf : ∀ a, P a → Yields (f a) Q) :
    Yields (x >>= f) Q := by
  intro b v r heq
  rw [Reader.bind_apply, Option.bind_eq_some_iff] at heq
  obtain ⟨⟨a, b'⟩, ha, heq⟩ := heq
  exact hf a (hx b a b' ha) b' v r heq

protected theorem bind {f : α → Reader β} (hf : ∀ a, Yields (f a) Q) : Yields (x >>= f) Q :=
  bind_of (fun _ _ _ _ ↦ trivial) fun a _ ↦ hf a

protected theorem map {f : α → β} (hf : ∀ a, Q (f a)) : Yields (f <$> x) Q := by
  intro b v r heq
  rw [Reader.map_apply, Option.map_eq_some_iff] at heq
  obtain ⟨⟨a, b'⟩, -, heq⟩ := heq
  obtain ⟨rfl, -⟩ := Prod.mk.inj heq
  exact hf a

protected theorem ite {y : Reader α} {c : Prop} [Decidable c] (hx : c → Yields x P)
    (hy : ¬c → Yields y P) : Yields (if c then x else y) P := by
  split_ifs with hc
  · exact hx hc
  · exact hy hc

end Yields

end Yields

/-! ## Literals -/

/-- The literals that parameter values are written as. -/
inductive ParamLiteral : Bytes → Prop
  | null : ParamLiteral (ascii "NULL")
  | number (sign : Bytes) {number : Bytes} (hsign : sign = [] ∨ sign = [ch '+'] ∨ sign = [ch '-'])
    (h : Number number) : ParamLiteral (sign ++ number)
  | string {body : Bytes} (h : QuotedBody singleQuote body) :
    ParamLiteral (singleQuote :: (body ++ [singleQuote]))
  | hex {digits : Bytes} (h : ∀ c ∈ digits, isAsciiHexdigit c = true) :
    ParamLiteral (ch 'X' :: singleQuote :: (digits ++ [singleQuote]))

section Numbers

theorem zeroPadded_digits (width n : ℕ) : ∀ c ∈ zeroPadded width n, isAsciiDigit c = true := by
  intro c hc
  rcases List.mem_append.mp hc with hzero | hdigit
  · rw [List.eq_of_mem_replicate hzero]
    decide
  · exact decimal_digits n c hdigit

theorem length_zeroPadded (width n : ℕ) : width ≤ (zeroPadded width n).length := by
  rw [zeroPadded, List.length_append, List.length_replicate]
  omega

theorem number_digits {s : Bytes} (hs : ∀ c ∈ s, isAsciiDigit c = true) (hne : s ≠ []) :
    Number s := by
  have hnumber := Number.decimal (.integer hs hne) .none
  rwa [List.append_nil] at hnumber

theorem number_decimal (n : ℕ) : Number (decimal n) :=
  number_digits (decimal_digits n) (decimal_ne_nil n)

theorem ParamLiteral.unsigned {n : Bytes} (h : Number n) : ParamLiteral n := .number [] (.inl rfl) h

theorem ParamLiteral.minus {n : Bytes} (h : Number n) : ParamLiteral (ch '-' :: n) :=
  .number [ch '-'] (.inr (.inr rfl)) h

theorem paramLiteral_decimalInt (i : ℤ) : ParamLiteral (decimalInt i) := by
  rw [decimalInt]
  split_ifs
  · exact .minus (number_decimal i.natAbs)
  · exact .unsigned (number_decimal i.natAbs)

/-- The dot stands behind at least one digit. -/
theorem number_positional (digits : ℕ) (p : ℤ) : Number (positional digits p) := by
  rw [positional]
  split_ifs with hp
  · refine number_digits (fun c hc ↦ ?_) (List.append_ne_nil_of_left_ne_nil (decimal_ne_nil _) _)
    rcases List.mem_append.mp hc with hdigit | hzero
    · exact decimal_digits _ c hdigit
    · rw [List.eq_of_mem_replicate hzero]
      decide
  · have hpadded := zeroPadded_digits ((-p).toNat + 1) digits
    have hlength := length_zeroPadded ((-p).toNat + 1) digits
    generalize zeroPadded ((-p).toNat + 1) digits = padded at hpadded hlength
    have hwhole : padded.take (padded.length - (-p).toNat) ≠ [] := by
      refine List.ne_nil_of_length_pos ?_
      rw [List.length_take]
      omega
    have hmantissa := Mantissa.decimal
      (fun c hc ↦ hpadded c (List.mem_of_mem_take (i := padded.length - (-p).toNat) hc))
      (fun c hc ↦ hpadded c (List.mem_of_mem_drop (i := padded.length - (-p).toNat) hc))
      (.inl hwhole)
    have hnumber := Number.decimal hmantissa .none
    rwa [List.append_nil] at hnumber

theorem paramLiteral_floatLiteral (expBits mantBits bits : ℕ) :
    ParamLiteral (floatLiteral expBits mantBits bits) := by
  have hsigned (magnitude : Bytes) (h : Number magnitude) (negative : Bool) :
      ParamLiteral (if negative then ch '-' :: magnitude else magnitude) := by
    split_ifs
    · exact .minus h
    · exact .unsigned h
  rw [floatLiteral]
  by_cases hspecial : bits / 2 ^ mantBits % 2 ^ expBits = 2 ^ expBits - 1
  · rw [if_pos hspecial]
    exact .null
  · rw [if_neg hspecial]
    refine hsigned _ ?_ _
    split
    · exact number_digits (by decide +kernel) (by decide)
    · split
      exact number_positional _ _

end Numbers

section Strings

/-- A text without quotes and escapes in quotes. -/
theorem paramLiteral_plain {body : Bytes} (h : ∀ c ∈ body, c ≠ backslash ∧ c ≠ singleQuote) :
    ParamLiteral (singleQuote :: (body ++ [singleQuote])) := by
  refine .string ?_
  induction body with
  | nil => exact .nil
  | cons c body ih =>
    obtain ⟨hc, hbody⟩ := List.forall_mem_cons.mp h
    exact .plain hc.1 hc.2 (ih hbody)

theorem paramLiteral_stringLiteral (s : Bytes) : ParamLiteral (stringLiteral s) := by
  rw [stringLiteral_eq]
  exact .string (quotedBody_escape s)

theorem isAsciiHexdigit_hexDigit {n : ℕ} (hn : n < 16) : isAsciiHexdigit (hexDigit n) = true := by
  have hall : ∀ n < 16, isAsciiHexdigit (hexDigit n) = true := by decide
  exact hall n hn

theorem paramLiteral_hexLiteral (b : Bytes) : ParamLiteral (hexLiteral b) := by
  refine .hex fun c hc ↦ ?_
  obtain ⟨x, -, hc⟩ := List.mem_flatMap.mp hc
  have hx : x.toNat < 256 := x.toNat_lt
  rw [List.mem_cons, List.mem_singleton] at hc
  rcases hc with rfl | rfl
  · exact isAsciiHexdigit_hexDigit (by omega)
  · exact isAsciiHexdigit_hexDigit (by omega)

theorem paramLiteral_bytesLiteral (b : Bytes) : ParamLiteral (bytesLiteral b) := by
  rw [bytesLiteral]
  split_ifs
  · exact paramLiteral_stringLiteral b
  · exact paramLiteral_hexLiteral b

end Strings

/-! ## What is rendered -/

section Rendered

theorem yields_integerValue (width : ℕ) (isUnsigned : Bool) :
    Yields (integerValue width isUnsigned) ParamLiteral := by
  refine .bind fun n ↦ .pure ?_
  split_ifs
  · exact .unsigned (number_decimal n)
  · exact paramLiteral_decimalInt _

/-- The bytes of a date or a time. -/
def isTemporalByte (c : UInt8) : Bool :=
  isAsciiDigit c || c == ch '-' || c == ch ':' || c == ch ' ' || c == ch '.'

/-- A text made of the bytes of dates and times. -/
def Temporal (s : Bytes) : Prop := ∀ c ∈ s, isTemporalByte c = true

instance : DecidablePred Temporal := fun s ↦
  inferInstanceAs (Decidable (∀ c ∈ s, isTemporalByte c = true))

theorem Temporal.append {s t : Bytes} (hs : Temporal s) (ht : Temporal t) : Temporal (s ++ t) :=
  List.forall_mem_append.mpr ⟨hs, ht⟩

theorem Temporal.cons {c : UInt8} {s : Bytes} (hc : isTemporalByte c = true) (hs : Temporal s) :
    Temporal (c :: s) := List.forall_mem_cons.mpr ⟨hc, hs⟩

theorem temporal_zeroPadded (width n : ℕ) : Temporal (zeroPadded width n) := by
  intro c hc
  rw [isTemporalByte, zeroPadded_digits width n c hc]
  rfl

theorem Temporal.paramLiteral {s : Bytes} (h : Temporal s) :
    ParamLiteral (singleQuote :: s ++ [singleQuote]) := by
  refine paramLiteral_plain fun c hc ↦ ?_
  exact forall_byte (p := fun c ↦ isTemporalByte c = true → c ≠ backslash ∧ c ≠ singleQuote)
    (by decide) c (h c hc)

/-- A date starts with a quote. -/
theorem temporal_dateText (b : Bytes) : ∃ s, dateText b = singleQuote :: s ∧ Temporal s := by
  refine ⟨_, rfl, ?_⟩
  exact ((temporal_zeroPadded _ _).append (.cons (by decide) (temporal_zeroPadded _ _))).append
    (.cons (by decide) (temporal_zeroPadded _ _))

theorem temporal_clockText (b : Bytes) (i : ℕ) : Temporal (clockText b i) :=
  ((temporal_zeroPadded _ _).append (.cons (by decide) (temporal_zeroPadded _ _))).append
    (.cons (by decide) (temporal_zeroPadded _ _))

theorem temporal_microsText (b : Bytes) (i : ℕ) : Temporal (microsText b i) :=
  .cons (by decide) (temporal_zeroPadded _ _)

theorem yields_dateValue : Yields dateValue ParamLiteral := by
  refine .bind fun len ↦ .bind fun b ↦ ?_
  obtain ⟨date, hdate, htemporal⟩ := temporal_dateText b
  have hclock := temporal_clockText b 4
  rw [hdate]
  split
  · exact .pure (Temporal.paramLiteral (by decide +kernel))
  · exact .pure htemporal.paramLiteral
  · refine .pure ?_
    exact (htemporal.append (.cons (by decide) hclock)).paramLiteral
  · refine .pure ?_
    exact ((htemporal.append (.cons (by decide) hclock)).append
      (temporal_microsText b 7)).paramLiteral
  · exact .failure

theorem yields_timeValue : Yields timeValue ParamLiteral := by
  refine .bind fun len ↦ .bind fun b ↦ ?_
  dsimp only
  generalize hclock : (if b.headD 0 ≠ 0 then [ch '-'] else []) ++ zeroPadded 2 _ ++
    ch ':' :: zeroPadded 2 _ ++ ch ':' :: zeroPadded 2 _ = clock
  have htemporal : Temporal clock := by
    rw [← hclock]
    refine Temporal.append (Temporal.append (Temporal.append ?_ (temporal_zeroPadded _ _))
      (.cons (by decide) (temporal_zeroPadded _ _))) (.cons (by decide) (temporal_zeroPadded _ _))
    split_ifs
    all_goals decide +kernel
  split
  · exact .pure (Temporal.paramLiteral (by decide +kernel))
  · exact .pure htemporal.paramLiteral
  · exact .pure (htemporal.append (temporal_microsText b 8)).paramLiteral
  · exact .failure

/-- The text of a decimal goes into the statement as it is if it is made of the bytes of numbers. -/
def Bare (s : Bytes) : Prop := s ≠ [] ∧ s.all isNumericByte = true

/-- **Every value but a decimal is one literal.** -/
theorem yields_decodeBinaryValue {ftype flags : UInt8} (h : ftype ≠ FieldType.DECIMAL)
    (h' : ftype ≠ FieldType.NEWDECIMAL) :
    Yields (decodeBinaryValue ftype flags) ParamLiteral := by
  have hdecimal : ¬(ftype = FieldType.DECIMAL ∨ ftype = FieldType.NEWDECIMAL) :=
    not_or.mpr ⟨h, h'⟩
  rw [decodeBinaryValue]
  refine .ite (fun _ ↦ .pure .null) fun _ ↦ ?_
  refine .ite (fun _ ↦ yields_integerValue _ _) fun _ ↦ ?_
  refine .ite (fun _ ↦ yields_integerValue _ _) fun _ ↦ ?_
  refine .ite (fun _ ↦ yields_integerValue _ _) fun _ ↦ ?_
  refine .ite (fun _ ↦ yields_integerValue _ _) fun _ ↦ ?_
  refine .ite (fun _ ↦ .map fun n ↦ paramLiteral_floatLiteral _ _ n) fun _ ↦ ?_
  refine .ite (fun _ ↦ .map fun n ↦ paramLiteral_floatLiteral _ _ n) fun _ ↦ ?_
  refine .ite (fun _ ↦ yields_dateValue) fun _ ↦ .ite (fun _ ↦ yields_timeValue) fun _ ↦ ?_
  refine .ite (fun htype ↦ absurd htype hdecimal) fun _ ↦ ?_
  refine .ite (fun _ ↦ .map paramLiteral_hexLiteral) fun _ ↦ ?_
  exact .ite (fun _ ↦ .map paramLiteral_bytesLiteral) fun _ ↦ .failure

end Rendered

end SqlReplay
