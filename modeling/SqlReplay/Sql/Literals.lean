import SqlReplay.Sql.Scanners

/-!
# Literals

The grammar of the literals that a fingerprint replaces: numbers, quoted strings, and numbers with
a sign. The scanner has no grammar, it skips: over digits, a dot, more digits and an exponent, or
over everything up to a closing quote. What is shown here is that it takes a literal as a whole,
and stops behind it, wherever the text goes on with a byte that could not belong to the literal
(`EndsLiteral`).

A number can lack its whole part or its fraction but not both, and `0x` stands before one
hexadecimal digit at least. Inside quotes a backslash takes the next byte along, whatever it is, and
a quote is written twice.
-/

namespace SqlReplay

open Fingerprint

/-! ## Grammar -/

/-- The part of a number in front of its exponent. -/
inductive Mantissa : Bytes → Prop
  | integer {whole : Bytes} (hwhole : ∀ c ∈ whole, isAsciiDigit c = true) (hne : whole ≠ []) :
    Mantissa whole
  | decimal {whole fraction : Bytes} (hwhole : ∀ c ∈ whole, isAsciiDigit c = true)
    (hfraction : ∀ c ∈ fraction, isAsciiDigit c = true) (hne : whole ≠ [] ∨ fraction ≠ []) :
    Mantissa (whole ++ ch '.' :: fraction)

/-- An exponent, or none. -/
inductive Exponent : Bytes → Prop
  | none : Exponent []
  | some {e : UInt8} {sign digits : Bytes} (he : e ||| 0x20 = ch 'e')
    (hsign : sign = [] ∨ sign = [ch '+'] ∨ sign = [ch '-'])
    (hdigits : ∀ c ∈ digits, isAsciiDigit c = true) (hne : digits ≠ []) :
    Exponent (e :: (sign ++ digits))

/-- A number without a sign. -/
inductive Number : Bytes → Prop
  | decimal {mantissa exponent : Bytes} (hm : Mantissa mantissa) (he : Exponent exponent) :
    Number (mantissa ++ exponent)
  | hex {x : UInt8} {digits : Bytes} (hx : x ||| 0x20 = ch 'x')
    (hdigits : ∀ c ∈ digits, isAsciiHexdigit c = true) (hne : digits ≠ []) :
    Number (ch '0' :: x :: digits)

/-- What stands between two quotes `q`. -/
inductive QuotedBody (q : UInt8) : Bytes → Prop
  | nil : QuotedBody q []
  | escaped {b : Bytes} (c : UInt8) (h : QuotedBody q b) : QuotedBody q (backslash :: c :: b)
  | doubled {b : Bytes} (h : QuotedBody q b) : QuotedBody q (q :: q :: b)
  | plain {c : UInt8} {b : Bytes} (hesc : c ≠ backslash) (hq : c ≠ q) (h : QuotedBody q b) :
    QuotedBody q (c :: b)

/-- A complete quoted string. -/
inductive QuotedString : Bytes → Prop
  | mk {q : UInt8} {body : Bytes} (hq : q = singleQuote ∨ q = doubleQuote)
    (h : QuotedBody q body) : QuotedString (q :: (body ++ [q]))

/-- A literal without a sign. -/
def Literal (lit : Bytes) : Prop := Number lit ∨ QuotedString lit

inductive SignedNumber : Bytes → Prop
  | mk {sign : UInt8} {number : Bytes} (hsign : sign = ch '+' ∨ sign = ch '-')
    (h : Number number) : SignedNumber (sign :: number)

/-- The text does not go on with a byte that could belong to a literal before it. -/
def EndsLiteral (after : Bytes) : Prop :=
  ∀ c ∈ after.head?, isIdentByte c = false ∧ c ≠ ch '.' ∧ c ≠ singleQuote ∧ c ≠ doubleQuote

theorem endsLiteral_cons {c : UInt8} (hident : isIdentByte c = false)
    (hne : c ≠ ch '.' ∧ c ≠ singleQuote ∧ c ≠ doubleQuote) (after : Bytes) :
    EndsLiteral (c :: after) := by
  intro d hd
  obtain rfl : c = d := Option.some.inj hd
  exact ⟨hident, hne⟩

/-! ## Classes of bytes -/

/-- Digits, dots, signs and the letter of an exponent: the bytes of a number that is not
hexadecimal. -/
def isDecimalByte (c : UInt8) : Bool :=
  isAsciiDigit c || c == ch '.' || c == ch '+' || c == ch '-' || c ||| 0x20 == ch 'e'

theorem isIdentByte_of_digit {c : UInt8} (h : isAsciiDigit c = true) : isIdentByte c = true := by
  rw [isIdentByte, isAsciiAlphanumeric, h, Bool.or_true, Bool.true_or, Bool.true_or]

theorem Mantissa.isDecimalByte {m : Bytes} (h : Mantissa m) : ∀ c ∈ m, isDecimalByte c = true := by
  intro c hc
  have hdigit (hd : isAsciiDigit c = true) : SqlReplay.isDecimalByte c = true := by
    simp [SqlReplay.isDecimalByte, hd]
  induction h with
  | integer hwhole => exact hdigit (hwhole c hc)
  | decimal hwhole hfraction =>
    rcases List.mem_append.mp hc with hc | hc
    · exact hdigit (hwhole c hc)
    rcases List.mem_cons.mp hc with rfl | hc
    · decide
    · exact hdigit (hfraction c hc)

theorem Exponent.isDecimalByte {e : Bytes} (h : Exponent e) : ∀ c ∈ e, isDecimalByte c = true := by
  intro c hc
  induction h with
  | none => cases hc
  | @some e sign digits he hsign hdigits =>
    rcases List.mem_cons.mp hc with rfl | hc
    · simp [SqlReplay.isDecimalByte, he]
    rcases List.mem_append.mp hc with hc | hc
    · rcases hsign with rfl | rfl | rfl
      · cases hc
      all_goals
        obtain rfl := List.mem_singleton.mp hc
        decide
    · simp [SqlReplay.isDecimalByte, hdigits c hc]

/-! ## Skipping a number -/

/-- A loop over a class of bytes stops behind them. -/
theorem dropWhile_append_of {p : UInt8 → Bool} {b after : Bytes} (hb : ∀ c ∈ b, p c = true)
    (hafter : ∀ c ∈ after.head?, p c = false) : (b ++ after).dropWhile p = after := by
  rw [List.dropWhile_append_of_pos hb]
  cases after with
  | nil => rfl
  | cons c after => rw [List.dropWhile_cons_of_neg (by rw [hafter c rfl]; exact Bool.false_ne_true)]

theorem EndsLiteral.not_digit {after : Bytes} (h : EndsLiteral after) :
    ∀ c ∈ after.head?, isAsciiDigit c = false := by
  intro c hc
  by_contra hdigit
  have hident := (h c hc).1
  rw [isIdentByte_of_digit (Bool.not_eq_false _ ▸ hdigit)] at hident
  cases hident

theorem EndsLiteral.not_hexdigit {after : Bytes} (h : EndsLiteral after) :
    ∀ c ∈ after.head?, isAsciiHexdigit c = false := fun c hc ↦
  forall_byte (p := fun c ↦ isIdentByte c = false → isAsciiHexdigit c = false)
    (by decide) c (h c hc).1

/-- The letters of an exponent and of a hexadecimal number. -/
theorem isIdentByte_of_letter (c : UInt8) :
    (c ||| 0x20 = ch 'e' → isIdentByte c = true) ∧
      (c ||| 0x20 = ch 'x' → isIdentByte c = true ∧ isDecimalByte c = false) :=
  forall_byte (p := fun c ↦ (c ||| 0x20 = ch 'e' → isIdentByte c = true) ∧
    (c ||| 0x20 = ch 'x' → isIdentByte c = true ∧ isDecimalByte c = false)) (by decide) c

theorem skipExponent_append {e after : Bytes} (h : Exponent e) (hafter : EndsLiteral after) :
    skipExponent (e ++ after) = after := by
  induction h with
  | none =>
    rw [List.nil_append]
    cases after with
    | nil => rw [skipExponent]
    | cons c after =>
      rw [skipExponent, if_neg]
      rintro ⟨he, -⟩
      have hident := (hafter c rfl).1
      rw [(isIdentByte_of_letter c).1 he] at hident
      cases hident
  | @some e sign digits he hsign hdigits hne =>
    obtain ⟨d, digits, rfl⟩ := List.exists_cons_of_ne_nil hne
    have hd := hdigits d List.mem_cons_self
    have hskip : (d :: digits ++ after).dropWhile isAsciiDigit = after :=
      dropWhile_append_of hdigits hafter.not_digit
    have hsplit : (if (sign ++ (d :: digits ++ after)).head? = Option.some (ch '+') ∨
        (sign ++ (d :: digits ++ after)).head? = Option.some (ch '-') then
        (sign ++ (d :: digits ++ after)).tail else sign ++ (d :: digits ++ after)) =
        d :: digits ++ after := by
      rcases hsign with rfl | rfl | rfl
      · refine if_neg ?_
        rintro (hsign | hsign)
        all_goals
          obtain rfl : d = _ := Option.some.inj hsign
          exact absurd hd (by decide)
      · exact if_pos (Or.inl rfl)
      · exact if_pos (Or.inr rfl)
    rw [List.cons_append, List.append_assoc, skipExponent, hsplit, if_pos ⟨he, hd⟩, hskip]

theorem Exponent.head_not_decimal {e after : Bytes} (h : Exponent e) (hafter : EndsLiteral after) :
    ∀ c ∈ (e ++ after).head?, isAsciiDigit c = false ∧ c ≠ ch '.' := by
  intro c hc
  induction h with
  | none => exact ⟨hafter.not_digit c hc, (hafter c hc).2.1⟩
  | @some e _ _ he =>
    obtain rfl : e = c := Option.some.inj hc
    exact forall_byte (p := fun c ↦ c ||| 0x20 = ch 'e' → isAsciiDigit c = false ∧ c ≠ ch '.')
      (by decide) e he

/-- The whole part and the fraction are skipped up to the exponent. -/
theorem Mantissa.skip {m after : Bytes} (h : Mantissa m)
    (hafter : ∀ c ∈ after.head?, isAsciiDigit c = false ∧ c ≠ ch '.') :
    (if ((m ++ after).dropWhile isAsciiDigit).head? = some (ch '.') then
      ((m ++ after).dropWhile isAsciiDigit).tail.dropWhile isAsciiDigit
      else (m ++ after).dropWhile isAsciiDigit) = after := by
  induction h with
  | integer hwhole =>
    rw [dropWhile_append_of hwhole fun c hc ↦ (hafter c hc).1, if_neg fun hdot ↦ ?_]
    exact (hafter _ hdot).2 rfl
  | @decimal whole fraction hwhole hfraction =>
    have hskip : (whole ++ ch '.' :: fraction ++ after).dropWhile isAsciiDigit =
        ch '.' :: (fraction ++ after) := by
      rw [List.append_assoc]
      refine dropWhile_append_of hwhole fun c hc ↦ ?_
      obtain rfl : ch '.' = c := Option.some.inj hc
      decide
    rw [hskip, if_pos List.head?_cons, List.tail_cons,
      dropWhile_append_of hfraction fun c hc ↦ (hafter c hc).1]

theorem Mantissa.ne_nil {m : Bytes} (h : Mantissa m) : m ≠ [] := by
  induction h with
  | integer _ hne => exact hne
  | decimal => exact List.append_ne_nil_of_right_ne_nil _ (List.cons_ne_nil _ _)

/-- **A number is skipped as a whole.** -/
theorem skipNumber_append {n after : Bytes} (h : Number n) (hafter : EndsLiteral after) :
    skipNumber (n ++ after) = after := by
  induction h with
  | @decimal m e hm he =>
    -- no `x` in second place: it is neither in the number nor behind it
    have hhex : ¬((m ++ e ++ after).head? = some (ch '0') ∧
        (m ++ e ++ after).tail.head?.any fun c ↦ c ||| 0x20 = ch 'x') := by
      rintro ⟨-, hx⟩
      obtain ⟨d, m', rfl⟩ := List.exists_cons_of_ne_nil hm.ne_nil
      rw [List.cons_append, List.cons_append, List.tail_cons] at hx
      obtain ⟨x, hhead, hx⟩ := (Option.any_eq_true _ _).mp hx
      have hletter := (isIdentByte_of_letter x).2 (of_decide_eq_true hx)
      rw [List.head?_append] at hhead
      rcases Option.or_eq_some_iff.mp hhead with hin | ⟨-, hout⟩
      · have hmem := List.mem_of_head? hin
        have hbyte : isDecimalByte x = true := by
          rcases List.mem_append.mp hmem with hmem | hmem
          · exact hm.isDecimalByte x (List.mem_cons_of_mem d hmem)
          · exact he.isDecimalByte x hmem
        rw [hletter.2] at hbyte
        cases hbyte
      · have hident := (hafter x hout).1
        rw [hletter.1] at hident
        cases hident
    rw [skipNumber, if_neg hhex, List.append_assoc]
    dsimp only
    rw [hm.skip (he.head_not_decimal hafter), skipExponent_append he hafter]
  | @hex x digits hx hdigits hne =>
    rw [List.cons_append, List.cons_append, skipNumber, if_pos ⟨rfl, decide_eq_true hx⟩,
      List.drop_succ_cons, List.drop_succ_cons, List.drop_zero,
      dropWhile_append_of hdigits hafter.not_hexdigit]

/-- A number starts as the scanner expects one to. -/
theorem Number.head {n : Bytes} (h : Number n) (after : Bytes) :
    ∃ c rest, n ++ after = c :: rest ∧
      (isAsciiDigit c = true ∨ c = ch '.' ∧ rest.head?.any isAsciiDigit) := by
  induction h with
  | @decimal m e hm he =>
    induction hm with
    | integer hwhole hne =>
      obtain ⟨d, whole, rfl⟩ := List.exists_cons_of_ne_nil hne
      exact ⟨d, _, rfl, Or.inl (hwhole d List.mem_cons_self)⟩
    | @decimal whole fraction hwhole hfraction hne =>
      cases whole with
      | nil =>
        obtain ⟨d, fraction, rfl⟩ :=
          List.exists_cons_of_ne_nil (hne.resolve_left fun h ↦ h rfl)
        exact ⟨ch '.', _, rfl, Or.inr ⟨rfl, hfraction d List.mem_cons_self⟩⟩
      | cons d whole => exact ⟨d, _, rfl, Or.inl (hwhole d List.mem_cons_self)⟩
  | hex => exact ⟨ch '0', _, rfl, Or.inl (by decide)⟩

/-! ## Skipping a string -/

/-- **A quoted string is skipped as a whole.** -/
theorem skipQuoted_body {q : UInt8} {body after : Bytes} (hq : q ≠ backtick) (hesc : q ≠ backslash)
    (h : QuotedBody q body) (hafter : after.head? ≠ some q) :
    skipQuoted q (body ++ q :: after) = after := by
  induction h with
  | nil => rw [List.nil_append, skipQuoted_cons, if_neg fun h ↦ hesc h.1, if_pos rfl, if_neg hafter]
  | escaped c _ ih =>
    rw [List.cons_append, List.cons_append, skipQuoted_cons, if_pos ⟨rfl, hq⟩, List.tail_cons, ih]
  | doubled _ ih =>
    rw [List.cons_append, List.cons_append, skipQuoted_cons, if_neg fun h ↦ hesc h.1, if_pos rfl,
      if_pos List.head?_cons, List.tail_cons, ih]
  | plain hesc' hne _ ih =>
    rw [List.cons_append, skipQuoted_cons, if_neg fun h ↦ hesc' h.1, if_neg hne, ih]

theorem skipString_append {q : UInt8} {body after : Bytes} (hq : q = singleQuote ∨ q = doubleQuote)
    (h : QuotedBody q body) (hafter : EndsLiteral after) :
    skipString q (body ++ q :: after) = after := by
  have hne : q ≠ backtick ∧ q ≠ backslash := by
    rcases hq with rfl | rfl
    all_goals decide
  rw [skipString_eq hne.1, skipQuoted_body hne.1 hne.2 h]
  intro hhead
  rcases hq with rfl | rfl
  · exact (hafter _ hhead).2.2.1 rfl
  · exact (hafter _ hhead).2.2.2 rfl

/-! ## A number in front of a byte that belongs to none -/

/-- The bytes of a number. -/
def isNumeralByte (c : UInt8) : Bool :=
  isDecimalByte c || isAsciiHexdigit c || c ||| 0x20 == ch 'x'

theorem isNumeralByte_spec (c : UInt8) :
    (isAsciiDigit c = true → isNumeralByte c = true ∧ c ≠ ch '+' ∧ c ≠ ch '-') ∧
      (isAsciiHexdigit c = true → isNumeralByte c = true ∧ c ≠ ch '+' ∧ c ≠ ch '-') ∧
      (c ||| 0x20 = ch 'e' → isNumeralByte c = true) ∧
      (c ||| 0x20 = ch 'x' → isNumeralByte c = true ∧ c ≠ ch '+' ∧ c ≠ ch '-') ∧
      (isNumeralByte c = true → c < 0x80) :=
  forall_byte (p := fun c ↦
    (isAsciiDigit c = true → isNumeralByte c = true ∧ c ≠ ch '+' ∧ c ≠ ch '-') ∧
      (isAsciiHexdigit c = true → isNumeralByte c = true ∧ c ≠ ch '+' ∧ c ≠ ch '-') ∧
      (c ||| 0x20 = ch 'e' → isNumeralByte c = true) ∧
      (c ||| 0x20 = ch 'x' → isNumeralByte c = true ∧ c ≠ ch '+' ∧ c ≠ ch '-') ∧
      (isNumeralByte c = true → c < 0x80)) (by decide) c

/-- Bytes of a number that do not stop at a sign. -/
structure Numeral (p : Bytes) : Prop where
  bytes : ∀ c ∈ p, isNumeralByte c = true
  last : ∀ c ∈ p.getLast?, c ≠ ch '+' ∧ c ≠ ch '-'

namespace Numeral

theorem nil : Numeral [] := ⟨fun _ h ↦ absurd h List.not_mem_nil, fun _ h ↦ by cases h⟩

theorem append {p q : Bytes} (hp : Numeral p) (hq : Numeral q) : Numeral (p ++ q) := by
  refine ⟨fun c hc ↦ ?_, fun c hc ↦ ?_⟩
  · rcases List.mem_append.mp hc with hc | hc
    · exact hp.bytes c hc
    · exact hq.bytes c hc
  · rw [List.getLast?_append] at hc
    rcases Option.or_eq_some_iff.mp hc with hc | ⟨-, hc⟩
    · exact hq.last c hc
    · exact hp.last c hc

/-- A stretch of a class of bytes without signs. -/
theorem of_forall {f : UInt8 → Bool}
    (hf : ∀ c, f c = true → isNumeralByte c = true ∧ c ≠ ch '+' ∧ c ≠ ch '-') {p : Bytes}
    (hp : ∀ c ∈ p, f c = true) : Numeral p :=
  ⟨fun c hc ↦ (hf c (hp c hc)).1, fun c hc ↦ (hf c (hp c (List.mem_of_getLast? hc))).2⟩

theorem digits {p : Bytes} (hp : ∀ c ∈ p, isAsciiDigit c = true) : Numeral p :=
  of_forall (fun c ↦ (isNumeralByte_spec c).1) hp

/-- In front of digits a sign may stand. -/
theorem cons_cons {c d : UInt8} {p : Bytes} (hc : isNumeralByte c = true) (hp : Numeral (d :: p)) :
    Numeral (c :: d :: p) := by
  refine ⟨?_, fun e he ↦ hp.last e (by rwa [List.getLast?_cons_cons] at he)⟩
  exact List.forall_mem_cons.mpr ⟨hc, hp.bytes⟩

end Numeral

/-- The loop `f` takes bytes of a number and stops, whatever stands behind `x`. -/
def StopsBefore (x : UInt8) (f : Bytes → Bytes) (pre : Bytes) : Prop :=
  ∃ p m, pre = p ++ m ∧ Numeral p ∧ ∀ t, f (pre ++ x :: t) = m ++ x :: t

section Stops

variable {x : UInt8}

theorem dropWhile_stops {f : UInt8 → Bool} (hx : f x = false) (pre t : Bytes) :
    (pre ++ x :: t).dropWhile f = pre.dropWhile f ++ x :: t := by
  induction pre with
  | nil =>
    rw [List.nil_append, List.dropWhile_cons_of_neg (by rw [hx]; exact Bool.false_ne_true)]; rfl
  | cons c pre ih =>
    rw [List.cons_append]
    by_cases hc : f c = true
    · rw [List.dropWhile_cons_of_pos hc, List.dropWhile_cons_of_pos hc, ih]
    · rw [List.dropWhile_cons_of_neg hc, List.dropWhile_cons_of_neg hc, List.cons_append]

theorem stopsBefore_dropWhile {f : UInt8 → Bool}
    (hf : ∀ c, f c = true → isNumeralByte c = true ∧ c ≠ ch '+' ∧ c ≠ ch '-') (hx : f x = false)
    (pre : Bytes) : StopsBefore x (List.dropWhile f) pre :=
  ⟨pre.takeWhile f, pre.dropWhile f, List.takeWhile_append_dropWhile.symm,
    Numeral.of_forall hf fun _ hc ↦ List.mem_takeWhile_imp hc, dropWhile_stops hx pre⟩

theorem stopsBefore_skipExponent (hx : isNumeralByte x = false) (pre : Bytes) :
    StopsBefore x skipExponent pre := by
  have hdigit : isAsciiDigit x = false := by
    by_contra h
    rw [((isNumeralByte_spec x).1 (Bool.not_eq_false _ ▸ h)).1] at hx
    cases hx
  have hsign : x ≠ ch '+' ∧ x ≠ ch '-' := by
    refine ⟨?_, ?_⟩
    all_goals
      rintro rfl
      exact absurd hx (by decide)
  have hstay (c : UInt8) (s : Bytes)
      (h : ¬(c ||| 0x20 = ch 'e' ∧
        (if s.head? = some (ch '+') ∨ s.head? = some (ch '-') then s.tail else s).head?.any
          isAsciiDigit)) : skipExponent (c :: s) = c :: s := by
    rw [skipExponent, if_neg h]
  cases pre with
  | nil =>
    refine ⟨[], [], rfl, Numeral.nil, fun t ↦ hstay x t fun h ↦ ?_⟩
    rw [(isNumeralByte_spec x).2.2.1 h.1] at hx
    cases hx
  | cons c pre =>
    by_cases he : c ||| 0x20 = ch 'e'
    · have hcbyte := (isNumeralByte_spec c).2.2.1 he
      -- the sign, if there is one, and the digits behind it
      obtain ⟨sign, digits, rfl, hcase, hsplit⟩ : ∃ sign digits, pre = sign ++ digits ∧
          (∀ d ∈ sign, isNumeralByte d = true) ∧
          ∀ t, (if (pre ++ x :: t).head? = some (ch '+') ∨
              (pre ++ x :: t).head? = some (ch '-') then
            (pre ++ x :: t).tail else pre ++ x :: t) = digits ++ x :: t := by
        cases pre with
        | nil =>
          refine ⟨[], [], rfl, fun _ h ↦ absurd h List.not_mem_nil, fun t ↦ if_neg ?_⟩
          rintro (h | h)
          · exact hsign.1 (Option.some.inj h)
          · exact hsign.2 (Option.some.inj h)
        | cons d pre =>
          by_cases hd : d = ch '+' ∨ d = ch '-'
          · refine ⟨[d], pre, rfl, fun e he ↦ ?_, fun t ↦ if_pos ?_⟩
            · obtain rfl := List.mem_singleton.mp he
              rcases hd with rfl | rfl
              all_goals decide
            · exact hd.imp (congrArg some) (congrArg some)
          · refine ⟨[], d :: pre, rfl, fun _ h ↦ absurd h List.not_mem_nil, fun t ↦ if_neg ?_⟩
            exact fun h ↦ hd (h.imp Option.some.inj Option.some.inj)
      by_cases hdigits : digits.head?.any isAsciiDigit = true
      · obtain ⟨d, digits, rfl⟩ : ∃ d ds, digits = d :: ds :=
          List.exists_cons_of_ne_nil (by rintro rfl; cases hdigits)
        have hd : isAsciiDigit d = true := hdigits
        refine ⟨c :: (sign ++ (d :: digits).takeWhile isAsciiDigit),
          (d :: digits).dropWhile isAsciiDigit, ?_, ?_, fun t ↦ ?_⟩
        · rw [List.cons_append, List.append_assoc, List.takeWhile_append_dropWhile]
        · have hall : Numeral ((d :: digits).takeWhile isAsciiDigit) :=
            Numeral.digits fun _ hc ↦ List.mem_takeWhile_imp hc
          rw [List.takeWhile_cons_of_pos hd] at hall ⊢
          refine ⟨?_, ?_⟩
          · exact List.forall_mem_cons.mpr
              ⟨hcbyte, List.forall_mem_append.mpr ⟨hcase, hall.bytes⟩⟩
          · intro e he
            rw [← List.cons_append, List.getLast?_append_cons] at he
            exact hall.last e he
        · rw [List.cons_append, skipExponent, hsplit, if_pos ⟨he, hd⟩, dropWhile_stops hdigit]
      · refine ⟨[], c :: (sign ++ digits), rfl, Numeral.nil,
          fun t ↦ hstay c (sign ++ digits ++ x :: t) fun h ↦ hdigits ?_⟩
        have hhead := h.2
        rw [hsplit] at hhead
        cases digits with
        | nil =>
          rw [List.nil_append, List.head?_cons, Option.any_some, hdigit] at hhead
          cases hhead
        | cons d digits => exact hhead
    · exact ⟨[], c :: pre, rfl, Numeral.nil, fun t ↦ hstay _ _ fun h ↦ he h.1⟩

theorem StopsBefore.comp {f g : Bytes → Bytes} {pre : Bytes} (hf : StopsBefore x f pre)
    (hg : ∀ m, StopsBefore x g m) : StopsBefore x (fun b ↦ g (f b)) pre := by
  obtain ⟨p, m, rfl, hp, hfm⟩ := hf
  obtain ⟨q, m, rfl, hq, hgm⟩ := hg m
  exact ⟨p ++ q, m, (List.append_assoc p q m).symm, hp.append hq,
    fun t ↦ (congrArg g (hfm t)).trans (hgm t)⟩

theorem stopsBefore_skipNumber (hx : isNumeralByte x = false) (c : UInt8) (pre : Bytes) :
    StopsBefore x skipNumber (c :: pre) := by
  have hxdigit : isAsciiDigit x = false := by
    by_contra h
    rw [((isNumeralByte_spec x).1 (Bool.not_eq_false _ ▸ h)).1] at hx
    cases hx
  have hxhex : isAsciiHexdigit x = false := by
    by_contra h
    rw [((isNumeralByte_spec x).2.1 (Bool.not_eq_false _ ▸ h)).1] at hx
    cases hx
  have hxletter : ¬x ||| 0x20 = ch 'x' := by
    intro h
    rw [((isNumeralByte_spec x).2.2.2.1 h).1] at hx
    cases hx
  have hxdot : x ≠ ch '.' := by
    rintro rfl
    exact absurd hx (by decide)
  have hhead (t : Bytes) : (pre ++ x :: t).head? = some (pre.head?.getD x) := by
    cases pre <;> rfl
  by_cases hhex : c = ch '0' ∧ pre.head?.getD x ||| 0x20 = ch 'x'
  · -- `0x` and hexadecimal digits
    obtain ⟨rfl, hletter⟩ := hhex
    cases pre with
    | nil => exact absurd hletter hxletter
    | cons d pre =>
      obtain ⟨p, m, rfl, hp, hstop⟩ :=
        stopsBefore_dropWhile (fun c ↦ (isNumeralByte_spec c).2.1) hxhex pre
      have hd : isNumeralByte d = true ∧ d ≠ ch '+' ∧ d ≠ ch '-' :=
        (isNumeralByte_spec d).2.2.2.1 hletter
      have htwo : Numeral [ch '0', d] :=
        ⟨List.forall_mem_cons.mpr ⟨by decide, List.forall_mem_singleton.mpr hd.1⟩,
          fun e he ↦ by obtain rfl : d = e := Option.some.inj he; exact hd.2⟩
      refine ⟨[ch '0', d] ++ p, m, rfl, htwo.append hp, fun t ↦ ?_⟩
      rw [List.cons_append, List.cons_append, skipNumber, if_pos ⟨rfl, decide_eq_true hletter⟩]
      exact hstop t
  · -- digits, a fraction and an exponent, one after the other
    have hfraction (m : Bytes) :
        StopsBefore x (fun b ↦ if b.head? = some (ch '.') then b.tail.dropWhile isAsciiDigit else b)
          m := by
      cases m with
      | nil =>
        exact ⟨[], [], rfl, Numeral.nil, fun t ↦ if_neg fun h ↦ hxdot (Option.some.inj h)⟩
      | cons d m =>
        by_cases hd : d = ch '.'
        · subst hd
          obtain ⟨p, m, rfl, hp, hstop⟩ :=
            stopsBefore_dropWhile (fun c ↦ (isNumeralByte_spec c).1) hxdigit m
          have hone : Numeral [ch '.'] :=
            ⟨by decide +kernel, fun e he ↦ by obtain rfl := Option.some.inj he; decide⟩
          refine ⟨[ch '.'] ++ p, m, rfl, hone.append hp, fun t ↦ ?_⟩
          exact (if_pos rfl).trans (hstop t)
        · exact ⟨[], d :: m, rfl, Numeral.nil, fun t ↦ if_neg fun h ↦ hd (Option.some.inj h)⟩
    obtain ⟨p, m, hpre, hp, hstop⟩ :=
      ((stopsBefore_dropWhile (fun c ↦ (isNumeralByte_spec c).1) hxdigit (c :: pre)).comp
        hfraction).comp (stopsBefore_skipExponent hx)
    refine ⟨p, m, hpre, hp, fun t ↦ ?_⟩
    rw [skipNumber, if_neg]
    · exact hstop t
    · rintro ⟨hzero, hletter⟩
      rw [List.cons_append, List.tail_cons, hhead, Option.any_some] at hletter
      exact hhex ⟨Option.some.inj hzero, of_decide_eq_true hletter⟩

end Stops

end SqlReplay
