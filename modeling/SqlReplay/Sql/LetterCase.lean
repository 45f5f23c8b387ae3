import SqlReplay.Sql.Characters

/-!
# Letter case

The fingerprint lowers the letters that it copies, so upper case in a statement should not show. It
has to look at letters though before it copies them: at the `x` of a hexadecimal number and its
digits, at the `e` of an exponent, and at the end of its own output for what a digit belongs to.
Each of these tests gives the same for a letter in either case, and every byte that opens or closes
something is no letter. So the two scans go in step: after each turn what is left of one text is
what is left of the other in upper case, and the outputs are equal, not just alike
(`normalize_upper`). The later passes never see a difference.
-/

namespace SqlReplay

open Fingerprint

/-! ## Upper case -/

/-- `u8::to_ascii_uppercase`. -/
def toAsciiUppercase (c : UInt8) : UInt8 := if 97 ≤ c && c ≤ 122 then c - 32 else c

/-- `str::to_ascii_uppercase`. -/
def upper (s : Bytes) : Bytes := s.map toAsciiUppercase

example : upper (ascii "In ('a')") = ascii "IN ('A')" := by decide

/-- What holds of a byte left as it is, and of the 26 letters with their upper case, holds of a byte
and its upper case. -/
theorem forall_letter {p : UInt8 → UInt8 → Prop} (hsame : ∀ c, p c c)
    (hletter : ∀ n : Fin 26, p (UInt8.ofNat (97 + n)) (UInt8.ofNat (65 + n))) (c : UInt8) :
    p c (toAsciiUppercase c) := by
  rw [toAsciiUppercase]
  split_ifs with hc
  · rw [Bool.and_eq_true, decide_eq_true_eq, decide_eq_true_eq, UInt8.le_iff_toNat_le,
      UInt8.le_iff_toNat_le] at hc
    obtain ⟨n, hn⟩ := Nat.exists_eq_add_of_le hc.1
    have hn : c.toNat = 97 + n := hn
    have hle : c.toNat ≤ 122 := hc.2
    have hlt : n < 26 := by omega
    have hupper : ∀ n : Fin 26, UInt8.ofNat (97 + n) - 32 = UInt8.ofNat (65 + n) := by decide
    rw [← UInt8.ofNat_toNat (x := c), hn, hupper ⟨n, hlt⟩]
    exact hletter ⟨n, hlt⟩
  · exact hsame c

/-- A byte is changed only if it is a letter, and then into one. -/
theorem toAsciiUppercase_cases (c : UInt8) : toAsciiUppercase c = c ∨
    isAsciiAlphabetic c = true ∧ isAsciiAlphabetic (toAsciiUppercase c) = true :=
  forall_letter (p := fun c d ↦ d = c ∨ isAsciiAlphabetic c = true ∧ isAsciiAlphabetic d = true)
    (fun _ ↦ Or.inl rfl) (by decide) c

theorem toAsciiUppercase_eq_iff {x : UInt8} (hx : isAsciiAlphabetic x = false) (c : UInt8) :
    toAsciiUppercase c = x ↔ c = x := by
  rcases toAsciiUppercase_cases c with hsame | ⟨hc, hupper⟩
  · rw [hsame]
  · constructor
    · rintro rfl
      rw [hx] at hupper
      cases hupper
    · rintro rfl
      rw [hx] at hc
      cases hc

theorem toAsciiUppercase_beq {x : UInt8} (hx : isAsciiAlphabetic x = false) (c : UInt8) :
    (toAsciiUppercase c == x) = (c == x) := by
  rw [Bool.eq_iff_iff, beq_iff_eq, beq_iff_eq]
  exact toAsciiUppercase_eq_iff hx c

/-- A test of bytes that does not see the case. -/
def IgnoresCase (p : UInt8 → Bool) : Prop := ∀ c, p (toAsciiUppercase c) = p c

theorem IgnoresCase.of_letters {p : UInt8 → Bool}
    (h : ∀ n : Fin 26, p (UInt8.ofNat (65 + n)) = p (UInt8.ofNat (97 + n))) : IgnoresCase p :=
  forall_letter (p := fun c d ↦ p d = p c) (fun _ ↦ rfl) h

theorem isDigit_upper : IgnoresCase isAsciiDigit := .of_letters (by decide)

theorem isHexdigit_upper : IgnoresCase isAsciiHexdigit := .of_letters (by decide)

theorem isSpace_upper : IgnoresCase isAsciiWhitespace := .of_letters (by decide)

theorem isQuote_upper : IgnoresCase isQuote := .of_letters (by decide)

theorem toAsciiLowercase_toAsciiUppercase (c : UInt8) :
    toAsciiLowercase (toAsciiUppercase c) = toAsciiLowercase c :=
  forall_letter (p := fun c d ↦ toAsciiLowercase d = toAsciiLowercase c) (fun _ ↦ rfl) (by decide) c

theorem toAsciiUppercase_of_not_ascii (c : UInt8) : ¬c < 0x80 → toAsciiUppercase c = c :=
  forall_letter (p := fun c d ↦ ¬c < 0x80 → d = c) (fun _ _ ↦ rfl) (by decide) c

theorem toAsciiUppercase_ascii_iff (c : UInt8) : toAsciiUppercase c < 0x80 ↔ c < 0x80 :=
  forall_letter (p := fun c d ↦ d < 0x80 ↔ c < 0x80) (fun _ ↦ Iff.rfl) (by decide) c

section Lists

variable {x c : UInt8} {b rest : Bytes}

theorem upper_cons (c : UInt8) (rest : Bytes) :
    upper (c :: rest) = toAsciiUppercase c :: upper rest := rfl

theorem tail_upper (b : Bytes) : (upper b).tail = upper b.tail := List.map_tail.symm

theorem drop_upper (n : ℕ) (b : Bytes) : (upper b).drop n = upper (b.drop n) := List.map_drop.symm

theorem take_upper (n : ℕ) (b : Bytes) : (upper b).take n = upper (b.take n) := List.map_take.symm

theorem head?_upper (hx : isAsciiAlphabetic x = false) (b : Bytes) :
    (upper b).head? = some x ↔ b.head? = some x := by
  cases b with
  | nil => exact Iff.rfl
  | cons c b =>
    rw [upper_cons, List.head?_cons, List.head?_cons, Option.some.injEq, Option.some.injEq]
    exact toAsciiUppercase_eq_iff hx c

theorem head?_upper_beq (hx : isAsciiAlphabetic x = false) (b : Bytes) :
    ((upper b).head? == some x) = (b.head? == some x) := by
  rw [Bool.eq_iff_iff, beq_iff_eq, beq_iff_eq]
  exact head?_upper hx b

theorem head?_any_upper {p : UInt8 → Bool} (hp : IgnoresCase p) (b : Bytes) :
    (upper b).head?.any p = b.head?.any p := by
  cases b with
  | nil => rfl
  | cons c b => exact hp c

theorem head?_all_upper {p : UInt8 → Bool} (hp : IgnoresCase p) (b : Bytes) :
    (upper b).head?.all p = b.head?.all p := by
  cases b with
  | nil => rfl
  | cons c b => exact hp c

theorem dropWhile_upper {p : UInt8 → Bool} (hp : IgnoresCase p) (b : Bytes) :
    (upper b).dropWhile p = upper (b.dropWhile p) := by
  have hcomp : p ∘ toAsciiUppercase = p := funext hp
  rw [upper, List.dropWhile_map, hcomp, upper]

/-- Two scans that decide alike go on in step. -/
theorem ite_upper {p q : Prop} [Decidable p] [Decidable q] (h : p ↔ q) (s t : Bytes) :
    (if p then upper s else upper t) = upper (if q then s else t) := by
  rw [apply_ite upper, if_congr h rfl rfl]

end Lists

/-! ## Skipping -/

section Skipping

theorem skipQuoted_upper {q : UInt8} (hq : isAsciiAlphabetic q = false) (b : Bytes) :
    skipQuoted q (upper b) = upper (skipQuoted q b) := by
  have hkeep : toAsciiUppercase q = q := (toAsciiUppercase_eq_iff hq q).mpr rfl
  have hescape (c : UInt8) : (toAsciiUppercase c = backslash ∧ q ≠ backtick) ↔
      (c = backslash ∧ q ≠ backtick) := and_congr_left' (toAsciiUppercase_eq_iff (by decide) c)
  fun_induction skipQuoted q b with
  | case1 => rfl
  | case2 c => rfl
  | case3 c d rest hesc ih =>
    rw [upper_cons, upper_cons, skipQuoted, if_pos ((hescape c).mpr hesc), ih]
  | case4 rest hesc ih =>
    rw [upper_cons, upper_cons, hkeep, skipQuoted, if_neg hesc, if_pos rfl, if_pos rfl, ih]
  | case5 d rest hd hesc =>
    have hd' : toAsciiUppercase d ≠ q := fun h ↦ hd ((toAsciiUppercase_eq_iff hq d).mp h)
    rw [upper_cons, upper_cons, hkeep, skipQuoted, if_neg hesc, if_pos rfl, if_neg hd']
  | case6 c d rest hesc hc ih =>
    have hc' : toAsciiUppercase c ≠ q := fun h ↦ hc ((toAsciiUppercase_eq_iff hq c).mp h)
    rw [upper_cons, upper_cons, skipQuoted, if_neg fun h ↦ hesc ((hescape c).mp h), if_neg hc']
    exact ih

theorem skipBlockComment_upper (b : Bytes) :
    skipBlockComment (upper b) = upper (skipBlockComment b) := by
  have hclose (c d : UInt8) : (toAsciiUppercase c = ch '*' ∧ toAsciiUppercase d = ch '/') ↔
      (c = ch '*' ∧ d = ch '/') :=
    and_congr (toAsciiUppercase_eq_iff (by decide) c) (toAsciiUppercase_eq_iff (by decide) d)
  fun_induction skipBlockComment b with
  | case1 => rfl
  | case2 c => rfl
  | case3 c d rest h => rw [upper_cons, upper_cons, skipBlockComment, if_pos ((hclose c d).mpr h)]
  | case4 c d rest h ih =>
    rw [upper_cons, upper_cons, skipBlockComment, if_neg fun h' ↦ h ((hclose c d).mp h')]
    exact ih

theorem skipLineComment_upper (b : Bytes) :
    skipLineComment (upper b) = upper (skipLineComment b) :=
  dropWhile_upper (p := fun c ↦ decide (c ≠ newline))
    (fun c ↦ decide_eq_decide.mpr (not_congr (toAsciiUppercase_eq_iff (by decide) c))) b

variable {c : UInt8} {rest : Bytes}

theorem opensBlockComment_upper (c : UInt8) (rest : Bytes) :
    opensBlockComment (toAsciiUppercase c) (upper rest) = opensBlockComment c rest := by
  rw [opensBlockComment, toAsciiUppercase_beq (by decide), head?_upper_beq (by decide),
    opensBlockComment]

theorem opensLineComment_upper (c : UInt8) (rest : Bytes) :
    opensLineComment (toAsciiUppercase c) (upper rest) = opensLineComment c rest := by
  rw [opensLineComment, toAsciiUppercase_beq (by decide), toAsciiUppercase_beq (by decide),
    head?_upper_beq (by decide), tail_upper, head?_all_upper isSpace_upper, opensLineComment]

theorem opensNothing_upper (h : OpensNothing c rest) :
    OpensNothing (toAsciiUppercase c) (upper rest) := by
  rw [OpensNothing, opensBlockComment_upper, opensLineComment_upper, isQuote_upper]
  exact h

theorem skipExponent_upper (b : Bytes) : skipExponent (upper b) = upper (skipExponent b) := by
  cases b with
  | nil => rfl
  | cons c rest =>
    have hletter : toAsciiUppercase c ||| 0x20 = ch 'e' ↔ c ||| 0x20 = ch 'e' :=
      forall_letter (p := fun c d ↦ d ||| 0x20 = ch 'e' ↔ c ||| 0x20 = ch 'e') (fun _ ↦ Iff.rfl)
        (by decide) c
    have hsign : ((upper rest).head? = some (ch '+') ∨ (upper rest).head? = some (ch '-')) ↔
        (rest.head? = some (ch '+') ∨ rest.head? = some (ch '-')) :=
      or_congr (head?_upper (by decide) rest) (head?_upper (by decide) rest)
    rw [upper_cons, skipExponent, skipExponent, tail_upper, ite_upper hsign]
    generalize (if rest.head? = some (ch '+') ∨ rest.head? = some (ch '-') then rest.tail
      else rest) = digits
    have hany := head?_any_upper isDigit_upper digits
    rw [dropWhile_upper isDigit_upper, ← upper_cons]
    exact ite_upper (and_congr hletter (by rw [hany])) _ _

theorem skipNumber_upper (b : Bytes) : skipNumber (upper b) = upper (skipNumber b) := by
  have hdigits (b : Bytes) : (upper b).dropWhile isAsciiDigit = upper (b.dropWhile isAsciiDigit) :=
    dropWhile_upper isDigit_upper b
  have hpoint (b : Bytes) : (if (upper b).head? = some (ch '.') then
      (upper b).tail.dropWhile isAsciiDigit else upper b) =
      upper (if b.head? = some (ch '.') then b.tail.dropWhile isAsciiDigit else b) := by
    rw [tail_upper, hdigits]
    exact ite_upper (head?_upper (by decide) b) _ _
  have hhex := head?_any_upper (p := fun c ↦ c ||| 0x20 = ch 'x') (.of_letters (by decide)) b.tail
  rw [skipNumber, skipNumber, drop_upper, dropWhile_upper isHexdigit_upper, tail_upper]
  dsimp only
  rw [hdigits, hpoint, skipExponent_upper]
  exact ite_upper (and_congr (head?_upper (by decide) b) (by rw [hhex])) _ _

end Skipping

/-! ## Copying -/

theorem utf8Tail_upper (owed : ℕ) {low : UInt8} (hlow : 0x80 ≤ low) (high : UInt8) (b : Bytes) :
    utf8Tail owed low high (upper b) = utf8Tail owed low high b := by
  induction owed generalizing low high b with
  | zero => rfl
  | succ owed ih =>
    cases b with
    | nil => rfl
    | cons c b =>
      have hrange : (low ≤ toAsciiUppercase c ∧ toAsciiUppercase c ≤ high) ↔
          (low ≤ c ∧ c ≤ high) := by
        by_cases hc : c < 0x80
        · have hc' := (toAsciiUppercase_ascii_iff c).mpr hc
          constructor
          · intro h
            exact absurd (UInt8.le_trans hlow h.1) (UInt8.not_le.mpr hc')
          · intro h
            exact absurd (UInt8.le_trans hlow h.1) (UInt8.not_le.mpr hc)
        · rw [toAsciiUppercase_of_not_ascii c hc]
      rw [upper_cons, utf8Tail, utf8Tail, ih (by decide), if_congr hrange rfl rfl]

theorem utf8Char_upper (c : UInt8) (rest : Bytes) :
    utf8Char (toAsciiUppercase c) (upper rest) = utf8Char c rest := by
  by_cases hc : c < 0x80
  · rw [utf8Char, if_pos ((toAsciiUppercase_ascii_iff c).mpr hc), utf8Char, if_pos hc]
  · rw [toAsciiUppercase_of_not_ascii c hc]
    unfold utf8Char
    split_ifs
    all_goals first
      | rfl
      | exact utf8Tail_upper _ (by decide) _ rest

theorem isUtf8_upper (b : Bytes) : isUtf8 (upper b) = isUtf8 b := by
  unfold isUtf8
  fun_induction utf8Chars b with
  | case1 => rw [upper, List.map_nil, utf8Chars]
  | case2 c rest ih =>
    rw [upper_cons, utf8Chars, utf8Char_upper, drop_upper, List.all_cons, List.all_cons, ih]

namespace Fingerprint

variable (out : Bytes) (c : UInt8) (rest b : Bytes)

theorem upper_of_not_ascii {k : Bytes} (hk : ∀ d ∈ k, 0x80 ≤ d) : upper k = k := by
  rw [upper, List.map_congr_left (g := id)]
  · exact List.map_id k
  · exact fun d hd ↦ toAsciiUppercase_of_not_ascii d (UInt8.not_lt.mpr (hk d hd))

variable {c rest} in
/-- The bytes that `push_lossy_lower` takes for a character are all there, and none is ASCII. -/
theorem chunk_spec (hc : ¬c < 0x80) (h : isUtf8 ((c :: rest).take (utf8Len c)) = true) :
    utf8Len c ≤ (c :: rest).length ∧ ∀ d ∈ (c :: rest).take (utf8Len c), 0x80 ≤ d := by
  obtain ⟨n, hn⟩ : ∃ n, utf8Len c = n + 1 := by
    refine Nat.exists_eq_succ_of_ne_zero ?_
    rw [utf8Len]
    split_ifs <;> decide
  rw [hn, List.take_succ_cons] at h ⊢
  have hchar := utf8Char_eq_true hc (isUtf8_cons h).1
  have hle := utf8Char_le c (rest.take n)
  rw [hn, Nat.add_sub_cancel, List.take_take, min_self] at hchar
  rw [hchar.1, List.length_take] at hle
  refine ⟨?_, List.forall_mem_cons.mpr ⟨UInt8.not_lt.mp hc, hchar.2⟩⟩
  rw [List.length_cons]
  omega

/-- A letter is copied in lower case, and nothing else is changed. -/
theorem pushLossyLower_upper :
    pushLossyLower out (toAsciiUppercase c) (upper rest) =
      ((pushLossyLower out c rest).1, upper (pushLossyLower out c rest).2) := by
  by_cases hc : c < 0x80
  · rw [pushLossyLower, if_pos ((toAsciiUppercase_ascii_iff c).mpr hc),
      toAsciiLowercase_toAsciiUppercase, pushLossyLower, if_pos hc]
  · have hlen : utf8Len (toAsciiUppercase c) = utf8Len c := by
      rw [toAsciiUppercase_of_not_ascii c hc]
    rw [pushLossyLower, if_neg (mt (toAsciiUppercase_ascii_iff c).mp hc), ← upper_cons, hlen,
      take_upper, drop_upper, pushLossyLower, if_neg hc]
    dsimp only
    rw [isUtf8_upper]
    split_ifs with hutf8
    · -- a whole character, none of whose bytes is a letter
      rw [upper_of_not_ascii (chunk_spec hc hutf8).2]
    · rfl

theorem copyIdent_upper :
    copyIdent out (upper b) = ((copyIdent out b).1, upper (copyIdent out b).2) := by
  have hback : toAsciiUppercase backtick = backtick := by decide
  fun_induction copyIdent out b with
  | case1 out => rw [copyIdent.eq_def]; rfl
  | case2 out rest hd ih =>
    rw [upper_cons, hback, copyIdent, if_pos rfl, if_pos ((head?_upper (by decide) rest).mpr hd),
      tail_upper, ih]
  | case3 out rest hd =>
    rw [upper_cons, hback, copyIdent, if_pos rfl, if_neg (mt (head?_upper (by decide) rest).mp hd)]
  | case4 out c rest hc ih =>
    rw [upper_cons, copyIdent, if_neg (mt (toAsciiUppercase_eq_iff (by decide) c).mp hc),
      pushLossyLower_upper, ih]

theorem startsNumber_upper : (isAsciiDigit (toAsciiUppercase c) = true ∨
      toAsciiUppercase c = ch '.' ∧ (upper rest).head?.any isAsciiDigit) ↔
    (isAsciiDigit c = true ∨ c = ch '.' ∧ rest.head?.any isAsciiDigit) := by
  rw [isDigit_upper, head?_any_upper isDigit_upper, toAsciiUppercase_eq_iff (by decide)]

/-- **The two scans go in step**, with equal outputs. -/
theorem normalize_upper : normalize out (upper b) = normalize out b := by
  fun_induction normalize out b with
  | case1 out => rw [upper, List.map_nil, normalize]
  | case2 out c rest hq ih =>
    have hne : c ≠ backtick := by rcases hq with rfl | rfl <;> decide
    have hletter : isAsciiAlphabetic c = false := by rcases hq with rfl | rfl <;> decide
    rw [upper_cons, (toAsciiUppercase_eq_iff hletter c).mpr rfl, normalize_string hq,
      skipString_eq hne, skipQuoted_upper hletter, ← skipString_eq hne]
    exact ih
  | case3 out rest hq ih =>
    have hback : toAsciiUppercase backtick = backtick := by decide
    rw [upper_cons, hback, normalize_ident, copyIdent_upper]
    exact ih
  | case4 out c rest hq hi hb ih =>
    rw [upper_cons, normalize_block (by rwa [opensBlockComment_upper]), drop_upper,
      skipBlockComment_upper]
    exact ih
  | case5 out c rest hq hi hb hl ih =>
    rw [upper_cons, normalize_line (by rwa [opensLineComment_upper]), skipLineComment_upper]
    exact ih
  | case6 out c rest hq hi hb hl hw ih =>
    rw [upper_cons, normalize_space (by rwa [isSpace_upper])]
    exact ih
  | case7 out c rest hq hi hb hl hw hn hident ih =>
    have hcode := opensNothing_of_not hq hi hb hl
    rw [upper_cons, normalize_code (opensNothing_upper hcode), if_neg (by rwa [isSpace_upper]),
      if_pos ((startsNumber_upper c rest).mpr hn), if_pos hident, toAsciiLowercase_toAsciiUppercase]
    exact ih
  | case8 out c rest hq hi hb hl hw hn hident ih =>
    have hcode := opensNothing_of_not hq hi hb hl
    rw [upper_cons, normalize_code (opensNothing_upper hcode), if_neg (by rwa [isSpace_upper]),
      if_pos ((startsNumber_upper c rest).mpr hn), if_neg hident, ← upper_cons, skipNumber_upper]
    exact ih
  | case9 out c rest hq hi hb hl hw hn ih =>
    have hcode := opensNothing_of_not hq hi hb hl
    rw [upper_cons, normalize_code (opensNothing_upper hcode), if_neg (by rwa [isSpace_upper]),
      if_neg (mt (startsNumber_upper c rest).mp hn), pushLossyLower_upper]
    exact ih

end Fingerprint

/-- **The fingerprint ignores the case of letters.** -/
theorem fingerprint_upper (s : Bytes) : fingerprint (upper s) = fingerprint s := by
  rw [fingerprint, normalize_upper, fingerprint]

end SqlReplay
