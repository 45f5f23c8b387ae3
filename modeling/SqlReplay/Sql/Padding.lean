import SqlReplay.Sql.LetterCase
import SqlReplay.Sql.LiteralLists

/-!
# Padding

White space in front of a statement does nothing, since the loop of the fingerprint writes a blank
only behind something. White space behind it can be taken into whatever the text ends in: an open
string, a comment, a quoted identifier. It opens nothing there and closes nothing but a line
comment, so the scan of the longer text follows that of the shorter one to its end, and what it has
left by then is white space (`KeepsBlank`). The output is the shorter one's and white space behind
it (`normalize_append_blank`), which trimming takes off.

So the restriction to statements that end at code level is not needed: in a string or comment the
padding disappears, and in a quoted identifier it is copied to the end of the output.
-/

namespace SqlReplay

open Fingerprint

/-! ## Blank text -/

namespace Blank

variable {s t : Bytes}

theorem of_suffix (hs : Blank s) (h : t <:+ s) : Blank t := fun c hc ↦ hs c (h.mem hc)

/-- What is no white space is not at its head. -/
theorem head?_ne (hs : Blank s) {x : UInt8} (hx : isAsciiWhitespace x = false) :
    s.head? ≠ some x := by
  intro h
  rw [hs x (List.mem_of_head? h)] at hx
  cases hx

theorem head?_any (hs : Blank s) {p : UInt8 → Bool}
    (hp : ∀ c, isAsciiWhitespace c = true → p c = false) : s.head?.any p = false := by
  cases s with
  | nil => rfl
  | cons c s => exact hp c (hs c List.mem_cons_self)

/-- White space behind a text does not bring to its head what is none. -/
theorem head?_append (ht : Blank t) {x : UInt8} (hx : isAsciiWhitespace x = false) (s : Bytes) :
    (s ++ t).head? = some x ↔ s.head? = some x := by
  cases s with
  | nil =>
    rw [List.nil_append]
    exact iff_of_false (ht.head?_ne hx) (by simp)
  | cons c s => exact Iff.rfl

theorem head?_any_append (ht : Blank t) {p : UInt8 → Bool}
    (hp : ∀ c, isAsciiWhitespace c = true → p c = false) (s : Bytes) :
    (s ++ t).head?.any p = s.head?.any p := by
  cases s with
  | nil => exact ht.head?_any hp
  | cons c s => rfl

end Blank

/-! ## Skipping -/

/-- With white space behind the text, what is left grows by white space only. -/
def KeepsBlank (f : Bytes → Bytes) (b : Bytes) : Prop :=
  ∀ w, Blank w → ∃ t, Blank t ∧ f (b ++ w) = f b ++ t

section Skipping

variable {c : UInt8} {rest w : Bytes}

theorem skipQuoted_cons_suffix (q c : UInt8) (rest : Bytes) :
    skipQuoted q (c :: rest) <:+ rest := by
  rw [skipQuoted_cons]
  split_ifs
  · exact (skipQuoted_suffix q _).trans (List.tail_suffix rest)
  · exact (skipQuoted_suffix q _).trans (List.tail_suffix rest)
  · exact List.suffix_refl rest
  · exact skipQuoted_suffix q rest

theorem skipBlockComment_cons_suffix (c : UInt8) (rest : Bytes) :
    skipBlockComment (c :: rest) <:+ rest := by
  rw [skipBlockComment_cons]
  split_ifs
  · exact List.tail_suffix rest
  · exact skipBlockComment_suffix rest

theorem keepsBlank_skipQuoted (q : UInt8) (b : Bytes) : KeepsBlank (skipQuoted q) b := by
  intro w hw
  fun_induction skipQuoted q b with
  | case1 => exact ⟨_, hw.of_suffix (skipQuoted_suffix q w), rfl⟩
  | case2 c => exact ⟨_, hw.of_suffix (skipQuoted_cons_suffix q c w), rfl⟩
  | case3 c d rest hesc ih =>
    rw [List.cons_append, List.cons_append, skipQuoted, if_pos hesc]
    exact ih
  | case4 rest hesc ih =>
    rw [List.cons_append, List.cons_append, skipQuoted, if_neg hesc, if_pos rfl, if_pos rfl]
    exact ih
  | case5 d rest hd hesc =>
    refine ⟨w, hw, ?_⟩
    rw [List.cons_append, List.cons_append, skipQuoted, if_neg hesc, if_pos rfl, if_neg hd]
  | case6 c d rest hesc hc ih =>
    rw [List.cons_append, List.cons_append, skipQuoted, if_neg hesc, if_neg hc]
    exact ih

theorem keepsBlank_skipBlockComment (b : Bytes) : KeepsBlank skipBlockComment b := by
  intro w hw
  fun_induction skipBlockComment b with
  | case1 => exact ⟨_, hw.of_suffix (skipBlockComment_suffix w), rfl⟩
  | case2 c => exact ⟨_, hw.of_suffix (skipBlockComment_cons_suffix c w), rfl⟩
  | case3 c d rest hclose =>
    refine ⟨w, hw, ?_⟩
    rw [List.cons_append, List.cons_append, skipBlockComment, if_pos hclose]
  | case4 c d rest hclose ih =>
    rw [List.cons_append, List.cons_append, skipBlockComment, if_neg hclose]
    exact ih

theorem keepsBlank_skipLineComment (b : Bytes) : KeepsBlank skipLineComment b := by
  intro w hw
  rw [skipLineComment, skipLineComment, List.dropWhile_append]
  split_ifs with hend
  · rw [List.isEmpty_iff.mp hend]
    exact ⟨_, hw.of_suffix (List.dropWhile_suffix _), rfl⟩
  · exact ⟨w, hw, rfl⟩

theorem opensBlockComment_append_blank (hw : Blank w) (c : UInt8) (rest : Bytes) :
    opensBlockComment c (rest ++ w) = opensBlockComment c rest := by
  rw [opensBlockComment, opensBlockComment, Bool.eq_iff_iff]
  simp only [Bool.and_eq_true, beq_iff_eq, hw.head?_append (x := ch '*') (by decide)]

/-- Behind two dashes white space is as good as the end of the text. -/
theorem opensLineComment_append_blank (hw : Blank w) (c : UInt8) (rest : Bytes) :
    opensLineComment c (rest ++ w) = opensLineComment c rest := by
  have hdash := hw.head?_append (x := ch '-') (by decide) rest
  rw [opensLineComment, opensLineComment, Bool.eq_iff_iff]
  simp only [Bool.or_eq_true, Bool.and_eq_true, beq_iff_eq, hdash]
  cases rest with
  | nil => simp
  | cons d rest =>
    rw [List.cons_append, List.tail_cons, List.tail_cons]
    cases rest with
    | nil =>
      have hall : w.head?.all isAsciiWhitespace = true := by
        cases w with
        | nil => rfl
        | cons e w => exact hw e List.mem_cons_self
      rw [List.nil_append, hall]
      rfl
    | cons e rest => rfl

theorem opensNothing_append_blank (hw : Blank w) (h : OpensNothing c rest) :
    OpensNothing c (rest ++ w) := by
  rw [OpensNothing, opensBlockComment_append_blank hw, opensLineComment_append_blank hw]
  exact h

theorem dropWhile_append_blank (hw : Blank w) {p : UInt8 → Bool}
    (hp : ∀ c, isAsciiWhitespace c = true → p c = false) (b : Bytes) :
    (b ++ w).dropWhile p = b.dropWhile p ++ w := by
  cases w with
  | nil => rw [List.append_nil, List.append_nil]
  | cons x w => exact dropWhile_stops (hp x (hw x List.mem_cons_self)) b w

theorem digit_not_blank (c : UInt8) (hc : isAsciiWhitespace c = true) : isAsciiDigit c = false :=
  forall_byte (p := fun c ↦ isAsciiWhitespace c = true → isAsciiDigit c = false)
    (by decide) c hc

theorem skipExponent_append_blank (hw : Blank w) (b : Bytes) :
    skipExponent (b ++ w) = skipExponent b ++ w := by
  cases b with
  | nil =>
    cases w with
    | nil => rfl
    | cons x w =>
      have hx : ¬x ||| 0x20 = ch 'e' :=
        forall_byte (p := fun x ↦ isAsciiWhitespace x = true → ¬x ||| 0x20 = ch 'e')
          (by decide) x (hw x List.mem_cons_self)
      rw [List.nil_append, skipExponent.eq_def, skipExponent.eq_def]
      exact if_neg fun h ↦ hx h.1
  | cons c rest =>
    have hsign : ((rest ++ w).head? = some (ch '+') ∨ (rest ++ w).head? = some (ch '-')) ↔
        (rest.head? = some (ch '+') ∨ rest.head? = some (ch '-')) :=
      or_congr (hw.head?_append (by decide) rest) (hw.head?_append (by decide) rest)
    rw [List.cons_append, skipExponent, skipExponent]
    by_cases h : rest.head? = some (ch '+') ∨ rest.head? = some (ch '-')
    · obtain ⟨sign, digits, rfl⟩ : ∃ sign digits, rest = sign :: digits :=
        List.exists_cons_of_ne_nil (by rintro rfl; simp at h)
      rw [if_pos h, if_pos (hsign.mpr h), List.cons_append, List.tail_cons, List.tail_cons,
        hw.head?_any_append digit_not_blank, dropWhile_append_blank hw digit_not_blank]
      split_ifs
      · rfl
      · rfl
    · rw [if_neg h, if_neg (mt hsign.mp h), hw.head?_any_append digit_not_blank,
        dropWhile_append_blank hw digit_not_blank]
      split_ifs
      · rfl
      · rfl

theorem skipNumber_append_blank (hw : Blank w) (c : UInt8) (rest : Bytes) :
    skipNumber (c :: (rest ++ w)) = skipNumber (c :: rest) ++ w := by
  have hhex (x : UInt8) (hx : isAsciiWhitespace x = true) : isAsciiHexdigit x = false :=
    forall_byte (p := fun x ↦ isAsciiWhitespace x = true → isAsciiHexdigit x = false)
      (by decide) x hx
  have hletter (x : UInt8) (hx : isAsciiWhitespace x = true) :
      decide (x ||| 0x20 = ch 'x') = false :=
    forall_byte (p := fun x ↦ isAsciiWhitespace x = true → decide (x ||| 0x20 = ch 'x') = false)
      (by decide) x hx
  have hpoint (b : Bytes) : (if (b ++ w).head? = some (ch '.') then
      (b ++ w).tail.dropWhile isAsciiDigit else b ++ w) =
      (if b.head? = some (ch '.') then b.tail.dropWhile isAsciiDigit else b) ++ w := by
    by_cases h : b.head? = some (ch '.')
    · obtain ⟨b, rfl⟩ := List.head?_eq_some_iff.mp h
      rw [if_pos h, if_pos ((hw.head?_append (by decide) _).mpr h), List.cons_append,
        List.tail_cons, List.tail_cons, dropWhile_append_blank hw digit_not_blank]
    · rw [if_neg h, if_neg (mt (hw.head?_append (by decide) b).mp h)]
  rw [skipNumber, skipNumber, List.head?_cons, List.head?_cons, List.tail_cons, List.tail_cons,
    hw.head?_any_append hletter]
  split_ifs with hzero
  · obtain ⟨x, rest, rfl⟩ : ∃ x r, rest = x :: r :=
      List.exists_cons_of_ne_nil (by rintro rfl; simp at hzero)
    exact dropWhile_append_blank hw hhex rest
  · dsimp only
    rw [← List.cons_append, dropWhile_append_blank hw digit_not_blank, hpoint,
      skipExponent_append_blank hw]

end Skipping

/-! ## Copying -/

namespace Fingerprint

variable {out : Bytes} {c : UInt8} {rest w : Bytes}

/-- A character is whole without the white space behind it. -/
theorem pushLossyLower_append_blank (hw : Blank w) (out : Bytes) (c : UInt8) (rest : Bytes) :
    pushLossyLower out c (rest ++ w) =
      ((pushLossyLower out c rest).1, (pushLossyLower out c rest).2 ++ w) := by
  by_cases hc : c < 0x80
  · rw [pushLossyLower, if_pos hc, pushLossyLower, if_pos hc]
  · have hwascii : ∀ d ∈ w, d < 0x80 := fun d hd ↦ (ascii_of_isAsciiWhitespace (hw d hd)).1
    rw [pushLossyLower, if_neg hc, pushLossyLower, if_neg hc, ← List.cons_append]
    dsimp only
    by_cases hfits : utf8Len c ≤ (c :: rest).length
    · rw [List.take_append_of_le_length hfits, List.drop_append_of_le_length hfits]
      split_ifs
      · rfl
      · rfl
    · -- the character is cut short, and white space does not complete it
      have hshort : isUtf8 ((c :: rest).take (utf8Len c)) = false := by
        by_contra h
        exact hfits (chunk_spec hc (Bool.not_eq_false _ ▸ h)).1
      have hshort' : isUtf8 ((c :: rest ++ w).take (utf8Len c)) = false := by
        by_contra h
        obtain ⟨hle, hbytes⟩ := @chunk_spec c (rest ++ w) hc (Bool.not_eq_false _ ▸ h)
        cases w with
        | nil =>
          rw [List.append_nil] at hle
          exact hfits hle
        | cons x w =>
          have hmem : x ∈ (c :: rest ++ x :: w).take (utf8Len c) := by
            rw [List.take_append, List.mem_append]
            right
            obtain ⟨n, hn⟩ : ∃ n, utf8Len c - (c :: rest).length = n + 1 :=
              Nat.exists_eq_succ_of_ne_zero (by omega)
            rw [hn, List.take_succ_cons]
            exact List.mem_cons_self
          exact UInt8.not_lt.mpr (hbytes x hmem) (hwascii x List.mem_cons_self)
      rw [hshort, hshort']
      rfl

/-- An identifier that is not closed takes the white space behind it. -/
theorem copyIdent_blank (hw : Blank w) (out : Bytes) : copyIdent out w = (out ++ w, []) := by
  induction w generalizing out with
  | nil => rw [copyIdent, List.append_nil]
  | cons c w ih =>
    obtain ⟨hc, hw⟩ := List.forall_mem_cons.mp hw
    have hspec := forall_byte (p := fun c ↦ isAsciiWhitespace c = true → c ≠ backtick ∧ c < 0x80 ∧
      toAsciiLowercase c = c) (by decide) c hc
    rw [copyIdent, if_neg hspec.1, pushLossyLower, if_pos hspec.2.1, hspec.2.2, ih hw,
      List.append_assoc]
    rfl

/-- Either the identifier is closed before the white space, or it takes it. -/
theorem copyIdent_append_blank (hw : Blank w) (out b : Bytes) :
    copyIdent out (b ++ w) = ((copyIdent out b).1, (copyIdent out b).2 ++ w) ∨
      (copyIdent out b).2 = [] ∧ copyIdent out (b ++ w) = ((copyIdent out b).1 ++ w, []) := by
  fun_induction copyIdent out b with
  | case1 out => exact Or.inr ⟨rfl, copyIdent_blank hw out⟩
  | case2 out rest hd ih =>
    obtain ⟨rest, rfl⟩ := List.head?_eq_some_iff.mp hd
    have hd' : (backtick :: rest ++ w).head? = some backtick := rfl
    rw [List.cons_append, copyIdent, if_pos rfl, if_pos hd']
    exact ih
  | case3 out rest hd =>
    have hd' := mt (hw.head?_append (x := backtick) (by decide) rest).mp hd
    left
    rw [List.cons_append, copyIdent, if_pos rfl, if_neg hd']
  | case4 out c rest hc ih =>
    rw [List.cons_append, copyIdent, if_neg hc, pushLossyLower_append_blank hw]
    exact ih

/-! ## The loop -/

/-- White space in front of a statement. -/
theorem normalize_blank_append (hw : Blank w) (s : Bytes) :
    normalize [] (w ++ s) = normalize [] s := by
  induction w with
  | nil => rfl
  | cons c w ih =>
    obtain ⟨hc, hw⟩ := List.forall_mem_cons.mp hw
    rw [List.cons_append, normalize_space hc]
    exact ih hw

theorem normalize_blank (hw : Blank w) (out : Bytes) :
    ∃ t, Blank t ∧ normalize out w = out ++ t := by
  induction w generalizing out with
  | nil => exact ⟨[], blank_nil, by rw [normalize_nil, List.append_nil]⟩
  | cons c w ih =>
    obtain ⟨hc, hw⟩ := List.forall_mem_cons.mp hw
    obtain ⟨t, ht, heq⟩ := ih hw (pushSpace out)
    rw [normalize_space hc, heq, pushSpace]
    split_ifs
    · refine ⟨ch ' ' :: t, List.forall_mem_cons.mpr ⟨by decide, ht⟩, ?_⟩
      rw [List.append_assoc]
      rfl
    · exact ⟨t, ht, rfl⟩

/-- **White space behind a statement** comes out behind its output. -/
theorem normalize_append_blank (hw : Blank w) (out b : Bytes) :
    ∃ t, Blank t ∧ normalize out (b ++ w) = normalize out b ++ t := by
  -- a string or comment that does not end takes the white space in; otherwise it is still there
  fun_induction normalize out b generalizing w with
  | case1 out => exact normalize_blank hw out
  | case2 out c rest hq ih =>
    have hne : c ≠ backtick := by rcases hq with rfl | rfl <;> decide
    obtain ⟨t, ht, hskip⟩ := keepsBlank_skipQuoted c rest w hw
    rw [List.cons_append, normalize_string hq, skipString_eq hne, hskip, ← skipString_eq hne]
    exact ih ht
  | case3 out rest hq ih =>
    rw [List.cons_append, normalize_ident]
    rcases copyIdent_append_blank hw (out ++ [backtick]) rest with hcopy | ⟨hend, hcopy⟩
    · rw [hcopy]
      exact ih hw
    · rw [hcopy, hend, normalize_nil, normalize_nil]
      exact ⟨w, hw, rfl⟩
  | case4 out c rest hq hi hb ih =>
    obtain ⟨-, hstar⟩ := opensBlockComment_ascii hb
    obtain ⟨rest, rfl⟩ := List.head?_eq_some_iff.mp hstar
    obtain ⟨t, ht, hskip⟩ := keepsBlank_skipBlockComment rest w hw
    rw [List.cons_append, normalize_block (by rwa [opensBlockComment_append_blank hw])]
    simp only [List.cons_append, List.drop_succ_cons, List.drop_zero] at ih ⊢
    rw [hskip]
    exact ih ht
  | case5 out c rest hq hi hb hl ih =>
    obtain ⟨t, ht, hskip⟩ := keepsBlank_skipLineComment rest w hw
    rw [List.cons_append, normalize_line (by rwa [opensLineComment_append_blank hw]), hskip]
    exact ih ht
  | case6 out c rest hq hi hb hl hs ih =>
    rw [List.cons_append, normalize_space hs]
    exact ih hw
  | case7 out c rest hq hi hb hl hs hn hident ih =>
    have hcode := opensNothing_append_blank hw (opensNothing_of_not hq hi hb hl)
    rw [List.cons_append, normalize_code hcode, if_neg hs, hw.head?_any_append digit_not_blank,
      if_pos hn, if_pos hident]
    exact ih hw
  | case8 out c rest hq hi hb hl hs hn hident ih =>
    have hcode := opensNothing_append_blank hw (opensNothing_of_not hq hi hb hl)
    rw [List.cons_append, normalize_code hcode, if_neg hs, hw.head?_any_append digit_not_blank,
      if_pos hn, if_neg hident, skipNumber_append_blank hw]
    exact ih hw
  | case9 out c rest hq hi hb hl hs hn ih =>
    have hcode := opensNothing_append_blank hw (opensNothing_of_not hq hi hb hl)
    rw [List.cons_append, normalize_code hcode, if_neg hs, hw.head?_any_append digit_not_blank,
      if_neg hn, pushLossyLower_append_blank hw]
    exact ih hw

end Fingerprint

/-! ## The fingerprint -/

theorem trim_append_blank {w : Bytes} (hw : Blank w) (s : Bytes) : trim (s ++ w) = trim s := by
  induction w using List.reverseRecOn with
  | nil => rw [List.append_nil]
  | append_singleton w c ih =>
    obtain ⟨hw, hc⟩ := List.forall_mem_append.mp hw
    obtain ⟨hascii, hspace, -⟩ := ascii_of_isAsciiWhitespace (hc c (List.mem_singleton_self c))
    rw [← List.append_assoc, ← ih hw]
    generalize s ++ w = s
    rw [trim, trim, chars_append_cons s hascii, chars_nil, List.dropWhile_append]
    split_ifs with hall
    · rw [List.isEmpty_iff.mp hall, List.dropWhile_cons_of_pos hspace]
      rfl
    · rw [List.reverse_append, List.reverse_singleton, List.singleton_append,
        List.dropWhile_cons_of_pos hspace]

/-- **The fingerprint ignores the case of letters and padding**, whatever the statement ends in. -/
theorem fingerprint_ignores_case_and_padding (s : Bytes) :
    fingerprint (upper s) = fingerprint s ∧
      ∀ w w', Blank w → Blank w' → fingerprint (w ++ s ++ w') = fingerprint s := by
  refine ⟨fingerprint_upper s, fun w w' hw hw' ↦ ?_⟩
  obtain ⟨t, ht, hnormalize⟩ := normalize_append_blank hw' [] s
  rw [fingerprint, List.append_assoc, normalize_blank_append hw, hnormalize, trim_append_blank ht,
    fingerprint]

theorem fingerprint_ignores_case_and_padding_sample :
    fingerprint (upper (ascii "a = 0xfF")) = fingerprint (ascii "a = 0xfF") ∧
      fingerprint (ascii " " ++ ascii "a = 0xfF" ++ ascii "\n") =
        fingerprint (ascii "a = 0xfF") := by
  obtain ⟨hcase, hpadding⟩ := fingerprint_ignores_case_and_padding (ascii "a = 0xfF")
  exact ⟨hcase, hpadding _ _ (by decide +kernel) (by decide +kernel)⟩

end SqlReplay
