import SqlReplay.Sql.Contexts
import SqlReplay.Sql.Classify
import SqlReplay.Sql.Fingerprint
import SqlReplay.Slowlog.Parser

/-!
# The scanners of SQL text

Four places of the tool scan SQL text on their own: the slow-log parser, which must be able to stop
at every newline, the fingerprint, the classifier with its two loops, and the expansion of prepared
statements. Each loop is a `Scanner` here, one turn to one turn of the source, and each is tied to
the function of the model that it is the loop of: the run ends in the value that the function
returns (`final_trailingScanner` and its likes). What a turn adds is the context that its branch
stands for.

Before that, the loops inside a turn. A quoted text or a comment is skipped by the same rule
everywhere, though the rule is written differently each time, and the characters and numbers that
the fingerprint takes as a whole are runs of code.
-/

namespace SqlReplay

/-! ## Skipping, step by step -/

/-- `skip_quoted`, one byte at a time. -/
theorem skipQuoted_cons (q c : UInt8) (rest : Bytes) :
    skipQuoted q (c :: rest) =
      if c = backslash ∧ q ≠ backtick then skipQuoted q rest.tail
      else if c = q then if rest.head? = some q then skipQuoted q rest.tail else rest
      else skipQuoted q rest := by
  cases rest with
  | nil => simp [skipQuoted]
  | cons d rest =>
    rw [skipQuoted, List.tail_cons, List.head?_cons]
    simp only [Option.some.injEq]

/-- The loop to the end of a block comment, one byte at a time. -/
theorem skipBlockComment_cons (c : UInt8) (rest : Bytes) :
    skipBlockComment (c :: rest) =
      if c = ch '*' ∧ rest.head? = some (ch '/') then rest.tail else skipBlockComment rest := by
  cases rest with
  | nil => simp [skipBlockComment]
  | cons d rest =>
    rw [skipBlockComment, List.tail_cons, List.head?_cons]
    simp only [Option.some.injEq]

namespace Fingerprint

/-- `skip_string` is `skip_quoted` for the two quotes that it is called with. -/
theorem skipString_eq {quote : UInt8} (h : quote ≠ backtick) (b : Bytes) :
    skipString quote b = skipQuoted quote b := by
  fun_induction skipString quote b with
  | case1 => rw [skipQuoted]
  | case2 c => rw [skipQuoted]
  | case3 d rest ih => rw [skipQuoted, if_pos ⟨rfl, h⟩, ih]
  | case4 rest hesc ih =>
    rw [skipQuoted, if_neg fun hc ↦ hesc hc.1, if_pos rfl, if_pos rfl, ih]
  | case5 d rest hd hesc => rw [skipQuoted, if_neg fun hc ↦ hesc hc.1, if_pos rfl, if_neg hd]
  | case6 c d rest hesc hc ih => rw [skipQuoted, if_neg fun h ↦ hesc h.1, if_neg hc, ih]

/-- The owed bytes of a character that is well formed are all there, and none is ASCII. -/
theorem utf8Tail_eq_true {owed : ℕ} {low high : UInt8} {b : Bytes} (hlow : 0x80 ≤ low)
    (h : (utf8Tail owed low high b).1 = true) :
    (utf8Tail owed low high b).2 = owed ∧ ∀ d ∈ b.take owed, 0x80 ≤ d := by
  induction owed generalizing low high b with
  | zero => exact ⟨rfl, fun d hd ↦ absurd hd (by simp)⟩
  | succ owed ih =>
    cases b with
    | nil => exact absurd h Bool.false_ne_true
    | cons c b =>
      rw [utf8Tail] at h ⊢
      split_ifs at h ⊢ with hc
      obtain ⟨hcount, hrest⟩ := ih (by decide) h
      refine ⟨by rw [hcount], fun d hd ↦ ?_⟩
      rw [List.take_succ_cons] at hd
      rcases List.mem_cons.mp hd with rfl | hd
      · exact UInt8.le_trans hlow hc.1
      · exact hrest d hd

/-- A well-formed character is as long as its first byte says, and ASCII in its first byte only. -/
theorem utf8Char_eq_true {c : UInt8} {b : Bytes} (hc : ¬c < 0x80) (h : (utf8Char c b).1 = true) :
    (utf8Char c b).2 = utf8Len c - 1 ∧ ∀ d ∈ b.take (utf8Len c - 1), 0x80 ≤ d := by
  have hlow (a low : UInt8) (ha : 0x80 ≤ low) : 0x80 ≤ if c = a then low else 0x80 := by
    split_ifs
    · exact ha
    · exact UInt8.le_refl _
  have hnot {low high : UInt8} (h : high < low) (hlow : low ≤ c) (low' : UInt8) :
      ¬(low' ≤ c ∧ c ≤ high) := fun hc ↦
    UInt8.lt_irrefl _ (UInt8.lt_of_lt_of_le h (UInt8.le_trans hlow hc.2))
  rw [utf8Char, if_neg hc] at h ⊢
  by_cases htwo : 0xC2 ≤ c ∧ c ≤ 0xDF
  · rw [if_pos htwo] at h ⊢
    have hlen : utf8Len c = 2 := if_pos ⟨UInt8.le_trans (by decide) htwo.1, htwo.2⟩
    rw [hlen]
    exact utf8Tail_eq_true (UInt8.le_refl _) h
  rw [if_neg htwo] at h ⊢
  by_cases hthree : 0xE0 ≤ c ∧ c ≤ 0xEF
  · rw [if_pos hthree] at h ⊢
    have hlen : utf8Len c = 3 := by
      rw [utf8Len, if_neg (hnot (by decide) hthree.1 _), if_pos hthree]
    rw [hlen]
    exact utf8Tail_eq_true (hlow _ _ (by decide)) h
  rw [if_neg hthree] at h ⊢
  by_cases hfour : 0xF0 ≤ c ∧ c ≤ 0xF4
  · rw [if_pos hfour] at h ⊢
    have hlen : utf8Len c = 4 := by
      rw [utf8Len, if_neg (hnot (by decide) hfour.1 _), if_neg (hnot (by decide) hfour.1 _),
        if_pos ⟨hfour.1, UInt8.le_trans hfour.2 (by decide)⟩]
    rw [hlen]
    exact utf8Tail_eq_true (hlow _ _ (by decide)) h
  rw [if_neg hfour] at h ⊢
  exact absurd h Bool.false_ne_true

/-- The bytes that `push_lossy_lower` takes with the first one are not ASCII. -/
theorem pushLossyLower_split (out : Bytes) (c : UInt8) (rest : Bytes) :
    ∃ p, rest = p ++ (pushLossyLower out c rest).2 ∧ ∀ d ∈ p, 0x80 ≤ d := by
  rw [pushLossyLower]
  by_cases hascii : c < 0x80
  · rw [if_pos hascii]
    exact ⟨[], rfl, fun d hd ↦ absurd hd List.not_mem_nil⟩
  rw [if_neg hascii]
  dsimp only
  split_ifs with hutf8
  · obtain ⟨n, hn⟩ : ∃ n, utf8Len c = n + 1 := by
      refine Nat.exists_eq_succ_of_ne_zero ?_
      rw [utf8Len]
      split_ifs <;> decide
    rw [hn, List.drop_succ_cons]
    refine ⟨rest.take n, (List.take_append_drop n rest).symm, ?_⟩
    rw [hn, List.take_succ_cons, isUtf8, utf8Chars, List.all_cons, Bool.and_eq_true] at hutf8
    have hchar := (utf8Char_eq_true hascii hutf8.1).2
    rwa [hn, Nat.add_sub_cancel, List.take_take, min_self] at hchar
  · exact ⟨[], rfl, fun d hd ↦ absurd hd List.not_mem_nil⟩

theorem isPlain_of_not_ascii {d : UInt8} (h : 0x80 ≤ d) : isPlain d = true :=
  isPlain_of (p := fun d ↦ 0x80 ≤ d) (by decide) (decide_eq_true h)

theorem codeRun_pushLossyLower (out : Bytes) (c : UInt8) (rest : Bytes) :
    CodeRun rest (pushLossyLower out c rest).2 := by
  obtain ⟨p, hp, hplain⟩ := pushLossyLower_split out c rest
  have hrun := CodeRun.of_plain (fun d hd ↦ isPlain_of_not_ascii (hplain d hd))
    (pushLossyLower out c rest).2
  rwa [← hp] at hrun

theorem codeRun_digits (b : Bytes) : CodeRun b (b.dropWhile isAsciiDigit) :=
  CodeRun.dropWhile (fun _ ↦ isPlain_of (by decide)) b

theorem codeRun_skipExponent (b : Bytes) : CodeRun b (skipExponent b) := by
  cases b with
  | nil => exact .refl []
  | cons c rest =>
    rw [skipExponent]
    by_cases he : c ||| 0x20 = ch 'e' ∧ (if rest.head? = some (ch '+') ∨
        rest.head? = some (ch '-') then rest.tail else rest).head?.any isAsciiDigit
    · rw [if_pos he]
      have hplain : isPlain c = true :=
        isPlain_of (p := fun d ↦ d ||| 0x20 == ch 'e') (by decide) (beq_iff_eq.mpr he.1)
      refine .cons (opensNothing_of_isPlain hplain rest) ?_
      by_cases hsign : rest.head? = some (ch '+') ∨ rest.head? = some (ch '-')
      · -- a sign in front of a digit does not open a comment
        rw [if_pos hsign] at he ⊢
        obtain ⟨sign, digits, rfl⟩ : ∃ sign digits, rest = sign :: digits :=
          List.exists_cons_of_ne_nil (by rintro rfl; simp at hsign)
        refine .cons ?_ (codeRun_digits digits)
        have hdigit : digits.head? ≠ some (ch '-') ∧ digits.head? ≠ some (ch '*') := by
          have hany := he.2
          rw [List.tail_cons] at hany
          constructor
          · intro hdash
            rw [hdash] at hany
            exact absurd hany (by decide)
          · intro hstar
            rw [hstar] at hany
            exact absurd hany (by decide)
        simp only [List.head?_cons, Option.some.injEq] at hsign
        refine ⟨?_, ?_, ?_⟩
        · simp [opensBlockComment, hdigit.2]
        · rcases hsign with rfl | rfl
          · simp [opensLineComment, hdigit.1]
            decide
          · simp [opensLineComment, hdigit.1]
            decide
        · rcases hsign with rfl | rfl
          all_goals decide
      · rw [if_neg hsign]
        exact codeRun_digits rest
    · rw [if_neg he]
      exact .refl _

theorem codeRun_skipNumber {c : UInt8} {rest : Bytes}
    (hc : isAsciiDigit c = true ∨ c = ch '.') : CodeRun (c :: rest) (skipNumber (c :: rest)) := by
  have hplain : isPlain c = true := by
    rcases hc with hdigit | rfl
    · exact isPlain_of (by decide) hdigit
    · decide
  rw [skipNumber]
  split_ifs with hhex
  · -- `0x` and hexadecimal digits
    obtain ⟨x, rest, rfl⟩ : ∃ x r, rest = x :: r :=
      List.exists_cons_of_ne_nil (by rintro rfl; simp at hhex)
    have hx : isPlain x = true := by
      have hany := hhex.2
      rw [List.tail_cons, List.head?_cons, Option.any_some] at hany
      exact isPlain_of (p := fun d ↦ d ||| 0x20 = ch 'x') (by decide) hany
    refine .cons (opensNothing_of_isPlain hplain _) (.cons (opensNothing_of_isPlain hx _) ?_)
    exact CodeRun.dropWhile (fun _ ↦ isPlain_of (by decide)) rest
  · refine (codeRun_digits (c :: rest)).trans ?_
    dsimp only
    generalize (c :: rest).dropWhile isAsciiDigit = b
    refine CodeRun.trans ?_ (codeRun_skipExponent _)
    split_ifs with hdot
    · obtain ⟨b, rfl⟩ := List.head?_eq_some_iff.mp hdot
      exact .cons (opensNothing_of_isPlain (by decide) b) (codeRun_digits b)
    · exact .refl b

/-- Bytes of a quoted text that neither close nor escape. -/
theorem skipQuoted_append {q : UInt8} {p : Bytes}
    (hp : ∀ d ∈ p, d ≠ q ∧ (d ≠ backslash ∨ q = backtick)) (b : Bytes) :
    skipQuoted q (p ++ b) = skipQuoted q b := by
  induction p with
  | nil => rfl
  | cons d p ih =>
    obtain ⟨⟨hclose, hesc⟩, hrest⟩ := List.forall_mem_cons.mp hp
    rw [List.cons_append, skipQuoted_cons, if_neg fun h ↦ hesc.elim (· h.1) h.2, if_neg hclose,
      ih hrest]

/-- The loop over a quoted identifier skips what `skip_quoted` skips. -/
theorem copyIdent_eq (out b : Bytes) : (copyIdent out b).2 = skipQuoted backtick b := by
  fun_induction copyIdent out b with
  | case1 => rw [skipQuoted]
  | case2 out rest hd ih =>
    rw [skipQuoted_cons, if_neg fun h ↦ h.2 rfl, if_pos rfl, if_pos hd, ih]
  | case3 out rest hd => rw [skipQuoted_cons, if_neg fun h ↦ h.2 rfl, if_pos rfl, if_neg hd]
  | case4 out c rest hc ih =>
    obtain ⟨p, hp, hplain⟩ := pushLossyLower_split out c rest
    have hskip := skipQuoted_append (q := backtick) (p := p) (fun d hd ↦ ⟨?_, Or.inr rfl⟩)
      (pushLossyLower out c rest).2
    · rw [ih, skipQuoted_cons, if_neg fun h ↦ h.2 rfl, if_neg hc, ← hskip, ← hp]
    · rintro rfl
      exact absurd (hplain _ hd) (by decide)

end Fingerprint

/-! ## The classifier -/

/-- The loop of `has_trailing_statement`. -/
def trailingScanner : Scanner Bool UInt8 Context where
  step afterSemicolon c rest :=
    if opensBlockComment c rest then
      if opensExecutable rest then
        (.code, some (afterSemicolon, skipVersionDigits (rest.drop 2)))
      else (.blockComment, some (afterSemicolon, skipBlockComment (rest.drop 1)))
    else if opensLineComment c rest then
      (.lineComment, some (afterSemicolon, skipLineComment rest))
    else if isAsciiWhitespace c then (.code, some (afterSemicolon, rest))
    else if c = ch ';' then (.code, some (true, rest))
    else if afterSemicolon then (.code, none)
    else if isQuote c then (.quoted c, some (afterSemicolon, skipQuoted c rest))
    else (.code, some (afterSemicolon, rest))
  step_suffix := by
    intro s c rest k s' after h
    split_ifs at h <;> cases h
    · exact (skipVersionDigits_suffix _).trans (List.drop_suffix _ _)
    · exact (skipBlockComment_suffix _).trans (List.drop_suffix _ _)
    · exact skipLineComment_suffix _
    · exact List.suffix_refl _
    · exact List.suffix_refl _
    · exact skipQuoted_suffix _ _
    · exact List.suffix_refl _

/-- It returns early exactly where the function finds a second statement. -/
theorem final_trailingScanner (afterSemicolon : Bool) (b : Bytes) :
    (trailingScanner.final afterSemicolon b).isNone = hasTrailingFrom afterSemicolon b := by
  fun_induction hasTrailingFrom afterSemicolon b with
  | case1 => rw [Scanner.final_nil]; rfl
  | case2 a c rest hb he ih =>
    have hstep : trailingScanner.step a c rest =
        (.code, some (a, skipVersionDigits (rest.drop 2))) := by
      simp [trailingScanner, hb, he]
    rw [Scanner.final_of_step hstep, ih]
  | case3 a c rest hb he ih =>
    have hstep : trailingScanner.step a c rest =
        (.blockComment, some (a, skipBlockComment (rest.drop 1))) := by
      simp [trailingScanner, hb, he]
    rw [Scanner.final_of_step hstep, ih]
  | case4 a c rest hb hl ih =>
    have hstep : trailingScanner.step a c rest =
        (.lineComment, some (a, skipLineComment rest)) := by
      simp [trailingScanner, hb, hl]
    rw [Scanner.final_of_step hstep, ih]
  | case5 a c rest hb hl hw ih =>
    have hstep : trailingScanner.step a c rest = (.code, some (a, rest)) := by
      simp [trailingScanner, hb, hl, hw]
    rw [Scanner.final_of_step hstep, ih]
  | case6 a rest hb hl hw ih =>
    have hstep : trailingScanner.step a (ch ';') rest = (.code, some (true, rest)) := by
      simp [trailingScanner, hb, hl, hw]
    rw [Scanner.final_of_step hstep, ih]
  | case7 c rest hb hl hw hs =>
    have hstep : trailingScanner.step true c rest = (.code, none) := by
      simp [trailingScanner, hb, hl, hw, hs]
    rw [Scanner.final_of_return hstep]
    rfl
  | case8 a c rest hb hl hw hs ha hq ih =>
    have hstep : trailingScanner.step a c rest = (.quoted c, some (a, skipQuoted c rest)) := by
      simp [trailingScanner, hb, hl, hw, hs, ha, hq]
    rw [Scanner.final_of_step hstep, ih]
  | case9 a c rest hb hl hw hs ha hq ih =>
    have hstep : trailingScanner.step a c rest = (.code, some (a, rest)) := by
      simp [trailingScanner, hb, hl, hw, hs, ha, hq]
    rw [Scanner.final_of_step hstep, ih]

/-- The loop of `next_word`, called until the end of the text: the depth and the words so far. -/
def tokenScanner : Scanner (ℤ × List (Bytes × ℤ)) UInt8 Context where
  step s c rest :=
    if c = ch '(' then (.code, some ((s.1 + 1, s.2), rest))
    else if c = ch ')' then (.code, some ((s.1 - 1, s.2), rest))
    else if isQuote c then (.quoted c, some (s, skipQuoted c rest))
    else if opensBlockComment c rest then
      if opensExecutable rest then (.code, some (s, skipVersionDigits (rest.drop 2)))
      else (.blockComment, some (s, skipBlockComment (rest.drop 1)))
    else if opensLineComment c rest then (.lineComment, some (s, skipLineComment rest))
    else if isWordStart c then
      (.code, some ((s.1, s.2 ++ [((c :: rest.takeWhile isWordByte).map toAsciiLowercase, s.1)]),
        rest.dropWhile isWordByte))
    else (.code, some (s, rest))
  step_suffix := by
    intro s c rest k s' after h
    split_ifs at h <;> cases h
    · exact List.suffix_refl _
    · exact List.suffix_refl _
    · exact skipQuoted_suffix _ _
    · exact (skipVersionDigits_suffix _).trans (List.drop_suffix _ _)
    · exact (skipBlockComment_suffix _).trans (List.drop_suffix _ _)
    · exact skipLineComment_suffix _
    · exact List.dropWhile_suffix _
    · exact List.suffix_refl _

/-- One call of `next_word` is the run to the next word. -/
theorem final_tokenScanner_nextWord (depth : ℤ) (b : Bytes) (found : List (Bytes × ℤ)) :
    (tokenScanner.final (depth, found) b).map Prod.snd =
      match TokenScanner.nextWordFrom depth b with
      | none => some found
      | some (w, t) =>
        (tokenScanner.final (t.depth, found ++ [(w, t.wordDepth)]) t.rest).map Prod.snd := by
  fun_induction TokenScanner.nextWordFrom depth b with
  | case1 => rw [Scanner.final_nil]; rfl
  | case2 depth rest ih =>
    have hstep : tokenScanner.step (depth, found) (ch '(') rest =
        (.code, some ((depth + 1, found), rest)) := by simp [tokenScanner]
    rw [Scanner.final_of_step hstep, ih]
  | case3 depth rest ho ih =>
    have hstep : tokenScanner.step (depth, found) (ch ')') rest =
        (.code, some ((depth - 1, found), rest)) := by simp [tokenScanner, ho]
    rw [Scanner.final_of_step hstep, ih]
  | case4 depth c rest ho hc hq ih =>
    have hstep : tokenScanner.step (depth, found) c rest =
        (.quoted c, some ((depth, found), skipQuoted c rest)) := by
      simp [tokenScanner, ho, hc, hq]
    rw [Scanner.final_of_step hstep, ih]
  | case5 depth c rest ho hc hq hb he ih =>
    have hstep : tokenScanner.step (depth, found) c rest =
        (.code, some ((depth, found), skipVersionDigits (rest.drop 2))) := by
      simp [tokenScanner, ho, hc, hq, hb, he]
    rw [Scanner.final_of_step hstep, ih]
  | case6 depth c rest ho hc hq hb he ih =>
    have hstep : tokenScanner.step (depth, found) c rest =
        (.blockComment, some ((depth, found), skipBlockComment (rest.drop 1))) := by
      simp [tokenScanner, ho, hc, hq, hb, he]
    rw [Scanner.final_of_step hstep, ih]
  | case7 depth c rest ho hc hq hb hl ih =>
    have hstep : tokenScanner.step (depth, found) c rest =
        (.lineComment, some ((depth, found), skipLineComment rest)) := by
      simp [tokenScanner, ho, hc, hq, hb, hl]
    rw [Scanner.final_of_step hstep, ih]
  | case8 depth c rest ho hc hq hb hl hw =>
    have hstep : tokenScanner.step (depth, found) c rest =
        (.code, some ((depth,
          found ++ [((c :: rest.takeWhile isWordByte).map toAsciiLowercase, depth)]),
          rest.dropWhile isWordByte)) := by
      simp [tokenScanner, ho, hc, hq, hb, hl, hw]
    rw [Scanner.final_of_step hstep]
  | case9 depth c rest ho hc hq hb hl hw ih =>
    have hstep : tokenScanner.step (depth, found) c rest =
        (.code, some ((depth, found), rest)) := by
      simp [tokenScanner, ho, hc, hq, hb, hl, hw]
    rw [Scanner.final_of_step hstep, ih]

/-- Run to the end of the text, it finds the words that the scanner yields. -/
theorem final_tokenScanner (t : TokenScanner) (found : List (Bytes × ℤ)) :
    (tokenScanner.final (t.depth, found) t.rest).map Prod.snd = some (found ++ t.words) := by
  fun_induction TokenScanner.words t generalizing found with
  | case1 t h =>
    rw [final_tokenScanner_nextWord,
      show TokenScanner.nextWordFrom t.depth t.rest = none from h, List.append_nil]
  | case2 t w t' h ih =>
    rw [final_tokenScanner_nextWord,
      show TokenScanner.nextWordFrom t.depth t.rest = some (w, t') from h]
    dsimp only
    rw [ih, List.append_assoc]
    rfl

/-! ## The expansion of prepared statements -/

/-- The loop of `interpolate`: the values that are left, the text so far and how many were used. -/
def placeholderScanner : Scanner (List Bytes × Bytes × ℕ) UInt8 Context where
  step s c rest :=
    if c = ch '?' then
      match s.1 with
      | [] => (.code, none)
      | v :: values => (.code, some ((values, s.2.1 ++ v, s.2.2 + 1), rest))
    else
      (if isQuote c then .quoted c
        else if opensLineComment c rest then .lineComment
        else if opensBlockComment c rest then .blockComment
        else .code,
        some ((s.1, s.2.1 ++ c :: consumed rest (skipCopied c rest), s.2.2), skipCopied c rest))
  step_suffix := by
    intro s c rest k s' after h
    by_cases hc : c = ch '?'
    · rw [if_pos hc] at h
      split at h
      · cases h
      · cases h
        exact List.suffix_refl _
    · rw [if_neg hc] at h
      cases h
      exact skipCopied_suffix c rest

/-- It returns early exactly where the values run short, and else its text is the expansion. -/
theorem final_placeholderScanner (values : List Bytes) (b out : Bytes) (used : ℕ) :
    (placeholderScanner.final (values, out, used) b).map Prod.snd =
      (interpolateFrom values b).map fun r ↦ (out ++ r.1, used + r.2) := by
  fun_induction interpolateFrom values b generalizing out used with
  | case1 => rw [Scanner.final_nil, Option.map_some, Option.map_some, List.append_nil]; rfl
  | case2 rest =>
    have hstep : placeholderScanner.step ([], out, used) (ch '?') rest = (.code, none) := by
      simp [placeholderScanner]
    rw [Scanner.final_of_return hstep]
    rfl
  | case3 rest v values ih =>
    have hstep : placeholderScanner.step (v :: values, out, used) (ch '?') rest =
        (.code, some ((values, out ++ v, used + 1), rest)) := by
      simp [placeholderScanner]
    rw [Scanner.final_of_step hstep, ih]
    cases interpolateFrom values rest with
    | none => rfl
    | some r =>
      simp only [Option.map_some, List.append_assoc]
      rw [Nat.add_assoc, Nat.add_comm 1]
  | case4 values c rest hc ih =>
    rw [Scanner.final_of_step (if_neg hc), ih]
    cases interpolateFrom values (skipCopied c rest) with
    | none => rfl
    | some r =>
      simp only [Option.map_some, List.append_assoc, List.cons_append]

/-! ## The fingerprint -/

open Fingerprint

/-- The loop of `fingerprint`. -/
def fingerprintScanner : Scanner Bytes UInt8 Context where
  step out c rest :=
    if c = singleQuote ∨ c = doubleQuote then
      (.quoted c, some (out ++ [ch '?'], skipString c rest))
    else if c = backtick then (.quoted backtick, some (copyIdent (out ++ [backtick]) rest))
    else if opensBlockComment c rest then
      (.blockComment, some (pushSpace out, skipBlockComment (rest.drop 1)))
    else if opensLineComment c rest then (.lineComment, some (out, skipLineComment rest))
    else if isAsciiWhitespace c then (.code, some (pushSpace out, rest))
    else if isAsciiDigit c = true ∨ (c = ch '.' ∧ rest.head?.any isAsciiDigit) then
      if endsWithIdentChar out then (.code, some (out ++ [toAsciiLowercase c], rest))
      else (.code, some (foldSign out ++ [ch '?'], skipNumber (c :: rest)))
    else (.code, some (pushLossyLower out c rest))
  step_suffix := by
    intro out c rest k out' after h
    have hafter {x : Bytes × Bytes} {k' : Context} (hx : (k', some x) = (k, some (out', after))) :
        x.2 = after := congrArg Prod.snd (Option.some.inj (Prod.mk.inj hx).2)
    split_ifs at h with hq hi hb hl hw hn hident <;> obtain rfl := hafter h
    · have hne : c ≠ backtick := by rcases hq with rfl | rfl <;> decide
      rw [skipString_eq hne]
      exact skipQuoted_suffix c rest
    · rw [copyIdent_eq]
      exact skipQuoted_suffix backtick rest
    · exact (skipBlockComment_suffix _).trans (List.drop_suffix _ _)
    · exact skipLineComment_suffix _
    · exact List.suffix_refl _
    · exact List.suffix_refl _
    · exact List.suffix_of_suffix_length_le (codeRun_skipNumber (hn.imp_right And.left)).suffix
        (List.suffix_cons c rest) (skipNumber_length (hn.imp_right And.left) rest)
    · exact (codeRun_pushLossyLower out c rest).suffix

theorem final_fingerprintScanner (out b : Bytes) :
    fingerprintScanner.final out b = some (normalize out b) := by
  fun_induction normalize out b with
  | case1 out => exact Scanner.final_nil _ _
  | case2 out c rest hq ih =>
    have hstep : fingerprintScanner.step out c rest =
        (.quoted c, some (out ++ [ch '?'], skipString c rest)) := by
      simp [fingerprintScanner, hq]
    rw [Scanner.final_of_step hstep, ih]
  | case3 out rest hq ih =>
    have hstep : fingerprintScanner.step out backtick rest =
        (.quoted backtick, some (copyIdent (out ++ [backtick]) rest)) := by
      simp [fingerprintScanner, hq]
    rw [Scanner.final_of_step hstep, ih]
  | case4 out c rest hq hi hb ih =>
    have hstep : fingerprintScanner.step out c rest =
        (.blockComment, some (pushSpace out, skipBlockComment (rest.drop 1))) := by
      simp [fingerprintScanner, hq, hi, hb]
    rw [Scanner.final_of_step hstep, ih]
  | case5 out c rest hq hi hb hl ih =>
    have hstep : fingerprintScanner.step out c rest =
        (.lineComment, some (out, skipLineComment rest)) := by
      simp [fingerprintScanner, hq, hi, hb, hl]
    rw [Scanner.final_of_step hstep, ih]
  | case6 out c rest hq hi hb hl hw ih =>
    have hstep : fingerprintScanner.step out c rest = (.code, some (pushSpace out, rest)) := by
      simp [fingerprintScanner, hq, hi, hb, hl, hw]
    rw [Scanner.final_of_step hstep, ih]
  | case7 out c rest hq hi hb hl hw hn hident ih =>
    have hstep : fingerprintScanner.step out c rest =
        (.code, some (out ++ [toAsciiLowercase c], rest)) := by
      simp [fingerprintScanner, hq, hi, hb, hl, hw, hn, hident]
    rw [Scanner.final_of_step hstep, ih]
  | case8 out c rest hq hi hb hl hw hn hident ih =>
    have hstep : fingerprintScanner.step out c rest =
        (.code, some (foldSign out ++ [ch '?'], skipNumber (c :: rest))) := by
      simp [fingerprintScanner, hq, hi, hb, hl, hw, hn, hident]
    rw [Scanner.final_of_step hstep, ih]
  | case9 out c rest hq hi hb hl hw hn ih =>
    have hstep : fingerprintScanner.step out c rest =
        (.code, some ((pushLossyLower out c rest).1, (pushLossyLower out c rest).2)) := by
      simp [fingerprintScanner, hq, hi, hb, hl, hw, hn]
    rw [Scanner.final_of_step hstep, ih]

/-! ## The slow-log parser -/

/-- The loop of `scan_sql_state` over one line. A line comment ends the line. -/
def lineScanner : Scanner SqlState UInt8 Context where
  step s c rest :=
    match s with
    | .inString q =>
      if c = backslash ∧ q ≠ backtick then (.quoted q, some (.inString q, rest.tail))
      else if c = q then
        if rest.head? = some q then (.quoted q, some (.inString q, rest.tail))
        else (.quoted q, some (.normal, rest))
      else (.quoted q, some (.inString q, rest))
    | .inComment =>
      if c = ch '*' ∧ rest.head? = some (ch '/') then (.blockComment, some (.normal, rest.tail))
      else (.blockComment, some (.inComment, rest))
    | .normal =>
      if isQuote c then (.quoted c, some (.inString c, rest))
      else if opensBlockComment c rest then (.blockComment, some (.inComment, rest.tail))
      else if opensLineComment c rest then (.lineComment, some (.normal, []))
      else (.code, some (.normal, rest))
  step_suffix := by
    intro s c rest k s' after h
    cases s <;> dsimp only at h <;> split_ifs at h <;> cases h
    all_goals first
      | exact List.suffix_refl _
      | exact List.tail_suffix _
      | exact List.nil_suffix

theorem final_lineScanner (s : SqlState) (line : Bytes) :
    lineScanner.final s line = some (scanSqlState s line) := by
  fun_induction scanSqlState s line with
  | case1 s => exact Scanner.final_nil _ _
  | case2 q c rest hesc ih => rw [Scanner.final_of_step (if_pos hesc), ih]
  | case3 q rest hesc hd ih =>
    have hstep : lineScanner.step (.inString q) q rest =
        (.quoted q, some (.inString q, rest.tail)) := by simp [lineScanner, hd]
    rw [Scanner.final_of_step hstep, ih]
  | case4 q rest hesc hd ih =>
    have hstep : lineScanner.step (.inString q) q rest = (.quoted q, some (.normal, rest)) := by
      simp [lineScanner, hesc, hd]
    rw [Scanner.final_of_step hstep, ih]
  | case5 q c rest hesc hc ih =>
    have hstep : lineScanner.step (.inString q) c rest =
        (.quoted q, some (.inString q, rest)) := by simp [lineScanner, hesc, hc]
    rw [Scanner.final_of_step hstep, ih]
  | case6 c rest hclose ih =>
    have hstep : lineScanner.step .inComment c rest =
        (.blockComment, some (.normal, rest.tail)) := if_pos hclose
    rw [Scanner.final_of_step hstep, ih]
  | case7 c rest hclose ih =>
    have hstep : lineScanner.step .inComment c rest =
        (.blockComment, some (.inComment, rest)) := if_neg hclose
    rw [Scanner.final_of_step hstep, ih]
  | case8 c rest hq ih =>
    have hstep : lineScanner.step .normal c rest = (.quoted c, some (.inString c, rest)) :=
      if_pos hq
    rw [Scanner.final_of_step hstep, ih]
  | case9 c rest hq hb ih =>
    have hstep : lineScanner.step .normal c rest =
        (.blockComment, some (.inComment, rest.tail)) := by simp [lineScanner, hq, hb]
    rw [Scanner.final_of_step hstep, ih]
  | case10 c rest hq hb hl =>
    have hstep : lineScanner.step .normal c rest = (.lineComment, some (.normal, [])) := by
      simp [lineScanner, hq, hb, hl]
    rw [Scanner.final_of_step hstep, Scanner.final_nil]
  | case11 c rest hq hb hl ih =>
    have hstep : lineScanner.step .normal c rest = (.code, some (.normal, rest)) := by
      simp [lineScanner, hq, hb, hl]
    rw [Scanner.final_of_step hstep, ih]

end SqlReplay
