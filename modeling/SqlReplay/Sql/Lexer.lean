import SqlReplay.Bytes
import Mathlib.Data.List.Infix
import Mathlib.Data.List.TakeWhile

/-!
# The lexical structure of SQL text

The statement classifier scans SQL text twice, with two loops that skip the same things: quoted
strings and identifiers, block comments, line comments and the openers of MySQL's executable
comments. This file holds the skipping functions of the source and one reference lexer, `lex`,
that cuts a text into *lexemes*. Both loops are shown elsewhere to be folds over `lex`, so a fact
about what they skip is proved once, here.

## Stability

A lexeme ends where its own bytes say so, up to one byte of lookahead: a closing quote must not be
doubled, and two dashes open a comment only before white space. Each `_split` lemma records that
for one skipping function: what was skipped is skipped again in front of any other continuation
that respects the lookahead.
-/

namespace SqlReplay

/-! ## Skipping -/

/-- The quote characters. -/
def isQuote (c : UInt8) : Bool := c == singleQuote || c == doubleQuote || c == backtick

/-- `skip_quoted`, from just behind the opening quote: the text behind the closing quote, or
nothing when the quote is not closed. -/
def skipQuoted (quote : UInt8) : Bytes → Bytes
  | [] => []
  | [_] => []
  | c :: d :: rest =>
    if c = backslash ∧ quote ≠ backtick then skipQuoted quote rest
    else if c = quote then
      if d = quote then skipQuoted quote rest else d :: rest
    else skipQuoted quote (d :: rest)

/-- The loop to the closing `*/` of a block comment; an unclosed comment runs to the end. -/
def skipBlockComment : Bytes → Bytes
  | [] => []
  | [_] => []
  | c :: d :: rest => if c = ch '*' ∧ d = ch '/' then rest else skipBlockComment (d :: rest)

/-- The loop to the end of a line comment: the newline itself stays. -/
def skipLineComment (b : Bytes) : Bytes := b.dropWhile (· ≠ newline)

/-- The version digits of an executable comment. -/
def skipVersionDigits (b : Bytes) : Bytes := b.dropWhile isAsciiDigit

/-- `/*` at the head. -/
def opensBlockComment (c : UInt8) (rest : Bytes) : Bool :=
  c == ch '/' && rest.head? == some (ch '*')

/-- `/*!` at the head, `rest` starting at the `*`. -/
def opensExecutable (rest : Bytes) : Bool := rest.tail.head? == some (ch '!')

/-- `#`, or two dashes before white space or the end of the text. -/
def opensLineComment (c : UInt8) (rest : Bytes) : Bool :=
  c == ch '#' ||
    (c == ch '-' && rest.head? == some (ch '-') && rest.tail.head?.all isAsciiWhitespace)

theorem skipQuoted_suffix (quote : UInt8) (b : Bytes) : skipQuoted quote b <:+ b := by
  fun_induction skipQuoted quote b with
  | case1 => exact List.suffix_refl _
  | case2 c => exact List.nil_suffix
  | case3 c d rest _ ih => exact ih.trans ⟨[c, d], rfl⟩
  | case4 rest _ ih => exact ih.trans ⟨[quote, quote], rfl⟩
  | case5 d rest _ _ => exact ⟨[quote], rfl⟩
  | case6 c d rest _ _ ih => exact ih.trans ⟨[c], rfl⟩

theorem skipBlockComment_suffix (b : Bytes) : skipBlockComment b <:+ b := by
  fun_induction skipBlockComment b with
  | case1 => exact List.suffix_refl _
  | case2 c => exact List.nil_suffix
  | case3 c d rest _ => exact ⟨[c, d], rfl⟩
  | case4 c d rest _ ih => exact ih.trans ⟨[c], rfl⟩

theorem skipLineComment_suffix (b : Bytes) : skipLineComment b <:+ b := List.dropWhile_suffix _

theorem skipVersionDigits_suffix (b : Bytes) : skipVersionDigits b <:+ b :=
  List.dropWhile_suffix _

/-! ## Stability of the skipping functions -/

theorem skipQuoted_length (quote : UInt8) {b : Bytes} (h : b ≠ []) :
    (skipQuoted quote b).length < b.length := by
  fun_induction skipQuoted quote b with
  | case1 => exact absurd rfl h
  | case2 c => exact Nat.zero_lt_one
  | case3 c d rest _ _ =>
    exact Nat.lt_succ_of_le ((skipQuoted_suffix quote rest).length_le.trans (Nat.le_succ _))
  | case4 rest _ _ =>
    exact Nat.lt_succ_of_le ((skipQuoted_suffix quote rest).length_le.trans (Nat.le_succ _))
  | case5 d rest _ _ => exact Nat.lt_succ_self _
  | case6 c d rest _ _ ih => exact (ih (List.cons_ne_nil _ _)).trans (Nat.lt_succ_self _)

/-- A closed quote is skipped again in front of any text that does not double its closing quote. -/
theorem skipQuoted_split {quote : UInt8} {b : Bytes} (h : skipQuoted quote b ≠ []) :
    ∃ p, b = p ++ skipQuoted quote b ∧ (skipQuoted quote b).head? ≠ some quote ∧
      ∀ t : Bytes, t.head? ≠ some quote → skipQuoted quote (p ++ t) = t := by
  fun_induction skipQuoted quote b with
  | case1 => exact absurd rfl h
  | case2 c => exact absurd rfl h
  | case3 c d rest hesc ih =>
    obtain ⟨p, hp, hhead, hstable⟩ := ih h
    refine ⟨c :: d :: p, congrArg (c :: d :: ·) hp, hhead, fun t ht ↦ ?_⟩
    rw [List.cons_append, List.cons_append, skipQuoted, if_pos hesc, hstable t ht]
  | case4 rest hesc ih =>
    obtain ⟨p, hp, hhead, hstable⟩ := ih h
    refine ⟨quote :: quote :: p, congrArg (quote :: quote :: ·) hp, hhead, fun t ht ↦ ?_⟩
    rw [List.cons_append, List.cons_append, skipQuoted, if_neg hesc, if_pos rfl, if_pos rfl,
      hstable t ht]
  | case5 d rest hd hesc =>
    refine ⟨[quote], rfl, by simpa using hd, fun t ht ↦ ?_⟩
    cases t with
    | nil => rfl
    | cons e t =>
      have he : e ≠ quote := by simpa using ht
      rw [List.singleton_append, skipQuoted, if_neg hesc, if_pos rfl, if_neg he]
  | case6 c d rest hesc hc ih =>
    obtain ⟨p, hp, hhead, hstable⟩ := ih h
    -- the part skipped behind `c` is not empty: a quote is never closed by nothing
    obtain ⟨e, p, rfl⟩ : ∃ e p', p = e :: p' := by
      refine List.exists_cons_of_ne_nil fun hnil ↦ ?_
      rw [hnil, List.nil_append] at hp
      have hlt := skipQuoted_length quote (List.cons_ne_nil d rest)
      rw [← hp] at hlt
      exact lt_irrefl _ hlt
    refine ⟨c :: e :: p, congrArg (c :: ·) hp, hhead, fun t ht ↦ ?_⟩
    rw [List.cons_append, List.cons_append, skipQuoted, if_neg hesc, if_neg hc]
    exact hstable t ht

/-- A closed block comment is skipped again in front of any text. -/
theorem skipBlockComment_split {b : Bytes} (h : skipBlockComment b ≠ []) :
    ∃ e p, b = e :: p ++ skipBlockComment b ∧ ∀ t, skipBlockComment (e :: p ++ t) = t := by
  fun_induction skipBlockComment b with
  | case1 => exact absurd rfl h
  | case2 c => exact absurd rfl h
  | case3 c d rest hclose =>
    refine ⟨c, [d], rfl, fun t ↦ ?_⟩
    rw [List.cons_append, List.cons_append, skipBlockComment, if_pos hclose, List.nil_append]
  | case4 c d rest hclose ih =>
    obtain ⟨e, p, hp, hstable⟩ := ih h
    obtain ⟨rfl, -⟩ : d = e ∧ rest = p ++ skipBlockComment (d :: rest) := by
      rw [List.cons_append] at hp
      exact List.cons.inj hp
    refine ⟨c, d :: p, congrArg (c :: ·) hp, fun t ↦ ?_⟩
    rw [List.cons_append, List.cons_append, skipBlockComment, if_neg hclose]
    exact hstable t

/-- A line comment is skipped again in front of any text that starts with the newline. -/
theorem skipLineComment_append {b t : Bytes} (h : t.head? = some newline) :
    skipLineComment (b.takeWhile (· ≠ newline) ++ t) = t := by
  have hall : ∀ x ∈ b.takeWhile (· ≠ newline), decide (x ≠ newline) = true :=
    fun x hx ↦ List.mem_takeWhile_imp (p := fun x ↦ decide (x ≠ newline)) hx
  rw [skipLineComment, List.dropWhile_append_of_pos hall]
  cases t with
  | nil => cases h
  | cons c t =>
    obtain rfl : c = newline := by simpa using h
    rfl

theorem skipLineComment_head {b : Bytes} (h : skipLineComment b ≠ []) :
    (skipLineComment b).head? = some newline := by
  rw [skipLineComment] at h ⊢
  have hneg := List.head_dropWhile_not (p := fun x ↦ decide (x ≠ newline)) (l := b) h
  rw [List.head?_eq_some_head h]
  simpa using hneg

/-! ## Lexemes -/

/-- A piece of SQL text, as the scanners of the classifier see it. -/
inductive Lexeme where
  /-- The opener of an executable comment with its version digits. -/
  | opener (text : Bytes)
  /-- An ordinary block comment, delimiters included. -/
  | block (text : Bytes)
  /-- A line comment, without its newline. -/
  | line (text : Bytes)
  /-- A quoted string or identifier, quotes included. -/
  | quoted (text : Bytes)
  /-- A byte at code level. -/
  | byte (c : UInt8)
  deriving DecidableEq, Repr

namespace Lexeme

/-- The bytes of a lexeme. -/
def text : Lexeme → Bytes
  | opener t | block t | line t | quoted t => t
  | byte c => [c]

end Lexeme

/-- The lexeme at the head of a text and what is left behind it. -/
def lexStep (c : UInt8) (rest : Bytes) : Lexeme × Bytes :=
  if opensBlockComment c rest then
    if opensExecutable rest then
      let after := skipVersionDigits (rest.drop 2)
      (.opener (consumed (c :: rest) after), after)
    else
      let after := skipBlockComment (rest.drop 1)
      (.block (consumed (c :: rest) after), after)
  else if opensLineComment c rest then
    (.line (consumed (c :: rest) (skipLineComment rest)), skipLineComment rest)
  else if isQuote c then
    (.quoted (consumed (c :: rest) (skipQuoted c rest)), skipQuoted c rest)
  else (.byte c, rest)

theorem lexStep_suffix (c : UInt8) (rest : Bytes) : (lexStep c rest).2 <:+ rest := by
  rw [lexStep]
  split_ifs
  · exact (skipVersionDigits_suffix _).trans (List.drop_suffix _ _)
  · exact (skipBlockComment_suffix _).trans (List.drop_suffix _ _)
  · exact skipLineComment_suffix _
  · exact skipQuoted_suffix _ _
  · exact List.suffix_refl _

theorem lexStep_length (c : UInt8) (rest : Bytes) :
    (lexStep c rest).2.length < (c :: rest).length :=
  Nat.lt_succ_of_le (lexStep_suffix c rest).length_le

theorem lexStep_eq_byte {c d : UInt8} {rest : Bytes} (h : (lexStep c rest).1 = .byte d) :
    lexStep c rest = (.byte c, rest) := by
  revert h
  rw [lexStep]
  split_ifs <;> intro h <;> first | rfl | cases h

/-- The reference lexer. -/
def lex : Bytes → List Lexeme
  | [] => []
  | c :: rest => (lexStep c rest).1 :: lex (lexStep c rest).2
termination_by b => b.length
decreasing_by exact lexStep_length c rest

@[simp] theorem lex_nil : lex [] = [] := by rw [lex]

theorem lex_cons (c : UInt8) (rest : Bytes) :
    lex (c :: rest) = (lexStep c rest).1 :: lex (lexStep c rest).2 := by rw [lex]

theorem lexStep_text (c : UInt8) (rest : Bytes) :
    (lexStep c rest).1.text ++ (lexStep c rest).2 = c :: rest := by
  have hsuffix : (lexStep c rest).2 <:+ c :: rest :=
    (lexStep_suffix c rest).trans (List.suffix_cons c rest)
  revert hsuffix
  rw [lexStep]
  split_ifs <;> intro hsuffix
  · exact consumed_append hsuffix
  · exact consumed_append hsuffix
  · exact consumed_append hsuffix
  · exact consumed_append hsuffix
  · rfl

/-- **The lexer loses nothing**: the lexemes concatenate to the text. -/
theorem flatMap_text_lex (b : Bytes) : (lex b).flatMap Lexeme.text = b := by
  fun_induction lex b with
  | case1 => rfl
  | case2 c rest ih => rw [List.flatMap_cons, ih, lexStep_text]

/-! ## Replacing what follows a lexeme -/

/-- `t` may stand where `after` stood behind a lexeme: both are empty, or both start with the same
byte, or a comment delimiter at the head of `after` was turned into a blank. -/
structure Continues (after t : Bytes) : Prop where
  nil : after = [] → t = []
  head : ∀ x, after.head? = some x →
    t.head? = some x ∨ (t.head? = some (ch ' ') ∧ (x = ch '/' ∨ x = ch '*'))

theorem Continues.head?_ne {after t : Bytes} (h : Continues after t) {x : UInt8}
    (hx : after.head? ≠ some x) (hblank : x ≠ ch ' ') : t.head? ≠ some x := by
  intro ht
  cases hafter : after.head? with
  | none =>
    rw [h.nil (List.head?_eq_none_iff.mp hafter)] at ht
    cases ht
  | some y =>
    rcases h.head y hafter with h' | ⟨h', -⟩ <;> rw [h'] at ht
    · exact hx (hafter.trans ht)
    · exact hblank (Option.some.inj ht).symm

theorem lexStep_of_opensBlockComment {c : UInt8} {p : Bytes} {t : Bytes}
    (hb : opensBlockComment c (ch '*' :: p ++ t)) (he : ¬ opensExecutable (ch '*' :: p ++ t))
    (hskip : skipBlockComment (p ++ t) = t) :
    lexStep c (ch '*' :: p ++ t) = (.block (c :: ch '*' :: p), t) := by
  rw [lexStep, if_pos hb, if_neg he]
  simp only [List.cons_append, List.drop_succ_cons, List.drop_zero, hskip]
  rw [← List.cons_append, ← List.cons_append, consumed_append_left]

theorem lexStep_of_opensLineComment {c : UInt8} {p : Bytes} {t : Bytes}
    (hb : ¬ opensBlockComment c (p ++ t)) (hl : opensLineComment c (p ++ t))
    (hskip : skipLineComment (p ++ t) = t) : lexStep c (p ++ t) = (.line (c :: p), t) := by
  rw [lexStep, if_neg hb, if_pos hl, hskip, ← List.cons_append, consumed_append_left]

theorem opensLineComment_not_isQuote {c : UInt8} {rest : Bytes} (h : opensLineComment c rest) :
    ¬ isQuote c := by
  simp only [opensLineComment, Bool.or_eq_true, Bool.and_eq_true, beq_iff_eq] at h
  rcases h with rfl | ⟨⟨rfl, -⟩, -⟩ <;> decide

theorem opensBlockComment_not_isQuote {c : UInt8} {rest : Bytes} (h : opensBlockComment c rest) :
    ¬ isQuote c := by
  simp only [opensBlockComment, Bool.and_eq_true, beq_iff_eq] at h
  rw [h.1]
  decide

theorem lexStep_of_isQuote {c : UInt8} {p : Bytes} {t : Bytes} (hc : isQuote c)
    (hskip : skipQuoted c (p ++ t) = t) : lexStep c (p ++ t) = (.quoted (c :: p), t) := by
  have hb : ¬ opensBlockComment c (p ++ t) := fun h ↦ opensBlockComment_not_isQuote h hc
  have hl : ¬ opensLineComment c (p ++ t) := fun h ↦ opensLineComment_not_isQuote h hc
  rw [lexStep, if_neg hb, if_neg hl, if_pos hc, hskip, ← List.cons_append, consumed_append_left]

/-- Replacing the first byte behind a line comment's second byte does not undo the comment. -/
theorem opensLineComment_append {c : UInt8} {p after t : Bytes} (hp : p ≠ [] ∨ c = ch '#')
    (hhead : t.head? = after.head?) (h : opensLineComment c (p ++ after)) :
    opensLineComment c (p ++ t) := by
  match p, hp with
  | [], hp =>
    obtain rfl : c = ch '#' := hp.resolve_left (fun h ↦ h rfl)
    simp [opensLineComment]
  | [d], _ => simpa [opensLineComment, hhead] using h
  | d :: e :: p, _ => simpa [opensLineComment] using h

theorem lex_block_append {c : UInt8} {r t : Bytes} (hb : opensBlockComment c (ch '*' :: r))
    (he : ¬ opensExecutable (ch '*' :: r)) (hnil : skipBlockComment r ≠ []) :
    lex (consumed (c :: ch '*' :: r) (skipBlockComment r) ++ t) =
      .block (consumed (c :: ch '*' :: r) (skipBlockComment r)) :: lex t := by
  obtain ⟨e, p, hp, hstable⟩ := skipBlockComment_split hnil
  generalize skipBlockComment r = after at hp
  subst hp
  have hstep : lexStep c (ch '*' :: (e :: p) ++ t) = (.block (c :: ch '*' :: e :: p), t) :=
    lexStep_of_opensBlockComment hb he (hstable t)
  rw [show consumed (c :: ch '*' :: (e :: p ++ after)) after = c :: ch '*' :: e :: p from
      consumed_append_left (c :: ch '*' :: e :: p) after,
    show c :: ch '*' :: e :: p ++ t = c :: (ch '*' :: (e :: p) ++ t) from rfl, lex_cons, hstep]

theorem lex_line_append {c : UInt8} {rest t : Bytes} (hb : ¬ opensBlockComment c rest)
    (hl : opensLineComment c rest) (hnil : skipLineComment rest ≠ [])
    (ht : t.head? = some newline) :
    lex (consumed (c :: rest) (skipLineComment rest) ++ t) =
      .line (consumed (c :: rest) (skipLineComment rest)) :: lex t := by
  have hhead := skipLineComment_head hnil
  have hstable := skipLineComment_append (b := rest) ht
  have hp : rest = rest.takeWhile (· ≠ newline) ++ skipLineComment rest :=
    List.takeWhile_append_dropWhile.symm
  generalize hafter : skipLineComment rest = after at *
  generalize hq : rest.takeWhile (· ≠ newline) = p at *
  have hpne : p ≠ [] ∨ c = ch '#' := by
    refine or_iff_not_imp_right.mpr fun hc hnil' ↦ ?_
    rw [hnil', List.nil_append] at hp
    simp only [opensLineComment, Bool.or_eq_true, beq_iff_eq, hc, false_or, Bool.and_eq_true, hp,
      hhead] at hl
    exact absurd hl.1.2 (by decide)
  subst hp
  have hstep : lexStep c (p ++ t) = (.line (c :: p), t) :=
    lexStep_of_opensLineComment
      (fun hb' ↦ by
        simp only [opensLineComment, opensBlockComment, Bool.or_eq_true, Bool.and_eq_true,
          beq_iff_eq] at hl hb'
        rw [hb'.1] at hl
        rcases hl with hl | hl
        · exact absurd hl (by decide)
        · exact absurd hl.1.1 (by decide))
      (opensLineComment_append hpne (ht.trans hhead.symm) hl) hstable
  rw [show consumed (c :: (p ++ after)) after = c :: p from consumed_append_left (c :: p) after,
    List.cons_append, lex_cons, hstep]

theorem lex_quoted_append {c : UInt8} {rest t : Bytes} (hc : isQuote c)
    (hnil : skipQuoted c rest ≠ []) (ht : t.head? ≠ some c) :
    lex (consumed (c :: rest) (skipQuoted c rest) ++ t) =
      .quoted (consumed (c :: rest) (skipQuoted c rest)) :: lex t := by
  obtain ⟨p, hp, -, hstable⟩ := skipQuoted_split hnil
  generalize skipQuoted c rest = after at hp
  subst hp
  rw [show consumed (c :: (p ++ after)) after = c :: p from consumed_append_left (c :: p) after,
    List.cons_append, lex_cons, lexStep_of_isQuote hc (hstable t ht)]

/-- **Stability of the lexer.** A comment or a quoted string is lexed again in front of any text
that may stand where its continuation stood. -/
theorem lex_text_append {c : UInt8} {rest t : Bytes}
    (hopener : ∀ x, (lexStep c rest).1 ≠ .opener x) (hbyte : ∀ x, (lexStep c rest).1 ≠ .byte x)
    (h : Continues (lexStep c rest).2 t) :
    lex ((lexStep c rest).1.text ++ t) = (lexStep c rest).1 :: lex t := by
  by_cases hnil : (lexStep c rest).2 = []
  · have htext := lexStep_text c rest
    rw [hnil, List.append_nil] at htext
    rw [h.nil hnil, List.append_nil, htext, lex_cons, hnil]
  · revert hopener hbyte h hnil
    rw [lexStep]
    split_ifs with hb he hl hq
    · exact fun hopener ↦ absurd rfl (hopener _)
    · intro _ _ _ hnil
      obtain ⟨r, rfl⟩ : ∃ r, rest = ch '*' :: r := by
        simp only [opensBlockComment, Bool.and_eq_true, beq_iff_eq] at hb
        exact List.head?_eq_some_iff.mp hb.2
      exact lex_block_append hb he hnil
    · intro _ _ h hnil
      have hhead := skipLineComment_head hnil
      rcases h.head _ hhead with ht | ⟨-, hx⟩
      · exact lex_line_append hb hl hnil ht
      · exact absurd hx (by decide)
    · intro _ _ h hnil
      obtain ⟨-, -, hhead, -⟩ := skipQuoted_split hnil
      refine lex_quoted_append hq hnil (h.head?_ne hhead ?_)
      rintro rfl
      revert hq
      decide
    · exact fun _ hbyte ↦ absurd rfl (hbyte _)

/-- A code-level byte stays one in front of any text that may stand where the rest of its text
stood, unless two dashes come to stand before a blank. -/
theorem lexStep_byte_append {c : UInt8} {rest t : Bytes} (hstep : lexStep c rest = (.byte c, rest))
    (h : Continues rest t)
    (hdash : c = ch '-' → rest.head? = some (ch '-') → t.tail.head? = rest.tail.head?) :
    lexStep c t = (.byte c, t) := by
  have hb : ¬ opensBlockComment c rest := by
    intro hb
    rw [lexStep, if_pos hb] at hstep
    split_ifs at hstep <;> cases congrArg Prod.fst hstep
  have hl : ¬ opensLineComment c rest := by
    intro hl
    rw [lexStep, if_neg hb, if_pos hl] at hstep
    cases congrArg Prod.fst hstep
  have hq : ¬ isQuote c := by
    intro hq
    rw [lexStep, if_neg hb, if_neg hl, if_pos hq] at hstep
    cases congrArg Prod.fst hstep
  simp only [opensBlockComment, opensLineComment, Bool.or_eq_true, Bool.and_eq_true, beq_iff_eq,
    not_or, not_and] at hb hl
  have hb' : ¬ opensBlockComment c t := by
    simp only [opensBlockComment, Bool.and_eq_true, beq_iff_eq, not_and]
    exact fun hc ↦ h.head?_ne (hb hc) (by decide)
  have hl' : ¬ opensLineComment c t := by
    simp only [opensLineComment, Bool.or_eq_true, Bool.and_eq_true, beq_iff_eq, not_or, not_and]
    refine ⟨hl.1, fun ⟨hc, ht⟩ ↦ ?_⟩
    have hrest : rest.head? = some (ch '-') := by
      by_contra hne
      exact h.head?_ne hne (by decide) ht
    rw [hdash hc hrest]
    exact hl.2 ⟨hc, hrest⟩
  rw [lexStep, if_neg hb', if_neg hl', if_neg hq]

end SqlReplay
