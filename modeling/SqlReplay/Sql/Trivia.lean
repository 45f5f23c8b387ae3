import SqlReplay.Sql.Agreement
import SqlReplay.Sql.WriteForms

/-!
# Text around a statement

White space and comments stand in front of a statement, between its tokens and behind it, and none
of them is content. To the two loops of the classifier this means that they may be cut off: in front
of any text they are lexed to the same blank lexemes (`Trivia.lex_append`), and a fold over the
lexemes passes over blank ones. Hence the gate does not see them (`gate_trivia_append`).

The other way round, content behind a semicolon cannot be hidden by what stands in front of it, as
long as the text in front ends outside strings and block comments. `endState` is the independent
scan of the fuzz target that says where a text ends. A newline is put behind the text to end a line
comment. It ends nothing else and joins to nothing, so the lexer comes to the semicolon at code
level (`lex_append_newline`).
-/

namespace SqlReplay

/-! ## Trivia -/

/-- White space, ordinary block comments, and line comments with the newline that ends them. -/
inductive Trivia : Bytes → Prop
  | nil : Trivia []
  | space {c : UInt8} {t : Bytes} (hc : isAsciiWhitespace c = true) (h : Trivia t) : Trivia (c :: t)
  | block {body t : Bytes} (hexec : body.head? ≠ some (ch '!')) (hbody : ¬ascii "*/" <:+: body)
    (h : Trivia t) : Trivia (ascii "/*" ++ (body ++ (ascii "*/" ++ t)))
  | hash {body t : Bytes} (hbody : newline ∉ body) (h : Trivia t) :
    Trivia (ch '#' :: (body ++ newline :: t))
  | dashes {body t : Bytes} (hspace : body.head?.all isAsciiWhitespace = true)
    (hbody : newline ∉ body) (h : Trivia t) : Trivia (ch '-' :: ch '-' :: (body ++ newline :: t))

theorem Trivia.oneSpace : Trivia (ascii " ") := .space (c := ch ' ') rfl .nil

/-- A lexeme that is neither content nor a delimiter. -/
def Lexeme.isBlank : Lexeme → Bool
  | .block _ | .line _ => true
  | .byte c => isAsciiWhitespace c
  | _ => false

section Lexing

variable {c : UInt8} {body : Bytes}

theorem lex_code {rest : Bytes} (h : OpensNothing c rest) :
    lex (c :: rest) = .byte c :: lex rest := by
  rw [lex_cons, lexStep, if_neg h.1, if_neg h.2.1, if_neg h.2.2]

theorem isPlain_of_isAsciiWhitespace (hc : isAsciiWhitespace c = true) : isPlain c = true :=
  isPlain_of (by decide) hc

theorem lex_plain (hc : isPlain c = true) (rest : Bytes) : lex (c :: rest) = .byte c :: lex rest :=
  lex_code (opensNothing_of_isPlain hc rest)

/-- A block comment ends at the first `*/`. -/
theorem skipBlockComment_body (hbody : ¬ascii "*/" <:+: body) (q : Bytes) :
    skipBlockComment (body ++ (ascii "*/" ++ q)) = q := by
  induction body with
  | nil => exact (skipBlockComment_cons _ _).trans (if_pos ⟨rfl, rfl⟩)
  | cons c body ih =>
    have hrest : ¬ascii "*/" <:+: body := fun h ↦ hbody (h.trans (List.suffix_cons c body).isInfix)
    rw [List.cons_append, skipBlockComment_cons, if_neg, ih hrest]
    rintro ⟨rfl, hslash⟩
    cases body with
    | nil => exact absurd (Option.some.inj hslash) (by decide)
    | cons d body =>
      obtain rfl : d = ch '/' := Option.some.inj hslash
      exact hbody ⟨[], body, rfl⟩

theorem lex_blockComment (hexec : body.head? ≠ some (ch '!')) (hbody : ¬ascii "*/" <:+: body)
    (q : Bytes) :
    lex (ascii "/*" ++ (body ++ (ascii "*/" ++ q))) =
      .block (ascii "/*" ++ (body ++ ascii "*/")) :: lex q := by
  have hskip : skipBlockComment (body ++ ascii "*/" ++ q) = q := by
    rw [List.append_assoc, skipBlockComment_body hbody]
  have hnot : ¬opensExecutable (ch '*' :: (body ++ ascii "*/") ++ q) := by
    intro hopens
    cases body with
    | nil => exact absurd (Option.some.inj (beq_iff_eq.mp hopens)) (by decide)
    | cons d body => exact hexec (beq_iff_eq.mp hopens)
  have hstep := lexStep_of_opensBlockComment (c := ch '/') (p := body ++ ascii "*/") (t := q)
    rfl hnot hskip
  have htext : ascii "/*" ++ (body ++ (ascii "*/" ++ q)) =
      ch '/' :: (ch '*' :: (body ++ ascii "*/") ++ q) := by
    rw [List.cons_append, List.append_assoc]
    rfl
  rw [htext, lex_cons, hstep]
  rfl

theorem skipLineComment_body (hbody : newline ∉ body) (q : Bytes) :
    skipLineComment (body ++ newline :: q) = newline :: q := by
  have hall : ∀ d ∈ body, decide (d ≠ newline) = true := fun d hd ↦
    decide_eq_true fun heq ↦ hbody (heq ▸ hd)
  rw [skipLineComment, List.dropWhile_append_of_pos hall]
  rfl

theorem lex_lineComment (hbody : newline ∉ body)
    (hc : ∀ q, opensLineComment c (body ++ newline :: q)) (q : Bytes) :
    lex (c :: (body ++ newline :: q)) = .line (c :: body) :: .byte newline :: lex q := by
  have hb : ¬opensBlockComment c (body ++ newline :: q) := by
    intro hopens
    have hl := hc q
    simp only [opensBlockComment, Bool.and_eq_true, beq_iff_eq] at hopens
    rw [hopens.1] at hl
    simp [opensLineComment, ch] at hl
  rw [lex_cons, lexStep_of_opensLineComment hb (hc q) (skipLineComment_body hbody q),
    lex_plain (by decide)]

end Lexing

/-- In front of any text, trivia is lexed to the same blank lexemes. -/
theorem Trivia.lex_append {t : Bytes} (h : Trivia t) :
    ∃ ls : List Lexeme, (∀ l ∈ ls, l.isBlank = true) ∧ ∀ q, lex (t ++ q) = ls ++ lex q := by
  induction h with
  | nil => exact ⟨[], fun l hl ↦ absurd hl List.not_mem_nil, fun q ↦ rfl⟩
  | @space c t hc _ ih =>
    obtain ⟨ls, hls, hlex⟩ := ih
    refine ⟨.byte c :: ls, List.forall_mem_cons.mpr ⟨hc, hls⟩, fun q ↦ ?_⟩
    rw [List.cons_append, lex_plain (isPlain_of_isAsciiWhitespace hc), hlex, List.cons_append]
  | @block body t hexec hbody _ ih =>
    obtain ⟨ls, hls, hlex⟩ := ih
    refine ⟨.block (ascii "/*" ++ (body ++ ascii "*/")) :: ls,
      List.forall_mem_cons.mpr ⟨rfl, hls⟩, fun q ↦ ?_⟩
    rw [List.append_assoc, List.append_assoc, List.append_assoc, lex_blockComment hexec hbody, hlex,
      List.cons_append]
  | @hash body t hbody _ ih =>
    obtain ⟨ls, hls, hlex⟩ := ih
    refine ⟨.line (ch '#' :: body) :: .byte newline :: ls,
      List.forall_mem_cons.mpr ⟨rfl, List.forall_mem_cons.mpr ⟨rfl, hls⟩⟩, fun q ↦ ?_⟩
    rw [List.cons_append, List.append_assoc, List.cons_append,
      lex_lineComment hbody (fun q ↦ rfl), hlex]
    rfl
  | @dashes body t hspace hbody _ ih =>
    obtain ⟨ls, hls, hlex⟩ := ih
    have hopens (q : Bytes) : opensLineComment (ch '-') (ch '-' :: body ++ newline :: q) := by
      cases body with
      | nil => rfl
      | cons d body => exact hspace
    have hbody' : newline ∉ ch '-' :: body := by
      rw [List.mem_cons, not_or]
      exact ⟨by decide, hbody⟩
    refine ⟨.line (ch '-' :: ch '-' :: body) :: .byte newline :: ls,
      List.forall_mem_cons.mpr ⟨rfl, List.forall_mem_cons.mpr ⟨rfl, hls⟩⟩, fun q ↦ ?_⟩
    have hlex' := lex_lineComment hbody' hopens (t ++ q)
    rw [hlex] at hlex'
    rw [List.cons_append, List.cons_append, List.append_assoc, List.cons_append]
    exact hlex'

/-! ## The scanners over blank lexemes -/

section Blank

variable {ls : List Lexeme}

theorem trailingLexemes_blank (h : ∀ l ∈ ls, l.isBlank = true) (a : Bool) (ls' : List Lexeme) :
    trailingLexemes a (ls ++ ls') = trailingLexemes a ls' := by
  induction ls with
  | nil => rfl
  | cons l ls ih =>
    obtain ⟨hl, hls⟩ := List.forall_mem_cons.mp h
    rw [List.cons_append]
    match l with
    | .block _ | .line _ => rw [trailingLexemes, ih hls]
    | .byte c =>
      have hc : isAsciiWhitespace c = true := hl
      rw [trailingLexemes, if_pos hc, ih hls]

theorem wordsOfLexemes_blank (h : ∀ l ∈ ls, l.isBlank = true) (depth : ℤ) (ls' : List Lexeme) :
    wordsOfLexemes depth (ls ++ ls') = wordsOfLexemes depth ls' := by
  induction ls with
  | nil => rfl
  | cons l ls ih =>
    obtain ⟨hl, hls⟩ := List.forall_mem_cons.mp h
    rw [List.cons_append]
    match l with
    | .block _ | .line _ => rw [wordsOfLexemes, ih hls]
    | .byte c =>
      have hbyte : isAsciiWhitespace c = true → c ≠ ch '(' ∧ c ≠ ch ')' ∧ isWordStart c = false :=
        forall_byte (p := fun c ↦ isAsciiWhitespace c = true →
          c ≠ ch '(' ∧ c ≠ ch ')' ∧ isWordStart c = false) (by decide) c
      obtain ⟨hopen, hclose, hword⟩ := hbyte hl
      rw [wordsOfLexemes, if_neg hopen, if_neg hclose,
        if_neg (by rw [hword]; exact Bool.false_ne_true), ih hls]

end Blank

/-- The words of a text, from a parenthesis depth on. -/
def wordsFrom (depth : ℤ) (b : Bytes) : List (Bytes × ℤ) := wordsOfLexemes depth (lex b)

theorem words_new (sql : Bytes) : (TokenScanner.new sql).words = wordsFrom 0 sql := words_eq _

theorem classify_eq (sql : Bytes) :
    classify sql =
      if trailingLexemes false (lex sql) then .write else classifyWords (wordsFrom 0 sql) := by
  rw [classify, hasTrailingStatement, hasTrailingFrom_eq, words_new]

/-- `is_use_statement` looks at the first word. -/
theorem isUseStatement_eq (sql : Bytes) :
    isUseStatement sql = decide ((wordsFrom 0 sql).head?.map Prod.fst = some (ascii "use")) := by
  have hnext : (TokenScanner.new sql).nextWord = TokenScanner.nextWordFrom 0 sql := rfl
  rw [isUseStatement, wordsFrom, nextWordFrom_eq, hnext]
  rcases TokenScanner.nextWordFrom 0 sql with _ | ⟨w, s⟩
  · rfl
  · rfl

section Words

variable {c : UInt8} {rest : Bytes} (depth : ℤ)

theorem isWordStart_spec (hc : isWordStart c = true) :
    isPlain c = true ∧ c ≠ ch '(' ∧ c ≠ ch ')' :=
  forall_byte (p := fun c ↦ isWordStart c = true → isPlain c = true ∧ c ≠ ch '(' ∧ c ≠ ch ')')
    (by decide) c hc

/-- A word ends where no byte of a word follows. -/
theorem wordsFrom_word (hc : isWordStart c = true) {w : Bytes}
    (hw : ∀ d ∈ w, isWordByte d = true) (hrest : ∀ d ∈ rest.head?, isWordByte d = false) :
    wordsFrom depth (c :: (w ++ rest)) =
      ((c :: w).map toAsciiLowercase, depth) :: wordsFrom depth rest := by
  obtain ⟨hplain, hopen, hclose⟩ := isWordStart_spec hc
  have htake : (w ++ rest).takeWhile isWordByte = w := by
    rw [List.takeWhile_append_of_pos hw]
    cases rest with
    | nil => exact List.append_nil w
    | cons d rest =>
      rw [List.takeWhile_cons_of_neg (by rw [hrest d rfl]; exact Bool.false_ne_true),
        List.append_nil]
  have hdrop : (w ++ rest).dropWhile isWordByte = rest := by
    rw [List.dropWhile_append_of_pos hw]
    cases rest with
    | nil => rfl
    | cons d rest =>
      exact List.dropWhile_cons_of_neg (by rw [hrest d rfl]; exact Bool.false_ne_true)
  rw [wordsFrom, lex_plain hplain, wordsOfLexemes, if_neg hopen, if_neg hclose, if_pos hc,
    takeWhile_lex, dropWhile_lex, htake, hdrop, wordsFrom]

end Words

section Trivia

variable {t : Bytes}

theorem Trivia.wordsFrom_append (h : Trivia t) (depth : ℤ) (q : Bytes) :
    wordsFrom depth (t ++ q) = wordsFrom depth q := by
  obtain ⟨ls, hls, hlex⟩ := h.lex_append
  rw [wordsFrom, hlex, wordsOfLexemes_blank hls, wordsFrom]

theorem Trivia.trailingLexemes_append (h : Trivia t) (a : Bool) (q : Bytes) :
    trailingLexemes a (lex (t ++ q)) = trailingLexemes a (lex q) := by
  obtain ⟨ls, hls, hlex⟩ := h.lex_append
  rw [hlex, trailingLexemes_blank hls]

theorem Trivia.classify_append (h : Trivia t) (q : Bytes) : classify (t ++ q) = classify q := by
  rw [classify_eq, classify_eq, h.trailingLexemes_append, h.wordsFrom_append]

/-- **Trivia in front of a statement does not change the gate.** -/
theorem gate_trivia_append (h : Trivia t) (q : Bytes) :
    classify (t ++ q) = classify q ∧
      (∀ allowWrites, shouldExecute (t ++ q) allowWrites = shouldExecute q allowWrites) ∧
      isUseStatement (t ++ q) = isUseStatement q := by
  refine ⟨h.classify_append q, fun allowWrites ↦ ?_, ?_⟩
  · rw [shouldExecute, shouldExecute, h.classify_append]
  · rw [isUseStatement_eq, isUseStatement_eq, h.wordsFrom_append]

end Trivia

theorem gate_trivia_append_sample :
    classify (ascii "/***/ # ;" ++ newline :: ascii "SELECT 1") = classify (ascii "SELECT 1") := by
  have hline : Trivia (ch '#' :: (ascii " ;" ++ [newline])) := .hash (by decide) .nil
  have hblock : Trivia (ascii "/*" ++ (ascii "*" ++ (ascii "*/" ++ _))) :=
    .block (by decide) (by decide) (.space (c := ch ' ') rfl hline)
  exact (gate_trivia_append hblock (ascii "SELECT 1")).1

/-! ## Where a text ends -/

/-- `EndState` of the fuzz target. -/
inductive EndState where
  | normal
  | inString
  | inBlockComment
  deriving DecidableEq, Repr

/-- The text behind the closing quote, if there is one. -/
def closeQuoted (quote : UInt8) : Bytes → Option Bytes
  | [] => none
  | c :: rest =>
    if c = backslash ∧ quote ≠ backtick then closeQuoted quote rest.tail
    else if c = quote then
      if rest.head? = some quote then closeQuoted quote rest.tail else some rest
    else closeQuoted quote rest
termination_by b => b.length
decreasing_by all_goals (simp only [List.length_cons, List.length_tail]; omega)

/-- The text behind the closing `*/`, if there is one. -/
def closeBlockComment : Bytes → Option Bytes
  | [] => none
  | c :: rest =>
    if c = ch '*' ∧ rest.head? = some (ch '/') then some rest.tail else closeBlockComment rest

theorem closeQuoted_eq_some {quote : UInt8} {b after : Bytes}
    (h : closeQuoted quote b = some after) :
    ∃ p, b = p ++ after ∧ after.head? ≠ some quote ∧
      ∀ q : Bytes, q.head? ≠ some quote → skipQuoted quote (p ++ q) = q := by
  fun_induction closeQuoted quote b with
  | case1 => cases h
  | case2 c rest hesc ih =>
    obtain ⟨p, hp, hhead, hskip⟩ := ih h
    cases rest with
    | nil => rw [List.tail_nil, closeQuoted] at h; cases h
    | cons d rest =>
      refine ⟨c :: d :: p, congrArg (c :: d :: ·) hp, hhead, fun q hq ↦ ?_⟩
      rw [List.cons_append, skipQuoted_cons, if_pos hesc]
      exact hskip q hq
  | case3 rest hdouble hesc ih =>
    obtain ⟨p, hp, hhead, hskip⟩ := ih h
    obtain ⟨rest, rfl⟩ := List.head?_eq_some_iff.mp hdouble
    refine ⟨quote :: quote :: p, congrArg (quote :: quote :: ·) hp, hhead, fun q hq ↦ ?_⟩
    rw [List.cons_append, skipQuoted_cons, if_neg hesc, if_pos rfl, List.cons_append,
      List.head?_cons, if_pos rfl]
    exact hskip q hq
  | case4 rest hdouble hesc =>
    cases h
    refine ⟨[quote], rfl, hdouble, fun q hq ↦ ?_⟩
    rw [List.singleton_append, skipQuoted_cons, if_neg hesc, if_pos rfl, if_neg hq]
  | case5 c rest hesc hc ih =>
    obtain ⟨p, hp, hhead, hskip⟩ := ih h
    refine ⟨c :: p, congrArg (c :: ·) hp, hhead, fun q hq ↦ ?_⟩
    rw [List.cons_append, skipQuoted_cons, if_neg hesc, if_neg hc]
    exact hskip q hq

theorem closeBlockComment_eq_some {b after : Bytes} (h : closeBlockComment b = some after) :
    ∃ e p, b = e :: p ++ after ∧ ∀ q, skipBlockComment (e :: p ++ q) = q := by
  fun_induction closeBlockComment b with
  | case1 => cases h
  | case2 c rest hclose =>
    obtain ⟨rest, rfl⟩ := List.head?_eq_some_iff.mp hclose.2
    cases h
    refine ⟨c, [ch '/'], rfl, fun q ↦ ?_⟩
    exact (skipBlockComment_cons _ _).trans (if_pos ⟨hclose.1, rfl⟩)
  | case3 c rest hclose ih =>
    obtain ⟨e, p, rfl, hskip⟩ := ih h
    refine ⟨c, e :: p, rfl, fun q ↦ ?_⟩
    have hopen : ¬(c = ch '*' ∧ (e :: p ++ q).head? = some (ch '/')) := hclose
    rw [List.cons_append, skipBlockComment_cons, if_neg hopen, hskip]

/-- `end_state`. The interior of an executable comment is scanned like code. -/
def endState : Bytes → EndState
  | [] => .normal
  | c :: rest =>
    if isQuote c then
      match _h : closeQuoted c rest with
      | none => .inString
      | some after => endState after
    else if opensBlockComment c rest then
      if opensExecutable rest then endState (skipVersionDigits (rest.drop 2))
      else
        match _h : closeBlockComment (rest.drop 1) with
        | none => .inBlockComment
        | some after => endState after
    else if opensLineComment c rest then endState (skipLineComment rest)
    else endState rest
termination_by b => b.length
decreasing_by
  all_goals simp only [List.length_cons, Nat.lt_succ_iff]
  · obtain ⟨p, rfl, -⟩ := closeQuoted_eq_some _h
    exact (List.suffix_append p after).length_le
  · exact ((skipVersionDigits_suffix _).trans (List.drop_suffix _ _)).length_le
  · obtain ⟨e, p, hp, -⟩ := closeBlockComment_eq_some _h
    have hsuffix : after <:+ rest.drop 1 := ⟨e :: p, hp.symm⟩
    exact (hsuffix.trans (List.drop_suffix _ _)).length_le
  · exact (skipLineComment_suffix _).length_le
  · exact le_refl _

/-- A newline behind a text is no second byte of anything that the text could open. -/
theorem head?_append_newline {d : UInt8} (hd : d ≠ newline) (rest t : Bytes) :
    (rest ++ newline :: t).head? = some d ↔ rest.head? = some d := by
  cases rest with
  | nil => exact ⟨fun h ↦ absurd (Option.some.inj h).symm hd, fun h ↦ by cases h⟩
  | cons e rest => exact Iff.rfl

theorem dropWhile_append_newline {p : UInt8 → Bool} (hp : p newline = false) (b t : Bytes) :
    (b ++ newline :: t).dropWhile p = b.dropWhile p ++ newline :: t := by
  induction b with
  | nil =>
    rw [List.nil_append, List.dropWhile_cons_of_neg (by rw [hp]; exact Bool.false_ne_true)]
    rfl
  | cons c b ih =>
    rw [List.cons_append, List.dropWhile_cons, List.dropWhile_cons, ih]
    split_ifs <;> rfl

theorem opensLineComment_concat_newline (c : UInt8) (rest t : Bytes) :
    opensLineComment c (rest ++ newline :: t) = opensLineComment c rest := by
  refine opensLineComment_append_newline (fun d hd ↦ ?_) c rest
  rw [List.head?_cons] at hd
  exact (Option.some.inj hd).symm

theorem consumed_append_right (c : UInt8) (b after t : Bytes) :
    consumed (c :: (b ++ t)) (after ++ t) = consumed (c :: b) after := by
  rw [← List.cons_append, consumed, consumed, List.length_append, List.length_append,
    Nat.add_sub_add_right, List.take_append_of_le_length (Nat.sub_le _ _)]

theorem opensBlockComment_append_newline (c : UInt8) (rest t : Bytes) :
    opensBlockComment c (rest ++ newline :: t) = opensBlockComment c rest := by
  rw [opensBlockComment, opensBlockComment, Bool.eq_iff_iff]
  simp only [Bool.and_eq_true, beq_iff_eq, head?_append_newline (show ch '*' ≠ newline by decide)]

theorem opensExecutable_append_newline {c : UInt8} {rest : Bytes} (h : opensBlockComment c rest)
    (t : Bytes) : opensExecutable (rest ++ newline :: t) = opensExecutable rest := by
  simp only [opensBlockComment, Bool.and_eq_true, beq_iff_eq] at h
  obtain ⟨rest, rfl⟩ := List.head?_eq_some_iff.mp h.2
  rw [opensExecutable, opensExecutable, List.cons_append, List.tail_cons, List.tail_cons,
    Bool.eq_iff_iff]
  simp only [beq_iff_eq, head?_append_newline (show ch '!' ≠ newline by decide)]

/-- A newline behind a text that ends outside strings and block comments is at code level, and the
lexer reads the text in front of it in the same way whatever follows. -/
theorem lex_append_newline {s : Bytes} (h : endState s = .normal) :
    ∃ ls, ∀ t, lex (s ++ newline :: t) = ls ++ lex (newline :: t) := by
  -- each lexeme ends where it ended without the newline, or the text would not end in code
  fun_induction endState s with
  | case1 => exact ⟨[], fun t ↦ rfl⟩
  | case2 => cases h
  | case3 c rest hq after hclose ih =>
    obtain ⟨ls, hls⟩ := ih h
    obtain ⟨p, rfl, hhead, hskip⟩ := closeQuoted_eq_some hclose
    have hne : c ≠ newline := by
      rintro rfl
      exact absurd hq (by decide)
    refine ⟨.quoted (c :: p) :: ls, fun t ↦ ?_⟩
    have hafter := hskip (after ++ newline :: t) (mt (head?_append_newline hne after t).mp hhead)
    rw [List.cons_append, List.append_assoc, lex_cons, lexStep_of_isQuote hq hafter, hls,
      List.cons_append]
  | case4 c rest hq hb he ih =>
    obtain ⟨ls, hls⟩ := ih h
    refine ⟨.opener (consumed (c :: rest) (skipVersionDigits (rest.drop 2))) :: ls, fun t ↦ ?_⟩
    have hlen : 2 ≤ rest.length := by
      match rest, he with
      | _ :: _ :: _, _ => exact Nat.le_add_left 2 _
    have hskip : skipVersionDigits ((rest ++ newline :: t).drop 2) =
        skipVersionDigits (rest.drop 2) ++ newline :: t := by
      rw [List.drop_append_of_le_length hlen]
      exact dropWhile_append_newline (by decide) _ t
    rw [List.cons_append, lex_cons, lexStep, opensBlockComment_append_newline, if_pos hb,
      opensExecutable_append_newline hb, if_pos he, hskip]
    dsimp only
    rw [hls, consumed_append_right, List.cons_append]
  | case5 => cases h
  | case6 c rest hq hb he after hclose ih =>
    obtain ⟨ls, hls⟩ := ih h
    obtain ⟨e, p, hp, hskip⟩ := closeBlockComment_eq_some hclose
    refine ⟨.block (consumed (c :: rest) after) :: ls, fun t ↦ ?_⟩
    have hlen : 1 ≤ rest.length := by
      have hdrop := congrArg List.length hp
      rw [List.length_drop, List.length_append, List.length_cons] at hdrop
      omega
    have hskip' : skipBlockComment ((rest ++ newline :: t).drop 1) = after ++ newline :: t := by
      rw [List.drop_append_of_le_length hlen, hp, List.append_assoc, hskip]
    rw [List.cons_append, lex_cons, lexStep, opensBlockComment_append_newline, if_pos hb,
      opensExecutable_append_newline hb, if_neg he, hskip']
    dsimp only
    rw [hls, consumed_append_right, List.cons_append]
  | case7 c rest hq hb hl ih =>
    obtain ⟨ls, hls⟩ := ih h
    refine ⟨.line (consumed (c :: rest) (skipLineComment rest)) :: ls, fun t ↦ ?_⟩
    have hskip : skipLineComment (rest ++ newline :: t) = skipLineComment rest ++ newline :: t :=
      dropWhile_append_newline (by decide) rest t
    rw [List.cons_append, lex_cons, lexStep, opensBlockComment_append_newline, if_neg hb,
      opensLineComment_concat_newline, if_pos hl, hskip, hls, consumed_append_right,
      List.cons_append]
  | case8 c rest hq hb hl ih =>
    obtain ⟨ls, hls⟩ := ih h
    refine ⟨.byte c :: ls, fun t ↦ ?_⟩
    rw [List.cons_append, lex_code ⟨?_, ?_, hq⟩, hls, List.cons_append]
    · rwa [opensBlockComment_append_newline]
    · rwa [opensLineComment_concat_newline]

/-! ## An appended statement -/

/-- The text holds a byte outside of white space, comments, semicolons and the openers of executable
comments. -/
def HasContent (r : Bytes) : Prop := ∃ l ∈ lex r, l.isTrivia = false

instance : DecidablePred HasContent := fun r ↦
  inferInstanceAs (Decidable (∃ l ∈ lex r, l.isTrivia = false))

/-- **An appended statement makes the text a write**, whatever it is appended to, unless that ends
inside a string or a block comment. -/
theorem classify_appended {s r : Bytes} (hs : endState s = .normal) (hr : HasContent r) :
    classify (s ++ newline :: ch ';' :: r) = .write ∧
      shouldExecute (s ++ newline :: ch ';' :: r) false = false := by
  obtain ⟨ls, hls⟩ := lex_append_newline hs
  have hlex : lex (s ++ newline :: ch ';' :: r) =
      (ls ++ [.byte newline]) ++ .byte (ch ';') :: lex r := by
    rw [hls, lex_plain (by decide), lex_plain (by decide), List.append_assoc, List.singleton_append]
  have hwrite := classify_of_hasSecondStatement ⟨_, _, hlex, hr⟩
  exact ⟨hwrite, shouldExecute_false hwrite⟩

/-- A line comment is open at the end of the first text. -/
theorem classify_appended_sample :
    classify (ascii "SELECT '''' /*!+1*/ -- '" ++ newline :: ch ';' :: ascii "/*;*/ x") = .write :=
  (classify_appended (by decide +kernel) (by decide +kernel)).1

end SqlReplay
