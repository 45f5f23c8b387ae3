import SqlReplay.Sql.Lexer

/-!
# Statement classification

The write gate of the replayer: a statement is sent to the target only if writes are allowed or
`classify` finds it provably read-only. `classify` runs two scanners over the text. The first,
`hasTrailingStatement`, looks for a second statement behind a semicolon; the second,
`TokenScanner`, yields the lowercased words at code level with their parenthesis depth.

The classifier only ever pulls words from the scanner, in order, so the list `TokenScanner.words`
stands for the scanner in the functions that take it by mutable reference: pulling a word is
taking the head.

## Both scanners are folds over the lexemes

`hasTrailingFrom_eq` and `words_eq` reduce the two scanners to `lex`. What they share, namely
which bytes are code, is thereby shared by construction.
-/

namespace SqlReplay

/-- `QueryClass`. -/
inductive QueryClass where
  | read
  | write
  deriving DecidableEq, Repr

/-! ## The multi-statement check -/

/-- The loop of `has_trailing_statement`. -/
def hasTrailingFrom (afterSemicolon : Bool) : Bytes → Bool
  | [] => false
  | c :: rest =>
    if opensBlockComment c rest then
      -- the interior of an executable comment is content: only its opener is skipped
      if opensExecutable rest then hasTrailingFrom afterSemicolon (skipVersionDigits (rest.drop 2))
      else hasTrailingFrom afterSemicolon (skipBlockComment (rest.drop 1))
    else if opensLineComment c rest then hasTrailingFrom afterSemicolon (skipLineComment rest)
    else if isAsciiWhitespace c then hasTrailingFrom afterSemicolon rest
    else if c = ch ';' then hasTrailingFrom true rest
    else if afterSemicolon then true
    else if isQuote c then hasTrailingFrom afterSemicolon (skipQuoted c rest)
    else hasTrailingFrom afterSemicolon rest
termination_by b => b.length
decreasing_by
  all_goals simp only [List.length_cons, Nat.lt_succ_iff]
  · exact ((skipVersionDigits_suffix _).trans (List.drop_suffix _ _)).length_le
  · exact ((skipBlockComment_suffix _).trans (List.drop_suffix _ _)).length_le
  · exact (skipLineComment_suffix _).length_le
  all_goals first | exact le_refl _ | exact (skipQuoted_suffix _ _).length_le

/-- `has_trailing_statement`. -/
def hasTrailingStatement (sql : Bytes) : Bool := hasTrailingFrom false sql

/-! ## The word scanner -/

/-- The first byte of a word. -/
def isWordStart (c : UInt8) : Bool := isAsciiAlphabetic c || c == ch '_'

/-- A later byte of a word. -/
def isWordByte (c : UInt8) : Bool := isAsciiAlphanumeric c || c == ch '_' || c == ch '$'

/-- `TokenScanner`: the unread text, the current parenthesis depth and the depth at the start of
the last word. The source counts the depth in an `i32`, which only a text with 2^31 parentheses
could overflow. -/
structure TokenScanner where
  rest : Bytes
  depth : ℤ
  wordDepth : ℤ

namespace TokenScanner

/-- `TokenScanner::new`. -/
def new (sql : Bytes) : TokenScanner := ⟨sql, 0, 0⟩

/-- The loop of `next_word`. -/
def nextWordFrom (depth : ℤ) : Bytes → Option (Bytes × TokenScanner)
  | [] => none
  | c :: rest =>
    if c = ch '(' then nextWordFrom (depth + 1) rest
    else if c = ch ')' then nextWordFrom (depth - 1) rest
    else if isQuote c then nextWordFrom depth (skipQuoted c rest)
    else if opensBlockComment c rest then
      if opensExecutable rest then nextWordFrom depth (skipVersionDigits (rest.drop 2))
      else nextWordFrom depth (skipBlockComment (rest.drop 1))
    else if opensLineComment c rest then nextWordFrom depth (skipLineComment rest)
    else if isWordStart c then
      some ((c :: rest.takeWhile isWordByte).map toAsciiLowercase,
        ⟨rest.dropWhile isWordByte, depth, depth⟩)
    else nextWordFrom depth rest
termination_by b => b.length
decreasing_by
  all_goals simp only [List.length_cons, Nat.lt_succ_iff]
  · exact le_refl _
  · exact le_refl _
  · exact (skipQuoted_suffix _ _).length_le
  · exact ((skipVersionDigits_suffix _).trans (List.drop_suffix _ _)).length_le
  · exact ((skipBlockComment_suffix _).trans (List.drop_suffix _ _)).length_le
  · exact (skipLineComment_suffix _).length_le
  · exact le_refl _

/-- `next_word`: the next word and the scanner behind it. -/
def nextWord (s : TokenScanner) : Option (Bytes × TokenScanner) := nextWordFrom s.depth s.rest

theorem nextWordFrom_length {depth : ℤ} {b w : Bytes} {s : TokenScanner}
    (h : nextWordFrom depth b = some (w, s)) : s.rest.length < b.length := by
  fun_induction nextWordFrom depth b with
  | case1 => cases h
  | case2 _ rest ih => exact (ih h).trans (Nat.lt_succ_self _)
  | case3 _ rest _ ih => exact (ih h).trans (Nat.lt_succ_self _)
  | case4 _ c rest _ _ _ ih =>
    exact (ih h).trans_le ((skipQuoted_suffix _ _).length_le.trans (Nat.le_succ _))
  | case5 _ c rest _ _ _ _ _ ih =>
    exact (ih h).trans_le (((skipVersionDigits_suffix _).trans
      (List.drop_suffix _ _)).length_le.trans (Nat.le_succ _))
  | case6 _ c rest _ _ _ _ _ ih =>
    exact (ih h).trans_le (((skipBlockComment_suffix _).trans
      (List.drop_suffix _ _)).length_le.trans (Nat.le_succ _))
  | case7 _ c rest _ _ _ _ _ ih =>
    exact (ih h).trans_le ((skipLineComment_suffix _).length_le.trans (Nat.le_succ _))
  | case8 _ c rest _ _ _ _ _ _ =>
    cases h
    exact Nat.lt_succ_of_le (List.dropWhile_suffix _).length_le
  | case9 _ c rest _ _ _ _ _ _ ih => exact (ih h).trans (Nat.lt_succ_self _)

/-- The words the scanner still yields, each with `last_word_depth`. -/
def words (s : TokenScanner) : List (Bytes × ℤ) :=
  match _h : s.nextWord with
  | none => []
  | some (w, s') => (w, s'.wordDepth) :: words s'
termination_by s.rest.length
decreasing_by exact nextWordFrom_length _h

end TokenScanner

/-! ## The classifier -/

/-- `classify_select_tail`. -/
def classifySelectTail (afterInto : Bool) : List (Bytes × ℤ) → QueryClass
  | [] => .read
  | (w, _) :: ws =>
    if (w = ascii "outfile" ∨ w = ascii "dumpfile") ∧ afterInto then .write
    else classifySelectTail (w = ascii "into") ws

/-- `classify_with_tail`. -/
def classifyWithTail : List (Bytes × ℤ) → QueryClass
  | [] => .write
  | (w, depth) :: ws =>
    if depth = 0 then
      if w = ascii "select" then classifySelectTail false ws
      else if w ∈ [ascii "insert", ascii "update", ascii "delete", ascii "replace"] then .write
      else classifyWithTail ws
    else classifyWithTail ws

/-- `classify_explain_analyze_tail`. -/
def classifyExplainAnalyzeTail : List (Bytes × ℤ) → QueryClass
  | [] => .write
  | (w, _) :: ws =>
    if w ∈ [ascii "format", ascii "tree", ascii "json"] then classifyExplainAnalyzeTail ws
    else if w ∈ [ascii "select", ascii "table"] then classifySelectTail false ws
    else if w = ascii "with" then classifyWithTail ws
    else .write

/-- The `match` of `classify` on the words of the statement. -/
def classifyWords : List (Bytes × ℤ) → QueryClass
  | [] => .write
  | (first, _) :: ws =>
    if first = ascii "select" then classifySelectTail false ws
    else if first ∈ [ascii "show", ascii "use", ascii "help"] then .read
    else if first ∈ [ascii "explain", ascii "describe", ascii "desc"] then
      match ws with
      | (w, _) :: ws' => if w = ascii "analyze" then classifyExplainAnalyzeTail ws' else .read
      | [] => .read
    else if first = ascii "set" then
      match ws with
      | (w, _) :: _ =>
        if w ∈ [ascii "global", ascii "persist", ascii "persist_only", ascii "password",
            ascii "default"] then .write
        else .read
      | [] => .read
    else if first = ascii "with" then classifyWithTail ws
    else .write

/-- `classify`. -/
def classify (sql : Bytes) : QueryClass :=
  if hasTrailingStatement sql then .write else classifyWords (TokenScanner.new sql).words

/-- `should_execute`. -/
def shouldExecute (query : Bytes) (allowWrites : Bool) : Bool :=
  allowWrites || classify query = .read

/-- `is_use_statement`. -/
def isUseStatement (sql : Bytes) : Bool :=
  (TokenScanner.new sql).nextWord.map Prod.fst = some (ascii "use")

theorem shouldExecute_false {query : Bytes} (h : classify query = .write) :
    shouldExecute query false = false := by
  simp [shouldExecute, h]

/-! ## The scanners as folds -/

/-- `hasTrailingFrom` on lexemes. -/
def trailingLexemes (afterSemicolon : Bool) : List Lexeme → Bool
  | [] => false
  | .opener _ :: ls | .block _ :: ls | .line _ :: ls => trailingLexemes afterSemicolon ls
  | .quoted _ :: ls => afterSemicolon || trailingLexemes afterSemicolon ls
  | .byte c :: ls =>
    if isAsciiWhitespace c then trailingLexemes afterSemicolon ls
    else if c = ch ';' then trailingLexemes true ls
    else afterSemicolon || trailingLexemes afterSemicolon ls

theorem not_isQuote_of_isAsciiWhitespace {c : UInt8} (h : isAsciiWhitespace c) : ¬ isQuote c := by
  simp only [isAsciiWhitespace, Bool.or_eq_true, beq_iff_eq] at h
  rcases h with (((rfl | rfl) | rfl) | rfl) | rfl <;> decide

theorem hasTrailingFrom_eq (a : Bool) (b : Bytes) :
    hasTrailingFrom a b = trailingLexemes a (lex b) := by
  fun_induction hasTrailingFrom a b with
  | case1 => rw [lex_nil, trailingLexemes]
  | case2 a c rest hb he ih => rw [ih, lex_cons, lexStep, if_pos hb, if_pos he, trailingLexemes]
  | case3 a c rest hb he ih =>
    rw [ih, lex_cons, lexStep, if_pos hb, if_neg he, trailingLexemes]
  | case4 a c rest hb hl ih =>
    rw [ih, lex_cons, lexStep, if_neg hb, if_pos hl, trailingLexemes]
  | case5 a c rest hb hl hw ih =>
    rw [ih, lex_cons, lexStep, if_neg hb, if_neg hl,
      if_neg (not_isQuote_of_isAsciiWhitespace hw), trailingLexemes, if_pos hw]
  | case6 a rest hb hl hw ih =>
    rw [ih, lex_cons, lexStep, if_neg hb, if_neg hl, if_neg (by decide), trailingLexemes,
      if_neg hw, if_pos rfl]
  | case7 c rest hb hl hw hs =>
    rw [lex_cons, lexStep, if_neg hb, if_neg hl]
    split_ifs
    · rw [trailingLexemes, Bool.true_or]
    · rw [trailingLexemes, if_neg hw, if_neg hs, Bool.true_or]
  | case8 a c rest hb hl hw hs ha hq ih =>
    rw [ih, lex_cons, lexStep, if_neg hb, if_neg hl, if_pos hq, trailingLexemes,
      Bool.eq_false_iff.mpr ha, Bool.false_or]
  | case9 a c rest hb hl hw hs ha hq ih =>
    rw [ih, lex_cons, lexStep, if_neg hb, if_neg hl, if_neg hq, trailingLexemes, if_neg hw,
      if_neg hs, Bool.eq_false_iff.mpr ha, Bool.false_or]

/-- A lexeme that continues a word. -/
def Lexeme.isWord : Lexeme → Bool
  | .byte c => isWordByte c
  | _ => false

/-- The byte of a word lexeme. -/
def Lexeme.wordByte : Lexeme → UInt8
  | .byte c => c
  | _ => 0

/-- `TokenScanner.words` on lexemes. -/
def wordsOfLexemes (depth : ℤ) : List Lexeme → List (Bytes × ℤ)
  | [] => []
  | .opener _ :: ls | .block _ :: ls | .line _ :: ls | .quoted _ :: ls => wordsOfLexemes depth ls
  | .byte c :: ls =>
    if c = ch '(' then wordsOfLexemes (depth + 1) ls
    else if c = ch ')' then wordsOfLexemes (depth - 1) ls
    else if isWordStart c then
      ((c :: (ls.takeWhile Lexeme.isWord).map Lexeme.wordByte).map toAsciiLowercase, depth) ::
        wordsOfLexemes depth (ls.dropWhile Lexeme.isWord)
    else wordsOfLexemes depth ls
termination_by ls => ls.length
decreasing_by
  all_goals simp only [List.length_cons, Nat.lt_succ_iff]
  all_goals first | exact le_refl _ | exact (List.dropWhile_suffix _).length_le

/-- A word byte opens nothing, so the lexer takes it as it is. -/
theorem lexStep_of_isWordByte {c : UInt8} (h : isWordByte c) (rest : Bytes) :
    lexStep c rest = (.byte c, rest) := by
  have hslash : (c == ch '/') = false := by
    rw [beq_eq_false_iff_ne]; rintro rfl; revert h; decide
  have hhash : (c == ch '#') = false := by
    rw [beq_eq_false_iff_ne]; rintro rfl; revert h; decide
  have hdash : (c == ch '-') = false := by
    rw [beq_eq_false_iff_ne]; rintro rfl; revert h; decide
  have hquote : ¬ isQuote c := by
    simp only [isQuote, Bool.or_eq_true, beq_iff_eq]
    rintro ((rfl | rfl) | rfl) <;> revert h <;> decide
  rw [lexStep, if_neg (by simp [opensBlockComment, hslash]),
    if_neg (by simp [opensLineComment, hhash, hdash]), if_neg hquote]

/-- The lexer gives a word lexeme only for a word byte. -/
theorem isWordByte_of_lexStep {c : UInt8} {rest : Bytes} (h : (lexStep c rest).1.isWord) :
    isWordByte c := by
  revert h
  rw [lexStep]
  split_ifs <;> simp [Lexeme.isWord]

theorem takeWhile_lex (b : Bytes) :
    ((lex b).takeWhile Lexeme.isWord).map Lexeme.wordByte = b.takeWhile isWordByte := by
  induction b with
  | nil => simp
  | cons c rest ih =>
    rw [lex_cons]
    by_cases h : isWordByte c
    · rw [lexStep_of_isWordByte h, List.takeWhile_cons_of_pos (a := Lexeme.byte c) h,
        List.takeWhile_cons_of_pos h, List.map_cons, ih, Lexeme.wordByte]
    · rw [List.takeWhile_cons_of_neg h,
        List.takeWhile_cons_of_neg (fun hl ↦ h (isWordByte_of_lexStep hl)), List.map_nil]

theorem dropWhile_lex (b : Bytes) :
    (lex b).dropWhile Lexeme.isWord = lex (b.dropWhile isWordByte) := by
  induction b with
  | nil => simp
  | cons c rest ih =>
    by_cases h : isWordByte c
    · rw [lex_cons, lexStep_of_isWordByte h, List.dropWhile_cons_of_pos (a := Lexeme.byte c) h,
        List.dropWhile_cons_of_pos h, ih]
    · rw [List.dropWhile_cons_of_neg h, lex_cons,
        List.dropWhile_cons_of_neg (fun hl ↦ h (isWordByte_of_lexStep hl))]

namespace TokenScanner

end TokenScanner

/-- Pulling one word is taking the head of the fold. -/
theorem nextWordFrom_eq (depth : ℤ) (b : Bytes) :
    wordsOfLexemes depth (lex b) =
      match TokenScanner.nextWordFrom depth b with
      | none => []
      | some (w, s) => (w, s.wordDepth) :: wordsOfLexemes s.depth (lex s.rest) := by
  fun_induction TokenScanner.nextWordFrom depth b with
  | case1 => rw [lex_nil, wordsOfLexemes]
  | case2 depth rest ih =>
    rw [lex_cons, lexStep, if_neg (by simp [opensBlockComment, ch]),
      if_neg (by simp [opensLineComment, ch]), if_neg (by decide), wordsOfLexemes, if_pos rfl]
    exact ih
  | case3 depth rest _ ih =>
    rw [lex_cons, lexStep, if_neg (by simp [opensBlockComment, ch]),
      if_neg (by simp [opensLineComment, ch]), if_neg (by decide), wordsOfLexemes,
      if_neg (by decide), if_pos rfl]
    exact ih
  | case4 depth c rest _ _ hq ih =>
    rw [lex_cons, lexStep, if_neg (fun h ↦ opensBlockComment_not_isQuote h hq),
      if_neg (fun h ↦ opensLineComment_not_isQuote h hq), if_pos hq, wordsOfLexemes]
    exact ih
  | case5 depth c rest _ _ _ hb he ih =>
    rw [lex_cons, lexStep, if_pos hb, if_pos he, wordsOfLexemes]
    exact ih
  | case6 depth c rest _ _ _ hb he ih =>
    rw [lex_cons, lexStep, if_pos hb, if_neg he, wordsOfLexemes]
    exact ih
  | case7 depth c rest _ _ _ hb hl ih =>
    rw [lex_cons, lexStep, if_neg hb, if_pos hl, wordsOfLexemes]
    exact ih
  | case8 depth c rest ho hc hq hb hl hw =>
    rw [lex_cons, lexStep, if_neg hb, if_neg hl, if_neg hq, wordsOfLexemes, if_neg ho, if_neg hc,
      if_pos hw, takeWhile_lex, dropWhile_lex]
  | case9 depth c rest ho hc hq hb hl hw ih =>
    rw [lex_cons, lexStep, if_neg hb, if_neg hl, if_neg hq, wordsOfLexemes, if_neg ho, if_neg hc,
      if_neg hw]
    exact ih

theorem words_eq (s : TokenScanner) : s.words = wordsOfLexemes s.depth (lex s.rest) := by
  fun_induction TokenScanner.words s with
  | case1 s h =>
    rw [nextWordFrom_eq, show TokenScanner.nextWordFrom s.depth s.rest = none from h]
  | case2 s w s' h ih =>
    rw [ih, nextWordFrom_eq s.depth,
      show TokenScanner.nextWordFrom s.depth s.rest = some (w, s') from h]

end SqlReplay
