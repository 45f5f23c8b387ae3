import SqlReplay.Sql.Classify

/-!
# Statements that look nondeterministic

Whether the result of a statement may differ between two runs over the same data is guessed from the
words of its fingerprint: a volatile function that is called, a volatile keyword, a server variable,
or a `LIMIT` where nothing is ordered. Quoted text has no words.
-/

namespace SqlReplay

/-- Functions that are volatile as calls only. -/
def volatileFuncs : List Bytes :=
  [ascii "now", ascii "sysdate", ascii "curdate", ascii "curtime", ascii "rand", ascii "uuid",
    ascii "uuid_short", ascii "last_insert_id", ascii "connection_id", ascii "found_rows",
    ascii "row_count", ascii "benchmark", ascii "get_lock", ascii "release_lock",
    ascii "is_free_lock", ascii "is_used_lock", ascii "version", ascii "sleep"]

/-- Keywords that are volatile without parentheses too. -/
def volatileWords : List Bytes :=
  [ascii "current_timestamp", ascii "current_date", ascii "current_time", ascii "localtime",
    ascii "localtimestamp", ascii "utc_timestamp", ascii "utc_date", ascii "utc_time",
    ascii "information_schema", ascii "performance_schema"]

/-- What follows an opening parenthesis, when that is the next thing behind white space. -/
def arguments? (rest : Bytes) : Option Bytes :=
  match rest.dropWhile isAsciiWhitespace with
  | [] => none
  | c :: args => if c = ch '(' then some args else none

/-- A word is volatile in front of this text. Without an argument `unix_timestamp` is the time. -/
def isVolatile (word rest : Bytes) : Bool :=
  volatileWords.contains word ||
    (arguments? rest).any fun args ↦
      volatileFuncs.contains word ||
        (word == ascii "unix_timestamp" &&
          (args.dropWhile isAsciiWhitespace).head? == some (ch ')'))

/-- The loop of `is_nondeterministic`. -/
def nondeterministicFrom (hasLimit hasOrder : Bool) : Bytes → Bool
  | [] => hasLimit && !hasOrder
  | c :: rest =>
    if isQuote c then nondeterministicFrom hasLimit hasOrder (skipQuoted c rest)
    else if c == ch '@' && rest.head? == some (ch '@') then true
    else if isAsciiAlphabetic c || c == ch '_' then
      let word := c :: rest.takeWhile isWordByte
      let after := rest.dropWhile isWordByte
      if isVolatile word after then true
      else
        nondeterministicFrom (hasLimit || word == ascii "limit") (hasOrder || word == ascii "order")
          after
    else nondeterministicFrom hasLimit hasOrder rest
  termination_by b => b.length
  decreasing_by
    · exact Nat.lt_succ_of_le (skipQuoted_suffix c rest).length_le
    · exact Nat.lt_succ_of_le (List.dropWhile_suffix _).length_le
    · exact Nat.lt_succ_self _

/-- `is_nondeterministic`. -/
def isNondeterministic (fingerprint : Bytes) : Bool := nondeterministicFrom false false fingerprint

/-! ## Words -/

/-- A word of a fingerprint with the text behind it, or the two characters in front of a server
variable. -/
inductive CodeWord where
  | word (w after : Bytes)
  | serverVar
  deriving DecidableEq, Repr

/-- The words outside quotes. -/
def codeWords : Bytes → List CodeWord
  | [] => []
  | c :: rest =>
    if isQuote c then codeWords (skipQuoted c rest)
    else if c == ch '@' && rest.head? == some (ch '@') then .serverVar :: codeWords rest
    else if isAsciiAlphabetic c || c == ch '_' then
      .word (c :: rest.takeWhile isWordByte) (rest.dropWhile isWordByte) ::
        codeWords (rest.dropWhile isWordByte)
    else codeWords rest
  termination_by b => b.length
  decreasing_by
    · exact Nat.lt_succ_of_le (skipQuoted_suffix c rest).length_le
    · exact Nat.lt_succ_self _
    · exact Nat.lt_succ_of_le (List.dropWhile_suffix _).length_le
    · exact Nat.lt_succ_self _

namespace CodeWord

/-- The word alone makes the statement nondeterministic. -/
def volatile : CodeWord → Bool
  | word w after => isVolatile w after
  | serverVar => true

def isWord (text : Bytes) : CodeWord → Bool
  | word w _ => w == text
  | serverVar => false

end CodeWord

theorem nondeterministicFrom_eq (hasLimit hasOrder : Bool) (b : Bytes) :
    nondeterministicFrom hasLimit hasOrder b =
      ((codeWords b).any CodeWord.volatile ||
        ((hasLimit || (codeWords b).any (CodeWord.isWord (ascii "limit"))) &&
          !(hasOrder || (codeWords b).any (CodeWord.isWord (ascii "order"))))) := by
  fun_induction nondeterministicFrom hasLimit hasOrder b with
  | case1 hasLimit hasOrder => simp [codeWords]
  | case2 hasLimit hasOrder c rest hquote ih =>
    rw [codeWords, if_pos hquote, ih]
  | case3 hasLimit hasOrder c rest hquote hvariable =>
    rw [codeWords, if_neg hquote, if_pos hvariable]
    rfl
  | case4 hasLimit hasOrder c rest hquote hvariable hword word after hvolatile =>
    rw [codeWords, if_neg hquote, if_neg hvariable, if_pos hword, List.any_cons,
      CodeWord.volatile, hvolatile]
    rfl
  | case5 hasLimit hasOrder c rest hquote hvariable hword word after hvolatile ih =>
    rw [codeWords, if_neg hquote, if_neg hvariable, if_pos hword, ih, List.any_cons, List.any_cons,
      List.any_cons, CodeWord.volatile, Bool.eq_false_iff.mpr hvolatile, Bool.false_or,
      CodeWord.isWord, CodeWord.isWord, Bool.or_assoc, Bool.or_assoc]
  | case6 hasLimit hasOrder c rest hquote hvariable hword ih =>
    rw [codeWords, if_neg hquote, if_neg hvariable, if_neg hword, ih]

/-- What makes a fingerprint nondeterministic is a word of it, or that it has the one word and not
the other. -/
theorem isNondeterministic_iff (fingerprint : Bytes) :
    isNondeterministic fingerprint = true ↔
      (∃ w ∈ codeWords fingerprint, w.volatile = true) ∨
        (∃ w ∈ codeWords fingerprint, w.isWord (ascii "limit") = true) ∧
          ∀ w ∈ codeWords fingerprint, w.isWord (ascii "order") = false := by
  rw [isNondeterministic, nondeterministicFrom_eq]
  simp

end SqlReplay
