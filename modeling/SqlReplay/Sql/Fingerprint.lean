import SqlReplay.Slowlog.Text

/-!
# Fingerprints

`fingerprint` normalizes a statement: literals become `?`, comments and white space shrink, letters
are lowered outside of string literals, and lists of placeholders collapse. Statements with one
fingerprint form one class, and `FingerprintRegistry` numbers the classes in the order they are
first seen.

The source scans with an index into the bytes of the text; here a scanner works on the bytes still
to come, with the output so far beside it. The two collapsing passes look one byte back, at the text
and not at their output, so they carry that byte.
-/

namespace SqlReplay

namespace Fingerprint

/-! ## The output -/

def utf8Len (first : UInt8) : ℕ :=
  if 0xC0 ≤ first ∧ first ≤ 0xDF then 2
  else if 0xE0 ≤ first ∧ first ≤ 0xEF then 3
  else if 0xF0 ≤ first ∧ first ≤ 0xF7 then 4
  else 1

/-- `push_lossy_lower`, at the byte `c`. -/
def pushLossyLower (out : Bytes) (c : UInt8) (rest : Bytes) : Bytes × Bytes :=
  if c < 0x80 then (out ++ [toAsciiLowercase c], rest)
  else
    let chunk := (c :: rest).take (utf8Len c)
    if isUtf8 chunk then (out ++ chunk, (c :: rest).drop (utf8Len c))
    else (out ++ replacementCharacter, rest)

def isIdentByte (c : UInt8) : Bool := isAsciiAlphanumeric c || c == ch '_' || c == ch '$'

/-- `ends_with_ident_char`: the last byte of a character that is not ASCII is not ASCII either. -/
def endsWithIdentChar (out : Bytes) : Bool :=
  out.getLast?.any fun c ↦ isIdentByte c || 0x80 ≤ c

def pushSpace (out : Bytes) : Bytes :=
  if out ≠ [] ∧ out.getLast? ≠ some (ch ' ') then out ++ [ch ' '] else out

/-- The characters a sign behind them is unary. -/
def signContext : Bytes := ascii "(,=<>+-*/%"

def foldSign (out : Bytes) : Bytes :=
  let t := trimEnd out
  if t.getLast? ≠ some (ch '-') ∧ t.getLast? ≠ some (ch '+') then out
  else if (trimEnd t.dropLast).getLast?.all (· ∈ signContext) then t.dropLast
  else out

/-! ## Literals -/

/-- `skip_string`, from just behind the opening quote. -/
def skipString (quote : UInt8) : Bytes → Bytes
  | [] => []
  | [_] => []
  | c :: d :: rest =>
    if c = backslash then skipString quote rest
    else if c = quote then
      if d = quote then skipString quote rest else d :: rest
    else skipString quote (d :: rest)

def isAsciiHexdigit (c : UInt8) : Bool :=
  isAsciiDigit c || (ch 'a' ≤ c && c ≤ ch 'f') || (ch 'A' ≤ c && c ≤ ch 'F')

/-- The exponent of a number, if there is one: an `e`, a sign or none, and a digit at least. -/
def skipExponent : Bytes → Bytes
  | [] => []
  | c :: rest =>
    let digits :=
      if rest.head? = some (ch '+') ∨ rest.head? = some (ch '-') then rest.tail else rest
    if c ||| 0x20 = ch 'e' ∧ digits.head?.any isAsciiDigit then digits.dropWhile isAsciiDigit
    else c :: rest

/-- `skip_number`. -/
def skipNumber (b : Bytes) : Bytes :=
  if b.head? = some (ch '0') ∧ b.tail.head?.any (fun c ↦ c ||| 0x20 = ch 'x') then
    (b.drop 2).dropWhile isAsciiHexdigit
  else
    let b := b.dropWhile isAsciiDigit
    let b := if b.head? = some (ch '.') then b.tail.dropWhile isAsciiDigit else b
    skipExponent b

theorem pushLossyLower_length (out : Bytes) (c : UInt8) (rest : Bytes) :
    (pushLossyLower out c rest).2.length ≤ rest.length := by
  have hpos : 0 < utf8Len c := by
    rw [utf8Len]
    split_ifs <;> decide
  rw [pushLossyLower]
  split_ifs
  · exact le_rfl
  · dsimp only
    split_ifs
    · rw [List.length_drop, List.length_cons]
      omega
    · exact le_rfl

theorem skipString_length (quote : UInt8) (b : Bytes) :
    (skipString quote b).length ≤ b.length := by
  fun_induction skipString quote b with
  | case1 => exact le_rfl
  | case2 c => exact Nat.zero_le _
  | case3 d rest ih =>
    rw [List.length_cons, List.length_cons]
    omega
  | case4 rest _ ih =>
    rw [List.length_cons, List.length_cons]
    omega
  | case5 d rest _ _ => exact Nat.le_succ _
  | case6 c d rest _ _ ih => exact ih.trans (Nat.le_succ _)

theorem skipExponent_length (b : Bytes) : (skipExponent b).length ≤ b.length := by
  match b with
  | [] => exact le_rfl
  | c :: rest =>
    have hle : (if rest.head? = some (ch '+') ∨ rest.head? = some (ch '-') then rest.tail
        else rest).length ≤ rest.length := by
      split_ifs
      · exact (List.tail_suffix rest).length_le
      · exact le_rfl
    rw [skipExponent]
    generalize (if rest.head? = some (ch '+') ∨ rest.head? = some (ch '-') then rest.tail
      else rest) = digits at hle ⊢
    split_ifs
    · exact (List.dropWhile_suffix _).length_le.trans (hle.trans (Nat.le_succ _))
    · exact le_rfl

/-- A number takes at least its first character. -/
theorem skipNumber_length {c : UInt8} (hc : isAsciiDigit c = true ∨ c = ch '.') (rest : Bytes) :
    (skipNumber (c :: rest)).length ≤ rest.length := by
  rw [skipNumber]
  split_ifs
  · exact ((List.dropWhile_suffix _).trans (List.drop_suffix 1 rest)).length_le
  · apply (skipExponent_length _).trans
    by_cases hdigit : isAsciiDigit c = true
    · rw [List.dropWhile_cons_of_pos hdigit]
      have hle : (rest.dropWhile isAsciiDigit).length ≤ rest.length :=
        (List.dropWhile_suffix _).length_le
      split_ifs
      · exact (((List.dropWhile_suffix _).trans (List.tail_suffix _)).length_le).trans hle
      · exact hle
    · obtain rfl := hc.resolve_left hdigit
      rw [List.dropWhile_cons_of_neg hdigit, if_pos (List.head?_cons)]
      exact (List.dropWhile_suffix _).length_le

/-- The loop over a quoted identifier, from just behind its opening backtick. -/
def copyIdent (out : Bytes) : Bytes → Bytes × Bytes
  | [] => (out, [])
  | c :: rest =>
    if c = backtick then
      if rest.head? = some backtick then copyIdent (out ++ [backtick, backtick]) rest.tail
      else (out ++ [backtick], rest)
    else copyIdent (pushLossyLower out c rest).1 (pushLossyLower out c rest).2
termination_by b => b.length
decreasing_by
  all_goals simp only [List.length_cons, Nat.lt_succ_iff]
  · exact (List.tail_suffix rest).length_le
  · exact pushLossyLower_length out c rest

theorem copyIdent_length (out b : Bytes) : (copyIdent out b).2.length ≤ b.length := by
  fun_induction copyIdent out b with
  | case1 => exact le_rfl
  | case2 out rest _ ih =>
    exact ih.trans ((List.tail_suffix rest).length_le.trans (Nat.le_succ _))
  | case3 out rest _ => exact Nat.le_succ _
  | case4 out c rest _ ih =>
    exact ih.trans ((pushLossyLower_length out c rest).trans (Nat.le_succ _))

/-- The loop of `fingerprint`. -/
def normalize (out : Bytes) : Bytes → Bytes
  | [] => out
  | c :: rest =>
    if c = singleQuote ∨ c = doubleQuote then normalize (out ++ [ch '?']) (skipString c rest)
    else if c = backtick then
      normalize (copyIdent (out ++ [backtick]) rest).1 (copyIdent (out ++ [backtick]) rest).2
    else if opensBlockComment c rest then
      normalize (pushSpace out) (skipBlockComment (rest.drop 1))
    else if opensLineComment c rest then normalize out (skipLineComment rest)
    else if isAsciiWhitespace c then normalize (pushSpace out) rest
    else if _hnumber : isAsciiDigit c = true ∨ (c = ch '.' ∧ rest.head?.any isAsciiDigit) then
      -- a digit inside an identifier, such as `t1`, is a part of it
      if endsWithIdentChar out then normalize (out ++ [toAsciiLowercase c]) rest
      else normalize (foldSign out ++ [ch '?']) (skipNumber (c :: rest))
    else normalize (pushLossyLower out c rest).1 (pushLossyLower out c rest).2
termination_by b => b.length
decreasing_by
  all_goals simp only [List.length_cons, Nat.lt_succ_iff]
  · exact skipString_length c rest
  · exact copyIdent_length _ rest
  · exact ((skipBlockComment_suffix _).trans (List.drop_suffix 1 rest)).length_le
  · exact (skipLineComment_suffix rest).length_le
  · exact le_rfl
  · exact le_rfl
  · exact skipNumber_length (_hnumber.imp_right And.left) rest
  · exact pushLossyLower_length out c rest

/-! ## Lists of placeholders -/

/-- `word_at`, behind the byte `before`. -/
def wordAt (word : Bytes) (before : Option UInt8) (b : Bytes) : Bool :=
  word.isPrefixOf b && before.all (fun c ↦ !isIdentByte c && c != backtick) &&
    (b.drop word.length).head?.all fun c ↦ !isIdentByte c && c != backtick

/-- `placeholder_group_end`, from just behind the opening parenthesis. -/
def placeholderGroupEnd (placeholders : ℕ) : Bytes → Option Bytes
  | [] => none
  | c :: rest =>
    if c = ch '?' then placeholderGroupEnd (placeholders + 1) rest
    else if c = ch ',' ∨ c = ch ' ' then placeholderGroupEnd placeholders rest
    else if c = ch ')' ∧ 0 < placeholders then some rest
    else none

theorem placeholderGroupEnd_length {placeholders : ℕ} {b after : Bytes}
    (h : placeholderGroupEnd placeholders b = some after) : after.length < b.length := by
  fun_induction placeholderGroupEnd placeholders b with
  | case1 => cases h
  | case2 _ _ ih => exact (ih h).trans (Nat.lt_succ_self _)
  | case3 _ _ _ _ _ ih => exact (ih h).trans (Nat.lt_succ_self _)
  | case4 _ _ _ _ _ _ =>
    obtain rfl := Option.some.inj h
    exact Nat.lt_succ_self _
  | case5 => cases h

/-- The bytes behind the group a text opens with, blanks in front of it. -/
def groupEnd (b : Bytes) : Option Bytes :=
  match b.dropWhile (· = ch ' ') with
  | [] => none
  | c :: rest => if c = ch '(' then placeholderGroupEnd 0 rest else none

theorem groupEnd_length {b after : Bytes} (h : groupEnd b = some after) :
    after.length < b.length := by
  have hle : (b.dropWhile (· = ch ' ')).length ≤ b.length := (List.dropWhile_suffix _).length_le
  rw [groupEnd] at h
  split at h
  · cases h
  · next c rest heq =>
    split_ifs at h
    rw [heq, List.length_cons] at hle
    have := placeholderGroupEnd_length h
    omega

/-- `collapse_in_lists`, behind the byte `before`. -/
def collapseInFrom (before : Option UInt8) : Bytes → Bytes
  | [] => []
  | c :: rest =>
    match _h : if wordAt (ascii "in") before (c :: rest) then groupEnd (rest.drop 1) else none with
    | some after => ascii "in (?+)" ++ collapseInFrom (some (ch ')')) after
    | none => c :: collapseInFrom (some c) rest
termination_by b => b.length
decreasing_by
  · rw [List.length_cons]
    split_ifs at _h
    have := groupEnd_length _h
    rw [List.length_drop] at this
    omega
  · exact Nat.lt_succ_self _

def collapseInLists (s : Bytes) : Bytes := collapseInFrom none s

/-- The bytes behind the comma between two tuples, if there is one. -/
def skipComma (b : Bytes) : Bytes :=
  let m := b.dropWhile (· = ch ' ')
  if m.head? = some (ch ',') then m.tail else m

theorem skipComma_length (b : Bytes) : (skipComma b).length ≤ b.length := by
  rw [skipComma]
  split_ifs
  · exact ((List.tail_suffix _).trans (List.dropWhile_suffix _)).length_le
  · exact (List.dropWhile_suffix _).length_le

/-- The loop over the tuples behind `values`: how many there are, and the bytes behind the last. -/
def skipTuples (tuples : ℕ) (k : Bytes) : ℕ × Bytes :=
  match _h : groupEnd (if 0 < tuples then skipComma k else k) with
  | some after => skipTuples (tuples + 1) after
  | none => (tuples, k)
termination_by k.length
decreasing_by
  apply (groupEnd_length _h).trans_le
  split_ifs
  · exact skipComma_length k
  · exact le_rfl

theorem skipTuples_length (tuples : ℕ) (k : Bytes) : (skipTuples tuples k).2.length ≤ k.length := by
  fun_induction skipTuples tuples k with
  | case1 tuples k after h ih =>
    have hle : (if 0 < tuples then skipComma k else k).length ≤ k.length := by
      split_ifs
      · exact skipComma_length k
      · exact le_rfl
    exact ih.trans ((groupEnd_length h).le.trans hle)
  | case2 => exact le_rfl

/-- `collapse_values_lists`, behind the byte `before`. -/
def collapseValuesFrom (before : Option UInt8) : Bytes → Bytes
  | [] => []
  | c :: rest =>
    if wordAt (ascii "values") before (c :: rest) ∧ 0 < (skipTuples 0 (rest.drop 5)).1 then
      ascii "values (?+)" ++
        collapseValuesFrom (some (ch ')')) (skipTuples 0 (rest.drop 5)).2
    else c :: collapseValuesFrom (some c) rest
termination_by b => b.length
decreasing_by
  · rw [List.length_cons, Nat.lt_succ_iff]
    exact (skipTuples_length 0 _).trans (List.drop_suffix 5 rest).length_le
  · exact Nat.lt_succ_self _

def collapseValuesLists (s : Bytes) : Bytes := collapseValuesFrom none s

theorem trimEnd_length (s : Bytes) : (trimEnd s).length ≤ s.length := by
  have hprefix : ((chars s).reverse.dropWhile isWhitespace).reverse <+: chars s := by
    rw [← List.reverse_suffix, List.reverse_reverse]
    exact List.dropWhile_suffix _
  obtain ⟨after, hafter⟩ := hprefix
  have hflatten := congrArg List.length (chars_flatten s)
  rw [← hafter, List.flatten_append, List.length_append] at hflatten
  exact (Nat.le_add_right _ _).trans hflatten.le

/-- The loop that takes the terminators of a statement off. -/
def dropSemicolons (s : Bytes) : Bytes :=
  if s.getLast? = some (ch ';') then dropSemicolons (trimEnd s.dropLast) else s
termination_by s.length
decreasing_by
  apply (trimEnd_length _).trans_lt
  rw [List.length_dropLast]
  have hne : s ≠ [] := by
    rintro rfl
    simp at *
  exact Nat.sub_lt (List.length_pos_of_ne_nil hne) Nat.one_pos

end Fingerprint

open Fingerprint in
/-- `fingerprint`. -/
def fingerprint (query : Bytes) : Bytes :=
  collapseValuesLists (collapseInLists (dropSemicolons (trim (normalize [] query))))

end SqlReplay
