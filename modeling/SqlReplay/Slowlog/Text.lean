import SqlReplay.Data.Float64
import SqlReplay.Proto.Text

/-!
# Text in a slow log

The parser of slow logs works on `&str`: it trims, splits at white space, looks for substrings and
parses numbers, with the meaning the Rust standard library gives these words. White space is a
property of characters, so everything that tests for it goes through `chars`. A character that is
not ASCII never contains an ASCII byte, and an ASCII byte is a character wherever it stands
(`chars_append_cons`); this is what makes tests for single ASCII bytes agree with tests for
characters.
-/

namespace SqlReplay

/-! ## White space -/

/-- `str::trim_start`. -/
def trimStart (s : Bytes) : Bytes := ((chars s).dropWhile isWhitespace).flatten

/-- `str::trim_end`. -/
def trimEnd (s : Bytes) : Bytes := ((chars s).reverse.dropWhile isWhitespace).reverse.flatten

/-- The loop of `str::split_whitespace`, behind the characters `word`. -/
def splitChars : Bytes → List Bytes → List Bytes
  | word, [] => if word = [] then [] else [word]
  | word, c :: cs =>
    if isWhitespace c then
      if word = [] then splitChars [] cs else word :: splitChars [] cs
    else splitChars (word ++ c) cs

/-- `str::split_whitespace`. -/
def splitWhitespace (s : Bytes) : List Bytes := splitChars [] (chars s)

/-- `str::trim_end_matches`, of an ASCII character. -/
def trimEndMatches (c : UInt8) (s : Bytes) : Bytes := (s.reverse.dropWhile (· = c)).reverse

/-! ## Substrings -/

/-- `str::find`: where the pattern begins for the first time. -/
def find (pat : Bytes) : Bytes → Option ℕ
  | [] => if pat = [] then some 0 else none
  | c :: s => if pat.isPrefixOf (c :: s) then some 0 else (find pat s).map (· + 1)

/-- `str::rfind`: where the pattern begins for the last time. -/
def rfind (pat : Bytes) : Bytes → Option ℕ
  | [] => if pat = [] then some 0 else none
  | c :: s =>
    match rfind pat s with
    | some i => some (i + 1)
    | none => if pat.isPrefixOf (c :: s) then some 0 else none

/-- `str::contains`. -/
def contains (pat s : Bytes) : Bool := (find pat s).isSome

/-! ## Numbers -/

def digitsValue (digits : Bytes) : ℕ := digits.foldl (fun n c ↦ 10 * n + (c.toNat - 48)) 0

/-- `str::parse` of an unsigned integer type with the largest value `max`. -/
def parseUnsigned (max : ℕ) (s : Bytes) : Option ℕ :=
  let digits := if s.head? = some (ch '+') then s.tail else s
  if digits ≠ [] ∧ digits.all isAsciiDigit ∧ digitsValue digits ≤ max then some (digitsValue digits)
  else none

/-- The exponent of a decimal number, if it has one. -/
def parseExponent : Bytes → Option ℤ
  | [] => some 0
  | c :: s =>
    let digits := if s.head? = some (ch '-') ∨ s.head? = some (ch '+') then s.tail else s
    if toAsciiLowercase c = ch 'e' ∧ digits ≠ [] ∧ digits.all isAsciiDigit then
      some (if s.head? = some (ch '-') then -(digitsValue digits : ℤ) else digitsValue digits)
    else none

/-- A decimal number without its sign: its digits, and the power of ten they are to be multiplied
with. -/
def parseDecimal (s : Bytes) : Option (Bytes × ℤ) :=
  let whole := s.takeWhile isAsciiDigit
  let s := s.dropWhile isAsciiDigit
  let fraction := if s.head? = some (ch '.') then s.tail.takeWhile isAsciiDigit else []
  let s := if s.head? = some (ch '.') then s.tail.dropWhile isAsciiDigit else s
  if whole = [] ∧ fraction = [] then none
  else (parseExponent s).map fun e ↦ (whole ++ fraction, e - fraction.length)

/-- `str::parse` of an `f64`: the nearest double, also of `inf`, `infinity` and `nan`. -/
def parseF64 (s : Bytes) : Option F64 :=
  let negative := s.head? == some (ch '-')
  let s := if s.head? = some (ch '-') ∨ s.head? = some (ch '+') then s.tail else s
  match parseDecimal s with
  | some (digits, e) =>
    some (.nearest negative (digitsValue digits * 10 ^ e.toNat) (10 ^ (-e).toNat))
  | none =>
    let word := s.map toAsciiLowercase
    if word = ascii "inf" ∨ word = ascii "infinity" then
      some (.ofMagnitude negative F64.infinityBits)
    else if word = ascii "nan" then some (.ofMagnitude negative (F64.infinityBits + 2 ^ 51))
    else none

example : parseF64 (ascii "1693569601.250000") = some (.nearest false 6774278405 4) := by
  decide

/-! ## Characters -/

theorem utf8Tail_append (owed : ℕ) (low high : UInt8) (s : Bytes) {c : UInt8} (t : Bytes)
    (hc : c < low) (hc' : c < 0x80) :
    utf8Tail owed low high (s ++ c :: t) = utf8Tail owed low high s := by
  induction owed generalizing low high s with
  | zero => rfl
  | succ owed ih =>
    cases s with
    | nil =>
      rw [List.nil_append, utf8Tail, utf8Tail, if_neg fun h ↦ ?_]
      exact absurd h.1 (UInt8.not_le.mpr hc)
    | cons d s =>
      rw [List.cons_append, utf8Tail, utf8Tail, ih 0x80 0xBF s hc']

theorem utf8Tail_le (owed : ℕ) (low high : UInt8) (s : Bytes) :
    (utf8Tail owed low high s).2 ≤ s.length := by
  induction owed generalizing low high s with
  | zero => exact Nat.zero_le _
  | succ owed ih =>
    cases s with
    | nil => exact le_rfl
    | cons d s =>
      rw [utf8Tail]
      split_ifs
      · exact Nat.succ_le_succ (ih _ _ s)
      · exact Nat.zero_le _

/-- An ASCII byte does not belong to the character before it. -/
theorem utf8Char_append (b : UInt8) (s : Bytes) {c : UInt8} (t : Bytes) (hc : c < 0x80) :
    utf8Char b (s ++ c :: t) = utf8Char b s := by
  have hA0 : c < 0xA0 := by
    rw [UInt8.lt_iff_toNat_lt] at hc ⊢
    exact hc.trans (by decide)
  have h90 : c < 0x90 := by
    rw [UInt8.lt_iff_toNat_lt] at hc ⊢
    exact hc.trans (by decide)
  unfold utf8Char
  split_ifs <;> first | rfl | exact utf8Tail_append _ _ _ _ _ ‹_› hc

theorem utf8Char_le (b : UInt8) (s : Bytes) : (utf8Char b s).2 ≤ s.length := by
  unfold utf8Char
  split_ifs <;> first | exact Nat.zero_le _ | exact utf8Tail_le _ _ _ _

theorem chars_nil : chars [] = [] := by
  rw [chars, utf8Chars, List.map_nil]

theorem trim_nil : trim [] = [] := by
  rw [trim, chars_nil]
  rfl

/-- An ASCII byte is a character by itself. -/
theorem utf8Chars_append_cons (s : Bytes) {c : UInt8} (hc : c < 0x80) (t : Bytes) :
    utf8Chars (s ++ c :: t) = utf8Chars s ++ (true, [c]) :: utf8Chars t := by
  fun_induction utf8Chars s with
  | case1 => rw [List.nil_append, utf8Chars_cons_ascii hc]; rfl
  | case2 b rest ih =>
    have hle := utf8Char_le b rest
    rw [List.cons_append, utf8Chars, utf8Char_append b rest t hc, List.take_append_of_le_length hle,
      List.drop_append_of_le_length hle, ih]
    rfl

theorem chars_append_cons (s : Bytes) {c : UInt8} (hc : c < 0x80) (t : Bytes) :
    chars (s ++ c :: t) = chars s ++ [c] :: chars t := by
  unfold chars
  rw [utf8Chars_append_cons s hc, List.map_append]
  rfl

/-- A text stays valid with an ASCII byte behind it. -/
theorem isUtf8_concat {s : Bytes} (h : isUtf8 s = true) {c : UInt8} (hc : c < 0x80) :
    isUtf8 (s ++ [c]) = true := by
  rw [isUtf8, utf8Chars_append_cons s hc, List.all_append]
  exact Bool.and_eq_true_iff.mpr ⟨h, by rw [utf8Chars]; rfl⟩

theorem chars_flatten (s : Bytes) : (chars s).flatten = s := by
  unfold chars
  fun_induction utf8Chars s with
  | case1 => rfl
  | case2 b rest ih =>
    rw [List.map_cons, List.flatten_cons, ih, List.cons_append, List.take_append_drop]

theorem chars_cons {c : UInt8} (hc : c < 0x80) (t : Bytes) : chars (c :: t) = [c] :: chars t := by
  have h := chars_append_cons [] hc t
  rwa [List.nil_append, chars_nil, List.nil_append] at h

/-- Every character has a byte. -/
theorem ne_nil_of_mem_chars {s c : Bytes} (h : c ∈ chars s) : c ≠ [] := by
  unfold chars at h
  fun_induction utf8Chars s with
  | case1 => cases h
  | case2 b rest ih =>
    rcases List.mem_cons.mp h with rfl | h
    · exact List.cons_ne_nil _ _
    · exact ih h

theorem chars_of_ascii {s : Bytes} (h : ∀ c ∈ s, c < 0x80) : chars s = s.map ([·]) := by
  induction s with
  | nil => exact chars_nil
  | cons c s ih =>
    rw [chars_cons (h c List.mem_cons_self), ih fun d hd ↦ h d (List.mem_cons_of_mem c hd)]
    rfl

/-- A character that is complete is cut off before any text. -/
theorem utf8Tail_of_complete {owed : ℕ} {low high : UInt8} {s : Bytes}
    (h : (utf8Tail owed low high s).1 = true) (t : Bytes) :
    utf8Tail owed low high (s ++ t) = utf8Tail owed low high s ∧
      (utf8Tail owed low high s).2 = owed ∧
      utf8Tail owed low high (s.take owed) = utf8Tail owed low high s := by
  induction owed generalizing low high s with
  | zero => exact ⟨rfl, rfl, rfl⟩
  | succ owed ih =>
    cases s with
    | nil => cases h
    | cons c s =>
      rw [utf8Tail] at h
      split_ifs at h with hc
      obtain ⟨happend, hcount, htake⟩ := ih h
      rw [List.cons_append, List.take_succ_cons, utf8Tail, utf8Tail, utf8Tail, if_pos hc, if_pos hc,
        if_pos hc, happend, htake]
      exact ⟨rfl, congrArg (· + 1) hcount, rfl⟩

theorem utf8Char_of_complete {b : UInt8} {s : Bytes} (h : (utf8Char b s).1 = true) (t : Bytes) :
    utf8Char b (s ++ t) = utf8Char b s ∧
      utf8Char b (s.take (utf8Char b s).2) = utf8Char b s := by
  unfold utf8Char at h ⊢
  split_ifs at h ⊢
  · exact ⟨rfl, rfl⟩
  all_goals
    obtain ⟨happend, hcount, htake⟩ := utf8Tail_of_complete h t
    rw [hcount]
    exact ⟨happend, htake⟩

/-- Behind a valid text the characters start anew. -/
theorem utf8Chars_append {s : Bytes} (h : isUtf8 s = true) (t : Bytes) :
    utf8Chars (s ++ t) = utf8Chars s ++ utf8Chars t := by
  rw [isUtf8] at h
  fun_induction utf8Chars s with
  | case1 => rfl
  | case2 b rest ih =>
    rw [List.all_cons, Bool.and_eq_true] at h
    have hle := utf8Char_le b rest
    rw [List.cons_append, utf8Chars, (utf8Char_of_complete h.1 t).1,
      List.take_append_of_le_length hle, List.drop_append_of_le_length hle, ih h.2,
      List.cons_append]

theorem chars_append {s : Bytes} (h : isUtf8 s = true) (t : Bytes) :
    chars (s ++ t) = chars s ++ chars t := by
  rw [chars, utf8Chars_append h, List.map_append, chars, chars]

theorem isUtf8_append {s t : Bytes} (h : isUtf8 s = true) (h' : isUtf8 t = true) :
    isUtf8 (s ++ t) = true := by
  rw [isUtf8, utf8Chars_append h, List.all_append, Bool.and_eq_true]
  exact ⟨h, h'⟩

/-- A valid text is cut by an ASCII byte into valid texts. -/
theorem isUtf8_append_cons_iff {s t : Bytes} {c : UInt8} (hc : c < 0x80) :
    isUtf8 (s ++ c :: t) = true ↔ isUtf8 s = true ∧ isUtf8 t = true := by
  rw [isUtf8, utf8Chars_append_cons s hc, List.all_append, List.all_cons, Bool.true_and,
    Bool.and_eq_true, isUtf8, isUtf8]

/-- The character a valid text starts with, and what is left. -/
theorem isUtf8_cons {b : UInt8} {s : Bytes} (h : isUtf8 (b :: s) = true) :
    (utf8Char b s).1 = true ∧
      chars (b :: s.take (utf8Char b s).2) = [b :: s.take (utf8Char b s).2] ∧
      isUtf8 (b :: s.take (utf8Char b s).2) = true ∧ isUtf8 (s.drop (utf8Char b s).2) = true := by
  rw [isUtf8, utf8Chars, List.all_cons, Bool.and_eq_true] at h
  have hone : utf8Chars (b :: s.take (utf8Char b s).2) =
      [(true, b :: s.take (utf8Char b s).2)] := by
    rw [utf8Chars, (utf8Char_of_complete h.1 []).2, List.take_take, min_self, h.1,
      List.drop_eq_nil_of_le (List.length_take_le _ _), utf8Chars]
  refine ⟨h.1, ?_, ?_, h.2⟩
  · rw [chars, hone]
    rfl
  · rw [isUtf8, hone]
    rfl

/-! ## Trimming -/

/-- No character of a text is white space. -/
def NoSpace (s : Bytes) : Prop := ∀ c ∈ chars s, isWhitespace c = false

theorem dropWhile_eq_self {p : Bytes → Bool} {cs : List Bytes}
    (h : ∀ c ∈ cs.head?, p c = false) : cs.dropWhile p = cs := by
  cases cs with
  | nil => rfl
  | cons c cs => rw [List.dropWhile_cons_of_neg (by rw [h c rfl]; exact Bool.false_ne_true)]

theorem trimStart_eq_self {s : Bytes} (h : ∀ c ∈ (chars s).head?, isWhitespace c = false) :
    trimStart s = s := by
  rw [trimStart, dropWhile_eq_self h, chars_flatten]

theorem trimEnd_eq_self {s : Bytes} (h : ∀ c ∈ (chars s).getLast?, isWhitespace c = false) :
    trimEnd s = s := by
  rw [trimEnd, dropWhile_eq_self (by rwa [List.head?_reverse]), List.reverse_reverse, chars_flatten]

theorem trim_eq_self {s : Bytes} (hhead : ∀ c ∈ (chars s).head?, isWhitespace c = false)
    (hlast : ∀ c ∈ (chars s).getLast?, isWhitespace c = false) : trim s = s := by
  rw [trim, dropWhile_eq_self hhead, dropWhile_eq_self (by rwa [List.head?_reverse]),
    List.reverse_reverse, chars_flatten]

theorem NoSpace.trim {s : Bytes} (h : NoSpace s) : trim s = s :=
  trim_eq_self (fun c hc ↦ h c (List.mem_of_head? hc)) fun c hc ↦ h c (List.mem_of_getLast? hc)

theorem flatten_dropWhile_suffix (p : Bytes → Bool) (cs : List Bytes) :
    (cs.dropWhile p).flatten <:+ cs.flatten :=
  ⟨(cs.takeWhile p).flatten, by rw [← List.flatten_append, List.takeWhile_append_dropWhile]⟩

/-- Characters that were dropped would be missing from the text. -/
theorem head_of_trimStart {s : Bytes} (h : trimStart s = s) :
    ∀ c ∈ (chars s).head?, isWhitespace c = false := by
  intro c hc
  have hne := ne_nil_of_mem_chars (List.mem_of_head? hc)
  have hflatten := chars_flatten s
  rw [trimStart] at h
  cases hcs : chars s with
  | nil =>
    rw [hcs] at hc
    cases hc
  | cons d cs =>
    rw [hcs] at hc h hflatten
    obtain rfl : d = c := Option.some.inj hc
    by_contra hspace
    rw [List.dropWhile_cons_of_pos (Bool.not_eq_false _ ▸ hspace)] at h
    have hle := (flatten_dropWhile_suffix isWhitespace cs).length_le
    rw [h, ← hflatten, List.flatten_cons, List.length_append] at hle
    exact hne (List.length_eq_zero_iff.mp (by omega))

/-- A text that is not changed by trimming does not begin with white space. -/
theorem head_of_trim {s : Bytes} (h : trim s = s) :
    ∀ c ∈ (chars s).head?, isWhitespace c = false := by
  refine head_of_trimStart ((flatten_dropWhile_suffix isWhitespace (chars s)).eq_of_length_le ?_
    |>.trans (chars_flatten s))
  have hbefore : trim s <+: ((chars s).dropWhile isWhitespace).flatten := by
    obtain ⟨cs, hcs⟩ := List.dropWhile_suffix (p := isWhitespace)
      (l := ((chars s).dropWhile isWhitespace).reverse)
    refine ⟨cs.reverse.flatten, ?_⟩
    rw [trim, ← List.flatten_append, ← List.reverse_append, hcs, List.reverse_reverse]
  rw [chars_flatten]
  exact (congrArg List.length h).symm.le.trans hbefore.length_le

/-- An ASCII character that is not white space stays at the end. -/
theorem trimEnd_concat (s : Bytes) {c : UInt8} (hc : c < 0x80) (hspace : isWhitespace [c] = false) :
    trimEnd (s ++ [c]) = s ++ [c] := by
  refine trimEnd_eq_self fun d hd ↦ ?_
  rw [chars_append_cons s hc, chars_nil, List.getLast?_concat] at hd
  obtain rfl := Option.some.inj hd
  exact hspace

/-- A text between two such characters is not changed. -/
theorem trim_between {c d : UInt8} (s : Bytes) (hc : c < 0x80) (hd : d < 0x80)
    (hc' : isWhitespace [c] = false) (hd' : isWhitespace [d] = false) :
    trim (c :: s ++ [d]) = c :: s ++ [d] := by
  refine trim_eq_self (fun x hx ↦ ?_) fun x hx ↦ ?_
  · rw [List.cons_append, chars_cons hc] at hx
    obtain rfl := Option.some.inj hx
    exact hc'
  · rw [chars_append_cons _ hd, chars_nil, List.getLast?_concat] at hx
    obtain rfl := Option.some.inj hx
    exact hd'

theorem dropWhile_append_cons {p : Bytes → Bool} {c : Bytes} (hc : p c = false)
    (cs ds : List Bytes) : (cs ++ c :: ds).dropWhile p = cs.dropWhile p ++ c :: ds := by
  induction cs with
  | nil => exact dropWhile_eq_self fun d hd ↦ by obtain rfl := Option.some.inj hd; exact hc
  | cons d cs ih =>
    rw [List.cons_append]
    by_cases hd : p d = true
    · rw [List.dropWhile_cons_of_pos hd, List.dropWhile_cons_of_pos hd, ih]
    · rw [List.dropWhile_cons_of_neg hd, List.dropWhile_cons_of_neg hd, List.cons_append]

/-- White space is taken off up to the last ASCII character that is none. -/
theorem trimEnd_append_cons {c : UInt8} (hc : c < 0x80) (hspace : isWhitespace [c] = false)
    (s t : Bytes) : trimEnd (s ++ c :: t) = s ++ c :: trimEnd t := by
  rw [trimEnd, chars_append_cons s hc, List.reverse_append, List.reverse_cons, List.append_assoc,
    List.singleton_append, dropWhile_append_cons hspace, List.reverse_append, List.reverse_cons,
    List.reverse_reverse, List.flatten_append, List.flatten_append, chars_flatten, trimEnd,
    List.append_assoc]
  rfl

theorem trim_append_cons {c : UInt8} (hc : c < 0x80) (hspace : isWhitespace [c] = false)
    (s t : Bytes) : trim (s ++ c :: t) = trimStart s ++ c :: trimEnd t := by
  rw [trim, chars_append_cons s hc, dropWhile_append_cons hspace, List.reverse_append,
    List.reverse_cons, List.append_assoc, List.singleton_append, dropWhile_append_cons hspace,
    List.reverse_append, List.reverse_cons, List.reverse_reverse, List.flatten_append,
    List.flatten_append, trimStart, trimEnd, List.append_assoc]
  rfl

/-- A last character of a valid text is kept or taken off. -/
theorem trimEnd_append_char {s k : Bytes} (hs : isUtf8 s = true) (hk : chars k = [k]) :
    trimEnd (s ++ k) = if isWhitespace k then trimEnd s else s ++ k := by
  rw [trimEnd, chars_append hs, hk, List.reverse_append, List.reverse_singleton,
    List.singleton_append]
  split_ifs with hspace
  · rw [List.dropWhile_cons_of_pos hspace, trimEnd]
  · rw [List.dropWhile_cons_of_neg hspace, List.reverse_cons, List.reverse_reverse,
      List.flatten_append, chars_flatten, List.flatten_singleton]

theorem trimEnd_concat_space {c : UInt8} (hc : c < 0x80) (hspace : isWhitespace [c] = true)
    (s : Bytes) : trimEnd (s ++ [c]) = trimEnd s := by
  rw [trimEnd, chars_append_cons s hc, chars_nil, List.reverse_append, List.reverse_singleton,
    List.singleton_append, List.dropWhile_cons_of_pos hspace, trimEnd]

/-! ## Words -/

theorem splitChars_append (word : Bytes) {cs : List Bytes}
    (h : ∀ c ∈ cs, isWhitespace c = false) (rest : List Bytes) :
    splitChars word (cs ++ rest) = splitChars (word ++ cs.flatten) rest := by
  induction cs generalizing word with
  | nil => rw [List.nil_append, List.flatten_nil, List.append_nil]
  | cons c cs ih =>
    rw [List.cons_append, splitChars, h c List.mem_cons_self, if_neg Bool.false_ne_true,
      ih _ fun d hd ↦ h d (List.mem_cons_of_mem c hd), List.flatten_cons, List.append_assoc]

theorem splitWhitespace_word {s : Bytes} (h : NoSpace s) (hne : s ≠ []) {c : UInt8} (hc : c < 0x80)
    (hspace : isWhitespace [c] = true) (t : Bytes) :
    splitWhitespace (s ++ c :: t) = s :: splitWhitespace t := by
  rw [splitWhitespace, chars_append_cons s hc, splitChars_append _ h, chars_flatten,
    List.nil_append, splitChars, if_pos hspace, if_neg hne]
  rfl

theorem splitWhitespace_eq_singleton {s : Bytes} (h : NoSpace s) (hne : s ≠ []) :
    splitWhitespace s = [s] := by
  have hsplit := splitChars_append [] h []
  rw [List.append_nil, chars_flatten, List.nil_append, splitChars, if_neg hne] at hsplit
  exact hsplit

theorem splitWhitespace_cons {c : UInt8} (hc : c < 0x80) (hspace : isWhitespace [c] = true)
    (t : Bytes) : splitWhitespace (c :: t) = splitWhitespace t := by
  rw [splitWhitespace, chars_cons hc, splitChars, if_pos hspace, if_pos rfl]
  rfl

theorem splitWhitespace_concat (s : Bytes) {c : UInt8} (hc : c < 0x80)
    (hspace : isWhitespace [c] = true) : splitWhitespace (s ++ [c]) = splitWhitespace s := by
  have hconcat (word : Bytes) (cs : List Bytes) :
      splitChars word (cs ++ [[c]]) = splitChars word cs := by
    induction cs generalizing word with
    | nil =>
      simp only [List.nil_append, splitChars, hspace, if_true]
    | cons d cs ih => rw [List.cons_append, splitChars, splitChars, ih, ih]
  rw [splitWhitespace, chars_append_cons s hc, chars_nil, hconcat]
  rfl

/-! ## Finding -/

theorem isSome_find {pat s : Bytes} : (find pat s).isSome ↔ pat <:+: s := by
  induction s with
  | nil =>
    rw [find, List.infix_nil]
    split_ifs with h <;> simp [h]
  | cons c s ih =>
    rw [find, List.infix_cons_iff, ← ih, ← List.isPrefixOf_iff_prefix]
    split_ifs with h
    · simp [h]
    · rw [Option.isSome_map]
      simp [h]

theorem contains_iff {pat s : Bytes} : contains pat s = true ↔ pat <:+: s := isSome_find

/-- A character that the pattern does not have adds no occurrence. -/
theorem contains_concat {pat : Bytes} {c : UInt8} (hc : c ∉ pat) (s : Bytes) :
    contains pat (s ++ [c]) = contains pat s := by
  refine Bool.eq_iff_iff.mpr ?_
  rw [contains_iff, contains_iff, List.infix_concat_iff]
  refine ⟨fun h ↦ ?_, .inr⟩
  rcases h with hsuffix | hinfix
  · rcases List.suffix_concat_iff.mp hsuffix with rfl | ⟨t, rfl, -⟩
    · exact List.nil_infix
    · exact absurd (List.mem_append_right t (List.mem_singleton_self c)) hc
  · exact hinfix

theorem rfind_append {pat s : Bytes} {i : ℕ} (h : rfind pat s = some i) (before : Bytes) :
    rfind pat (before ++ s) = some (before.length + i) := by
  induction before with
  | nil => rw [List.nil_append, h, List.length_nil, Nat.zero_add]
  | cons c before ih =>
    rw [List.cons_append, rfind, ih, List.length_cons]
    dsimp only
    congr 1
    omega

theorem rfind_eq_none {a : UInt8} {pat s : Bytes} (h : a ∉ s) : rfind (a :: pat) s = none := by
  induction s with
  | nil => rfl
  | cons c s ih =>
    have hne : a ≠ c := fun heq ↦ h (heq ▸ List.mem_cons_self)
    rw [rfind, ih fun hmem ↦ h (List.mem_cons_of_mem c hmem)]
    dsimp only
    rw [List.isPrefixOf_cons_cons, beq_eq_false_iff_ne.mpr hne, Bool.false_and,
      if_neg Bool.false_ne_true]

/-- The last occurrence, when the rest of the text does not have the pattern's first character. -/
theorem rfind_last {a : UInt8} (before pat after : Bytes) (hpat : a ∉ pat) (hafter : a ∉ after) :
    rfind (a :: pat) (before ++ (a :: pat ++ after)) = some before.length := by
  have hself : rfind (a :: pat) (a :: pat ++ after) = some 0 := by
    rw [List.cons_append, rfind,
      rfind_eq_none fun hmem ↦ (List.mem_append.mp hmem).elim hpat hafter]
    dsimp only
    rw [if_pos]
    exact List.isPrefixOf_iff_prefix.mpr (List.prefix_append (a :: pat) after)
  exact rfind_append hself before

/-! ## Numbers as text -/

theorem digitsValue_append (s : Bytes) (c : UInt8) :
    digitsValue (s ++ [c]) = 10 * digitsValue s + (c.toNat - 48) := by
  rw [digitsValue, List.foldl_concat]
  rfl

theorem ch_digitChar {d : ℕ} (hd : d < 10) :
    (ch d.digitChar).toNat = d + 48 ∧ isAsciiDigit (ch d.digitChar) = true := by
  have hall : ∀ d < 10, (ch d.digitChar).toNat = d + 48 ∧
      isAsciiDigit (ch d.digitChar) = true := by decide
  exact hall d hd

theorem decimal_eq (n : ℕ) :
    decimal n =
      if n < 10 then [ch n.digitChar] else decimal (n / 10) ++ [ch (n % 10).digitChar] := by
  unfold decimal
  rw [Nat.toDigits_eq_if (by omega)]
  split_ifs
  · rfl
  · rw [List.map_append]
    rfl

theorem digitsValue_decimal (n : ℕ) : digitsValue (decimal n) = n := by
  induction n using Nat.strong_induction_on with
  | _ n ih =>
    rw [decimal_eq]
    split_ifs with h
    · have hvalue := digitsValue_append [] (ch n.digitChar)
      rw [(ch_digitChar h).1] at hvalue
      rw [← List.nil_append [_], hvalue]
      change 10 * 0 + _ = n
      omega
    · rw [digitsValue_append, ih _ (by omega), (ch_digitChar (Nat.mod_lt n (by omega))).1]
      omega

theorem decimal_digits (n : ℕ) : ∀ c ∈ decimal n, isAsciiDigit c = true := by
  induction n using Nat.strong_induction_on with
  | _ n ih =>
    rw [decimal_eq]
    split_ifs with h
    · intro c hc
      rw [List.mem_singleton.mp hc]
      exact (ch_digitChar h).2
    · intro c hc
      rcases List.mem_append.mp hc with hc | hc
      · exact ih _ (by omega) c hc
      · rw [List.mem_singleton.mp hc]
        exact (ch_digitChar (Nat.mod_lt n (by omega))).2

theorem decimal_ne_nil (n : ℕ) : decimal n ≠ [] := by
  rw [decimal_eq]
  split_ifs <;> simp

/-- A digit is neither a sign nor any other of these characters. -/
theorem head_decimal_ne (n : ℕ) {c : UInt8} (hc : isAsciiDigit c = false) :
    (decimal n).head? ≠ some c := by
  intro h
  rw [decimal_digits n c (List.mem_of_head? h)] at hc
  cases hc

theorem parseUnsigned_decimal {max n : ℕ} (hn : n ≤ max) :
    parseUnsigned max (decimal n) = some n := by
  rw [parseUnsigned, if_neg (head_decimal_ne n rfl), digitsValue_decimal, if_pos]
  exact ⟨decimal_ne_nil n, List.all_eq_true.mpr (decimal_digits n), hn⟩

theorem parseF64_decimal (n : ℕ) : parseF64 (decimal n) = some (.nearest false n 1) := by
  have htake : (decimal n).takeWhile isAsciiDigit = decimal n :=
    List.takeWhile_eq_self_iff.mpr (decimal_digits n)
  have hdrop : (decimal n).dropWhile isAsciiDigit = [] :=
    List.dropWhile_eq_nil_iff.mpr (decimal_digits n)
  have hparse : parseDecimal (decimal n) = some (decimal n, 0) := by
    rw [parseDecimal, htake, hdrop, if_neg fun h ↦ decimal_ne_nil n h.1]
    simp [parseExponent]
  have hminus := head_decimal_ne n (c := ch '-') rfl
  have hplus := head_decimal_ne n (c := ch '+') rfl
  rw [parseF64, if_neg (not_or.mpr ⟨hminus, hplus⟩), hparse, beq_eq_false_iff_ne.mpr hminus]
  dsimp only
  rw [digitsValue_decimal, Int.toNat_zero, pow_zero, mul_one]
  rfl

/-! ## What a number looks like -/

/-- The characters of numbers. -/
def isNumberByte (c : UInt8) : Bool :=
  isAsciiAlphanumeric c || c == ch '+' || c == ch '-' || c == ch '.'

theorem isNumberByte_of_digit {c : UInt8} (h : isAsciiDigit c = true) : isNumberByte c = true := by
  rw [isNumberByte, isAsciiAlphanumeric, h, Bool.or_true]
  rfl

/-- What holds of the 256 bytes, sixteen by sixteen, holds of a byte. -/
theorem forall_byte {p : UInt8 → Prop} (h : ∀ high low : Fin 16, p (UInt8.ofNat (16 * high + low)))
    (c : UInt8) : p c := by
  have hlt : c.toNat < 16 * 16 := c.toNat_lt
  have hc := h ⟨c.toNat / 16, Nat.div_lt_of_lt_mul hlt⟩ ⟨c.toNat % 16, Nat.mod_lt _ (by decide)⟩
  rwa [Nat.div_add_mod, UInt8.ofNat_toNat] at hc

/-- A number byte is ASCII, and neither white space nor one of the separators of the log. -/
theorem isNumberByte_spec (c : UInt8) : isNumberByte c = true →
    c < 0x80 ∧ isWhitespace [c] = false ∧ c ≠ ch ';' ∧ c ≠ ch ':' ∧ c ≠ 13 :=
  forall_byte (p := fun c ↦ isNumberByte c = true →
    c < 0x80 ∧ isWhitespace [c] = false ∧ c ≠ ch ';' ∧ c ≠ ch ':' ∧ c ≠ 13) (by decide) c

theorem isNumberByte_of_lowercase (c : UInt8) :
    isNumberByte (toAsciiLowercase c) = true → isNumberByte c = true :=
  forall_byte (p := fun c ↦ isNumberByte (toAsciiLowercase c) = true → isNumberByte c = true)
    (by decide) c

theorem forall_of_head_tail {p : UInt8 → Prop} {s : Bytes} {c : UInt8} (hs : s.head? = some c)
    (hc : p c) (htail : ∀ d ∈ s.tail, p d) : ∀ d ∈ s, p d := by
  cases s with
  | nil => exact fun d hd ↦ by cases hd
  | cons e s =>
    obtain rfl : e = c := Option.some.inj hs
    exact List.forall_mem_cons.mpr ⟨hc, htail⟩

/-- A sign and what follows it. -/
theorem forall_of_sign {p : UInt8 → Prop} {s : Bytes} (hminus : p (ch '-')) (hplus : p (ch '+'))
    (h : ∀ d ∈ if s.head? = some (ch '-') ∨ s.head? = some (ch '+') then s.tail else s, p d) :
    ∀ d ∈ s, p d := by
  split_ifs at h with hsign
  · rcases hsign with hs | hs
    · exact forall_of_head_tail hs hminus h
    · exact forall_of_head_tail hs hplus h
  · exact h

theorem numberBytes_of_parseExponent {s : Bytes} {e : ℤ} (h : parseExponent s = some e) :
    ∀ c ∈ s, isNumberByte c = true := by
  cases s with
  | nil => exact fun c hc ↦ by cases hc
  | cons c s =>
    rw [parseExponent] at h
    obtain ⟨hc, -, hdigits⟩ : toAsciiLowercase c = ch 'e' ∧ _ ∧ _ := by
      by_contra hcond
      rw [if_neg hcond] at h
      cases h
    refine List.forall_mem_cons.mpr ⟨?_, forall_of_sign rfl rfl fun d hd ↦ ?_⟩
    · exact isNumberByte_of_lowercase c (by rw [hc]; rfl)
    · exact isNumberByte_of_digit (List.all_eq_true.mp hdigits d hd)

theorem numberBytes_of_parseDecimal {s : Bytes} {r : Bytes × ℤ} (h : parseDecimal s = some r) :
    ∀ c ∈ s, isNumberByte c = true := by
  have htake (s : Bytes) : ∀ c ∈ s.takeWhile isAsciiDigit, isNumberByte c = true :=
    fun c hc ↦ isNumberByte_of_digit (List.mem_takeWhile_imp hc)
  have hsplit (s : Bytes) (hdrop : ∀ c ∈ s.dropWhile isAsciiDigit, isNumberByte c = true) :
      ∀ c ∈ s, isNumberByte c = true := by
    rw [← List.takeWhile_append_dropWhile (p := isAsciiDigit) (l := s)]
    exact List.forall_mem_append.mpr ⟨htake s, hdrop⟩
  refine hsplit s ?_
  rw [parseDecimal] at h
  generalize s.dropWhile isAsciiDigit = t at h ⊢
  split_ifs at h with hdot
  · obtain ⟨e, he, -⟩ := Option.map_eq_some_iff.mp h
    exact forall_of_head_tail hdot rfl (hsplit _ (numberBytes_of_parseExponent he))
  · obtain ⟨e, he, -⟩ := Option.map_eq_some_iff.mp h
    exact numberBytes_of_parseExponent he

/-- Whatever parses as a double consists of number bytes. -/
theorem numberBytes_of_parseF64 {s : Bytes} {x : F64} (h : parseF64 s = some x) :
    s ≠ [] ∧ ∀ c ∈ s, isNumberByte c = true := by
  refine ⟨?_, forall_of_sign rfl rfl ?_⟩
  · rintro rfl
    cases h
  · rw [parseF64] at h
    generalize (if s.head? = some (ch '-') ∨ s.head? = some (ch '+') then s.tail else s) = t at h ⊢
    dsimp only at h
    cases hdecimal : parseDecimal t with
    | some r => exact numberBytes_of_parseDecimal hdecimal
    | none =>
      rw [hdecimal] at h
      have hword {w : Bytes} (hw : ∀ c ∈ w, isNumberByte c = true)
          (ht : t.map toAsciiLowercase = w) : ∀ c ∈ t, isNumberByte c = true := fun c hc ↦
        isNumberByte_of_lowercase c (hw _ (ht ▸ List.mem_map_of_mem hc))
      dsimp only at h
      split_ifs at h with hinf hnan
      · rcases hinf with hinf | hinf
        · exact hword (List.all_eq_true.mp (by decide)) hinf
        · exact hword (List.all_eq_true.mp (by decide)) hinf
      · exact hword (List.all_eq_true.mp (by decide)) hnan

/-- A number has no white space. -/
theorem noSpace_of_all {s : Bytes} (h : s.all (fun c ↦ c < 0x80 && !isWhitespace [c]) = true) :
    NoSpace s := by
  simp only [List.all_eq_true, Bool.and_eq_true, decide_eq_true_eq, Bool.not_eq_true'] at h
  rw [NoSpace, chars_of_ascii fun c hc ↦ (h c hc).1]
  intro k hk
  obtain ⟨c, hc, rfl⟩ := List.mem_map.mp hk
  exact (h c hc).2

theorem noSpace_of_numberBytes {s : Bytes} (h : ∀ c ∈ s, isNumberByte c = true) : NoSpace s := by
  rw [NoSpace, chars_of_ascii fun c hc ↦ (isNumberByte_spec c (h c hc)).1]
  intro x hx
  obtain ⟨c, hc, rfl⟩ := List.mem_map.mp hx
  exact (isNumberByte_spec c (h c hc)).2.1

end SqlReplay
