import SqlReplay.Sql.Lexer
import Mathlib.Algebra.Order.Ring.Int

/-!
# Text on the wire

The decoder of the wire protocol reads bytes and reports statements, so it turns bytes into Rust
strings in both directions: names and SQL text come in through `String::from_utf8_lossy`, and the
parameter values of a prepared statement go out as SQL literals. A Rust string is the list of its
UTF-8 bytes here; where the source walks over characters, `utf8Chars` cuts the bytes into them.
-/

namespace SqlReplay

/-! ## UTF-8 -/

/-- The bytes still owed to a character: how many there are before the first one out of its range,
and whether all came. Only the first owed byte can have a range narrower than `0x80..=0xBF`. -/
def utf8Tail : ℕ → UInt8 → UInt8 → Bytes → Bool × ℕ
  | 0, _, _, _ => (true, 0)
  | _ + 1, _, _, [] => (false, 0)
  | owed + 1, low, high, c :: rest =>
    if low ≤ c ∧ c ≤ high then
      ((utf8Tail owed 0x80 0xBF rest).1, (utf8Tail owed 0x80 0xBF rest).2 + 1)
    else (false, 0)

/-- One step of the standard library's UTF-8 decoder behind the byte `b`: whether `b` begins a
well-formed character, and how many bytes of `rest` belong to it. An ill-formed one takes the
bytes that could still have continued it. -/
def utf8Char (b : UInt8) (rest : Bytes) : Bool × ℕ :=
  if b < 0x80 then (true, 0)
  else if 0xC2 ≤ b ∧ b ≤ 0xDF then utf8Tail 1 0x80 0xBF rest
  else if 0xE0 ≤ b ∧ b ≤ 0xEF then
    utf8Tail 2 (if b = 0xE0 then 0xA0 else 0x80) (if b = 0xED then 0x9F else 0xBF) rest
  else if 0xF0 ≤ b ∧ b ≤ 0xF4 then
    utf8Tail 3 (if b = 0xF0 then 0x90 else 0x80) (if b = 0xF4 then 0x8F else 0xBF) rest
  else (false, 0)

/-- The characters of a byte slice, ill-formed ones marked. -/
def utf8Chars : Bytes → List (Bool × Bytes)
  | [] => []
  | b :: rest =>
    ((utf8Char b rest).1, b :: rest.take (utf8Char b rest).2) ::
      utf8Chars (rest.drop (utf8Char b rest).2)
  termination_by b => b.length
  decreasing_by
    rw [List.length_drop, List.length_cons]
    omega

/-- The characters of a string. -/
def chars (s : Bytes) : List Bytes := (utf8Chars s).map Prod.snd

/-- `std::str::from_utf8(b).is_ok()`. -/
def isUtf8 (b : Bytes) : Bool := (utf8Chars b).all Prod.fst

/-- U+FFFD. -/
def replacementCharacter : Bytes := [0xEF, 0xBF, 0xBD]

/-- `String::from_utf8_lossy`. -/
def fromUtf8Lossy (b : Bytes) : Bytes :=
  (utf8Chars b).flatMap fun c ↦ if c.1 then c.2 else replacementCharacter

theorem utf8Chars_cons_ascii {c : UInt8} (hc : c < 0x80) (t : Bytes) :
    utf8Chars (c :: t) = (true, [c]) :: utf8Chars t := by
  rw [utf8Chars, utf8Char, if_pos hc]
  rfl

theorem isUtf8_of_ascii {s : Bytes} (h : ∀ c ∈ s, c < 0x80) : isUtf8 s = true := by
  induction s with
  | nil =>
    rw [isUtf8, utf8Chars]
    rfl
  | cons c s ih =>
    rw [isUtf8, utf8Chars_cons_ascii (h c List.mem_cons_self)]
    exact ih fun d hd ↦ h d (List.mem_cons_of_mem c hd)

/-! ## `str` methods -/

/-- `char::is_whitespace`: the characters with the Unicode property `White_Space`. -/
def isWhitespace : Bytes → Bool
  | [a] => (9 ≤ a && a ≤ 13) || a == 32
  | [a, b] => a == 0xC2 && (b == 0x85 || b == 0xA0)
  | [a, b, c] =>
    (a == 0xE1 && b == 0x9A && c == 0x80) ||
      (a == 0xE2 && b == 0x80 &&
        ((0x80 ≤ c && c ≤ 0x8A) || c == 0xA8 || c == 0xA9 || c == 0xAF)) ||
      (a == 0xE2 && b == 0x81 && c == 0x9F) ||
      (a == 0xE3 && b == 0x80 && c == 0x80)
  | _ => false

/-- `str::trim`. -/
def trim (s : Bytes) : Bytes :=
  ((((chars s).dropWhile isWhitespace).reverse.dropWhile isWhitespace).reverse).flatten

/-- `str::strip_suffix`, for a suffix of one ASCII character. -/
def stripSuffix (s : Bytes) (c : UInt8) : Option Bytes :=
  if s.getLast? = some c then some s.dropLast else none

/-- `str::strip_prefix`, for a prefix of one ASCII character. -/
def stripPrefix (s : Bytes) (c : UInt8) : Option Bytes :=
  if s.head? = some c then some s.tail else none

/-- `str::split_once(char::is_whitespace)`. -/
def splitOnceWhitespace (s : Bytes) : Option (Bytes × Bytes) :=
  match (chars s).dropWhile (! isWhitespace ·) with
  | [] => none
  | _ :: after => some (((chars s).takeWhile (! isWhitespace ·)).flatten, after.flatten)

/-- Replacing each backtick by two. -/
def doubleBackticks (s : Bytes) : Bytes :=
  s.flatMap fun c ↦ if c = backtick then [backtick, backtick] else [c]

/-- Replacing each pair of backticks by one, from the left. -/
def undoubleBackticks : Bytes → Bytes
  | [] => []
  | [c] => [c]
  | c :: d :: rest =>
    if c = backtick ∧ d = backtick then backtick :: undoubleBackticks rest
    else c :: undoubleBackticks (d :: rest)

/-- `USE dbname`, the name in backquotes or not, and its database. -/
def parseUseTarget (sql : Bytes) : Option Bytes :=
  let rest := trim ((stripSuffix (trim sql) (ch ';')).getD (trim sql))
  match splitOnceWhitespace rest with
  | none => none
  | some (kw, target) =>
    if kw.map toAsciiLowercase ≠ ascii "use" then none
    else
      let target := trim target
      let db := match stripPrefix target backtick with
        | some inner => (stripSuffix inner backtick).map undoubleBackticks
        | none => some target
      db.filter (· ≠ [])

example : parseUseTarget (ascii "use " ++ [backtick] ++ ascii "a" ++ [backtick, backtick] ++
    ascii "b" ++ [backtick] ++ ascii " ;") = some (ascii "a" ++ [backtick] ++ ascii "b") := by
  decide +kernel

/-! ## Numbers as text -/

/-- `n.to_string()`. -/
def decimal (n : ℕ) : Bytes := (Nat.toDigits 10 n).map ch

/-- `i.to_string()`, signed. -/
def decimalInt (i : ℤ) : Bytes := if i < 0 then ch '-' :: decimal i.natAbs else decimal i.natAbs

/-- Leading zeros up to a width: the format `{:04}` and its likes. -/
def zeroPadded (width n : ℕ) : Bytes :=
  List.replicate (width - (decimal n).length) (ch '0') ++ decimal n

/-- One upper-case hexadecimal digit. -/
def hexDigit (n : ℕ) : UInt8 := if n < 10 then (48 + n).toUInt8 else (55 + n).toUInt8

/-- `hex`: two digits a byte. -/
def hex (b : Bytes) : Bytes :=
  b.flatMap fun x ↦ [hexDigit (x.toNat / 16), hexDigit (x.toNat % 16)]

/-- A positive finite float `mant * 2 ^ exp` with the half gaps to its neighbours, in the same
unit. `inclusive` says whether a decimal on the border still rounds to it. -/
structure DecodedFloat where
  mant : ℕ
  minus : ℕ
  plus : ℕ
  exp : ℤ
  inclusive : Bool

/-- The standard library's decoding of the bits of a non-zero finite float. -/
def decodeFloat (mantBits : ℕ) (expBias : ℤ) (biased frac : ℕ) : DecodedFloat :=
  let exp := (biased : ℤ) - expBias - mantBits
  if biased = 0 then ⟨2 * frac, 1, 1, exp, true⟩
  else if frac = 0 then ⟨4 * 2 ^ mantBits, 1, 2, exp - 2, true⟩
  else ⟨2 * (2 ^ mantBits + frac), 1, 1, exp - 1, frac % 2 == 0⟩

/-- The shortest decimal `digits * 10 ^ p` that reads back as the float, the closer one where two
are equally short. The precision falls until a multiple of `10 ^ p` beside the float is within
its gaps. -/
def shortestDecimal (d : DecodedFloat) : ℕ → ℤ → ℕ × ℤ
  | 0, p => (0, p)
  | fuel + 1, p =>
    let scaled (x : ℕ) := x * 2 ^ d.exp.toNat * 10 ^ (-p).toNat
    let unit := 2 ^ (-d.exp).toNat * 10 ^ p.toNat
    let below := scaled d.mant / unit
    let within (a b : ℕ) : Bool := a < b || (d.inclusive && a == b)
    let down := within (scaled (d.mant - d.minus)) (below * unit)
    let up := within ((below + 1) * unit) (scaled (d.mant + d.plus))
    if down || up then
      if up && (!down || unit ≤ 2 * (scaled d.mant - below * unit)) then (below + 1, p)
      else (below, p)
    else shortestDecimal d fuel (p - 1)

/-- `digits * 10 ^ p` without an exponent. -/
def positional (digits : ℕ) (p : ℤ) : Bytes :=
  if 0 ≤ p then decimal digits ++ List.replicate p.toNat (ch '0')
  else
    let padded := zeroPadded ((-p).toNat + 1) digits
    padded.take (padded.length - (-p).toNat) ++ ch '.' :: padded.drop (padded.length - (-p).toNat)

/-- The SQL literal of a float from its bits: `to_string` where it is finite, `NULL` where not
(`float_literal`). -/
def floatLiteral (expBits mantBits bits : ℕ) : Bytes :=
  let negative := bits / 2 ^ (expBits + mantBits) % 2 == 1
  let biased := bits / 2 ^ mantBits % 2 ^ expBits
  let frac := bits % 2 ^ mantBits
  if biased = 2 ^ expBits - 1 then ascii "NULL"
  else
    let magnitude :=
      if biased = 0 ∧ frac = 0 then ascii "0"
      else
        let (digits, p) :=
          shortestDecimal (decodeFloat mantBits (2 ^ (expBits - 1) - 1) biased frac) 700 310
        positional digits p
    if negative then ch '-' :: magnitude else magnitude

example : floatLiteral 11 52 0x3FB999999999999A = ascii "0.1" := by decide +kernel

/-! ## Literals -/

/-- `string_literal`: the escapes are of ASCII characters, so they are made byte by byte. -/
def stringLiteral (s : Bytes) : Bytes :=
  singleQuote :: (s.flatMap fun c ↦
    if c = singleQuote then [singleQuote, singleQuote]
    else if c = backslash then [backslash, backslash]
    else if c = 0 then [backslash, ch '0']
    else if c = newline then [backslash, ch 'n']
    else if c = 13 then [backslash, ch 'r']
    else if c = 0x1A then [backslash, ch 'Z']
    else [c]) ++ [singleQuote]

/-- `X'…'`. -/
def hexLiteral (b : Bytes) : Bytes := ch 'X' :: singleQuote :: hex b ++ [singleQuote]

/-- `bytes_literal`: a quoted string when the bytes are UTF-8, else a hex literal. -/
def bytesLiteral (b : Bytes) : Bytes := if isUtf8 b then stringLiteral b else hexLiteral b

/-! ## Placeholders -/

/-- What `interpolate` copies in one turn behind the byte `c`, by the text that is left: the rest
of a string or comment, or of one UTF-8 sequence. -/
def skipCopied (c : UInt8) (rest : Bytes) : Bytes :=
  if isQuote c then skipQuoted c rest
  else if opensLineComment c rest then skipLineComment rest
  else if opensBlockComment c rest then skipBlockComment rest.tail
  else rest.dropWhile fun d ↦ d &&& 0xC0 == 0x80

theorem skipCopied_suffix (c : UInt8) (rest : Bytes) : skipCopied c rest <:+ rest := by
  rw [skipCopied]
  split_ifs
  · exact skipQuoted_suffix c rest
  · exact skipLineComment_suffix rest
  · exact (skipBlockComment_suffix rest.tail).trans (List.tail_suffix rest)
  · exact List.dropWhile_suffix _

/-- The loop of `interpolate`: the text with each `?` outside strings and comments replaced by the
next value, and how many values were used; nothing when the values run short. -/
def interpolateFrom : List Bytes → Bytes → Option (Bytes × ℕ)
  | _, [] => some ([], 0)
  | values, c :: rest =>
    if c = ch '?' then
      match values with
      | [] => none
      | v :: values => (interpolateFrom values rest).map fun r ↦ (v ++ r.1, r.2 + 1)
    else
      (interpolateFrom values (skipCopied c rest)).map fun r ↦
        (c :: consumed rest (skipCopied c rest) ++ r.1, r.2)
  termination_by _ b => b.length
  decreasing_by
    · exact Nat.lt_succ_self _
    · exact Nat.lt_succ_of_le (skipCopied_suffix c rest).length_le

/-- `interpolate`: nothing when the number of placeholders is not `expected`. -/
def interpolate (sql : Bytes) (values : List Bytes) (expected : ℕ) : Option Bytes :=
  match interpolateFrom values sql with
  | none => none
  | some (out, used) => if used = expected then some out else none

end SqlReplay
