import Mathlib.Data.List.Basic

/-!
# Bytes

Every scanner of the tool works on `sql.as_bytes()` and every wire decoder on `&[u8]`, so a Rust
`str` and a Rust byte slice are both a `List UInt8` here. A scanner that keeps an index `i` into a
slice of length `n` is modelled by the function on the remaining suffix: `i < n` is "not empty",
`b[i]` is the head, and `i + 1 < n && b[i + 1] == x` is a test of the second element.

The character tests are the ASCII ones of the Rust standard library.
-/

namespace SqlReplay

/-- A byte slice, or the UTF-8 bytes of a string. -/
abbrev Bytes := List UInt8

/-- The byte of an ASCII character. -/
def ch (c : Char) : UInt8 := c.toNat.toUInt8

/-- The bytes of an ASCII literal. -/
def ascii (s : String) : Bytes := s.toList.map ch

/-- A literal as a list of characters, from which its bytes are read off without its encoding. -/
theorem ascii_ofList (l : List Char) : ascii (String.ofList l) = l.map ch := by
  rw [ascii, String.toList_ofList]

def singleQuote : UInt8 := 39

def doubleQuote : UInt8 := 34

def backtick : UInt8 := 96

def backslash : UInt8 := 92

def newline : UInt8 := 10

/-- `u8::is_ascii_digit`. -/
def isAsciiDigit (c : UInt8) : Bool := 48 ≤ c && c ≤ 57

/-- `u8::is_ascii_alphabetic`. -/
def isAsciiAlphabetic (c : UInt8) : Bool := (65 ≤ c && c ≤ 90) || (97 ≤ c && c ≤ 122)

/-- `u8::is_ascii_alphanumeric`. -/
def isAsciiAlphanumeric (c : UInt8) : Bool := isAsciiAlphabetic c || isAsciiDigit c

/-- `u8::is_ascii_whitespace`: space, tab, line feed, form feed, carriage return. -/
def isAsciiWhitespace (c : UInt8) : Bool := c == 32 || c == 9 || c == 10 || c == 12 || c == 13

/-- `u8::to_ascii_lowercase`. -/
def toAsciiLowercase (c : UInt8) : UInt8 := if 65 ≤ c && c ≤ 90 then c + 32 else c

/-- The bytes of `b` before its suffix `after`: what a scanner moved over. -/
def consumed (b after : Bytes) : Bytes := b.take (b.length - after.length)

theorem consumed_append_left (p after : Bytes) : consumed (p ++ after) after = p := by
  rw [consumed, List.length_append, Nat.add_sub_cancel, List.take_left]

theorem consumed_append {b after : Bytes} (h : after <:+ b) : consumed b after ++ after = b := by
  obtain ⟨p, rfl⟩ := h
  rw [consumed_append_left]

/-- The second byte of a text does not depend on what follows a prefix of two bytes or more. -/
theorem tail_head?_append {u v : Bytes} {a b : UInt8} {w : Bytes} (h : u ++ v = a :: b :: w)
    (hlen : v.length ≤ w.length) (x : Bytes) : (u ++ x).tail.head? = some b := by
  match u with
  | [] =>
    rw [List.nil_append] at h
    rw [h, List.length_cons, List.length_cons] at hlen
    omega
  | [c] =>
    obtain ⟨-, rfl⟩ := List.cons.inj h
    rw [List.length_cons] at hlen
    omega
  | c :: d :: u =>
    obtain ⟨-, h⟩ := List.cons.inj h
    exact congrArg some (List.cons.inj h).1

end SqlReplay
