import SqlReplay.Proto.Text
import SqlReplay.Data.LittleEndian

/-!
# Binary values

The reader of the wire protocol's primitive encodings and the rendering of binary-protocol
parameter values as SQL literals. A reader that fails makes the whole statement inexpandable, so
it is a computation in `Option` over the bytes that are left.
-/

namespace SqlReplay

/-! ## The reader -/

/-- A `Reader` at its position: the bytes from there on. -/
abbrev Reader := StateT Bytes Option

namespace Reader

/-- `Reader::rest`. -/
def rest : Reader Bytes := get

/-- `Reader::take`. -/
def take (n : ℕ) : Reader Bytes := fun b ↦ if b.length < n then none else some (b.take n, b.drop n)

/-- `Reader::u8`. -/
def u8 : Reader UInt8 := fun
  | [] => none
  | b :: rest => some (b, rest)

/-- `Reader::cstring`: the bytes before the next NUL. -/
def cstring : Reader Bytes := fun b ↦
  let s := b.takeWhile (· ≠ 0)
  if s.length < b.length then some (s, b.drop (s.length + 1)) else none

section Apply

variable {α β : Type}

/-- Readers run one after the other. -/
theorem bind_apply (x : Reader α) (f : α → Reader β) (r : Bytes) :
    (x >>= f) r = (x r).bind fun p ↦ f p.1 p.2 := by
  show StateT.bind x f r = _
  cases h : x r <;> simp [StateT.bind, h]

theorem pure_apply (a : α) (r : Bytes) : (pure a : Reader α) r = some (a, r) := rfl

theorem map_apply (f : α → β) (x : Reader α) (r : Bytes) :
    (f <$> x) r = (x r).map fun p ↦ (f p.1, p.2) := by
  show StateT.map f x r = _
  cases h : x r <;> simp [StateT.map, h]

theorem take_apply (n : ℕ) (r : Bytes) :
    take n r = if r.length < n then none else some (r.take n, r.drop n) := rfl

theorem u8_apply (r : Bytes) :
    u8 r = if r.length < 1 then none else some (r.getD 0 0, r.drop 1) := by
  cases r <;> rfl

end Apply

/-- A little-endian integer of `n` bytes. -/
def le (n : ℕ) : Reader ℕ := leNat <$> take n

/-- `Reader::lenenc_int`. -/
def lenencInt : Reader ℕ := do
  let n ← u8
  if n ≤ 0xFA then pure n.toNat
  else if n = 0xFC then le 2
  else if n = 0xFD then le 3
  else if n = 0xFE then le 8
  else failure -- 0xFB is NULL, 0xFF an error packet

/-- `Reader::lenenc_bytes`. -/
def lenencBytes : Reader Bytes := do
  take (← lenencInt)

end Reader

/-- `n` as a signed integer of `bits` bits. -/
def signed (bits n : ℕ) : ℤ := if n < 2 ^ (bits - 1) then n else n - 2 ^ bits

/-! ## Field types -/

namespace FieldType

def DECIMAL : UInt8 := 0x00
def TINY : UInt8 := 0x01
def SHORT : UInt8 := 0x02
def LONG : UInt8 := 0x03
def FLOAT : UInt8 := 0x04
def DOUBLE : UInt8 := 0x05
def NULL : UInt8 := 0x06
def TIMESTAMP : UInt8 := 0x07
def LONGLONG : UInt8 := 0x08
def INT24 : UInt8 := 0x09
def DATE : UInt8 := 0x0A
def TIME : UInt8 := 0x0B
def DATETIME : UInt8 := 0x0C
def YEAR : UInt8 := 0x0D
def VARCHAR : UInt8 := 0x0F
def BIT : UInt8 := 0x10
def JSON : UInt8 := 0xF5
def NEWDECIMAL : UInt8 := 0xF6
def ENUM : UInt8 := 0xF7
def SET : UInt8 := 0xF8
def TINY_BLOB : UInt8 := 0xF9
def MEDIUM_BLOB : UInt8 := 0xFA
def LONG_BLOB : UInt8 := 0xFB
def BLOB : UInt8 := 0xFC
def VAR_STRING : UInt8 := 0xFD
def STRING : UInt8 := 0xFE

end FieldType

def UNSIGNED_FLAG : UInt8 := 0x80

/-- The integer types: `bytes` little-endian bytes, signed unless the flag says otherwise. -/
def integerValue (bytes : ℕ) (isUnsigned : Bool) : Reader Bytes := do
  let n ← Reader.le bytes
  pure (if isUnsigned then decimal n else decimalInt (signed (8 * bytes) n))

/-- `'YYYY-MM-DD'` of the first four bytes of a temporal value, without the closing quote. -/
def dateText (b : Bytes) : Bytes :=
  singleQuote :: zeroPadded 4 (leNat (b.take 2)) ++ ch '-' :: zeroPadded 2 (leNat [b.getD 2 0]) ++
    ch '-' :: zeroPadded 2 (leNat [b.getD 3 0])

/-- `HH:MM:SS` of the three bytes from index `i`. -/
def clockText (b : Bytes) (i : ℕ) : Bytes :=
  zeroPadded 2 (leNat [b.getD i 0]) ++ ch ':' :: zeroPadded 2 (leNat [b.getD (i + 1) 0]) ++
    ch ':' :: zeroPadded 2 (leNat [b.getD (i + 2) 0])

/-- `.FFFFFF` of the four bytes from index `i`. -/
def microsText (b : Bytes) (i : ℕ) : Bytes :=
  ch '.' :: zeroPadded 6 (leNat ((b.drop i).take 4))

/-- DATE, DATETIME and TIMESTAMP. -/
def dateValue : Reader Bytes := do
  let len ← Reader.u8
  let b ← Reader.take len.toNat
  match len.toNat with
  | 0 => pure (singleQuote :: ascii "0000-00-00 00:00:00" ++ [singleQuote])
  | 4 => pure (dateText b ++ [singleQuote])
  | 7 => pure (dateText b ++ ch ' ' :: clockText b 4 ++ [singleQuote])
  | 11 => pure (dateText b ++ ch ' ' :: clockText b 4 ++ microsText b 7 ++ [singleQuote])
  | _ => failure

/-- TIME: the hours are `days * 24 + hours` in 32 bits. -/
def timeValue : Reader Bytes := do
  let len ← Reader.u8
  let b ← Reader.take len.toNat
  let neg := if b.headD 0 ≠ 0 then [ch '-'] else []
  let hours := (leNat ((b.drop 1).take 4) * 24 + leNat [b.getD 5 0]) % 2 ^ 32
  let clock := neg ++ zeroPadded 2 hours ++ ch ':' :: zeroPadded 2 (leNat [b.getD 6 0]) ++
    ch ':' :: zeroPadded 2 (leNat [b.getD 7 0])
  match len.toNat with
  | 0 => pure (singleQuote :: ascii "00:00:00" ++ [singleQuote])
  | 8 => pure (singleQuote :: clock ++ [singleQuote])
  | 12 => pure (singleQuote :: clock ++ microsText b 8 ++ [singleQuote])
  | _ => failure

/-- A character of a numeric string. -/
def isNumericByte (c : UInt8) : Bool :=
  isAsciiDigit c || c == ch '-' || c == ch '+' || c == ch '.' || c == ch 'e' || c == ch 'E'

/-- DECIMAL: bare when it looks like a number, quoted when not. -/
def decimalValue : Reader Bytes := do
  let b ← Reader.lenencBytes
  if !isUtf8 b then failure
  else if b ≠ [] ∧ b.all isNumericByte then pure b
  else pure (stringLiteral b)

/-- The types sent as bytes. -/
def isBytesType (ftype : UInt8) : Bool :=
  open FieldType in
  ftype ∈ [VARCHAR, JSON, ENUM, SET, TINY_BLOB, MEDIUM_BLOB, LONG_BLOB, BLOB, VAR_STRING, STRING]

open FieldType in
/-- `decode_binary_value`: one value as a SQL literal; fails for the types that have no faithful
rendering. -/
def decodeBinaryValue (ftype flags : UInt8) : Reader Bytes :=
  let isUnsigned := flags &&& UNSIGNED_FLAG != 0
  if ftype = NULL then pure (ascii "NULL")
  else if ftype = TINY then integerValue 1 isUnsigned
  else if ftype = SHORT ∨ ftype = YEAR then integerValue 2 isUnsigned
  else if ftype = LONG ∨ ftype = INT24 then integerValue 4 isUnsigned
  else if ftype = LONGLONG then integerValue 8 isUnsigned
  else if ftype = FLOAT then floatLiteral 8 23 <$> Reader.le 4
  else if ftype = DOUBLE then floatLiteral 11 52 <$> Reader.le 8
  else if ftype = DATE ∨ ftype = DATETIME ∨ ftype = TIMESTAMP then dateValue
  else if ftype = TIME then timeValue
  else if ftype = DECIMAL ∨ ftype = NEWDECIMAL then decimalValue
  else if ftype = BIT then hexLiteral <$> Reader.lenencBytes
  else if isBytesType ftype then bytesLiteral <$> Reader.lenencBytes
  else failure

/-! ## Parameter sections -/

/-- A parameter's type and flags. -/
abbrev ParamType := UInt8 × UInt8

/-- Bit `i` of a NULL bitmap. -/
def isNullParam (bitmap : Bytes) (i : ℕ) : Bool :=
  (bitmap.getD (i / 8) 0 >>> (i % 8).toUInt8) &&& 1 != 0

/-- The types of `n` parameters, each followed by its name when names are sent. -/
def paramTypes (named : Bool) : ℕ → Reader (List ParamType)
  | 0 => pure []
  | n + 1 => do
    let t ← Reader.u8
    let f ← Reader.u8
    if named then
      let _ ← Reader.lenencBytes
    return (t, f) :: (← paramTypes named n)

/-- The loop over the values: `NULL` where the bitmap says so, the text `sent` has for the index
where there is one, and the value in the packet otherwise. -/
def paramValues (bitmap : Bytes) (sent : ℕ → Option Bytes) :
    ℕ → List ParamType → Reader (List Bytes)
  | _, [] => pure []
  | i, (t, f) :: types =>
    if isNullParam bitmap i then do
      return ascii "NULL" :: (← paramValues bitmap sent (i + 1) types)
    else
      match sent i with
      | some text => do
        return text :: (← paramValues bitmap sent (i + 1) types)
      | none => do
        let v ← decodeBinaryValue t f
        return v :: (← paramValues bitmap sent (i + 1) types)

/-- The query-attribute section in front of a query's text, and the text behind it. -/
def attributesThenText : Reader Bytes := do
  let paramCount ← Reader.lenencInt
  let _ ← Reader.lenencInt
  if 0 < paramCount then
    let bitmap ← Reader.take ((paramCount + 7) / 8)
    let newParamsBound ← Reader.u8
    if newParamsBound = 1 then
      let types ← paramTypes true paramCount
      let _ ← paramValues bitmap (fun _ ↦ none) 0 types
    else failure -- attributes without types cannot be skipped reliably
  Reader.rest

end SqlReplay
