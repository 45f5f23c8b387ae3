import SqlReplay.Data.Float64
import SqlReplay.Data.LittleEndian
import SqlReplay.Proto.Text
import SqlReplay.Replay.Metrics

/-!
# Result checksums

A result set is reduced to a digest while its rows stream by: each row is hashed by itself, and the
hashes are combined by a wrapping sum, an exclusive or and a count, so that the order of the rows
does not matter and the memory does not grow with them. The column names go into the digest as well.

The hash function is a parameter: a streaming hasher is the bytes it was fed, and its digest is the
hash of these bytes. As in the metrics, rows are counted by a natural number, and what adds up sizes
wraps at 64 bits.
-/

namespace SqlReplay

/-! ## Cells -/

/-- A `mysql_async::Value`. Strings are their bytes, and floats their bits. -/
inductive Value where
  | null
  | bytes (b : Bytes)
  | int (v : Int64)
  | uint (v : UInt64)
  | float (bits : UInt32)
  | double (d : F64)
  | date (year : UInt16) (month day hour minute second : UInt8) (micros : UInt32)
  | time (neg : Bool) (days : UInt32) (hours minutes seconds : UInt8) (micros : UInt32)
  deriving DecidableEq, Repr

/-- A cell as the row hasher is given it. -/
inductive Cell where
  | null
  | bytes (b : Bytes)
  | int (v : Int64)
  | uint (v : UInt64)
  | float (v : F64)
  deriving DecidableEq, Repr

/-- `f as f64`: exact on numbers, and a NaN becomes a quiet one. -/
def F64.ofSingle (bits : UInt32) : F64 :=
  let negative := 2 ^ 31 ≤ bits.toNat
  let biased := bits.toNat / 2 ^ 23 % 2 ^ 8
  let frac := bits.toNat % 2 ^ 23
  F64.ofMagnitude negative <|
    if biased = 2 ^ 8 - 1 then
      if frac = 0 then F64.infinityBits
      else F64.infinityBits + (2 ^ 51 ||| frac * 2 ^ 29)
    else if biased ≠ 0 then (biased + 896) * 2 ^ 52 + frac * 2 ^ 29
    else if frac = 0 then 0
    else
      -- a subnormal single is a normal double
      (Nat.log2 frac + 874) * 2 ^ 52 + (frac - 2 ^ Nat.log2 frac) * 2 ^ (52 - Nat.log2 frac)

/-- `YYYY-MM-DD HH:MM:SS.ffffff`. -/
def dateCellText (year : UInt16) (month day hour minute second : UInt8) (micros : UInt32) : Bytes :=
  zeroPadded 4 year.toNat ++ ch '-' :: zeroPadded 2 month.toNat ++ ch '-' ::
    zeroPadded 2 day.toNat ++ ch ' ' :: zeroPadded 2 hour.toNat ++ ch ':' ::
    zeroPadded 2 minute.toNat ++ ch ':' :: zeroPadded 2 second.toNat ++ ch '.' ::
    zeroPadded 6 micros.toNat

/-- `days * 24 + hours` in 32 bits, in two digits or more. -/
def hoursText (days : UInt32) (hours : UInt8) : Bytes :=
  zeroPadded 2 (days * 24 + hours.toUInt32).toNat

/-- `[-]HHH:MM:SS.ffffff`. -/
def timeCellText (neg : Bool) (days : UInt32) (hours minutes seconds : UInt8) (micros : UInt32) :
    Bytes :=
  (if neg then [ch '-'] else []) ++ hoursText days hours ++ ch ':' ::
    zeroPadded 2 minutes.toNat ++ ch ':' :: zeroPadded 2 seconds.toNat ++ ch '.' ::
    zeroPadded 6 micros.toNat

namespace Value

/-- What `hash_and_size_row` gives the hasher for a value. -/
def cell : Value → Cell
  | null => .null
  | bytes b => .bytes b
  | int v => .int v
  | uint v => .uint v
  | float bits => .float (F64.ofSingle bits)
  | double d => .float d
  | date y mo d hh mm ss us => .bytes (dateCellText y mo d hh mm ss us)
  | time neg days hh mm ss us => .bytes (timeCellText neg days hh mm ss us)

/-- `value_bytes`. -/
def valueBytes : Value → ℕ
  | null => 0
  | bytes b => b.length
  | int _ => 8
  | uint _ => 8
  | float _ => 4
  | double _ => 8
  | date .. => 26
  | time neg days hh _ _ _ => neg.toNat + (hoursText days hh).length + 13

end Value

example : (Value.date 2026 7 16 12 0 0 0).cell = .bytes (ascii "2026-07-16 12:00:00.000000") := by
  decide

/-! ## Rows -/

/-- The streaming hasher of a row: what it was fed. -/
structure RowHasher where
  fed : Bytes

namespace RowHasher

def new : RowHasher := ⟨[]⟩

/-- `cell_null`. -/
def cellNull (h : RowHasher) : RowHasher := ⟨h.fed ++ [0]⟩

/-- `cell_bytes`. -/
def cellBytes (h : RowHasher) (b : Bytes) : RowHasher :=
  ⟨h.fed ++ [1] ++ leU64 b.length.toUInt64 ++ b⟩

/-- `cell_int`. -/
def cellInt (h : RowHasher) (v : Int64) : RowHasher := ⟨h.fed ++ [2] ++ leU64 v.toUInt64⟩

/-- `cell_uint`. -/
def cellUint (h : RowHasher) (v : UInt64) : RowHasher := ⟨h.fed ++ [3] ++ leU64 v⟩

/-- `cell_float`. -/
def cellFloat (h : RowHasher) (v : F64) : RowHasher := ⟨h.fed ++ [4] ++ leU64 v.bits⟩

/-- The next cell of the row. -/
def add (h : RowHasher) : Cell → RowHasher
  | .null => h.cellNull
  | .bytes b => h.cellBytes b
  | .int v => h.cellInt v
  | .uint v => h.cellUint v
  | .float v => h.cellFloat v

end RowHasher

/-- The bytes that a cell is hashed as: a tag, and what follows it. -/
def Cell.encode : Cell → Bytes
  | null => [0]
  | bytes b => 1 :: leU64 b.length.toUInt64 ++ b
  | int v => 2 :: leU64 v.toUInt64
  | uint v => 3 :: leU64 v
  | float v => 4 :: leU64 v.bits

/-- The bytes that a row is hashed as. -/
def encodeRow (cells : List Cell) : Bytes := cells.flatMap Cell.encode

/-- What the hasher is fed over a row is the row's encoding. -/
theorem foldl_add_fed (cells : List Cell) (h : RowHasher) :
    (cells.foldl RowHasher.add h).fed = h.fed ++ encodeRow cells := by
  induction cells generalizing h with
  | nil => exact (List.append_nil _).symm
  | cons c cells ih =>
    rw [List.foldl_cons, ih, encodeRow, encodeRow, List.flatMap_cons, ← List.append_assoc]
    congr 1
    cases c <;> simp [RowHasher.add, RowHasher.cellNull, RowHasher.cellBytes, RowHasher.cellInt,
      RowHasher.cellUint, RowHasher.cellFloat, Cell.encode]

/-! ## Result sets -/

structure ChecksumBuilder where
  columns : List Bytes := []
  sum : UInt64 := 0
  xor : UInt64 := 0
  rows : ℕ := 0
  bytes : ℕ := 0

/-- What the digest of a result set is the hash of. -/
def finalPreimage (columns : List Bytes) (sum xor rows : UInt64) : Bytes :=
  columns.flatMap (· ++ [0]) ++ leU64 sum ++ leU64 xor ++ leU64 rows

namespace ChecksumBuilder

variable (xxh3 : Bytes → UInt64)

/-- `set_columns`: the first result set wins. -/
def setColumns (b : ChecksumBuilder) (names : List Bytes) : ChecksumBuilder :=
  if b.columns = [] then { b with columns := names } else b

/-- `add_row`. -/
def addRow (b : ChecksumBuilder) (h : UInt64) (bytes : ℕ) : ChecksumBuilder :=
  { b with
    sum := b.sum + h
    xor := b.xor ^^^ h
    rows := b.rows + 1
    bytes := (b.bytes + bytes) % 2 ^ 64 }

/-- `hash_and_size_row`, folded in. -/
def addValues (b : ChecksumBuilder) (row : List Value) : ChecksumBuilder :=
  b.addRow (xxh3 ((row.map Value.cell).foldl RowHasher.add .new).fed)
    (row.foldl (fun n v ↦ (n + v.valueBytes) % 2 ^ 64) 0)

/-- `finish`. -/
def finish (b : ChecksumBuilder) : ResultChecksum where
  digest := xxh3 (finalPreimage b.columns b.sum b.xor b.rows.toUInt64)
  rowCount := b.rows
  bytesTotal := b.bytes
  columns := b.columns

end ChecksumBuilder

/-- One result set of a statement. -/
structure ResultSet where
  columns : List Bytes
  rows : List (List Value)

/-- One result set in the loop of `query_checksum`: its columns count if no set before it had any,
and its rows join the stream. The flag is `saw_result_set`. -/
def addSet (xxh3 : Bytes → UInt64) (r : ChecksumBuilder × Bool) (set : ResultSet) :
    ChecksumBuilder × Bool :=
  let r := if set.columns ≠ [] ∧ !r.2 then (r.1.setColumns set.columns, true) else r
  (set.rows.foldl (fun b row ↦ b.addValues xxh3 row) r.1, r.2)

/-- `query_checksum`: nothing when no set has columns. -/
def queryChecksum (xxh3 : Bytes → UInt64) (sets : List ResultSet) : Option ResultChecksum :=
  let r := sets.foldl (addSet xxh3) ({}, false)
  if r.2 then some (r.1.finish xxh3) else none

/-- The hash of the texts that the examples are about: rows of the one string cell `1` or `2`, the
result sets of the column `v` with either row or both, and an aggregate of the last one. -/
def sampleXxh3 (b : Bytes) : UInt64 :=
  (List.lookup b [
    ([1, 1, 0, 0, 0, 0, 0, 0, 0, 49], 0x75EF79DF896F5C6B),
    ([1, 1, 0, 0, 0, 0, 0, 0, 0, 50], 0xF41BF80567795D88),
    ([118, 0, 107, 92, 111, 137, 223, 121, 239, 117, 107, 92, 111, 137, 223, 121, 239, 117,
      1, 0, 0, 0, 0, 0, 0, 0], 0xF44E766BB8FF867D),
    ([118, 0, 136, 93, 121, 103, 5, 248, 27, 244, 136, 93, 121, 103, 5, 248, 27, 244,
      1, 0, 0, 0, 0, 0, 0, 0], 0x6AC944857327D6AD),
    ([118, 0, 243, 185, 232, 240, 228, 113, 11, 106, 227, 1, 22, 238, 218, 129, 244, 129,
      2, 0, 0, 0, 0, 0, 0, 0], 0x1A4E21F3B2394B84),
    ([132, 75, 57, 178, 243, 33, 78, 26, 132, 75, 57, 178, 243, 33, 78, 26,
      1, 0, 0, 0, 0, 0, 0, 0], 0x6B1B60726F952CA1)]).getD 0

/-- A result set of the column `v`. -/
def sampleSet (cells : List Bytes) : ResultSet :=
  ⟨[ascii "v"], cells.map fun c ↦ [.bytes c]⟩

example : queryChecksum sampleXxh3 [sampleSet [ascii "1", ascii "2"]] =
    some ⟨0x1A4E21F3B2394B84, 2, 2, [ascii "v"]⟩ := by decide

end SqlReplay
