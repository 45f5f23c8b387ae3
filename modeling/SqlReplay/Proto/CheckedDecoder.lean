import SqlReplay.Data.CheckedReader
import SqlReplay.Proto.Decoder
import SqlReplay.Proto.Attributes

/-!
# Checked decoding of client packets

`com_query_text`, `decode_execute` and `decode_binary_value` once more, with the source's reader: a
payload and a position, every index, slice, sum and product checked, and every `expect` a panic. The
plain versions compute on the bytes that are left, where none of this can go wrong.

One operation does go wrong. The hours of a TIME value are `days * 24 + hours` in 32 bits, and the
days are 32 bits from the wire. A value of more than 178956970 days panics a checked build, and
elsewhere it is written as a wrong literal: it is not one that makes the statement inexpandable.
Everything else is bounded by a test in front of it, and the comparison says so: decoding goes
through exactly when the hours of every TIME value that the decoder comes to fit
(`ConnDecoder.decodes_iff`).

Which values the decoder comes to is a property of the payload and the registered statements. A
value is passed over by its length (`skipValue`), with no look at what it says, so that the
condition does not mention the hours' computation.
-/

namespace SqlReplay

/-! ## The reader's primitives -/

namespace CheckedReader

/-- `Reader::u8`. -/
def u8 : CheckedReader UInt8 UInt8 := do
  let s ← take 1
  lift (Checked.index s 0)

/-- A little-endian integer of the indexed bytes. -/
def leIndexed (n : ℕ) : CheckedReader UInt8 ℕ := do
  let s ← take n
  let a ← lift (Checked.indices s (List.range' 0 n))
  pure (leNat a)

/-- A little-endian integer of a slice that is turned into an array, or else fails. -/
def leArray (n : ℕ) : CheckedReader UInt8 ℕ := do
  let s ← take n
  if s.length = n then pure (leNat s) else fail

/-- `Reader::lenenc_int`. -/
def lenencInt : CheckedReader UInt8 ℕ := do
  let n ← u8
  if n ≤ 0xFA then pure n.toNat
  else if n = 0xFC then leIndexed 2
  else if n = 0xFD then leIndexed 3
  else if n = 0xFE then do
    let s ← take 8
    let a ← lift (Checked.exactly 8 s)
    pure (leNat a)
  else fail

/-- `Reader::lenenc_bytes`. -/
def lenencBytes : CheckedReader UInt8 Bytes := do
  let n ← lenencInt
  take n

end CheckedReader

/-! ## Values -/

/-- The text of an integer of `bytes` bytes. -/
def integerText (bytes : ℕ) (isUnsigned : Bool) (n : ℕ) : Bytes :=
  if isUnsigned then decimal n else decimalInt (signed (8 * bytes) n)

/-- `dateText`, every index checked. -/
def dateTextChecked (b : Bytes) : Option Bytes := do
  let year ← Checked.indices b [0, 1]
  let month ← Checked.index b 2
  let day ← Checked.index b 3
  some (singleQuote :: zeroPadded 4 (leNat year) ++ ch '-' :: zeroPadded 2 month.toNat ++
    ch '-' :: zeroPadded 2 day.toNat)

/-- `clockText`, every index checked. -/
def clockTextChecked (b : Bytes) (i : ℕ) : Option Bytes := do
  let hour ← Checked.index b i
  let minute ← Checked.index b (i + 1)
  let second ← Checked.index b (i + 2)
  some (zeroPadded 2 hour.toNat ++ ch ':' :: zeroPadded 2 minute.toNat ++
    ch ':' :: zeroPadded 2 second.toNat)

/-- `microsText`, every index checked. -/
def microsTextChecked (b : Bytes) (i : ℕ) : Option Bytes := do
  let micros ← Checked.indices b [i, i + 1, i + 2, i + 3]
  some (ch '.' :: zeroPadded 6 (leNat micros))

/-- The literal of a DATE, DATETIME or TIMESTAMP of 4, 7 or 11 bytes. -/
def dateLiteralChecked (len : ℕ) (b : Bytes) : Option Bytes := do
  let date ← dateTextChecked b
  if len = 4 then some (date ++ [singleQuote])
  else do
    let clock ← clockTextChecked b 4
    if len = 7 then some (date ++ ch ' ' :: clock ++ [singleQuote])
    else do
      let micros ← microsTextChecked b 7
      some (date ++ ch ' ' :: clock ++ micros ++ [singleQuote])

/-- The microseconds of a TIME, which 12 bytes have. -/
def timeMicrosChecked (len : ℕ) (b : Bytes) : Option Bytes :=
  if len = 12 then microsTextChecked b 8 else some []

/-- The literal of a TIME of 8 or 12 bytes. -/
def timeLiteralChecked (len : ℕ) (b : Bytes) : Option Bytes := do
  let sign ← Checked.index b 0
  let neg := if sign ≠ 0 then [ch '-'] else []
  let days ← Checked.indices b [1, 2, 3, 4]
  let dayHours ← Checked.mul 32 (leNat days) 24
  let rest ← Checked.index b 5
  let hours ← Checked.add 32 dayHours rest.toNat
  let micros ← timeMicrosChecked len b
  let minute ← Checked.index b 6
  let second ← Checked.index b 7
  some (singleQuote :: (neg ++ zeroPadded 2 hours ++ ch ':' :: zeroPadded 2 minute.toNat ++
    ch ':' :: zeroPadded 2 second.toNat) ++ micros ++ [singleQuote])

namespace CheckedReader

/-- DATE, DATETIME and TIMESTAMP. -/
def dateValue : CheckedReader UInt8 Bytes := do
  let len ← u8
  let b ← take len.toNat
  if len = 0 then pure (singleQuote :: ascii "0000-00-00 00:00:00" ++ [singleQuote])
  else if len = 4 ∨ len = 7 ∨ len = 11 then lift (dateLiteralChecked len.toNat b)
  else fail

/-- TIME. -/
def timeValue : CheckedReader UInt8 Bytes := do
  let len ← u8
  let b ← take len.toNat
  if len = 0 then pure (singleQuote :: ascii "00:00:00" ++ [singleQuote])
  else if len = 8 ∨ len = 12 then lift (timeLiteralChecked len.toNat b)
  else fail

/-- DECIMAL. -/
def decimalValue : CheckedReader UInt8 Bytes := do
  let b ← lenencBytes
  if !isUtf8 b then fail
  else if b ≠ [] ∧ b.all isNumericByte then pure b
  else pure (stringLiteral b)

open FieldType in
/-- `decode_binary_value`. -/
def decodeBinaryValue (ftype flags : UInt8) : CheckedReader UInt8 Bytes :=
  let isUnsigned := flags &&& UNSIGNED_FLAG != 0
  if ftype = NULL then pure (ascii "NULL")
  else if ftype = TINY then do
    let v ← u8
    pure (integerText 1 isUnsigned v.toNat)
  else if ftype = SHORT ∨ ftype = YEAR then do
    let v ← leIndexed 2
    pure (integerText 2 isUnsigned v)
  else if ftype = LONG ∨ ftype = INT24 then do
    let v ← leArray 4
    pure (integerText 4 isUnsigned v)
  else if ftype = LONGLONG then do
    let v ← leArray 8
    pure (integerText 8 isUnsigned v)
  else if ftype = FLOAT then do
    let v ← leArray 4
    pure (floatLiteral 8 23 v)
  else if ftype = DOUBLE then do
    let v ← leArray 8
    pure (floatLiteral 11 52 v)
  else if ftype = DATE ∨ ftype = DATETIME ∨ ftype = TIMESTAMP then dateValue
  else if ftype = TIME then timeValue
  else if ftype = DECIMAL ∨ ftype = NEWDECIMAL then decimalValue
  else if ftype = BIT then do
    let b ← lenencBytes
    pure (hexLiteral b)
  else if isBytesType ftype then do
    let b ← lenencBytes
    pure (bytesLiteral b)
  else fail

/-! ## Parameter sections -/

/-- Bit `i` of a NULL bitmap: `bitmap[i / 8] & (1 << (i % 8)) != 0`. -/
def isNullParam (bitmap : Bytes) (i : ℕ) : Option Bool := do
  let b ← Checked.index bitmap (i / 8)
  let amount ← Checked.shiftAmount 8 (i % 8)
  some (b &&& (1 <<< amount.toUInt8) != 0)

/-- The types of `n` parameters. -/
def paramTypes (named : Bool) : ℕ → CheckedReader UInt8 (List ParamType)
  | 0 => pure []
  | n + 1 => do
    let t ← u8
    let f ← u8
    if named then
      let _ ← lenencBytes
    let types ← paramTypes named n
    pure ((t, f) :: types)

/-- The loop over the values. -/
def paramValues (bitmap : Bytes) (sent : ℕ → Option Bytes) :
    ℕ → List ParamType → CheckedReader UInt8 (List Bytes)
  | _, [] => pure []
  | i, (t, f) :: types => do
    let isNull ← lift (isNullParam bitmap i)
    if isNull then do
      let values ← paramValues bitmap sent (i + 1) types
      pure (ascii "NULL" :: values)
    else
      match sent i with
      | some text => do
        let values ← paramValues bitmap sent (i + 1) types
        pure (text :: values)
      | none => do
        let v ← decodeBinaryValue t f
        let values ← paramValues bitmap sent (i + 1) types
        pure (v :: values)

/-- The NULL bitmap of `n` parameters and the flag behind it. -/
def bitmapAndFlag (n : ℕ) : CheckedReader UInt8 (Bytes × UInt8) := do
  let size ← lift (Checked.divCeil 64 n 8)
  let bitmap ← take size
  let newParamsBound ← u8
  pure (bitmap, newParamsBound)

/-- The query-attribute section and the text behind it. -/
def attributesThenText : CheckedReader UInt8 Bytes := do
  let paramCount ← lenencInt
  let _ ← lenencInt
  if 0 < paramCount then
    let size ← lift (Checked.divCeil 64 paramCount 8)
    let bitmap ← take size
    let newParamsBound ← u8
    let _ ← lift (Checked.capacity 2 paramCount)
    if newParamsBound = 1 then
      let types ← paramTypes true paramCount
      let _ ← paramValues bitmap (fun _ ↦ none) 0 types
    else fail
  rest

end CheckedReader

/-- `com_query_text`. -/
def comQueryTextChecked (queryAttrs : Bool) (p : Bytes) : Option (Option Bytes) :=
  if queryAttrs then do
    let text ← CheckedReader.attributesThenText ⟨p, 0⟩
    some (text.map Prod.fst)
  else some (some p)

namespace Statements

/-- The types of an execute's parameters. The statement was looked up before, and is expected to be
there still when its types are stored. -/
def executeTypesChecked (s : Statements) (id : UInt32) (newParamsBound : UInt8) (named : Bool)
    (paramCount : ℕ) (r : Cursor UInt8) :
    Option (Statements × Option (List ParamType × Cursor UInt8)) :=
  if newParamsBound = 1 then do
    let _ ← Checked.capacity 2 paramCount
    match ← CheckedReader.paramTypes named paramCount r with
    | none => some (s, none)
    | some (types, r) => do
      let stmt ← s.stmts id
      some (s.register id { stmt with paramTypes := some types }, some (types, r))
  else some (s, ((s.stmts id).bind PreparedStmt.paramTypes).map fun types ↦ (types, r))

/-- The values of an execute, from the NULL bitmap on. -/
def executeValuesChecked (s : Statements) (id : UInt32) (named : Bool) (paramCount : ℕ)
    (r : Cursor UInt8) : Option (Statements × Option (List Bytes)) :=
  if paramCount = 0 then some (s, some [])
  else do
    match ← CheckedReader.bitmapAndFlag paramCount r with
    | none => some (s, none)
    | some ((bitmap, newParamsBound), r) => do
      match ← s.executeTypesChecked id newParamsBound named paramCount r with
      | (s, none) => some (s, none)
      | (s, some (types, r)) =>
        if types.length < paramCount then some (s, none)
        else do
          let sent (i : ℕ) := (s.longData (id, i.toUInt16)).map bytesLiteral
          let values ← CheckedReader.paramValues bitmap sent 0 (types.take paramCount) r
          some (s, values.map Prod.fst)

/-- The statement id and the flags of an execute, in front of its parameters. -/
def executeHeader : CheckedReader UInt8 (UInt32 × UInt8) := do
  let id ← CheckedReader.leArray 4
  let flags ← CheckedReader.u8
  let _ ← CheckedReader.take 4
  pure (id.toUInt32, flags)

/-- `decode_execute`. -/
def decodeExecuteChecked (s : Statements) (queryAttrs : Bool) (p : Bytes) :
    Option (Statements × Option Bytes) := do
  match ← executeHeader ⟨p, 0⟩ with
  | none => some (s, none)
  | some ((id, flags), r) =>
    match s.stmts id with
    | none => some (s, none)
    | some stmt => do
      let named := queryAttrs && flags &&& PARAMETER_COUNT_AVAILABLE != 0
      match ← (if named then CheckedReader.lenencInt else pure stmt.numParams) r with
      | none => some (s, none)
      | some (paramCount, r) => do
        let _ ← Checked.capacity 24 stmt.numParams
        match ← s.executeValuesChecked id named paramCount r with
        | (s, none) => some (s, none)
        | (s, some values) => do
          let used ← Checked.slice values 0 (min stmt.numParams values.length)
          some (s.dropLongData id, interpolate stmt.sql used stmt.numParams)

end Statements

/-! ## The values that the decoder comes to -/

/-- A value in a payload: its type and the bytes from it on. -/
structure WireValue where
  ftype : UInt8
  bytes : Bytes

/-- The hours of a TIME value, where it has any: 24 for each day, and its own. -/
def WireValue.hours? (v : WireValue) : Option ℕ :=
  match v.bytes with
  | [] => none
  | len :: b =>
    if v.ftype = FieldType.TIME ∧ (len = 8 ∨ len = 12) ∧ len.toNat ≤ b.length then
      some (leNat ((b.drop 1).take 4) * 24 + leNat [b.getD 5 0])
    else none

/-- The hours fit 32 bits. -/
def WireValue.HoursFit (v : WireValue) : Prop := ∀ h ∈ v.hours?, h < 2 ^ 32

/-- The values behind what a reader takes, none where it fails. -/
def behind {α : Type} (y : Reader α) (values : α → Bytes → List WireValue) (b : Bytes) :
    List WireValue :=
  match y b with
  | none => []
  | some (a, rest) => values a rest

/-- The values of a parameter section that stand in the payload, up to the first that cannot be
passed over: a NULL does not stand there, nor does a value that was sent ahead. -/
def valuesFrom (bitmap : Bytes) (sent : ℕ → Option Bytes) : ℕ → List ParamType → Bytes →
    List WireValue
  | _, [], _ => []
  | i, (t, _) :: types, b =>
    if isNullParam bitmap i || (sent i).isSome then valuesFrom bitmap sent (i + 1) types b
    else ⟨t, b⟩ :: behind (skipValue t) (fun _ ↦ valuesFrom bitmap sent (i + 1) types) b

/-- The values among the `n` attributes of a query. -/
def attributeValues (n : ℕ) : Bytes → List WireValue :=
  if 0 < n then
    behind (Reader.take ((n + 7) / 8)) fun bitmap ↦ behind Reader.u8 fun newParamsBound ↦
      if newParamsBound = 1 then behind (paramTypes true n) (valuesFrom bitmap (fun _ ↦ none) 0)
      else fun _ ↦ []
  else fun _ ↦ []

/-- The values in the payload of a query. -/
def queryValues (queryAttrs : Bool) (p : Bytes) : List WireValue :=
  if queryAttrs then
    behind Reader.lenencInt (fun n ↦ behind Reader.lenencInt fun _ ↦ attributeValues n) p
  else []

namespace Statements

/-- The types of an execute's parameters: the payload's, or the remembered ones. -/
def typesOf (stmt : PreparedStmt) (newParamsBound : UInt8) (named : Bool) (paramCount : ℕ) :
    Reader (List ParamType) :=
  if newParamsBound = 1 then paramTypes named paramCount
  else
    match stmt.paramTypes with
    | none => failure
    | some types => pure types

/-- The values of an execute, from the NULL bitmap on. -/
def valuesOf (s : Statements) (id : UInt32) (stmt : PreparedStmt) (named : Bool)
    (paramCount : ℕ) : Bytes → List WireValue :=
  if paramCount = 0 then fun _ ↦ []
  else
    behind (do
        let bitmap ← Reader.take ((paramCount + 7) / 8)
        let newParamsBound ← Reader.u8
        pure (bitmap, newParamsBound)) fun x ↦
      behind (typesOf stmt x.2 named paramCount) fun types ↦
        if types.length < paramCount then fun _ ↦ []
        else
          valuesFrom x.1 (fun i ↦ (s.longData (id, i.toUInt16)).map bytesLiteral) 0
            (types.take paramCount)

/-- The values in the payload of an execute. -/
def executeValuesIn (s : Statements) (queryAttrs : Bool) : Bytes → List WireValue :=
  behind (do
      let id ← Reader.le 4
      let flags ← Reader.u8
      let _ ← Reader.take 4
      pure (id.toUInt32, flags)) fun x ↦
    match s.stmts x.1 with
    | none => fun _ ↦ []
    | some stmt =>
      let named := queryAttrs && x.2 &&& PARAMETER_COUNT_AVAILABLE != 0
      behind (if named then Reader.lenencInt else pure stmt.numParams) (s.valuesOf x.1 stmt named)

end Statements

end SqlReplay
