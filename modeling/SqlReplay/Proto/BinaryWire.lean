import SqlReplay.Proto.Binary
import SqlReplay.Data.Reads
import Mathlib.Algebra.Order.Ring.Int
import Mathlib.Tactic.Positivity

/-!
# Binary values on the wire

The client's side of `decode_binary_value`: a typed value and the bytes that the binary protocol
gives it. The fixed widths of the wire are those of the types here (a month is a `UInt8`), so a
value that does not fit its field cannot be written down; what a value still owes to the type it is
sent under, a range or a length, is `ParamValue.Fits`.

`reads_decodeBinaryValue` is the round trip. It is stated with `Reads`, so that it says at once
which bytes of the packet belong to the value: the next value starts right behind them.
-/

namespace SqlReplay

/-! ## Primitive encodings -/

/-- A length-encoded integer. -/
def lenenc (n : ℕ) : Bytes :=
  if n ≤ 0xFA then [n.toUInt8]
  else if n < 2 ^ 16 then 0xFC :: leBytes 2 n
  else if n < 2 ^ 24 then 0xFD :: leBytes 3 n
  else 0xFE :: leBytes 8 n

/-- A length-encoded string. -/
def lenencString (b : Bytes) : Bytes := lenenc b.length ++ b

namespace Reader

theorem reads_take (b : Bytes) : Reads (take b.length) b b := by
  intro rest
  rw [take_apply, List.length_append, if_neg (Nat.not_lt.mpr (Nat.le_add_right _ _)),
    List.take_left, List.drop_left]

theorem reads_u8 (c : UInt8) : Reads u8 [c] c := fun _ ↦ rfl

theorem reads_le {n x : ℕ} (h : x < 256 ^ n) : Reads (le n) (leBytes n x) x := by
  have htake := (reads_take (leBytes n x)).map leNat
  rwa [length_leBytes, leNat_leBytes h] at htake

/-- A length-encoded integer behind its first byte. -/
private theorem reads_lenencInt_tail {tag : UInt8} {width n : ℕ} (hwidth : n < 256 ^ width)
    (htag : ¬tag ≤ 0xFA)
    (hreader : (if tag = 0xFC then le 2 else if tag = 0xFD then le 3
      else if tag = 0xFE then le 8 else failure) = le width) :
    Reads lenencInt (tag :: leBytes width n) n := by
  refine (reads_u8 tag).bind (c := leBytes width n) ?_
  rw [if_neg htag, hreader]
  exact reads_le hwidth

theorem reads_lenencInt {n : ℕ} (h : n < 2 ^ 64) : Reads lenencInt (lenenc n) n := by
  rw [lenenc]
  split_ifs with hone htwo hthree
  · refine (reads_u8 n.toUInt8).bind_pure ?_
    have hsmall : n.toUInt8.toNat = n := Nat.mod_eq_of_lt (by omega)
    have hle : n.toUInt8 ≤ 0xFA := by
      rw [UInt8.le_iff_toNat_le, hsmall]
      exact hone
    rw [if_pos hle, hsmall]
    exact Reads.pure n
  · exact reads_lenencInt_tail htwo (by decide) rfl
  · exact reads_lenencInt_tail hthree (by decide) rfl
  · exact reads_lenencInt_tail h (by decide) rfl

theorem reads_lenencBytes {b : Bytes} (h : b.length < 2 ^ 64) :
    Reads lenencBytes (lenencString b) b :=
  (reads_lenencInt h).bind (reads_take b)

end Reader

/-! ## Values -/

/-- A time of day. The microseconds are sent or not. -/
structure Clock where
  hour : UInt8
  minute : UInt8
  second : UInt8
  micros : Option UInt32

/-- A parameter value. The zero date and the zero time have a form of their own. -/
inductive ParamValue
  | integer (v : ℤ)
  | decimal (text : Bytes)
  | bit (data : Bytes)
  | bytes (data : Bytes)
  | zeroDate
  | date (year : UInt16) (month day : UInt8) (clock : Option Clock)
  | zeroTime
  | time (negative : Bool) (days : UInt32) (clock : Clock)

open FieldType in
/-- The number of bytes of an integer type. -/
def integerWidth (ftype : UInt8) : Option ℕ :=
  if ftype = TINY then some 1
  else if ftype = SHORT ∨ ftype = YEAR then some 2
  else if ftype = LONG ∨ ftype = INT24 then some 4
  else if ftype = LONGLONG then some 8
  else none

/-- The range of an integer type, by its flags. -/
def InWireRange (width : ℕ) (flags : UInt8) (v : ℤ) : Prop :=
  if flags &&& UNSIGNED_FLAG != 0 then 0 ≤ v ∧ v < 256 ^ width
  else -256 ^ width ≤ 2 * v ∧ 2 * v < 256 ^ width

instance (width : ℕ) (flags : UInt8) (v : ℤ) : Decidable (InWireRange width flags v) :=
  inferInstanceAs (Decidable (if flags &&& UNSIGNED_FLAG != 0 then 0 ≤ v ∧ v < 256 ^ width
    else -256 ^ width ≤ 2 * v ∧ 2 * v < 256 ^ width))

namespace Clock

def bytes (c : Clock) : Bytes := [c.hour, c.minute, c.second]

def microsBytes (c : Clock) : Bytes := (c.micros.map fun m ↦ leBytes 4 m.toNat).getD []

/-- `:MM:SS`, and the microseconds where they are sent. -/
def tailText (c : Clock) : Bytes :=
  ch ':' :: zeroPadded 2 c.minute.toNat ++ ch ':' :: zeroPadded 2 c.second.toNat ++
    (c.micros.map fun m ↦ ch '.' :: zeroPadded 6 m.toNat).getD []

end Clock

namespace ParamValue

open FieldType in
/-- A value that a type can carry. -/
def Fits (ftype flags : UInt8) : ParamValue → Prop
  | integer v => ∃ width, integerWidth ftype = some width ∧ InWireRange width flags v
  | decimal text => (ftype = DECIMAL ∨ ftype = NEWDECIMAL) ∧ text ≠ [] ∧
      text.all isNumericByte ∧ text.length < 2 ^ 64
  | bit data => ftype = BIT ∧ data.length < 2 ^ 64
  | bytes data => isBytesType ftype ∧ data.length < 2 ^ 64
  | zeroDate | date .. => ftype = DATE ∨ ftype = DATETIME ∨ ftype = TIMESTAMP
  | zeroTime => ftype = TIME
  | time _ days clock => ftype = TIME ∧ days.toNat * 24 + clock.hour.toNat < 2 ^ 32

/-- A temporal value behind its length. -/
def withLength (b : Bytes) : Bytes := b.length.toUInt8 :: b

/-- The bytes of a value. -/
def encode (ftype : UInt8) : ParamValue → Bytes
  | integer v =>
    let width := (integerWidth ftype).getD 0
    leBytes width (v % 256 ^ width).toNat
  | decimal text => lenencString text
  | bit data => lenencString data
  | bytes data => lenencString data
  | zeroDate => withLength []
  | date year month day clock => withLength (leBytes 2 year.toNat ++ [month, day] ++
      (clock.map fun c ↦ c.bytes ++ c.microsBytes).getD [])
  | zeroTime => withLength []
  | time negative days clock => withLength ((if negative then 1 else 0) :: leBytes 4 days.toNat ++
      clock.bytes ++ clock.microsBytes)

/-- The SQL literal of a value. -/
def literal : ParamValue → Bytes
  | integer v => decimalInt v
  | decimal text => text
  | bit data => hexLiteral data
  | bytes data => bytesLiteral data
  | zeroDate => singleQuote :: ascii "0000-00-00 00:00:00" ++ [singleQuote]
  | date year month day clock =>
    singleQuote :: zeroPadded 4 year.toNat ++ ch '-' :: zeroPadded 2 month.toNat ++
      ch '-' :: zeroPadded 2 day.toNat ++
      (clock.map fun c ↦ ch ' ' :: zeroPadded 2 c.hour.toNat ++ c.tailText).getD [] ++ [singleQuote]
  | zeroTime => singleQuote :: ascii "00:00:00" ++ [singleQuote]
  | time negative days clock =>
    singleQuote :: (if negative then [ch '-'] else []) ++
      zeroPadded 2 (days.toNat * 24 + clock.hour.toNat) ++ clock.tailText ++ [singleQuote]

end ParamValue

/-! ## Integers -/

theorem decimalInt_natCast (n : ℕ) : decimalInt n = decimal n := by
  rw [decimalInt, if_neg (Int.not_lt.mpr (Int.natCast_nonneg n)), Int.natAbs_natCast]

/-- Two's complement and back. -/
theorem signed_emod {width : ℕ} (hwidth : width ≠ 0) {v : ℤ} (hlow : -256 ^ width ≤ 2 * v)
    (hhigh : 2 * v < 256 ^ width) : signed (8 * width) (v % 256 ^ width).toNat = v := by
  have hpow : (256 : ℕ) ^ width = 2 ^ (8 * width) := by rw [Nat.pow_mul]
  have hhalf : 2 * 2 ^ (8 * width - 1) = (256 : ℕ) ^ width := by
    rw [hpow, ← Nat.pow_succ', Nat.succ_eq_add_one, Nat.sub_add_cancel (by omega)]
  have hcast : ((256 ^ width : ℕ) : ℤ) = 256 ^ width := by norm_cast
  have hint : ((2 ^ (8 * width) : ℕ) : ℤ) = 256 ^ width := by rw [← hpow, hcast]
  rw [signed]
  by_cases hneg : v < 0
  · have hmod : v % 256 ^ width = v + 256 ^ width := by
      rw [← Int.add_emod_right, Int.emod_eq_of_lt (by omega) (by omega)]
    rw [hmod, if_neg (by omega)]
    push_cast at hint
    rw [Int.toNat_of_nonneg (by omega), hint]
    omega
  · rw [Int.emod_eq_of_lt (by omega) (by omega), if_pos (by omega)]
    omega

theorem reads_integerValue {width : ℕ} (hwidth : width ≠ 0) {flags : UInt8} {v : ℤ}
    (h : InWireRange width flags v) :
    Reads (integerValue width (flags &&& UNSIGNED_FLAG != 0))
      (leBytes width (v % 256 ^ width).toNat) (decimalInt v) := by
  have hcast : ((256 ^ width : ℕ) : ℤ) = 256 ^ width := by norm_cast
  have hpos : (0 : ℤ) < 256 ^ width := by positivity
  have hlt : (v % 256 ^ width).toNat < 256 ^ width := by
    have := Int.emod_lt_of_pos v hpos
    have := Int.emod_nonneg v hpos.ne'
    omega
  refine (Reader.reads_le hlt).bind_pure ?_
  rw [InWireRange] at h
  split_ifs at h ⊢ with hunsigned
  · obtain ⟨hlow, hhigh⟩ := h
    rw [Int.emod_eq_of_lt hlow hhigh, ← decimalInt_natCast, Int.toNat_of_nonneg hlow]
    exact Reads.pure _
  · rw [signed_emod hwidth h.1 h.2]
    exact Reads.pure _

/-! ## Temporal values -/

@[simp] theorem leNat_singleton (c : UInt8) : leNat [c] = c.toNat := by
  rw [leNat, leNat, Nat.mul_zero, Nat.add_zero]

theorem leNat_uint16 (v : UInt16) : leNat (leBytes 2 v.toNat) = v.toNat := leNat_leBytes v.toNat_lt

theorem leNat_uint32 (v : UInt32) : leNat (leBytes 4 v.toNat) = v.toNat := leNat_leBytes v.toNat_lt

/-- A value behind its length is taken whole. -/
theorem reads_withLength {b : Bytes} (h : b.length < 256) {f : UInt8 → Bytes → Reader Bytes}
    {text : Bytes} (hf : Reads (f b.length.toUInt8 b) [] text) :
    Reads (Reader.u8 >>= fun len ↦ Reader.take len.toNat >>= f len) (ParamValue.withLength b)
      text := by
  have hlen : b.length.toUInt8.toNat = b.length := Nat.mod_eq_of_lt h
  refine (Reader.reads_u8 b.length.toUInt8).bind ?_
  rw [hlen]
  exact (Reader.reads_take b).bind_pure hf

section Date

variable (year : UInt16) (month day : UInt8) (c : Clock)

theorem dateText_eq (rest : Bytes) :
    dateText (leBytes 2 year.toNat ++ [month, day] ++ rest) =
      singleQuote :: zeroPadded 4 year.toNat ++ ch '-' :: zeroPadded 2 month.toNat ++
        ch '-' :: zeroPadded 2 day.toNat := by
  show singleQuote :: zeroPadded 4 (leNat (leBytes 2 year.toNat)) ++
    ch '-' :: zeroPadded 2 (leNat [month]) ++ ch '-' :: zeroPadded 2 (leNat [day]) = _
  rw [leNat_uint16, leNat_singleton, leNat_singleton]

theorem clockText_eq (rest : Bytes) :
    clockText (leBytes 2 year.toNat ++ [month, day] ++ (c.bytes ++ rest)) 4 =
      zeroPadded 2 c.hour.toNat ++ ch ':' :: zeroPadded 2 c.minute.toNat ++
        ch ':' :: zeroPadded 2 c.second.toNat := by
  show zeroPadded 2 (leNat [c.hour]) ++ ch ':' :: zeroPadded 2 (leNat [c.minute]) ++
    ch ':' :: zeroPadded 2 (leNat [c.second]) = _
  rw [leNat_singleton, leNat_singleton, leNat_singleton]

theorem microsText_eq (micros : UInt32) :
    microsText (leBytes 2 year.toNat ++ [month, day] ++ (c.bytes ++ leBytes 4 micros.toNat)) 7 =
      ch '.' :: zeroPadded 6 micros.toNat := by
  show ch '.' :: zeroPadded 6 (leNat (leBytes 4 micros.toNat)) = _
  rw [leNat_uint32]

theorem reads_dateValue (ftype : UInt8) (clock : Option Clock) :
    Reads dateValue ((ParamValue.date year month day clock).encode ftype)
      (ParamValue.date year month day clock).literal := by
  unfold dateValue
  rcases clock with _ | ⟨hour, minute, second, _ | micros⟩
  · refine reads_withLength (Nat.lt_of_sub_eq_succ rfl) ?_
    show Reads (pure (dateText _ ++ [singleQuote])) [] _
    refine Reads.pure_of_eq ?_
    rw [dateText_eq, ParamValue.literal, Option.map_none, Option.getD_none, List.append_nil]
  · refine reads_withLength (Nat.lt_of_sub_eq_succ rfl) ?_
    show Reads (pure (dateText _ ++ ch ' ' :: clockText _ 4 ++ [singleQuote])) [] _
    refine Reads.pure_of_eq ?_
    have hclock := clockText_eq year month day ⟨hour, minute, second, none⟩ []
    rw [Option.map_some, Option.getD_some, Clock.microsBytes, Option.map_none, Option.getD_none,
      dateText_eq, hclock]
    simp only [ParamValue.literal, Clock.tailText, Option.map_some, Option.map_none,
      Option.getD_some, Option.getD_none, List.append_assoc, List.cons_append, List.append_nil]
  · refine reads_withLength (Nat.lt_of_sub_eq_succ rfl) ?_
    show Reads
      (pure (dateText _ ++ ch ' ' :: clockText _ 4 ++ microsText _ 7 ++ [singleQuote])) [] _
    refine Reads.pure_of_eq ?_
    have hclock := clockText_eq year month day ⟨hour, minute, second, some micros⟩
      (leBytes 4 micros.toNat)
    have hmicros := microsText_eq year month day ⟨hour, minute, second, some micros⟩ micros
    rw [Option.map_some, Option.getD_some, Clock.microsBytes, Option.map_some, Option.getD_some,
      dateText_eq, hclock, hmicros]
    simp only [ParamValue.literal, Clock.tailText, Option.map_some, Option.getD_some,
      List.append_assoc, List.cons_append]

theorem reads_dateValue_zero (ftype : UInt8) :
    Reads dateValue (ParamValue.zeroDate.encode ftype) ParamValue.zeroDate.literal :=
  fun _ ↦ rfl

end Date

section Time

theorem reads_timeValue (ftype : UInt8) (negative : Bool) {days : UInt32} {c : Clock}
    (h : days.toNat * 24 + c.hour.toNat < 2 ^ 32) :
    Reads timeValue ((ParamValue.time negative days c).encode ftype)
      (ParamValue.time negative days c).literal := by
  unfold timeValue
  have hneg : (if (if negative then (1 : UInt8) else 0) ≠ 0 then [ch '-'] else []) =
      if negative then [ch '-'] else [] := by cases negative <;> rfl
  rcases c with ⟨hour, minute, second, _ | micros⟩
  · refine reads_withLength (Nat.lt_of_sub_eq_succ rfl) ?_
    show Reads (pure (singleQuote :: ((if (if negative then (1 : UInt8) else 0) ≠ 0 then [ch '-']
      else []) ++ zeroPadded 2 ((leNat (leBytes 4 days.toNat) * 24 + leNat [hour]) % 2 ^ 32) ++
      ch ':' :: zeroPadded 2 (leNat [minute]) ++ ch ':' :: zeroPadded 2 (leNat [second])) ++
      [singleQuote])) [] _
    refine Reads.pure_of_eq ?_
    rw [hneg, leNat_uint32, leNat_singleton, leNat_singleton, leNat_singleton, Nat.mod_eq_of_lt h]
    simp only [ParamValue.literal, Clock.tailText, Option.map_none,
      Option.getD_none, List.append_assoc, List.cons_append, List.append_nil]
  · refine reads_withLength (Nat.lt_of_sub_eq_succ rfl) ?_
    show Reads (pure (singleQuote :: ((if (if negative then (1 : UInt8) else 0) ≠ 0 then [ch '-']
      else []) ++ zeroPadded 2 ((leNat (leBytes 4 days.toNat) * 24 + leNat [hour]) % 2 ^ 32) ++
      ch ':' :: zeroPadded 2 (leNat [minute]) ++ ch ':' :: zeroPadded 2 (leNat [second])) ++
      ch '.' :: zeroPadded 6 (leNat (leBytes 4 micros.toNat)) ++ [singleQuote])) [] _
    refine Reads.pure_of_eq ?_
    rw [hneg, leNat_uint32, leNat_uint32, leNat_singleton, leNat_singleton, leNat_singleton,
      Nat.mod_eq_of_lt h]
    simp only [ParamValue.literal, Clock.tailText, Option.map_some,
      Option.getD_some, List.append_assoc, List.cons_append]

theorem reads_timeValue_zero (ftype : UInt8) :
    Reads timeValue (ParamValue.zeroTime.encode ftype) ParamValue.zeroTime.literal := fun _ ↦ rfl

end Time

/-! ## Every type -/

theorem ascii_of_isNumericByte {c : UInt8} (h : isNumericByte c = true) : c < 0x80 := by
  simp only [isNumericByte, isAsciiDigit, Bool.or_eq_true, Bool.and_eq_true, decide_eq_true_eq,
    beq_iff_eq] at h
  rcases h with ((((⟨_, hdigit⟩ | rfl) | rfl) | rfl) | rfl) | rfl
  · exact UInt8.lt_of_le_of_lt hdigit (by decide)
  all_goals decide

theorem reads_decimalValue {text : Bytes} (hne : text ≠ []) (hnumeric : text.all isNumericByte)
    (hlength : text.length < 2 ^ 64) : Reads decimalValue (lenencString text) text := by
  have hutf8 : isUtf8 text = true := by
    refine isUtf8_of_ascii fun c hc ↦ ?_
    exact ascii_of_isNumericByte (List.all_eq_true.mp hnumeric c hc)
  refine (Reader.reads_lenencBytes hlength).bind_pure ?_
  rw [hutf8, if_neg (by decide), if_pos ⟨hne, hnumeric⟩]
  exact Reads.pure text

open FieldType in
theorem mem_of_isBytesType {ftype : UInt8} (h : isBytesType ftype = true) :
    ftype = VARCHAR ∨ ftype = JSON ∨ ftype = ENUM ∨ ftype = SET ∨ ftype = TINY_BLOB ∨
      ftype = MEDIUM_BLOB ∨ ftype = LONG_BLOB ∨ ftype = BLOB ∨ ftype = VAR_STRING ∨
      ftype = STRING := by
  simpa [isBytesType] using h

theorem reads_bytesValue {ftype : UInt8} (h : isBytesType ftype = true) (flags : UInt8)
    {data : Bytes} (hlength : data.length < 2 ^ 64) :
    Reads (decodeBinaryValue ftype flags) (lenencString data) (bytesLiteral data) := by
  have hreader : decodeBinaryValue ftype flags = bytesLiteral <$> Reader.lenencBytes := by
    rcases mem_of_isBytesType h with
      rfl | rfl | rfl | rfl | rfl | rfl | rfl | rfl | rfl | rfl <;> rfl
  rw [hreader]
  exact (Reader.reads_lenencBytes hlength).map bytesLiteral

/-- An integer type and its reader. -/
theorem integerWidth_some {ftype flags : UInt8} {width : ℕ}
    (h : integerWidth ftype = some width) :
    width ≠ 0 ∧
      decodeBinaryValue ftype flags = integerValue width (flags &&& UNSIGNED_FLAG != 0) := by
  rw [integerWidth] at h
  split_ifs at h with htiny hshort hlong hlonglong <;> obtain rfl := Option.some.inj h
  · subst htiny
    exact ⟨Nat.one_ne_zero, rfl⟩
  · rcases hshort with rfl | rfl <;> exact ⟨Nat.succ_ne_zero 1, rfl⟩
  · rcases hlong with rfl | rfl <;> exact ⟨Nat.succ_ne_zero 3, rfl⟩
  · subst hlonglong
    exact ⟨Nat.succ_ne_zero 7, rfl⟩

/-- Decoding undoes encoding, for every value that its type can carry. -/
theorem reads_decodeBinaryValue {ftype flags : UInt8} {v : ParamValue} (h : v.Fits ftype flags) :
    Reads (decodeBinaryValue ftype flags) (v.encode ftype) v.literal := by
  cases v with
  | integer v =>
    obtain ⟨width, hwidth, hrange⟩ := h
    obtain ⟨hne, hreader⟩ := @integerWidth_some _ flags _ hwidth
    rw [hreader, ParamValue.encode, hwidth]
    exact reads_integerValue hne hrange
  | decimal text =>
    obtain ⟨rfl | rfl, hne, hnumeric, hlength⟩ := h
    · exact reads_decimalValue hne hnumeric hlength
    · exact reads_decimalValue hne hnumeric hlength
  | bit data =>
    obtain ⟨rfl, hlength⟩ := h
    exact (Reader.reads_lenencBytes hlength).map hexLiteral
  | bytes data => exact reads_bytesValue h.1 flags h.2
  | zeroDate =>
    rcases h with rfl | rfl | rfl
    all_goals exact reads_dateValue_zero _
  | date year month day clock =>
    rcases h with rfl | rfl | rfl
    all_goals exact reads_dateValue year month day _ clock
  | zeroTime =>
    obtain rfl : ftype = FieldType.TIME := h
    exact reads_timeValue_zero _
  | time negative days clock =>
    obtain ⟨rfl, hhours⟩ := h
    exact reads_timeValue _ negative hhours

end SqlReplay
