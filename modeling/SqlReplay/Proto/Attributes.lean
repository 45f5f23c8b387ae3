import SqlReplay.Proto.BinaryWire

/-!
# Query attributes

On a connection that has agreed on it, attributes stand in front of a query: how many there are,
which of them are NULL, their types and names, and the values of the others. The decoder does not
report them, but it has to read over them to find the text.

The format of such a section is said here without a reader (`IsAttributes`), and that of a value by
its type (`valueFormat?`). The text is found behind these sections and behind nothing else
(`attributesThenText_iff`).
-/

namespace SqlReplay

/-! ## Passing over values -/

/-- `n` bytes are passed over. -/
def passOver (n : ℕ) : Reader Unit := do
  let _ ← Reader.take n
  pure ()

/-- A value behind a length byte, which must be one of `lengths`. -/
def passCounted (lengths : List UInt8) : Reader Unit := do
  let len ← Reader.u8
  let _ ← Reader.take len.toNat
  if len ∈ lengths then pure () else failure

/-- A value behind its length. -/
def passBytes : Reader Unit := do
  let _ ← Reader.lenencBytes
  pure ()

open FieldType in
/-- A value is passed over; fails where it is cut short or its type has no rendering. -/
def skipValue (ftype : UInt8) : Reader Unit :=
  if ftype = NULL then pure ()
  else if ftype = TINY then passOver 1
  else if ftype = SHORT ∨ ftype = YEAR then passOver 2
  else if ftype = LONG ∨ ftype = INT24 then passOver 4
  else if ftype = LONGLONG then passOver 8
  else if ftype = FLOAT then passOver 4
  else if ftype = DOUBLE then passOver 8
  else if ftype = DATE ∨ ftype = DATETIME ∨ ftype = TIMESTAMP then passCounted [0, 4, 7, 11]
  else if ftype = TIME then passCounted [0, 8, 12]
  else if ftype = DECIMAL ∨ ftype = NEWDECIMAL then do
    let b ← Reader.lenencBytes
    if isUtf8 b then pure () else failure
  else if ftype = BIT then passBytes
  else if isBytesType ftype then passBytes
  else failure

/-- A reader whose value is dropped. -/
def dropped {α : Type} (y : Reader α) : Reader Unit := do
  let _ ← y
  pure ()

theorem dropped_ite {α : Type} {c : Prop} [Decidable c] {u v : Reader Unit} {x y : Reader α}
    (hx : dropped x = u) (hy : dropped y = v) :
    dropped (if c then x else y) = if c then u else v := by
  split_ifs
  · exact hx
  · exact hy

theorem dropped_bind {α β : Type} (x : Reader α) (g : α → Reader β) :
    dropped (x >>= g) = x >>= fun a ↦ dropped (g a) := bind_assoc _ _ _

theorem dropped_map {α β : Type} (x : Reader α) (g : α → β) :
    dropped (g <$> x) = (do let _ ← x; pure ()) := by
  rw [map_eq_pure_bind, dropped_bind]
  rfl

theorem dropped_le (n : ℕ) (g : ℕ → Bytes) : dropped (g <$> Reader.le n) = passOver n := by
  rw [Reader.le, ← comp_map, dropped_map]
  rfl

theorem dropped_integerValue (n : ℕ) (isUnsigned : Bool) :
    dropped (integerValue n isUnsigned) = passOver n := by
  rw [← dropped_le n fun k ↦ if isUnsigned then decimal k else decimalInt (signed (8 * n) k),
    map_eq_pure_bind]
  rfl

theorem dropped_dateValue : dropped dateValue = passCounted [0, 4, 7, 11] := by
  rw [dateValue, dropped_bind]
  refine bind_congr fun len ↦ ?_
  rw [dropped_bind]
  refine bind_congr fun b ↦ ?_
  split
  · next h =>
    obtain rfl : len = 0 := UInt8.toNat_inj.mp h
    rfl
  · next h =>
    obtain rfl : len = 4 := UInt8.toNat_inj.mp h
    rfl
  · next h =>
    obtain rfl : len = 7 := UInt8.toNat_inj.mp h
    rfl
  · next h =>
    obtain rfl : len = 11 := UInt8.toNat_inj.mp h
    rfl
  · next h0 h4 h7 h11 =>
    rw [if_neg]
    · rfl
    · intro hmem
      simp only [List.mem_cons, List.not_mem_nil, or_false] at hmem
      rcases hmem with rfl | rfl | rfl | rfl
      · exact h0 rfl
      · exact h4 rfl
      · exact h7 rfl
      · exact h11 rfl

theorem dropped_timeValue : dropped timeValue = passCounted [0, 8, 12] := by
  rw [timeValue, dropped_bind]
  refine bind_congr fun len ↦ ?_
  rw [dropped_bind]
  refine bind_congr fun b ↦ ?_
  dsimp only
  split
  · next h =>
    obtain rfl : len = 0 := UInt8.toNat_inj.mp h
    rfl
  · next h =>
    obtain rfl : len = 8 := UInt8.toNat_inj.mp h
    rfl
  · next h =>
    obtain rfl : len = 12 := UInt8.toNat_inj.mp h
    rfl
  · next h0 h8 h12 =>
    rw [if_neg]
    · rfl
    · intro hmem
      simp only [List.mem_cons, List.not_mem_nil, or_false] at hmem
      rcases hmem with rfl | rfl | rfl
      · exact h0 rfl
      · exact h8 rfl
      · exact h12 rfl

theorem dropped_decimalValue : dropped decimalValue =
    (do let b ← Reader.lenencBytes; if isUtf8 b then pure () else failure) := by
  rw [decimalValue, dropped_bind]
  refine bind_congr fun b ↦ ?_
  cases isUtf8 b
  · rfl
  · rw [Bool.not_true, if_neg Bool.false_ne_true, if_pos rfl]
    exact (dropped_ite rfl rfl).trans (ite_self _)

/-- Passing over a value is decoding it and dropping the text. -/
theorem skipValue_eq (t f : UInt8) : dropped (decodeBinaryValue t f) = skipValue t := by
  refine dropped_ite rfl (dropped_ite (dropped_integerValue 1 _) ?_)
  refine dropped_ite (dropped_integerValue 2 _) (dropped_ite (dropped_integerValue 4 _) ?_)
  refine dropped_ite (dropped_integerValue 8 _) (dropped_ite (dropped_le 4 _) ?_)
  refine dropped_ite (dropped_le 8 _) (dropped_ite dropped_dateValue ?_)
  refine dropped_ite dropped_timeValue (dropped_ite dropped_decimalValue ?_)
  exact dropped_ite (dropped_map _ _) (dropped_ite (dropped_map _ _) rfl)

/-! ## Lengths -/

/-- A length on the wire: one byte, or a tag and two, three or eight of them. -/
inductive IsLenenc : Bytes → ℕ → Prop
  | one {n : UInt8} (h : n ≤ 0xFA) : IsLenenc [n] n.toNat
  | two {b : Bytes} (h : b.length = 2) : IsLenenc (0xFC :: b) (leNat b)
  | three {b : Bytes} (h : b.length = 3) : IsLenenc (0xFD :: b) (leNat b)
  | eight {b : Bytes} (h : b.length = 8) : IsLenenc (0xFE :: b) (leNat b)

/-- A string on the wire stands behind its length. -/
inductive IsLenencString : Bytes → Bytes → Prop
  | mk {len s : Bytes} (h : IsLenenc len s.length) : IsLenencString (len ++ s) s

namespace Reader

theorem recognizes_take (n : ℕ) : Recognizes (take n) fun b s ↦ b = s ∧ s.length = n where
  complete b s := by
    rintro ⟨rfl, rfl⟩
    exact reads_take b
  sound b s rest h := by
    rw [take_apply] at h
    split_ifs at h with hshort
    obtain ⟨rfl, rfl⟩ := Prod.mk.inj (Option.some.inj h)
    exact ⟨b.take n, (List.take_append_drop n b).symm, rfl,
      List.length_take_of_le (not_lt.mp hshort)⟩

theorem recognizes_u8 : Recognizes u8 fun b c ↦ b = [c] where
  complete b c := by
    rintro rfl
    exact reads_u8 c
  sound b c rest h := by
    cases b with
    | nil => cases h
    | cons d b =>
      obtain ⟨rfl, rfl⟩ := Prod.mk.inj (Option.some.inj h)
      exact ⟨[d], rfl, rfl⟩

theorem recognizes_le (n : ℕ) : Recognizes (le n) fun b k ↦ b.length = n ∧ k = leNat b := by
  rw [le, map_eq_pure_bind]
  refine ((recognizes_take n).bind fun s ↦ Recognizes.pure (leNat s)).congr fun b k ↦ ?_
  constructor
  · rintro ⟨s, c, d, rfl, ⟨rfl, hlength⟩, rfl, rfl⟩
    rw [List.append_nil]
    exact ⟨hlength, rfl⟩
  · rintro ⟨hlength, rfl⟩
    exact ⟨b, b, [], (List.append_nil b).symm, ⟨rfl, hlength⟩, rfl, rfl⟩

theorem recognizes_lenencInt : Recognizes lenencInt IsLenenc := by
  have hnext (n : UInt8) : Recognizes
      (if n ≤ 0xFA then pure n.toNat else if n = 0xFC then le 2 else if n = 0xFD then le 3
        else if n = 0xFE then le 8 else failure) fun b k ↦ IsLenenc (n :: b) k := by
    split_ifs with hone htwo hthree height
    · refine (Recognizes.pure _).congr fun b k ↦ ⟨?_, fun h ↦ ?_⟩
      · rintro ⟨rfl, rfl⟩
        exact .one hone
      · cases h with
        | one => exact ⟨rfl, rfl⟩
        | two | three | eight => exact absurd hone (by decide)
    · refine (recognizes_le 2).congr fun b k ↦ ⟨?_, fun h ↦ ?_⟩
      · rintro ⟨hlength, rfl⟩
        exact htwo ▸ .two hlength
      · cases h with
        | one h => exact absurd h hone
        | two h => exact ⟨h, rfl⟩
        | three | eight => exact absurd htwo (by decide)
    · refine (recognizes_le 3).congr fun b k ↦ ⟨?_, fun h ↦ ?_⟩
      · rintro ⟨hlength, rfl⟩
        exact hthree ▸ .three hlength
      · cases h with
        | one h => exact absurd h hone
        | three h => exact ⟨h, rfl⟩
        | two | eight => exact absurd hthree (by decide)
    · refine (recognizes_le 8).congr fun b k ↦ ⟨?_, fun h ↦ ?_⟩
      · rintro ⟨hlength, rfl⟩
        exact height ▸ .eight hlength
      · cases h with
        | one h => exact absurd h hone
        | eight h => exact ⟨h, rfl⟩
        | two | three => exact absurd height (by decide)
    · refine Recognizes.fail.congr fun b k ↦ ⟨False.elim, fun h ↦ ?_⟩
      cases h with
      | one h => exact hone h
      | two => exact htwo rfl
      | three => exact hthree rfl
      | eight => exact height rfl
  refine (recognizes_u8.bind hnext).congr fun b k ↦ ⟨?_, fun h ↦ ?_⟩
  · rintro ⟨n, c, d, rfl, rfl, h⟩
    exact h
  · obtain ⟨n, d, rfl⟩ : ∃ n d, b = n :: d := by cases h <;> exact ⟨_, _, rfl⟩
    exact ⟨n, [n], d, rfl, rfl, h⟩

theorem recognizes_lenencBytes : Recognizes lenencBytes IsLenencString := by
  refine (recognizes_lenencInt.bind recognizes_take).congr fun b s ↦ ⟨?_, fun h ↦ ?_⟩
  · rintro ⟨n, len, d, rfl, hlen, rfl, rfl⟩
    exact .mk hlen
  · obtain ⟨hlen⟩ := h
    exact ⟨s.length, _, s, rfl, hlen, rfl, rfl⟩

end Reader

/-! ## Values -/

/-- How the values of a type are written. -/
inductive ValueFormat where
  | empty
  | fixed (width : ℕ)
  /-- Behind a length byte, which is one of these. -/
  | counted (lengths : List UInt8)
  | text
  | bytes

open FieldType in
/-- The format of a type's values; none for the types that have no rendering. -/
def valueFormat? (ftype : UInt8) : Option ValueFormat :=
  if ftype = NULL then some .empty
  else if ftype = TINY then some (.fixed 1)
  else if ftype = SHORT ∨ ftype = YEAR then some (.fixed 2)
  else if ftype = LONG ∨ ftype = INT24 then some (.fixed 4)
  else if ftype = LONGLONG then some (.fixed 8)
  else if ftype = FLOAT then some (.fixed 4)
  else if ftype = DOUBLE then some (.fixed 8)
  else if ftype = DATE ∨ ftype = DATETIME ∨ ftype = TIMESTAMP then some (.counted [0, 4, 7, 11])
  else if ftype = TIME then some (.counted [0, 8, 12])
  else if ftype = DECIMAL ∨ ftype = NEWDECIMAL then some .text
  else if ftype = BIT then some .bytes
  else if isBytesType ftype then some .bytes
  else none

namespace ValueFormat

/-- The bytes are a value of the format. -/
def Admits : ValueFormat → Bytes → Prop
  | empty, b => b = []
  | fixed width, b => b.length = width
  | counted lengths, b => ∃ len ∈ lengths, ∃ s, b = len :: s ∧ s.length = len.toNat
  | text, b => ∃ s, IsLenencString b s ∧ isUtf8 s = true
  | bytes, b => ∃ s, IsLenencString b s

/-- A value of the format is passed over. -/
def pass : ValueFormat → Reader Unit
  | empty => pure ()
  | fixed width => passOver width
  | counted lengths => passCounted lengths
  | text => do
    let b ← Reader.lenencBytes
    if isUtf8 b then pure () else failure
  | bytes => passBytes

theorem recognizes_pass (format : ValueFormat) :
    Recognizes format.pass fun b _ ↦ format.Admits b := by
  cases format with
  | empty => exact (Recognizes.pure ()).congr fun b _ ↦ and_iff_left rfl
  | fixed width =>
    refine ((Reader.recognizes_take width).bind fun _ ↦ Recognizes.pure ()).congr fun b _ ↦ ?_
    constructor
    · rintro ⟨s, c, d, rfl, ⟨rfl, hlength⟩, rfl, -⟩
      rwa [List.append_nil]
    · intro hlength
      exact ⟨b, b, [], (List.append_nil b).symm, ⟨rfl, hlength⟩, rfl, rfl⟩
  | counted lengths =>
    refine (Reader.recognizes_u8.bind fun len ↦ (Reader.recognizes_take len.toNat).bind fun _ ↦
      Recognizes.guard (len ∈ lengths) ()).congr fun b _ ↦ ?_
    constructor
    · rintro ⟨len, c, d, rfl, rfl, s, c', d', rfl, ⟨rfl, hlength⟩, rfl, -, hmem⟩
      exact ⟨len, hmem, c', congrArg (len :: ·) (List.append_nil c'), hlength⟩
    · rintro ⟨len, hmem, s, rfl, hlength⟩
      exact ⟨len, [len], s, rfl, rfl, s, s, [], (List.append_nil s).symm, ⟨rfl, hlength⟩, rfl, rfl,
        hmem⟩
  | text =>
    refine (Reader.recognizes_lenencBytes.bind fun s ↦
      Recognizes.guard (isUtf8 s = true) ()).congr fun b _ ↦ ?_
    constructor
    · rintro ⟨s, c, d, rfl, hs, rfl, -, hutf8⟩
      exact ⟨s, by rwa [List.append_nil], hutf8⟩
    · rintro ⟨s, hs, hutf8⟩
      exact ⟨s, b, [], (List.append_nil b).symm, hs, rfl, rfl, hutf8⟩
  | bytes =>
    refine (Reader.recognizes_lenencBytes.bind fun _ ↦ Recognizes.pure ()).congr fun b _ ↦ ?_
    constructor
    · rintro ⟨s, c, d, rfl, hs, rfl, -⟩
      exact ⟨s, by rwa [List.append_nil]⟩
    · rintro ⟨s, hs⟩
      exact ⟨s, b, [], (List.append_nil b).symm, hs, rfl, rfl⟩

theorem elim_pass_ite {c : Prop} [Decidable c] {format : ValueFormat} {o : Option ValueFormat}
    {x y : Reader Unit} (hx : format.pass = x) (hy : o.elim failure pass = y) :
    (if c then some format else o).elim failure pass = if c then x else y := by
  split_ifs
  · exact hx
  · exact hy

end ValueFormat

/-- The bytes are a value of the type. -/
def IsValue (ftype : UInt8) (b : Bytes) : Prop := ∃ format ∈ valueFormat? ftype, format.Admits b

/-- Passing over a value is passing over the format of its type. -/
theorem elim_valueFormat (t : UInt8) :
    (valueFormat? t).elim failure ValueFormat.pass = skipValue t := by
  refine ValueFormat.elim_pass_ite rfl (ValueFormat.elim_pass_ite rfl ?_)
  refine ValueFormat.elim_pass_ite rfl (ValueFormat.elim_pass_ite rfl ?_)
  refine ValueFormat.elim_pass_ite rfl (ValueFormat.elim_pass_ite rfl ?_)
  refine ValueFormat.elim_pass_ite rfl (ValueFormat.elim_pass_ite rfl ?_)
  refine ValueFormat.elim_pass_ite rfl (ValueFormat.elim_pass_ite rfl ?_)
  exact ValueFormat.elim_pass_ite rfl (ValueFormat.elim_pass_ite rfl rfl)

theorem recognizes_skipValue (t : UInt8) : Recognizes (skipValue t) fun b _ ↦ IsValue t b := by
  rw [← elim_valueFormat]
  unfold IsValue
  cases valueFormat? t with
  | none => exact Recognizes.fail.congr fun b _ ↦ by simp
  | some format => exact format.recognizes_pass.congr fun b _ ↦ by simp

/-! ## The section -/

/-- The types of attributes, each with its name. -/
inductive IsNamedTypes : List ParamType → Bytes → Prop
  | nil : IsNamedTypes [] []
  | cons {type : ParamType} {types : List ParamType} {name s b : Bytes}
    (hname : IsLenencString name s) (htypes : IsNamedTypes types b) :
    IsNamedTypes (type :: types) (type.1 :: type.2 :: (name ++ b))

/-- The values of the attributes from the `i`-th on, those that are not NULL. -/
inductive IsValues (bitmap : Bytes) : ℕ → List ParamType → Bytes → Prop
  | nil (i : ℕ) : IsValues bitmap i [] []
  | null {i : ℕ} {type : ParamType} {types : List ParamType} {b : Bytes}
    (hnull : isNullParam bitmap i = true) (h : IsValues bitmap (i + 1) types b) :
    IsValues bitmap i (type :: types) b
  | value {i : ℕ} {type : ParamType} {types : List ParamType} {v b : Bytes}
    (hnull : isNullParam bitmap i = false) (hv : IsValue type.1 v)
    (h : IsValues bitmap (i + 1) types b) : IsValues bitmap i (type :: types) (v ++ b)

/-- A number of attributes: which of them are NULL, the flag that says that their types are sent,
these, and the values. -/
inductive IsAttributeList : ℕ → Bytes → Prop
  | nil : IsAttributeList 0 []
  | some {bitmap names values : Bytes} {types : List ParamType} (hne : types ≠ [])
    (hbitmap : bitmap.length = (types.length + 7) / 8) (hnames : IsNamedTypes types names)
    (hvalues : IsValues bitmap 0 types values) :
    IsAttributeList types.length (bitmap ++ 1 :: (names ++ values))

/-- The section in front of a query's text: the number of attributes, the number of sets that they
come in, which the decoder does not need, and the attributes. -/
inductive IsAttributes : Bytes → Prop
  | mk {count sets attributes : Bytes} {n m : ℕ} (hcount : IsLenenc count n)
    (hsets : IsLenenc sets m) (h : IsAttributeList n attributes) :
    IsAttributes (count ++ (sets ++ attributes))

theorem recognizes_paramTypes (n : ℕ) :
    Recognizes (paramTypes true n) fun b types ↦ types.length = n ∧ IsNamedTypes types b := by
  induction n with
  | zero =>
    refine (Recognizes.pure []).congr fun b types ↦ ⟨?_, ?_⟩
    · rintro ⟨rfl, rfl⟩
      exact ⟨rfl, .nil⟩
    · rintro ⟨hlength, htypes⟩
      obtain rfl := List.length_eq_zero_iff.mp hlength
      cases htypes
      exact ⟨rfl, rfl⟩
  | succ n ih =>
    refine (Reader.recognizes_u8.bind fun t ↦ Reader.recognizes_u8.bind fun f ↦
      Reader.recognizes_lenencBytes.bind fun _ ↦ ih.bind fun types ↦
        Recognizes.pure ((t, f) :: types)).congr fun b types ↦ ⟨?_, ?_⟩
    · rintro ⟨t, _, _, rfl, rfl, f, _, _, rfl, rfl, s, name, _, rfl, hname, types, b, _, rfl,
        ⟨hlength, htypes⟩, rfl, rfl⟩
      refine ⟨congrArg (· + 1) hlength, ?_⟩
      rw [List.append_nil, List.singleton_append, List.singleton_append]
      exact .cons hname htypes
    · rintro ⟨hlength, htypes⟩
      cases htypes with
      | nil => cases hlength
      | @cons type types name s b hname htypes =>
        exact ⟨type.1, [type.1], _, rfl, rfl, type.2, [type.2], _, rfl, rfl, s, name, b, rfl, hname,
          types, b, [], (List.append_nil b).symm, ⟨Nat.succ.inj hlength, htypes⟩, rfl, rfl⟩

theorem dropped_paramValues (bitmap : Bytes) (i : ℕ) (type : ParamType) (types : List ParamType) :
    dropped (paramValues bitmap (fun _ ↦ none) i (type :: types)) =
      if isNullParam bitmap i then dropped (paramValues bitmap (fun _ ↦ none) (i + 1) types)
      else skipValue type.1 >>= fun _ ↦
        dropped (paramValues bitmap (fun _ ↦ none) (i + 1) types) := by
  rw [paramValues, ← skipValue_eq type.1 type.2, dropped, dropped]
  split_ifs
  · simp
  · simp [dropped]

theorem recognizes_paramValues (bitmap : Bytes) (i : ℕ) (types : List ParamType) :
    Recognizes (dropped (paramValues bitmap (fun _ ↦ none) i types))
      fun b _ ↦ IsValues bitmap i types b := by
  induction types generalizing i with
  | nil =>
    refine (Recognizes.pure ()).congr fun b _ ↦ ⟨?_, fun h ↦ ?_⟩
    · rintro ⟨rfl, -⟩
      exact .nil i
    · cases h
      exact ⟨rfl, rfl⟩
  | cons type types ih =>
    rw [dropped_paramValues]
    split_ifs with hnull
    · refine (ih (i + 1)).congr fun b _ ↦ ⟨.null hnull, fun h ↦ ?_⟩
      cases h with
      | null _ h => exact h
      | value hnot => exact absurd (hnull.symm.trans hnot) Bool.noConfusion
    · refine ((recognizes_skipValue type.1).bind fun _ ↦ ih (i + 1)).congr
        fun b _ ↦ ⟨?_, fun h ↦ ?_⟩
      · rintro ⟨_, v, b, rfl, hv, h⟩
        exact .value (Bool.eq_false_iff.mpr hnull) hv h
      · cases h with
        | null hyes => exact absurd hyes hnull
        | @value _ _ _ v b _ hv h => exact ⟨(), v, b, rfl, hv, h⟩

/-- A list of `n` attributes is passed over. -/
def passAttributeList (n : ℕ) : Reader Unit :=
  if 0 < n then do
    let bitmap ← Reader.take ((n + 7) / 8)
    let newParamsBound ← Reader.u8
    if newParamsBound = 1 then
      let types ← paramTypes true n
      dropped (paramValues bitmap (fun _ ↦ none) 0 types)
    else failure
  else pure ()

/-- The section is passed over. -/
def passAttributes : Reader Unit := do
  let n ← Reader.lenencInt
  let _ ← Reader.lenencInt
  passAttributeList n

theorem attributesThenText_eq : attributesThenText = passAttributes >>= fun _ ↦ Reader.rest := by
  rw [attributesThenText, passAttributes]
  simp only [bind_assoc]
  refine bind_congr fun n ↦ bind_congr fun _ ↦ ?_
  rw [passAttributeList]
  split_ifs
  · simp only [bind_assoc]
    refine bind_congr fun bitmap ↦ bind_congr fun newParamsBound ↦ ?_
    split_ifs
    · simp [dropped]
    · rfl
  · rfl

theorem recognizes_passAttributeList (n : ℕ) :
    Recognizes (passAttributeList n) fun b _ ↦ IsAttributeList n b := by
  have hflag (bitmap : Bytes) (flag : UInt8) : Recognizes
      (if flag = 1 then do
          let types ← paramTypes true n
          dropped (paramValues bitmap (fun _ ↦ none) 0 types)
        else failure : Reader Unit)
      fun b _ ↦ flag = 1 ∧ ∃ types names values, b = names ++ values ∧
        (types.length = n ∧ IsNamedTypes types names) ∧ IsValues bitmap 0 types values := by
    split_ifs with hone
    · refine ((recognizes_paramTypes n).bind fun types ↦
        recognizes_paramValues bitmap 0 types).congr fun b _ ↦ ?_
      rw [and_iff_right hone]
    · exact Recognizes.fail.congr fun b _ ↦ (iff_false_intro fun h ↦ hone h.1).symm
  rw [passAttributeList]
  split_ifs with hpos
  · refine ((Reader.recognizes_take _).bind fun bitmap ↦ Reader.recognizes_u8.bind fun flag ↦
      hflag bitmap flag).congr fun b _ ↦ ⟨?_, fun h ↦ ?_⟩
    · rintro ⟨bitmap, _, _, rfl, ⟨rfl, hbitmap⟩, _, _, _, rfl, rfl, rfl, types, names, values, rfl,
        ⟨rfl, hnames⟩, hvalues⟩
      rw [List.singleton_append]
      exact .some (List.ne_nil_of_length_pos hpos) hbitmap hnames hvalues
    · cases h with
      | nil => exact absurd hpos (Nat.lt_irrefl 0)
      | @some bitmap names values types hne hbitmap hnames hvalues =>
        exact ⟨bitmap, bitmap, _, rfl, ⟨rfl, hbitmap⟩, 1, [1], _, rfl, rfl, rfl, types, names,
          values, rfl, ⟨rfl, hnames⟩, hvalues⟩
  · obtain rfl : n = 0 := Nat.eq_zero_of_not_pos hpos
    refine (Recognizes.pure ()).congr fun b _ ↦ ⟨?_, fun h ↦ ?_⟩
    · rintro ⟨rfl, -⟩
      exact .nil
    · generalize hn : 0 = n at h
      cases h with
      | nil => exact ⟨rfl, rfl⟩
      | some hne => exact absurd (List.length_eq_zero_iff.mp hn.symm) hne

theorem recognizes_passAttributes : Recognizes passAttributes fun b _ ↦ IsAttributes b := by
  refine (Reader.recognizes_lenencInt.bind fun n ↦ Reader.recognizes_lenencInt.bind fun _ ↦
    recognizes_passAttributeList n).congr fun b _ ↦ ⟨?_, fun h ↦ ?_⟩
  · rintro ⟨n, count, _, rfl, hcount, m, sets, attributes, rfl, hsets, h⟩
    exact .mk hcount hsets h
  · obtain ⟨hcount, hsets, h⟩ := h
    exact ⟨_, _, _, rfl, hcount, _, _, _, rfl, hsets, h⟩

/-- **The text of a query is what stands behind its attributes**, and without attributes in front of
it there is none. -/
theorem attributesThenText_iff {args text rest : Bytes} :
    attributesThenText args = some (text, rest) ↔
      rest = text ∧ ∃ attributes, IsAttributes attributes ∧ args = attributes ++ text := by
  rw [attributesThenText_eq, Reader.bind_apply, Option.bind_eq_some_iff]
  constructor
  · rintro ⟨⟨_, left⟩, hpass, hrest⟩
    obtain ⟨rfl, rfl⟩ := Prod.mk.inj (Option.some.inj hrest)
    obtain ⟨attributes, rfl, h⟩ := recognizes_passAttributes.sound _ _ _ hpass
    exact ⟨rfl, attributes, h, rfl⟩
  · rintro ⟨rfl, attributes, h, rfl⟩
    exact ⟨((), rest), recognizes_passAttributes.complete _ () h rest, rfl⟩

-- One attribute, a string of the name `a` and the value `x`.
example : (attributesThenText ([1, 1, 0, 1, FieldType.STRING, 0, 1] ++ ascii "a" ++
    1 :: ascii "xSELECT 1")).map Prod.fst = some (ascii "SELECT 1") := by
  decide +kernel

end SqlReplay
