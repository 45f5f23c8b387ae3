import SqlReplay.Proto.LongData
import SqlReplay.Proto.BinaryWire
import Mathlib.Tactic.IntervalCases

/-!
# Executes, encoded and decoded

The client's side of a COM_STMT_EXECUTE: the parameters with their types, what of them is sent
ahead, and the packet. An execute that sends no types means those of the last one that did, so what
a packet says depends on the packets before it; `Execute.ValidRun` is a run of executes that keep to
this, and `Statements.Ready` is what each of them leaves behind for the next.

Every value of a well-formed execute is read back where its client put it, with one exception. Long
data is kept under 16 bits of the parameter's place, which is enough for the parameters of a
statement, but the loop over the values also looks there for query attributes. An attribute a
multiple of 65536 places behind a parameter that was sent ahead is taken for that parameter, and
its bytes for the value behind it (`wrapping`). `Execute.Distinct` leaves out exactly these, and
an execute of up to 65536 values has none (`Execute.Valid.distinct`).
-/

namespace SqlReplay

/-! ## The NULL bitmap -/

/-- Eight flags in a byte, the first one lowest. -/
def packByte (f : ℕ → Bool) : UInt8 :=
  let bit (j : ℕ) (value : UInt8) := if f j then value else 0
  bit 0 1 ||| bit 1 2 ||| bit 2 4 ||| bit 3 8 ||| bit 4 16 ||| bit 5 32 ||| bit 6 64 ||| bit 7 128

/-- The NULL bitmap of a list of parameters. -/
def nullBitmap (nulls : List Bool) : Bytes :=
  (List.range ((nulls.length + 7) / 8)).map fun k ↦
    packByte fun j ↦ nulls.getD (8 * k + j) false

@[simp] theorem length_nullBitmap (nulls : List Bool) :
    (nullBitmap nulls).length = (nulls.length + 7) / 8 := by
  rw [nullBitmap, List.length_map, List.length_range]

/-- Through a mask each part of a byte is seen on its own. -/
theorem shiftRight_or_and_one (a b s : UInt8) :
    (a ||| b) >>> s &&& 1 = (a >>> s &&& 1) ||| (b >>> s &&& 1) := by
  rw [UInt8.shiftRight_or]
  exact UInt8.toBitVec_inj.mp BitVec.and_or_distrib_right

/-- A flag is seen through the mask of its own place only. -/
theorem flag_shiftRight_and_one (flag : Bool) (value : UInt8) (k : Fin 8) {j : ℕ} (hj : j < 8)
    (hvalue : value = 1 <<< k.val.toUInt8) :
    (if flag = true then value else 0) >>> j.toUInt8 &&& 1 =
      if (flag && j == k.val) = true then 1 else 0 := by
  have hall : ∀ (flag : Bool) (k j : Fin 8),
      (if flag = true then (1 : UInt8) <<< k.val.toUInt8 else 0) >>> j.val.toUInt8 &&& 1 =
        if (flag && j.val == k.val) = true then 1 else 0 := by decide
  rw [hvalue]
  exact hall flag k ⟨j, hj⟩

theorem bit_packByte (f : ℕ → Bool) {j : ℕ} (hj : j < 8) :
    (packByte f >>> j.toUInt8 &&& 1 != 0) = f j := by
  simp only [packByte, shiftRight_or_and_one]
  rw [flag_shiftRight_and_one (f 0) 1 0 hj rfl, flag_shiftRight_and_one (f 1) 2 1 hj rfl,
    flag_shiftRight_and_one (f 2) 4 2 hj rfl, flag_shiftRight_and_one (f 3) 8 3 hj rfl,
    flag_shiftRight_and_one (f 4) 16 4 hj rfl, flag_shiftRight_and_one (f 5) 32 5 hj rfl,
    flag_shiftRight_and_one (f 6) 64 6 hj rfl, flag_shiftRight_and_one (f 7) 128 7 hj rfl]
  have hone (b : Bool) : ((if b = true then 1 else 0 : UInt8) != 0) = b := by
    cases b <;> rfl
  -- of the eight flags only the one of the place is left
  interval_cases j <;> simp [hone]

theorem isNullParam_nullBitmap {nulls : List Bool} {i : ℕ} (h : i < nulls.length) :
    isNullParam (nullBitmap nulls) i = nulls.getD i false := by
  have hbyte : (nullBitmap nulls).getD (i / 8) 0 =
      packByte fun j ↦ nulls.getD (8 * (i / 8) + j) false := by
    rw [nullBitmap, List.getD_eq_getElem?_getD, List.getElem?_map,
      List.getElem?_range (by omega), Option.map_some, Option.getD_some]
  rw [isNullParam, hbyte, bit_packByte _ (Nat.mod_lt i (by decide)), Nat.div_add_mod]

/-! ## Parameters -/

/-- How a parameter's value travels: as a bit of the NULL bitmap, in the packet, or in long data
sent ahead of it. -/
inductive Payload
  | null
  | inPacket (v : ParamValue)
  | ahead (data : Bytes)

/-- A parameter of an execute. The name is sent with query attributes only. -/
structure Param where
  name : Bytes
  type : ParamType
  payload : Payload

namespace Param

def isNull (p : Param) : Bool :=
  match p.payload with
  | .null => true
  | _ => false

/-- The bytes of its value in the packet. -/
def encode (p : Param) : Bytes :=
  match p.payload with
  | .inPacket v => v.encode p.type.1
  | _ => []

/-- The SQL literal of its value. -/
def literal (p : Param) : Bytes :=
  match p.payload with
  | .null => ascii "NULL"
  | .inPacket v => v.literal
  | .ahead data => bytesLiteral data

/-- Its value and its name fit the wire. -/
def Fits (p : Param) : Prop :=
  p.name.length < 2 ^ 64 ∧
    match p.payload with
    | .inPacket v => v.Fits p.type.1 p.type.2
    | _ => True

end Param

/-- The types section: each type with its flags, and its name when names are sent. -/
def encodeTypes (named : Bool) (ps : List Param) : Bytes :=
  ps.flatMap fun p ↦ [p.type.1, p.type.2] ++ if named then lenencString p.name else []

def encodeValues (ps : List Param) : Bytes := ps.flatMap Param.encode

theorem reads_paramTypes (named : Bool) {ps : List Param} (h : ∀ p ∈ ps, p.Fits) :
    Reads (paramTypes named ps.length) (encodeTypes named ps) (ps.map Param.type) := by
  induction ps with
  | nil => exact Reads.pure []
  | cons p ps ih =>
    obtain ⟨hp, hps⟩ := List.forall_mem_cons.mp h
    have hrest := (ih hps).bind_pure (f := fun types ↦ pure (p.type :: types))
      (Reads.pure (p.type :: ps.map Param.type))
    have hcons : encodeTypes named (p :: ps) = [p.type.1] ++ ([p.type.2] ++
        ((if named then lenencString p.name else []) ++ encodeTypes named ps)) := by
      rw [encodeTypes, List.flatMap_cons, List.append_assoc]
      rfl
    rw [hcons]
    refine (Reader.reads_u8 p.type.1).bind ((Reader.reads_u8 p.type.2).bind ?_)
    dsimp only
    cases named with
    | false => exact hrest
    | true => exact (Reader.reads_lenencBytes hp.1).bind hrest

/-- A parameter whose place in the bitmap and in the long data says how its value travels. -/
def Param.Placed (bitmap : Bytes) (sent : ℕ → Option Bytes) (i : ℕ) (p : Param) : Prop :=
  match p.payload with
  | .null => isNullParam bitmap i = true
  | .inPacket _ => isNullParam bitmap i = false ∧ sent i = none
  | .ahead data => isNullParam bitmap i = false ∧ sent i = some (bytesLiteral data)

/-- The loop over the values reads those of placed parameters and goes on behind them. -/
theorem paramValues_append {bitmap : Bytes} {sent : ℕ → Option Bytes} {i : ℕ} {ps : List Param}
    (hfits : ∀ p ∈ ps, p.Fits)
    (hplaced : ∀ j (p : Param), ps[j]? = some p → p.Placed bitmap sent (i + j))
    (types : List ParamType) (rest : Bytes) :
    paramValues bitmap sent i (ps.map Param.type ++ types) (encodeValues ps ++ rest) =
      (paramValues bitmap sent (i + ps.length) types rest).map fun r ↦
        (ps.map Param.literal ++ r.1, r.2) := by
  induction ps generalizing i with
  | nil =>
    show paramValues bitmap sent i types rest = (paramValues bitmap sent i types rest).map id
    rw [Option.map_id, id]
  | cons p ps ih =>
    obtain ⟨hp, hps⟩ := List.forall_mem_cons.mp hfits
    have hhead : p.Placed bitmap sent i := hplaced 0 p rfl
    have htail := @ih (i + 1) hps fun j q hq ↦ by
      rw [Nat.add_assoc, Nat.add_comm 1]
      exact hplaced (j + 1) q hq
    have hcons : encodeValues (p :: ps) ++ rest = p.encode ++ (encodeValues ps ++ rest) := by
      rw [encodeValues, List.flatMap_cons, List.append_assoc]
      rfl
    rw [List.length_cons, Nat.add_comm ps.length, ← Nat.add_assoc]
    generalize paramValues bitmap sent (i + 1 + ps.length) types rest = tail at htail ⊢
    rw [hcons, List.map_cons, List.cons_append, paramValues]
    rw [Param.Placed] at hhead
    -- of the three kinds only the one in the packet takes bytes from it
    obtain ⟨name, type, payload⟩ := p
    cases payload with
    | null =>
      dsimp only at hhead ⊢
      rw [if_pos hhead, Reader.bind_apply]
      show (paramValues bitmap sent (i + 1) _ (encodeValues ps ++ rest)).bind _ = _
      rw [htail]
      cases tail <;> rfl
    | inPacket v =>
      dsimp only at hhead ⊢
      rw [if_neg (by rw [hhead.1]; decide), hhead.2]
      dsimp only
      rw [Reader.bind_apply]
      have hvalue := reads_decodeBinaryValue hp.2 (encodeValues ps ++ rest)
      dsimp only at hvalue ⊢
      rw [Param.encode]
      dsimp only
      rw [hvalue, Option.bind_some, Reader.bind_apply, htail]
      cases tail <;> rfl
    | ahead data =>
      dsimp only at hhead ⊢
      rw [if_neg (by rw [hhead.1]; decide), hhead.2]
      dsimp only
      rw [Reader.bind_apply]
      show (paramValues bitmap sent (i + 1) _ (encodeValues ps ++ rest)).bind _ = _
      rw [htail]
      cases tail <;> rfl

/-! ## Executes -/

/-- An execute as its client means it: the long data sent ahead of it, piece by piece, and the
packet itself. `bound` says whether the packet sends the types. -/
structure Execute where
  chunks : List (UInt16 × Bytes)
  flags : UInt8
  iterations : UInt32
  params : List Param
  attributes : List Param
  bound : Bool

namespace Execute

/-- Whether the packet has a query-attribute section. -/
def named (queryAttrs : Bool) (e : Execute) : Bool :=
  queryAttrs && e.flags &&& PARAMETER_COUNT_AVAILABLE != 0

/-- The parameters of the statement and the query attributes behind them. -/
def all (e : Execute) : List Param := e.params ++ e.attributes

def types (e : Execute) : List ParamType := e.all.map Param.type

/-- The pieces sent ahead for a parameter. -/
def chunksOf (e : Execute) (param : UInt16) : List Bytes :=
  (e.chunks.filter fun c ↦ c.1 == param).map Prod.snd

/-- The long data that the pieces make. -/
def sentAhead (e : Execute) (param : UInt16) : Option Bytes :=
  if e.chunksOf param = [] then none else some (e.chunksOf param).flatten

/-- The arguments of a COM_STMT_SEND_LONG_DATA. -/
def chunkArgs (id : UInt32) (c : UInt16 × Bytes) : Bytes :=
  leBytes 4 id.toNat ++ leBytes 2 c.1.toNat ++ c.2

/-- The packet behind the header and the parameter count. -/
def encodeBody (named : Bool) (e : Execute) : Bytes :=
  (nullBitmap (e.all.map Param.isNull) ++ [if e.bound then 1 else 0]) ++
    ((if e.bound then encodeTypes named e.all else []) ++ encodeValues e.all)

/-- The arguments of the COM_STMT_EXECUTE. -/
def args (queryAttrs : Bool) (id : UInt32) (e : Execute) : Bytes :=
  (leBytes 4 id.toNat ++ ([e.flags] ++ leBytes 4 e.iterations.toNat)) ++
    ((if e.named queryAttrs then lenenc e.all.length else []) ++
      if e.all = [] then [] else e.encodeBody (e.named queryAttrs))

/-- What the loop over the values makes of the packet. -/
def readValues (e : Execute) : Option (List Bytes × Bytes) :=
  paramValues (nullBitmap (e.all.map Param.isNull))
    (fun i ↦ (e.sentAhead i.toUInt16).map bytesLiteral) 0 e.types (encodeValues e.all)

/-- The types that are remembered behind the execute: its own where it sends them. -/
def remembered (e : Execute) (types : Option (List ParamType)) : Option (List ParamType) :=
  if e.bound = true ∧ e.all ≠ [] then some e.types else types

/-- A well-formed execute of a statement with `numParams` parameters, where `types` are the types
remembered from the last execute that sent some. -/
structure Valid (queryAttrs : Bool) (numParams : ℕ) (types : Option (List ParamType))
    (e : Execute) : Prop where
  length_params : e.params.length = numParams
  attributes_eq : e.named queryAttrs = false → e.attributes = []
  length_lt : e.all.length < 2 ^ 64
  fits : ∀ p ∈ e.all, p.Fits
  /-- Long data is sent for parameters of the statement. -/
  chunks_lt : ∀ c ∈ e.chunks, c.1.toNat < numParams
  /-- A value sent ahead is what its pieces make, and a value in the packet has no pieces. -/
  sent_eq : ∀ (i : ℕ) (p : Param), e.params[i]? = some p →
    match p.payload with
    | .null => True
    | .inPacket _ => e.sentAhead i.toUInt16 = none
    | .ahead data => e.sentAhead i.toUInt16 = some data
  attributes_sent : ∀ p ∈ e.attributes, ∀ data, p.payload ≠ .ahead data
  /-- An execute that sends no types has those of the last one that did. -/
  types_eq : e.bound = false → e.all ≠ [] →
    ∃ remembered, types = some remembered ∧ e.types <+: remembered

/-- The 16 bits of a long data key tell the places of the execute apart: no attribute with a value
stands a multiple of 65536 places behind a parameter that was sent ahead. -/
def Distinct (e : Execute) : Prop :=
  ∀ j (p : Param), e.attributes[j]? = some p → p.payload ≠ .null →
    ∀ c ∈ e.chunks, c.1 ≠ (e.params.length + j).toUInt16

end Execute

namespace Statements

/-- The long data of one execute arrives, and then the execute. -/
def onExecution (s : Statements) (queryAttrs : Bool) (id : UInt32) (e : Execute) :
    Statements × Option Bytes :=
  (e.chunks.foldl (fun s c ↦ s.onSendLongData (Execute.chunkArgs id c)) s).decodeExecute queryAttrs
    (e.args queryAttrs id)

/-- Executions of one statement, and what each is expanded to. -/
def runExecutions (queryAttrs : Bool) (id : UInt32) :
    Statements → List Execute → Statements × List (Option Bytes)
  | s, [] => (s, [])
  | s, e :: es =>
    let r := s.onExecution queryAttrs id e
    let t := runExecutions queryAttrs id r.1 es
    (t.1, r.2 :: t.2)

end Statements

/-! ## One execution -/

namespace Statements

/-- The arguments of a piece of long data. -/
theorem onSendLongData_chunkArgs (s : Statements) (id : UInt32) (c : UInt16 × Bytes) :
    s.onSendLongData (Execute.chunkArgs id c) =
      { s with
        longData := fun k ↦
          if k = (id, c.1) then some ((s.longData (id, c.1)).getD [] ++ c.2)
          else s.longData k } := by
  have hid : argId (Execute.chunkArgs id c) = id := by
    show (leNat (leBytes 4 id.toNat)).toUInt32 = id
    rw [leNat_uint32]
    exact UInt32.ofNat_toNat
  have hparam : (leNat (((Execute.chunkArgs id c).drop 4).take 2)).toUInt16 = c.1 := by
    show (leNat (leBytes 2 c.1.toNat)).toUInt16 = c.1
    rw [leNat_uint16]
    exact UInt16.ofNat_toNat
  have hlength : ¬(Execute.chunkArgs id c).length < 6 := by
    rw [Execute.chunkArgs, List.length_append, List.length_append, length_leBytes, length_leBytes]
    omega
  rw [onSendLongData, if_neg hlength, hid, hparam]
  rfl

/-- Pieces are joined behind what was sent before. -/
theorem foldl_onSendLongData (s : Statements) (id : UInt32) (chunks : List (UInt16 × Bytes)) :
    let s' := chunks.foldl (fun s c ↦ s.onSendLongData (Execute.chunkArgs id c)) s
    s'.stmts = s.stmts ∧ ∀ param, s'.longData (id, param) =
      if (chunks.filter fun c ↦ c.1 == param) = [] then s.longData (id, param)
      else some ((s.longData (id, param)).getD [] ++
        ((chunks.filter fun c ↦ c.1 == param).map Prod.snd).flatten) := by
  induction chunks generalizing s with
  | nil => exact ⟨rfl, fun _ ↦ rfl⟩
  | cons c chunks ih =>
    have hrest := ih (s.onSendLongData (Execute.chunkArgs id c))
    rw [onSendLongData_chunkArgs] at hrest
    refine ⟨by rw [List.foldl_cons, onSendLongData_chunkArgs]; exact hrest.1, fun param ↦ ?_⟩
    rw [List.foldl_cons, onSendLongData_chunkArgs, hrest.2 param]
    by_cases hparam : c.1 = param
    · subst hparam
      rw [List.filter_cons_of_pos (by simp)]
      dsimp only
      rw [if_pos rfl, if_neg (List.cons_ne_nil _ _)]
      by_cases hnil : (chunks.filter fun d ↦ d.1 == c.1) = []
      · rw [if_pos hnil, hnil]
        simp
      · rw [if_neg hnil]
        simp
    · rw [List.filter_cons_of_neg (by simpa using hparam)]
      dsimp only
      rw [if_neg fun h ↦ hparam (Prod.mk.inj h).2.symm]

/-- A statement that waits for its next execution: no long data is left over. -/
structure Ready (s : Statements) (id : UInt32) (stmt : PreparedStmt) : Prop where
  registered : s.stmts id = some stmt
  longData_eq : ∀ param, s.longData (id, param) = none

/-- What arrived ahead of an execution. -/
theorem Ready.sent {s : Statements} {id : UInt32} {stmt : PreparedStmt} (h : s.Ready id stmt)
    (e : Execute) :
    let s' := e.chunks.foldl (fun s c ↦ s.onSendLongData (Execute.chunkArgs id c)) s
    s'.stmts id = some stmt ∧ ∀ param, s'.longData (id, param) = e.sentAhead param := by
  obtain ⟨hstmts, hlong⟩ := foldl_onSendLongData s id e.chunks
  refine ⟨by rw [hstmts, h.registered], fun param ↦ ?_⟩
  rw [hlong, h.longData_eq, Execute.sentAhead, Execute.chunksOf]
  simp only [List.map_eq_nil_iff, Option.getD_none, List.nil_append]

end Statements

namespace Execute

variable {queryAttrs : Bool} {numParams : ℕ} {types : Option (List ParamType)} {e : Execute}

/-- A value stands where the bitmap and the long data say, unless it is an attribute's and its key
is that of a parameter sent ahead. -/
theorem Valid.placed (h : e.Valid queryAttrs numParams types) {i : ℕ} {p : Param}
    (hp : e.all[i]? = some p)
    (hkey : e.params.length ≤ i → p.payload ≠ .null → ∀ c ∈ e.chunks, c.1 ≠ i.toUInt16) :
    p.Placed (nullBitmap (e.all.map Param.isNull))
      (fun i ↦ (e.sentAhead i.toUInt16).map bytesLiteral) i := by
  have hi : i < e.all.length := (List.getElem?_eq_some_iff.mp hp).1
  have hnull : isNullParam (nullBitmap (e.all.map Param.isNull)) i = p.isNull := by
    rw [isNullParam_nullBitmap (by rwa [List.length_map]), List.getD_eq_getElem?_getD,
      List.getElem?_map, hp]
    rfl
  by_cases hparam : i < e.params.length
  · -- a parameter of the statement: what was sent ahead for it is its own
    rw [all, List.getElem?_append_left hparam] at hp
    have hsent := h.sent_eq i p hp
    obtain ⟨name, type, payload⟩ := p
    cases payload with
    | null => exact hnull
    | inPacket v => exact ⟨hnull, congrArg (Option.map bytesLiteral) hsent⟩
    | ahead data => exact ⟨hnull, congrArg (Option.map bytesLiteral) hsent⟩
  · -- an attribute: nothing was sent ahead under its key
    have hle := Nat.le_of_not_lt hparam
    rw [all, List.getElem?_append_right hle] at hp
    have hahead := h.attributes_sent p (List.mem_of_getElem? hp)
    obtain ⟨name, type, payload⟩ := p
    cases payload with
    | null => exact hnull
    | inPacket v =>
      refine ⟨hnull, ?_⟩
      have hnone : e.chunksOf i.toUInt16 = [] := by
        rw [chunksOf, List.map_eq_nil_iff, List.filter_eq_nil_iff]
        intro c hc heq
        exact hkey hle (by rintro ⟨⟩) c hc (beq_iff_eq.mp heq)
      have hnothing : e.sentAhead i.toUInt16 = none := if_pos hnone
      exact congrArg (Option.map bytesLiteral) hnothing
    | ahead data => exact absurd rfl (hahead data)

/-- The loop over the values of a well-formed execute. -/
theorem Valid.readValues_eq (h : e.Valid queryAttrs numParams types) (hdistinct : e.Distinct) :
    e.readValues = some (e.all.map Param.literal, []) := by
  have happend := paramValues_append (i := 0) h.fits (fun i p hp ↦ by
    rw [Nat.zero_add]
    refine h.placed hp fun hle hpayload ↦ ?_
    obtain ⟨j, rfl⟩ := Nat.exists_eq_add_of_le hle
    rw [all, List.getElem?_append_right hle, Nat.add_sub_cancel_left] at hp
    exact hdistinct j p hp hpayload) [] []
  rw [List.append_nil, List.append_nil] at happend
  rw [readValues, Execute.types, happend, paramValues, Reader.pure_apply, Option.map_some,
    List.append_nil]

/-- Places below 65536 are told apart. -/
theorem Valid.distinct (h : e.Valid queryAttrs numParams types) (hfew : e.all.length ≤ 2 ^ 16) :
    e.Distinct := by
  intro j p hp _ c hc heq
  have hj : j < e.attributes.length := (List.getElem?_eq_some_iff.mp hp).1
  have hlow := h.chunks_lt c hc
  rw [all, List.length_append] at hfew
  rw [heq, ← h.length_params, Nat.toUInt16, UInt16.toNat_ofNat',
    Nat.mod_eq_of_lt (by omega)] at hlow
  omega

end Execute

namespace Statements

variable {s : Statements} {id : UInt32} {stmt : PreparedStmt} {queryAttrs : Bool} {e : Execute}

/-- The header of an execute is read back. -/
theorem reads_header (id : UInt32) (flags : UInt8) (iterations : UInt32) :
    Reads (do
      let id ← Reader.le 4
      let flags ← Reader.u8
      let _ ← Reader.take 4
      pure (id.toUInt32, flags) : Reader (UInt32 × UInt8))
      (leBytes 4 id.toNat ++ ([flags] ++ leBytes 4 iterations.toNat)) (id, flags) := by
  refine (Reader.reads_le id.toNat_lt).bind ((Reader.reads_u8 flags).bind ?_)
  have hskip := Reader.reads_take (leBytes 4 iterations.toNat)
  rw [length_leBytes] at hskip
  refine hskip.bind_pure (Reads.pure_of_eq ?_)
  rw [show id.toNat.toUInt32 = id from UInt32.ofNat_toNat]

theorem reads_bitmapAndFlag (bitmap : Bytes) (flag : UInt8) :
    Reads (do
      let bitmap ← Reader.take bitmap.length
      let newParamsBound ← Reader.u8
      pure (bitmap, newParamsBound) : Reader (Bytes × UInt8)) (bitmap ++ [flag]) (bitmap, flag) :=
  (Reader.reads_take bitmap).bind ((Reader.reads_u8 flag).bind_pure (Reads.pure _))

/-- The types of a well-formed execute, its own or the remembered ones. -/
theorem executeTypes_encode (h : e.Valid queryAttrs stmt.numParams stmt.paramTypes)
    (hne : e.all ≠ []) (hstmt : s.stmts id = some stmt) (named : Bool) :
    ∃ s' read, s.executeTypes id stmt (if e.bound then 1 else 0) named e.all.length
          ((if e.bound then encodeTypes named e.all else []) ++ encodeValues e.all) =
        (s', some (read, encodeValues e.all)) ∧ e.types <+: read ∧
      s'.stmts id = some { stmt with paramTypes := e.remembered stmt.paramTypes } ∧
      s'.longData = s.longData := by
  cases hbound : e.bound with
  | true =>
    refine ⟨s.register id { stmt with paramTypes := some e.types }, e.types, ?_,
      List.prefix_refl _, ?_, rfl⟩
    · rw [if_pos rfl, if_pos rfl, executeTypes, if_pos rfl,
        reads_paramTypes named h.fits (encodeValues e.all)]
      rfl
    · rw [Execute.remembered, if_pos ⟨hbound, hne⟩]
      exact if_pos rfl
  | false =>
    obtain ⟨types, htypes, hstart⟩ := h.types_eq hbound hne
    refine ⟨s, types, ?_, hstart, ?_, rfl⟩
    · rw [if_neg Bool.false_ne_true, if_neg Bool.false_ne_true, executeTypes,
        if_neg (by decide), htypes]
      rfl
    · rw [Execute.remembered, if_neg fun h ↦ Bool.false_ne_true (hbound.symm.trans h.1)]
      exact hstmt

/-- The values of a well-formed execute are read from its own packet and long data. -/
theorem executeValues_encode (h : e.Valid queryAttrs stmt.numParams stmt.paramTypes)
    (hstmt : s.stmts id = some stmt)
    (hsent : ∀ param, s.longData (id, param) = e.sentAhead param) (named : Bool) :
    ∃ s', s.executeValues id stmt named e.all.length
          (if e.all = [] then [] else e.encodeBody named) = (s', e.readValues.map Prod.fst) ∧
      s'.stmts id = some { stmt with paramTypes := e.remembered stmt.paramTypes } := by
  by_cases hne : e.all = []
  · refine ⟨s, ?_, ?_⟩
    · rw [if_pos hne, Execute.readValues, Execute.types, hne]
      rfl
    · rw [Execute.remembered, if_neg fun h ↦ h.2 hne]
      exact hstmt
  · obtain ⟨s', read, hread, hstart, hstmt', hlong⟩ := executeTypes_encode h hne hstmt named
    refine ⟨s', ?_, hstmt'⟩
    have hlen : e.all.length ≠ 0 := fun hzero ↦ hne (List.length_eq_zero_iff.mp hzero)
    have hfront := reads_bitmapAndFlag (nullBitmap (e.all.map Param.isNull))
      (if e.bound then 1 else 0)
      ((if e.bound then encodeTypes named e.all else []) ++ encodeValues e.all)
    rw [length_nullBitmap, List.length_map] at hfront
    have hcount : e.types.length = e.all.length := List.length_map _
    have htake : read.take e.all.length = e.types := by
      rw [← hcount]
      exact (List.prefix_iff_eq_take.mp hstart).symm
    rw [executeValues, if_neg hlen, if_neg hne, Execute.encodeBody, hfront]
    dsimp only
    rw [hread]
    dsimp only
    rw [if_neg (Nat.not_lt.mpr (hcount ▸ hstart.length_le)), htake, hlong]
    simp only [hsent]
    rfl

/-- One execution: the packet expands to the statement's text with the values that the loop reads,
and the types it sends are remembered. -/
theorem Ready.onExecution_of_values (h : s.Ready id stmt)
    (hvalid : e.Valid queryAttrs stmt.numParams stmt.paramTypes) :
    ∃ s' : Statements,
      s'.stmts id = some { stmt with paramTypes := e.remembered stmt.paramTypes } ∧
      s.onExecution queryAttrs id e =
        match e.readValues with
        | none => (s', none)
        | some (values, _) => (s'.dropLongData id,
            interpolate stmt.sql (values.take stmt.numParams) stmt.numParams) := by
  obtain ⟨hstmt, hsent⟩ := h.sent e
  rw [Statements.onExecution]
  generalize e.chunks.foldl (fun s c ↦ s.onSendLongData (Execute.chunkArgs id c)) s = s₁
    at hstmt hsent ⊢
  obtain ⟨s', hvalues, hstmt'⟩ := executeValues_encode hvalid hstmt hsent (e.named queryAttrs)
  refine ⟨s', hstmt', ?_⟩
  have hcount : Reads (if e.named queryAttrs then Reader.lenencInt else pure stmt.numParams)
      (if e.named queryAttrs then lenenc e.all.length else []) e.all.length := by
    cases hnamed : e.named queryAttrs with
    | true => exact Reader.reads_lenencInt hvalid.length_lt
    | false =>
      refine Reads.pure_of_eq ?_
      rw [Execute.all, hvalid.attributes_eq hnamed, List.append_nil, hvalid.length_params]
  rw [decodeExecute, Execute.args, reads_header id e.flags e.iterations]
  dsimp only
  rw [hstmt]
  dsimp only
  rw [show (queryAttrs && e.flags &&& PARAMETER_COUNT_AVAILABLE != 0) = e.named queryAttrs from rfl,
    hcount]
  dsimp only
  rw [hvalues]
  rcases e.readValues with _ | ⟨values, rest⟩ <;> rfl

/-- A well-formed execution expands to the statement's text with its own values, and leaves nothing
over for the next one. -/
theorem Ready.onExecution (h : s.Ready id stmt)
    (hvalid : e.Valid queryAttrs stmt.numParams stmt.paramTypes) (hdistinct : e.Distinct) :
    (s.onExecution queryAttrs id e).1.Ready id
        { stmt with paramTypes := e.remembered stmt.paramTypes } ∧
      (s.onExecution queryAttrs id e).2 =
        interpolate stmt.sql (e.params.map Param.literal) stmt.numParams := by
  obtain ⟨s', hstmt', hdecode⟩ := h.onExecution_of_values hvalid
  have hfirst : (e.all.map Param.literal).take stmt.numParams = e.params.map Param.literal := by
    rw [Execute.all, List.map_append, ← hvalid.length_params]
    conv_lhs => rw [← List.length_map Param.literal, List.take_left]
  rw [hvalid.readValues_eq hdistinct] at hdecode
  dsimp only at hdecode
  rw [hfirst] at hdecode
  rw [hdecode]
  exact ⟨⟨hstmt', fun _ ↦ if_pos rfl⟩, rfl⟩

end Statements

/-! ## Runs -/

namespace Execute

/-- A run of well-formed executes. Each one that sends its types leaves them for the next ones. -/
def ValidRun (queryAttrs : Bool) (numParams : ℕ) :
    Option (List ParamType) → List Execute → Prop
  | _, [] => True
  | types, e :: es =>
    e.Valid queryAttrs numParams types ∧ ValidRun queryAttrs numParams (e.remembered types) es

end Execute

namespace Statements

/-- Decoding undoes encoding over a whole run: every execution expands to the statement's text with
its own values. -/
theorem runExecutions_eq {s : Statements} {id : UInt32} {stmt : PreparedStmt}
    (hready : s.Ready id stmt) {queryAttrs : Bool} {es : List Execute}
    (hvalid : Execute.ValidRun queryAttrs stmt.numParams stmt.paramTypes es)
    (hdistinct : ∀ e ∈ es, e.Distinct) :
    (s.runExecutions queryAttrs id es).2 =
      es.map fun e ↦ interpolate stmt.sql (e.params.map Param.literal) stmt.numParams := by
  induction es generalizing s stmt with
  | nil => rfl
  | cons e es ih =>
    obtain ⟨he, hes⟩ := List.forall_mem_cons.mp hdistinct
    obtain ⟨hready', hout⟩ := hready.onExecution hvalid.1 he
    rw [runExecutions]
    dsimp only
    rw [ih hready' hvalid.2 hes, hout]
    rfl

end Statements

/-! ## Where the keys run out -/

section Samples

open FieldType

def sampleStmt : PreparedStmt := ⟨ascii "SELECT ?, ?", 2, none⟩

def sampleStatements : Statements where
  stmts id := if id = 1 then some sampleStmt else none
  longData _ := none

theorem sampleStatements_ready : sampleStatements.Ready 1 sampleStmt := ⟨rfl, fun _ ↦ rfl⟩

/-- A number in the packet and a text sent ahead in two pieces. -/
def sampleFirst : Execute where
  chunks := [(1, ascii "a"), (1, ascii "b")]
  flags := 0
  iterations := 1
  params := [⟨[], (LONG, 0), .inPacket (.integer (-5))⟩, ⟨[], (STRING, 0), .ahead (ascii "ab")⟩]
  attributes := []
  bound := true

/-- The next execute relies on these types. -/
def sampleSecond : Execute where
  chunks := []
  flags := 0
  iterations := 1
  params := [⟨[], (LONG, 0), .inPacket (.integer 7)⟩, ⟨[], (STRING, 0), .null⟩]
  attributes := []
  bound := false

theorem sampleFirst_valid : sampleFirst.Valid false 2 none where
  length_params := rfl
  attributes_eq := fun _ ↦ rfl
  length_lt := by decide
  fits := by
    intro p hp
    rcases List.mem_pair.mp hp with rfl | rfl
    · exact ⟨by decide, 4, rfl, by decide⟩
    · exact ⟨by decide, trivial⟩
  chunks_lt := by decide
  sent_eq := by
    rintro (_ | _ | i) p hp
    · obtain rfl := Option.some.inj hp
      rfl
    · obtain rfl := Option.some.inj hp
      rfl
    · cases hp
  attributes_sent := fun _ hp ↦ absurd hp List.not_mem_nil
  types_eq := fun h ↦ absurd h (by decide)

theorem sampleSecond_valid : sampleSecond.Valid false 2 (some [(LONG, 0), (STRING, 0)]) where
  length_params := rfl
  attributes_eq := fun _ ↦ rfl
  length_lt := by decide
  fits := by
    intro p hp
    rcases List.mem_pair.mp hp with rfl | rfl
    · exact ⟨by decide, 4, rfl, by decide⟩
    · exact ⟨by decide, trivial⟩
  chunks_lt := by decide
  sent_eq := by
    rintro (_ | _ | i) p hp
    · obtain rfl := Option.some.inj hp
      rfl
    · obtain rfl := Option.some.inj hp
      trivial
    · cases hp
  attributes_sent := fun _ hp ↦ absurd hp List.not_mem_nil
  types_eq := fun _ _ ↦ ⟨_, rfl, List.prefix_refl _⟩

theorem runExecutions_eq_sample :
    (sampleStatements.runExecutions false 1 [sampleFirst, sampleSecond]).2 =
      [some (ascii "SELECT -5, 'ab'"), some (ascii "SELECT 7, NULL")] := by
  have hdistinct : ∀ e ∈ [sampleFirst, sampleSecond], e.Distinct := by
    intro e he
    rcases List.mem_pair.mp he with rfl | rfl
    · exact sampleFirst_valid.distinct (by decide)
    · exact sampleSecond_valid.distinct (by decide)
  have hvalid : Execute.ValidRun false 2 none [sampleFirst, sampleSecond] :=
    ⟨sampleFirst_valid, sampleSecond_valid, trivial⟩
  rw [Statements.runExecutions_eq sampleStatements_ready hvalid hdistinct]
  decide +kernel

/-- A parameter sent ahead, and behind it so many attributes that the key of the first one with a
value is the parameter's. -/
def wrapping : Execute where
  chunks := [(0, ascii "x")]
  flags := PARAMETER_COUNT_AVAILABLE
  iterations := 1
  params := [⟨[], (STRING, 0), .ahead (ascii "x")⟩]
  attributes := List.replicate 65535 ⟨ascii "a", (TINY, 0), .null⟩ ++
    [⟨ascii "b", (TINY, UNSIGNED_FLAG), .inPacket (.integer 251)⟩,
      ⟨ascii "c", (STRING, 0), .inPacket (.bytes [])⟩]
  bound := true

/-- The parameter and the attributes without a value. -/
def wrappingFront : List Param :=
  ⟨[], (STRING, 0), .ahead (ascii "x")⟩ :: List.replicate 65535 ⟨ascii "a", (TINY, 0), .null⟩

theorem wrapping_all : wrapping.all = wrappingFront ++
    [⟨ascii "b", (TINY, UNSIGNED_FLAG), .inPacket (.integer 251)⟩,
      ⟨ascii "c", (STRING, 0), .inPacket (.bytes [])⟩] := rfl

theorem length_wrappingFront : wrappingFront.length = 65536 := by
  rw [wrappingFront, List.length_cons, List.length_replicate]

theorem length_wrapping_all : wrapping.all.length = 65538 := by
  rw [wrapping_all, List.length_append, length_wrappingFront]
  rfl

theorem mem_wrapping_attributes {p : Param} (hp : p ∈ wrapping.attributes) :
    p = ⟨ascii "a", (TINY, 0), .null⟩ ∨
      p = ⟨ascii "b", (TINY, UNSIGNED_FLAG), .inPacket (.integer 251)⟩ ∨
      p = ⟨ascii "c", (STRING, 0), .inPacket (.bytes [])⟩ := by
  rcases List.mem_append.mp hp with hp | hp
  · exact Or.inl (List.eq_of_mem_replicate hp)
  · exact Or.inr (List.mem_pair.mp hp)

theorem wrapping_valid : wrapping.Valid true 1 none where
  length_params := rfl
  attributes_eq := fun h ↦ absurd h (by decide)
  length_lt := by
    rw [length_wrapping_all]
    decide
  fits := by
    intro p hp
    rcases List.mem_append.mp hp with hp | hp
    · obtain rfl := List.mem_singleton.mp hp
      exact ⟨by decide, trivial⟩
    · rcases mem_wrapping_attributes hp with rfl | rfl | rfl
      · exact ⟨by decide, trivial⟩
      · exact ⟨by decide, 1, rfl, by decide⟩
      · exact ⟨by decide, rfl, by decide⟩
  chunks_lt := by decide
  sent_eq := by
    rintro (_ | i) p hp
    · obtain rfl := Option.some.inj hp
      rfl
    · cases hp
  attributes_sent := by
    intro p hp data hpayload
    rcases mem_wrapping_attributes hp with rfl | rfl | rfl
    all_goals cases hpayload
  types_eq := fun h ↦ absurd h (by decide)

/-- The first attribute with a value is taken for the parameter's long data, and its byte for the
length of the next one's value: no length begins with it. -/
theorem wrapping_readValues : wrapping.readValues = none := by
  have hfront : ∀ (i : ℕ) (p : Param), wrappingFront[i]? = some p →
      wrapping.all[i]? = some p ∧ (0 < i → p.payload = .null) := by
    intro i p hp
    refine ⟨?_, fun hi ↦ ?_⟩
    · rw [wrapping_all, List.getElem?_append_left (List.getElem?_eq_some_iff.mp hp).1, hp]
    · obtain ⟨i, rfl⟩ := Nat.exists_eq_add_of_lt hi
      rw [Nat.zero_add, wrappingFront, List.getElem?_cons_succ] at hp
      rw [List.eq_of_mem_replicate (List.mem_of_getElem? hp)]
  have hlast (i : ℕ) {p : Param} (hp : wrapping.all[65536 + i]? = some p) :
      isNullParam (nullBitmap (wrapping.all.map Param.isNull)) (65536 + i) = p.isNull := by
    have hlt := (List.getElem?_eq_some_iff.mp hp).1
    rw [isNullParam_nullBitmap (by rwa [List.length_map]), List.getD_eq_getElem?_getD,
      List.getElem?_map, hp]
    rfl
  have hget (i : ℕ) : wrapping.all[65536 + i]? =
      [(⟨ascii "b", (TINY, UNSIGNED_FLAG), .inPacket (.integer 251)⟩ : Param),
        ⟨ascii "c", (STRING, 0), .inPacket (.bytes [])⟩][i]? := by
    rw [wrapping_all, List.getElem?_append_right (by rw [length_wrappingFront]; omega),
      length_wrappingFront, Nat.add_sub_cancel_left]
  have hfits : ∀ p ∈ wrappingFront, p.Fits := fun p hp ↦
    wrapping_valid.fits p (by rw [wrapping_all]; exact List.mem_append_left _ hp)
  have happend := @paramValues_append (nullBitmap (wrapping.all.map Param.isNull))
    (fun i ↦ (wrapping.sentAhead i.toUInt16).map bytesLiteral) 0 wrappingFront hfits
    (fun i p hp ↦ by
      rw [Nat.zero_add]
      refine wrapping_valid.placed (hfront i p hp).1 fun hle hpayload ↦ ?_
      exact absurd ((hfront i p hp).2 hle) hpayload)
    [(TINY, UNSIGNED_FLAG), (STRING, 0)] [251, 0]
  have htypes : wrapping.types = wrappingFront.map Param.type ++
      [(TINY, UNSIGNED_FLAG), (STRING, 0)] := by
    rw [Execute.types, wrapping_all, List.map_append]
    rfl
  have hvalues : encodeValues wrapping.all = encodeValues wrappingFront ++ [251, 0] := by
    rw [wrapping_all, encodeValues, List.flatMap_append]
    rfl
  rw [Execute.readValues, htypes, hvalues, happend, length_wrappingFront]
  have hwrapped : wrapping.sentAhead (65536 + 0).toUInt16 = some (ascii "x") := by decide
  have hnone : wrapping.sentAhead (65536 + 1).toUInt16 = none := by decide
  have hread : decodeBinaryValue STRING 0 [251, 0] = none := rfl
  rw [Nat.zero_add, paramValues, if_neg (by rw [hlast 0 (hget 0)]; decide), hwrapped]
  dsimp only [Option.map_some]
  rw [Reader.bind_apply, paramValues, if_neg (by rw [hlast 1 (hget 1)]; decide), hnone]
  dsimp only [Option.map_none]
  rw [Reader.bind_apply, hread]
  rfl

/-- A run whose keys run out: the execute is well formed, and yet nothing comes out of it. -/
theorem runExecutions_wrapping :
    let stmt : PreparedStmt := ⟨ascii "SELECT ?", 1, none⟩
    let s : Statements := ⟨fun id ↦ if id = 1 then some stmt else none, fun _ ↦ none⟩
    s.Ready 1 stmt ∧ Execute.ValidRun true stmt.numParams stmt.paramTypes [wrapping] ∧
      (s.runExecutions true 1 [wrapping]).2 = [none] ∧
      [wrapping].map (fun e ↦ interpolate stmt.sql (e.params.map Param.literal) stmt.numParams) =
        [some (ascii "SELECT 'x'")] := by
  intro stmt s
  have hready : s.Ready 1 stmt := ⟨rfl, fun _ ↦ rfl⟩
  obtain ⟨s', -, hrun⟩ := hready.onExecution_of_values wrapping_valid
  rw [wrapping_readValues] at hrun
  refine ⟨hready, ⟨wrapping_valid, trivial⟩, ?_, by decide +kernel⟩
  rw [Statements.runExecutions, hrun]
  rfl

end Samples

end SqlReplay
