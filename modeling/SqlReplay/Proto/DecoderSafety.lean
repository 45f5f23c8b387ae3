import SqlReplay.Proto.LongData
import SqlReplay.Proto.Renderable

/-!
# Decoding without a panic

The two packets that carry values, COM_QUERY and COM_STMT_EXECUTE, decoded with every operation
checked. In a state that a connection can reach, and for a payload that its assembler can complete,
decoding goes through exactly when the hours of every TIME value that it comes to fit 32 bits, and
then it does what the plain decoder does. It also gives up every statement with a value that cannot
be rendered, unless that is a float: `ConnDecoder.decodes_iff` has the condition for both.

The state matters in one place. The values of an execute are collected in a vector of as many
elements as the statement has parameters, a `u16` of the prepare response; the payload matters in
another, as the number of attributes is a 64-bit number that only the NULL bitmap bounds. Nothing
else depends on what was registered, remembered or sent ahead.
-/

namespace SqlReplay

/-! ## Executes -/

namespace Statements

variable {s : Statements} {id : UInt32} {stmt : PreparedStmt} {r : Cursor UInt8}

theorem executeTypes_outcome (hstmt : s.stmts id = some stmt) (flag : UInt8) (named : Bool) {n : ℕ}
    (hn : (n + 7) / 8 ≤ maxLogicalPacket) (hr : r.Valid maxLogicalPacket) :
    (typesOf stmt flag named n r.left = none ∧
        s.executeTypesChecked id flag named n r = some (s, none) ∧
        s.executeTypes id stmt flag named n r.left = (s, none)) ∨
      ∃ types r' s', r'.Valid maxLogicalPacket ∧ s'.longData = s.longData ∧
        typesOf stmt flag named n r.left = some (types, r'.left) ∧
        s.executeTypesChecked id flag named n r = some (s', some (types, r')) ∧
        s.executeTypes id stmt flag named n r.left = (s', some (types, r'.left)) := by
  unfold typesOf executeTypesChecked executeTypes
  by_cases hflag : flag = 1
  · rw [if_pos hflag, if_pos hflag, if_pos hflag, capacity_of_bitmap hn]
    obtain ⟨hy, hx⟩ | ⟨types, r', hr', -, hy, hx⟩ := (safe_paramTypes named n).outcome hr
    · rw [hy, hx]
      exact .inl ⟨rfl, rfl, rfl⟩
    · rw [hy, hx]
      refine .inr ⟨types, r', s.register id { stmt with paramTypes := some types }, hr', rfl, rfl,
        ?_, rfl⟩
      show (s.stmts id).bind _ = _
      rw [hstmt]
      rfl
  · rw [if_neg hflag, if_neg hflag, if_neg hflag, hstmt]
    cases htypes : stmt.paramTypes with
    | none =>
      refine .inl ⟨rfl, ?_, rfl⟩
      rw [Option.bind_some, htypes]
      rfl
    | some types =>
      refine .inr ⟨types, r, s, hr, rfl, rfl, ?_, rfl⟩
      rw [Option.bind_some, htypes]
      rfl

theorem executeValues_panicsUnless (hstmt : s.stmts id = some stmt) (named : Bool) {n : ℕ}
    (hn : n < 2 ^ 64) (hr : r.Valid maxLogicalPacket) :
    PanicsUnless (∀ v ∈ s.valuesOf id stmt named n r.left, v.HoursFit)
      (s.executeValuesChecked id named n r) (s.executeValues id stmt named n r.left) := by
  unfold valuesOf executeValuesChecked executeValues
  by_cases hzero : n = 0
  · rw [if_pos hzero, if_pos hzero, if_pos hzero]
    exact .of_eq (List.forall_mem_nil _) rfl
  rw [if_neg hzero, if_neg hzero, if_neg hzero]
  obtain ⟨hy, hx⟩ | ⟨⟨bitmap, flag⟩, r₁, hr₁, hret, hy, hx⟩ := (safe_bitmapAndFlag hn).outcome hr
  · rw [behind_of_none hy, hy, hx]
    exact .of_eq (List.forall_mem_nil _) rfl
  rw [behind_of_some hy, hy, hx]
  have hbitmap : bitmap.length = (n + 7) / 8 ∧ (n + 7) / 8 ≤ maxLogicalPacket := by
    obtain ⟨b, rest, hb, hread⟩ := hret
    obtain ⟨bm, b₁, htake, hread⟩ := Reader.bind_eq_some hread
    obtain ⟨fl, b₂, -, hread⟩ := Reader.bind_eq_some hread
    obtain ⟨heq, -⟩ := Prod.mk.inj (Option.some.inj hread)
    obtain ⟨rfl, rfl⟩ := Prod.mk.inj heq
    exact length_of_take ⟨b, b₁, hb, htake⟩
  obtain ⟨hy, hx, hp⟩ | ⟨types, r₂, s', hr₂, hlong, hy, hx, hp⟩ :=
    executeTypes_outcome hstmt flag named hbitmap.2 hr₁
  · rw [behind_of_none hy]
    dsimp only
    rw [hp]
    refine .of_eq (List.forall_mem_nil _) ?_
    show (s.executeTypesChecked id flag named n r₁).bind _ = _
    rw [hx]
    rfl
  · rw [behind_of_some hy]
    dsimp only
    rw [hp]
    show PanicsUnless _ ((s.executeTypesChecked id flag named n r₁).bind _) _
    rw [hx, Option.bind_some]
    dsimp only
    by_cases hfew : types.length < n
    · rw [if_pos hfew, if_pos hfew, if_pos hfew]
      exact .of_eq (List.forall_mem_nil _) rfl
    · rw [if_neg hfew, if_neg hfew, if_neg hfew, ← hlong]
      have hvalues := checks_paramValues bitmap
        (fun i ↦ (s'.longData (id, i.toUInt16)).map bytesLiteral) (types.take n) 0
        (by rw [List.length_take, hbitmap.1]; omega)
      exact hvalues.panicsUnless hr₂ fun values ↦ (s', values)

theorem slice_values (values : List Bytes) (n : ℕ) :
    Checked.slice values 0 (min n values.length) = some (values.take n) := by
  rw [Checked.slice_of_le (Nat.zero_le _) (min_le_right _ _), List.drop_zero,
    ← List.take_eq_take_min]

theorem safe_executeHeader : Safe maxLogicalPacket executeHeader
    (do
      let id ← Reader.le 4
      let flags ← Reader.u8
      let _ ← Reader.take 4
      pure (id.toUInt32, flags)) :=
  (safe_leArray 4).bind fun _ _ ↦ safe_u8.bind fun _ _ ↦ (safe_take 4).bind fun _ _ ↦ Safe.pure _

theorem decodeExecute_panicsUnless (s : Statements) (queryAttrs : Bool) {p : Bytes}
    (hp : p.length ≤ maxLogicalPacket)
    (htyped : ∀ id stmt, s.stmts id = some stmt → stmt.numParams < 2 ^ 16) :
    PanicsUnless (∀ v ∈ s.executeValuesIn queryAttrs p, v.HoursFit)
      (s.decodeExecuteChecked queryAttrs p) (s.decodeExecute queryAttrs p) := by
  have hstart : (⟨p, 0⟩ : Cursor UInt8).Valid maxLogicalPacket := Cursor.valid_start hp
  have hleft : (⟨p, 0⟩ : Cursor UInt8).left = p := List.drop_zero
  unfold executeValuesIn decodeExecuteChecked decodeExecute
  obtain ⟨hy, hx⟩ | ⟨⟨id, flags⟩, r₁, hr₁, -, hy, hx⟩ := safe_executeHeader.outcome hstart
  · rw [hleft] at hy
    rw [behind_of_none hy, hy, hx]
    exact .of_eq (List.forall_mem_nil _) rfl
  rw [hleft] at hy
  rw [behind_of_some hy, hy, hx]
  dsimp only
  rw [Option.bind_eq_bind, Option.bind_some]
  dsimp only
  cases hstmt : s.stmts id with
  | none => exact .of_eq (List.forall_mem_nil _) rfl
  | some stmt =>
    dsimp only
    generalize (queryAttrs && flags &&& PARAMETER_COUNT_AVAILABLE != 0) = named
    have hcount : Safe maxLogicalPacket
        (if named then CheckedReader.lenencInt else pure stmt.numParams)
        (if named then Reader.lenencInt else pure stmt.numParams) :=
      Safe.ite (fun _ ↦ safe_lenencInt) fun _ ↦ Safe.pure _
    obtain ⟨hy, hx⟩ | ⟨n, r₂, hr₂, hn, hy, hx⟩ := hcount.outcome hr₁
    · rw [behind_of_none hy, hy, hx]
      exact .of_eq (List.forall_mem_nil _) rfl
    · -- the list is allocated for the statement's parameters, however many the packet announces
      have hparams := htyped id stmt hstmt
      have hbound : n < 2 ^ 64 := by
        obtain ⟨b, rest, hb, hread⟩ := hn
        split_ifs at hread
        · exact lenencInt_lt hread
        · obtain ⟨rfl, -⟩ := Prod.mk.inj (Option.some.inj hread)
          omega
      rw [behind_of_some hy, hy, hx, Checked.capacity_of_lt (by omega)]
      show PanicsUnless _ ((s.executeValuesChecked id named n r₂).bind _) _
      have hvalues := executeValues_panicsUnless hstmt named hbound hr₂
      dsimp only
      generalize s.executeValues id stmt named n r₂.left = out at hvalues ⊢
      refine hvalues.bind ?_
      obtain ⟨s', _ | values⟩ := out
      · rfl
      · show (Checked.slice values 0 _).bind _ = _
        rw [slice_values]
        rfl

end Statements

/-! ## Reachable states -/

namespace Statements

variable {s : Statements} {id : UInt32} {stmt : PreparedStmt}

/-- Every number of parameters fits the field that holds it, a `u16`. -/
def Typed (s : Statements) : Prop := ∀ id stmt, s.stmts id = some stmt → stmt.numParams < 2 ^ 16

theorem Typed.register (h : s.Typed) (id : UInt32) (hstmt : stmt.numParams < 2 ^ 16) :
    (s.register id stmt).Typed := by
  intro i stmt' hi
  rw [Statements.register] at hi
  dsimp only at hi
  split_ifs at hi
  · obtain rfl := Option.some.inj hi
    exact hstmt
  · exact h i stmt' hi

theorem Typed.of_stmts {s' : Statements} (h : s.Typed) (hstmts : s'.stmts = s.stmts) :
    s'.Typed := by
  intro i stmt hi
  rw [hstmts] at hi
  exact h i stmt hi

theorem Typed.onPrepareResponse (h : s.Typed) (sql p : Bytes) :
    (s.onPrepareResponse sql p).Typed := by
  rw [Statements.onPrepareResponse]
  split_ifs
  · refine h.register _ ((leNat_lt _).trans_le ?_)
    exact Nat.pow_le_pow_right (by decide) (List.length_take_le 2 _)
  · exact h

theorem Typed.onClose (h : s.Typed) (args : Bytes) : (s.onClose args).Typed := by
  rw [Statements.onClose]
  split_ifs
  · exact h
  · intro i stmt hi
    dsimp only at hi
    split_ifs at hi
    exact h i stmt hi

theorem Typed.onReset (h : s.Typed) (args : Bytes) : (s.onReset args).Typed := by
  rw [Statements.onReset]
  split_ifs
  · exact h
  · exact h.of_stmts rfl

theorem Typed.onSendLongData (h : s.Typed) (args : Bytes) : (s.onSendLongData args).Typed := by
  rw [Statements.onSendLongData]
  split_ifs
  · exact h
  · exact h.of_stmts rfl

theorem Typed.executeTypes (h : s.Typed) (hstmt : s.stmts id = some stmt) (flag : UInt8)
    (named : Bool) (n : ℕ) (b : Bytes) : (s.executeTypes id stmt flag named n b).1.Typed := by
  rw [Statements.executeTypes]
  split_ifs
  · cases paramTypes named n b with
    | none => exact h
    | some p => exact h.register id (h id stmt hstmt)
  · exact h

theorem Typed.executeValues (h : s.Typed) (hstmt : s.stmts id = some stmt) (named : Bool) (n : ℕ)
    (b : Bytes) : (s.executeValues id stmt named n b).1.Typed := by
  rw [Statements.executeValues]
  split_ifs
  · exact h
  · split
    · exact h
    · next bitmap flag rest _ =>
      have htypes := h.executeTypes hstmt flag named n rest
      generalize s.executeTypes id stmt flag named n rest = out at htypes ⊢
      obtain ⟨s', _ | ⟨types, r⟩⟩ := out
      · exact htypes
      · dsimp only
        split_ifs
        · exact htypes
        · exact htypes

theorem Typed.decodeExecute (h : s.Typed) (queryAttrs : Bool) (p : Bytes) :
    (s.decodeExecute queryAttrs p).1.Typed := by
  rw [Statements.decodeExecute]
  split
  · exact h
  · split
    · exact h
    · next id flags r _ _ stmt hstmt =>
      dsimp only
      split
      · exact h
      · next n r₂ _ =>
        have hvalues := h.executeValues hstmt
          (queryAttrs && flags &&& PARAMETER_COUNT_AVAILABLE != 0) n r₂
        generalize s.executeValues id stmt _ n r₂ = out at hvalues ⊢
        obtain ⟨s', _ | values⟩ := out
        · exact hvalues
        · exact hvalues.of_stmts rfl

end Statements

namespace ProtoState

/-- The states of a decoder between two logical packets, from a new one on. -/
inductive Reached : ProtoState → Prop
  | new : Reached .new
  | packet {s : ProtoState} (h : Reached s) (dir : Dir) (pkt : LogicalPacket) :
    Reached (s.onPacket dir pkt).1
  | broken {s : ProtoState} (h : Reached s) : Reached { s with disposition := .broken }
  | finish {s : ProtoState} (h : Reached s) : Reached s.finish.1

theorem onServerPacket_typed {s : ProtoState} (h : s.statements.Typed) (pkt : LogicalPacket) :
    (s.onServerPacket pkt).1.statements.Typed := by
  have hresolve (s : ProtoState) (hs : s.statements.Typed) (pending : Pending) :
      (s.resolve pending pkt).1.statements.Typed := by
    cases pending with
    | event ev => exact hs
    | silent => exact hs
    | prepare sql => exact hs.onPrepareResponse sql pkt.payload
  rw [onServerPacket]
  split
  · split <;> exact h
  · exact h
  · rw [onResponse]
    split_ifs
    · exact h
    · split
      · exact h
      · split_ifs
        · exact h
        · refine hresolve _ ?_ _
          exact h

theorem onClientPacket_typed {s : ProtoState} (h : s.statements.Typed) (pkt : LogicalPacket) :
    (s.onClientPacket pkt).statements.Typed := by
  cases hcommand : PacketStep.command ⟨s, .client, pkt⟩ with
  | none =>
    rw [onClientPacket_of_no_command hcommand]
    exact h
  | some c =>
    have hafter := PacketStep.after_statements_of_command hcommand
    have hstatements : (s.onClientPacket pkt).statements =
        (PacketStep.after ⟨s, .client, pkt⟩).statements := rfl
    rw [hstatements, hafter]
    split_ifs
    · exact h.decodeExecute _ _
    · exact h.onSendLongData _
    · exact h.onClose _
    · exact h.onReset _
    · exact h

theorem Reached.typed {s : ProtoState} (h : s.Reached) : s.statements.Typed := by
  induction h with
  | new => exact fun id stmt hstmt ↦ (Option.some_ne_none _ hstmt.symm).elim
  | packet h dir pkt ih =>
    cases dir with
    | client => exact onClientPacket_typed ih pkt
    | server => exact onServerPacket_typed ih pkt
  | broken h ih => exact ih
  | @finish s h ih =>
    rw [ProtoState.finish]
    split_ifs
    · exact ih
    · exact ih

end ProtoState

/-! ### Runs reach no others -/

/-- A packet that the assembler completes is within the limit: one wire packet has 24 bits of
length, and more than one are joined only below it. -/
theorem assemble_payload_le (clock : ℕ → ℤ) (offset : ℕ) (rest : Bytes)
    (part : Option PartialPacket) : ∀ pkt ∈ (assemble clock offset rest part).packets,
      pkt.payload.length ≤ maxLogicalPacket := by
  fun_induction assemble clock offset rest part with
  | case1 offset rest part h => exact List.forall_mem_nil _
  | case2 offset rest part seq payload after h hlarge => exact List.forall_mem_nil _
  | case3 offset rest part seq payload after h joined hlarge hfull ih => exact ih
  | case4 offset rest part seq payload after h joined hlarge hfull ih =>
    intro pkt hpkt
    rcases List.mem_append.mp hpkt with hpkt | hpkt
    · obtain rfl := List.mem_singleton.mp hpkt
      cases part with
      | none =>
        obtain ⟨a, b, c, -, hlen⟩ := wirePacket?_eq_some h
        have hshort : payload.length < 256 ^ 3 := hlen.trans_lt (leNat_lt [a, b, c])
        exact hshort.le.trans (by decide)
      | some p =>
        show (p.payload ++ payload).length ≤ maxLogicalPacket
        rw [List.length_append]
        exact Nat.le_of_not_lt fun hlt ↦ hlarge (decide_eq_true hlt)
    · exact ih pkt hpkt

theorem feed_payload_le (a : PacketAssembler) (tsMicros : ℤ) (data : Bytes) :
    ∀ pkt ∈ (a.feed tsMicros data).2, pkt.payload.length ≤ maxLogicalPacket := by
  rw [PacketAssembler.feed]
  split_ifs
  · exact List.forall_mem_nil _
  · dsimp only
    split_ifs
    · exact assemble_payload_le _ _ _ _
    · exact assemble_payload_le _ _ _ _

namespace ProtoState

theorem Reached.onPackets {s : ProtoState} (h : s.Reached) (dir : Dir) (pkts : List LogicalPacket) :
    (s.onPackets dir pkts).1.Reached := by
  induction pkts generalizing s with
  | nil => exact h
  | cons pkt pkts ih =>
    rw [ProtoState.onPackets]
    split_ifs
    · exact ih (h.packet dir pkt)
    · exact h.packet dir pkt

theorem Reached.mem_packetSteps {s : ProtoState} (h : s.Reached) {dir : Dir}
    {pkts : List LogicalPacket} (hpkts : ∀ pkt ∈ pkts, pkt.payload.length ≤ maxLogicalPacket)
    {st : PacketStep} (hst : st ∈ s.packetSteps dir pkts) :
    st.state.Reached ∧ st.pkt.payload.length ≤ maxLogicalPacket := by
  induction pkts generalizing s with
  | nil => exact absurd hst List.not_mem_nil
  | cons pkt pkts ih =>
    obtain ⟨hpkt, hpkts⟩ := List.forall_mem_cons.mp hpkts
    rw [packetSteps] at hst
    rcases List.mem_cons.mp hst with rfl | hst
    · exact ⟨h, hpkt⟩
    · split_ifs at hst
      · exact ih (h.packet dir pkt) hpkts hst
      · exact absurd hst List.not_mem_nil

end ProtoState

theorem ConnDecoder.onData_reached {d : ConnDecoder} (h : d.toProtoState.Reached) (c : Chunk) :
    (d.onData c).1.toProtoState.Reached := by
  rw [ConnDecoder.onData]
  split_ifs
  · have hfeed : (d.feed c).1.toProtoState = d.toProtoState := feed_toProtoState d c
    rw [ConnDecoder.onFed, hfeed]
    split_ifs
    · exact h.broken
    · exact h.onPackets c.dir _
  · exact h

namespace ConnDecoder

/-- What a chunk decodes is decoded in such states, and is no longer than the limit. -/
theorem mem_chunkSteps {d : ConnDecoder} (h : d.toProtoState.Reached) {c : Chunk} {st : PacketStep}
    (hst : st ∈ d.chunkSteps c) :
    st.state.Reached ∧ st.pkt.payload.length ≤ maxLogicalPacket := by
  rw [chunkSteps] at hst
  split_ifs at hst
  · exact h.mem_packetSteps (feed_payload_le _ _ _) hst
  · exact absurd hst List.not_mem_nil

/-- And so it is for all the calls of `on_data`. -/
theorem mem_packetSteps {d : ConnDecoder} (h : d.toProtoState.Reached) {cs : List Chunk}
    {st : PacketStep} (hst : st ∈ d.packetSteps cs) :
    st.state.Reached ∧ st.pkt.payload.length ≤ maxLogicalPacket := by
  induction cs generalizing d with
  | nil => exact absurd hst List.not_mem_nil
  | cons c cs ih =>
    rw [packetSteps] at hst
    rcases List.mem_append.mp hst with hst | hst
    · exact mem_chunkSteps h hst
    · exact ih (onData_reached h c) hst

end ConnDecoder

/-! ## Safety -/

/-- A query's text is found, or found to be missing, exactly when the attributes in front of it have
hours that fit. -/
theorem comQueryText_panicsUnless (queryAttrs : Bool) {p : Bytes}
    (hp : p.length ≤ maxLogicalPacket) :
    PanicsUnless (∀ v ∈ queryValues queryAttrs p, v.HoursFit) (comQueryTextChecked queryAttrs p)
      (comQueryText queryAttrs p) := by
  cases queryAttrs with
  | false => exact .of_eq (List.forall_mem_nil _) rfl
  | true =>
    have hstart : (⟨p, 0⟩ : Cursor UInt8).Valid maxLogicalPacket := Cursor.valid_start hp
    exact checks_attributesThenText.panicsUnless hstart id

namespace ProtoState

/-- A greeting that offers query attributes. -/
def attributesGreeting : LogicalPacket where
  firstSeq := 0
  lastSeq := 0
  tsMicros := 0
  payload := 10 :: ascii "8.0" ++ [0] ++ [1, 0, 0, 0] ++ List.replicate 9 0 ++ [0, 2] ++
    List.replicate 3 0 ++ [0, 8]

/-- The login that answers it. -/
def attributesLogin : LogicalPacket where
  firstSeq := 1
  lastSeq := 1
  tsMicros := 0
  payload := [0, 2, 0, 8]

/-- The command phase with query attributes in use. -/
def attributesState : ProtoState :=
  ((ProtoState.new.onPacket .server attributesGreeting).1.onPacket .client attributesLogin).1

theorem attributesState_reached : attributesState.Reached :=
  (Reached.new.packet .server attributesGreeting).packet .client attributesLogin

/-- A query with one attribute, a TIME of the given days. -/
def timeQuery (days : ℕ) : Bytes :=
  [1, 1, 0, 1, FieldType.TIME, 0, 0] ++ [8, 0] ++ leBytes 4 days ++ [23, 0, 0] ++ ascii "SELECT 1"

/-- A statement with one parameter is prepared as statement 1. -/
def preparedState : ProtoState :=
  ((attributesState.onPacket .client ⟨0, 0, 0, COM_STMT_PREPARE :: ascii "SELECT ?"⟩).1.onPacket
    .server ⟨1, 1, 0, [0, 1, 0, 0, 0, 0, 0, 1, 0, 0, 0, 0]⟩).1

theorem preparedState_reached : preparedState.Reached :=
  (attributesState_reached.packet .client _).packet .server _

/-- It is executed with a DOUBLE of the given bits. -/
def doubleExecute (bits : ℕ) : Bytes :=
  [1, 0, 0, 0, 0, 1, 0, 0, 0] ++ [0, 1, FieldType.DOUBLE, 0] ++ leBytes 8 bits

theorem comQueryText_decodesSafely_iff (queryAttrs : Bool) {p : Bytes}
    (hp : p.length ≤ maxLogicalPacket) :
    DecodesSafely (queryValues queryAttrs p) (comQueryTextChecked queryAttrs p) ↔
      Decodable (queryValues queryAttrs p) False := by
  refine decodesSafely_iff (comQueryText_panicsUnless queryAttrs hp) fun hvs ↦ ?_
  rw [comQueryText_eq_none_iff hvs, or_false]

theorem Reached.decodeExecute_decodesSafely_iff {s : ProtoState} (h : s.Reached) {p : Bytes}
    (hp : p.length ≤ maxLogicalPacket) :
    DecodesSafely (s.statements.executeValuesIn s.queryAttrs p)
        ((s.statements.decodeExecuteChecked s.queryAttrs p).map Prod.snd) ↔
      Decodable (s.statements.executeValuesIn s.queryAttrs p)
        ¬s.statements.Fills s.queryAttrs p := by
  have hexecute := s.statements.decodeExecute_panicsUnless s.queryAttrs hp h.typed
  refine decodesSafely_iff ⟨fun hvs ↦ ?_, fun hvs ↦ ?_⟩ Statements.decodeExecute_eq_none_iff
  · rw [hexecute.1 hvs, Option.map_some]
  · rw [hexecute.2 hvs, Option.map_none]

/-- A value that is not complete is given up, whatever it would be. -/
theorem decodeBinaryValue_decodesSafely_iff (ftype flags : UInt8) {p : Bytes}
    (hp : p.length ≤ maxLogicalPacket) {pos : ℕ} (hpos : pos ≤ p.length) :
    DecodesSafely [⟨ftype, p.drop pos⟩]
        ((CheckedReader.decodeBinaryValue ftype flags ⟨p, pos⟩).map (Option.map Prod.fst)) ↔
      WireValue.HoursFit ⟨ftype, p.drop pos⟩ ∧ WireValue.Finite ⟨ftype, p.drop pos⟩ := by
  set v : WireValue := ⟨ftype, p.drop pos⟩ with hv
  have hpanics : PanicsUnless (∀ w ∈ [v], w.HoursFit)
      ((CheckedReader.decodeBinaryValue ftype flags ⟨p, pos⟩).map (Option.map Prod.fst))
      ((decodeBinaryValue ftype flags v.bytes).map Prod.fst) := by
    rw [List.forall_mem_singleton, Option.map_eq_bind]
    exact (checks_decodeBinaryValue ftype flags).panicsUnless (r := ⟨p, pos⟩) ⟨hpos, hp⟩ id
  have hsingle : (∃ w ∈ [v], ¬w.Complete) ↔ ¬v.Complete :=
    ⟨fun ⟨w, hw, h⟩ ↦ List.mem_singleton.mp hw ▸ h, fun h ↦ ⟨v, List.mem_singleton_self v, h⟩⟩
  have hnone : [v] ≠ [] → ((decodeBinaryValue ftype flags v.bytes).map Prod.fst = none ↔
      (∃ w ∈ [v], ¬w.Complete) ∨ False) := by
    intro _
    rw [Option.map_eq_none_iff, or_false, hsingle, v.complete_iff flags,
      Option.not_isSome_iff_eq_none]
  rw [decodesSafely_iff hpanics hnone, Decodable, List.forall_mem_singleton,
    List.forall_mem_singleton, hsingle, or_false]
  exact and_congr_right fun _ ↦ or_iff_left_of_imp WireValue.finite_of_not_complete

end ProtoState

open ProtoState in
/-- Decoding a payload in a state that a connection can reach goes through, and gives up what cannot
be rendered, exactly when the hours of every TIME value fit and a float that is not finite comes
with another reason to give up. All that a run decodes is decoded in such states. -/
theorem ConnDecoder.decodes_iff {s : ProtoState} (hs : s.Reached) {p : Bytes}
    (hp : p.length ≤ maxLogicalPacket) :
    (DecodesSafely (queryValues s.queryAttrs p) (comQueryTextChecked s.queryAttrs p) ↔
        Decodable (queryValues s.queryAttrs p) False) ∧
      (DecodesSafely (s.statements.executeValuesIn s.queryAttrs p)
          ((s.statements.decodeExecuteChecked s.queryAttrs p).map Prod.snd) ↔
        Decodable (s.statements.executeValuesIn s.queryAttrs p)
          ¬s.statements.Fills s.queryAttrs p) ∧
      (∀ ftype flags, ∀ pos ≤ p.length,
        (DecodesSafely [⟨ftype, p.drop pos⟩]
            ((CheckedReader.decodeBinaryValue ftype flags ⟨p, pos⟩).map (Option.map Prod.fst)) ↔
          WireValue.HoursFit ⟨ftype, p.drop pos⟩ ∧ WireValue.Finite ⟨ftype, p.drop pos⟩)) ∧
      ∀ cs : List Chunk, ∀ st ∈ ConnDecoder.new.packetSteps cs,
        st.state.Reached ∧ st.pkt.payload.length ≤ maxLogicalPacket :=
  ⟨comQueryText_decodesSafely_iff s.queryAttrs hp, hs.decodeExecute_decodesSafely_iff hp,
    fun ftype flags _ hpos ↦ decodeBinaryValue_decodesSafely_iff ftype flags hp hpos,
    fun _ _ hst ↦ mem_packetSteps .new hst⟩

namespace ProtoState

theorem decodes_timeQuery :
    DecodesSafely (queryValues attributesState.queryAttrs (timeQuery 34))
        (comQueryTextChecked attributesState.queryAttrs (timeQuery 34)) ∧
      DecodesSafely (preparedState.statements.executeValuesIn preparedState.queryAttrs
          (doubleExecute 0x3FF0000000000000))
        ((preparedState.statements.decodeExecuteChecked preparedState.queryAttrs
          (doubleExecute 0x3FF0000000000000)).map Prod.snd) := by
  have htime : (timeQuery 34).length ≤ maxLogicalPacket := by decide
  have hdouble : (doubleExecute 0x3FF0000000000000).length ≤ maxLogicalPacket := by decide
  constructor
  · exact (ConnDecoder.decodes_iff attributesState_reached htime).1.mpr
      ⟨by decide, .inl (by decide)⟩
  · exact (ConnDecoder.decodes_iff preparedState_reached hdouble).2.1.mpr
      ⟨by decide, .inl (by decide)⟩

/-- The hours of the attribute do not fit, and the packet is not given up but panics. The infinite
parameter is not given up either. -/
theorem decodes_overflow :
    (attributesState.Reached ∧ ¬DecodesSafely
      (queryValues attributesState.queryAttrs (timeQuery 178956970))
        (comQueryTextChecked attributesState.queryAttrs (timeQuery 178956970))) ∧
    preparedState.Reached ∧ ¬DecodesSafely
      (preparedState.statements.executeValuesIn preparedState.queryAttrs
          (doubleExecute 0x7FF0000000000000))
        ((preparedState.statements.decodeExecuteChecked preparedState.queryAttrs
          (doubleExecute 0x7FF0000000000000)).map Prod.snd) := by
  refine ⟨⟨attributesState_reached, ?_⟩, preparedState_reached, ?_⟩
  · rintro ⟨o, hout, -⟩
    have hpanic : comQueryTextChecked attributesState.queryAttrs (timeQuery 178956970) = none := by
      decide
    rw [hpanic] at hout
    cases hout
  · rintro ⟨o, hout, hgives⟩
    have hnull : (preparedState.statements.decodeExecuteChecked preparedState.queryAttrs
        (doubleExecute 0x7FF0000000000000)).map Prod.snd = some (some (ascii "SELECT NULL")) := by
      decide +kernel
    have hinfinite : ∃ v ∈ preparedState.statements.executeValuesIn preparedState.queryAttrs
        (doubleExecute 0x7FF0000000000000), ¬v.Finite := by decide
    obtain ⟨v, hv, hinfinite⟩ := hinfinite
    rw [hgives ⟨v, hv, fun h ↦ hinfinite h.finite⟩, hnull] at hout
    cases hout

end ProtoState

end SqlReplay
