import SqlReplay.Proto.Flush

/-!
# Long data and the executes that consume it

A parameter value may be sent ahead of the execute that uses it, in pieces. The pieces are kept
under the statement and the parameter until an execute consumes them. What an execute leaves behind
is a value that the next one takes for its own, so it matters that an execute leaves nothing.

The clean-up stands behind the values of the packet and not before them: an execute whose values do
not decode keeps the long data of its statement. `Statements.ReadsValues` says which packets decode
as far as the clean-up, and a run leaves no stale data exactly when each of its executes is such a
packet or finds nothing to clean up.
-/

namespace SqlReplay

namespace Statements

/-- The parameter that long data is sent for. -/
def longDataKey (args : Bytes) : UInt32 × UInt16 :=
  (argId args, (leNat ((args.drop 4).take 2)).toUInt16)

/-- The values of an execute are all there: behind the nine bytes of the header stand the number of
parameters if the connection sends it, and unless there are none the NULL bitmap, the flag, the
types if the flag says so, and a value of its type for each parameter that is neither NULL nor sent
ahead. Types that are not sent are remembered. -/
def ReadsValues (s : Statements) (queryAttrs : Bool) (stmt : PreparedStmt) (args : Bytes) : Prop :=
  9 ≤ args.length ∧
    let named := queryAttrs && args.getD 4 0 &&& PARAMETER_COUNT_AVAILABLE != 0
    ∃ paramCount r,
      (if named then Reader.lenencInt else pure stmt.numParams) (args.drop 9) =
        some (paramCount, r) ∧
      (paramCount = 0 ∨
        (paramCount + 7) / 8 + 1 ≤ r.length ∧
          let bitmap := r.take ((paramCount + 7) / 8)
          let newParamsBound := r.getD ((paramCount + 7) / 8) 0
          let body := r.drop ((paramCount + 7) / 8 + 1)
          ∃ types values,
            (if newParamsBound = 1 then paramTypes named paramCount body
              else stmt.paramTypes.map fun types ↦ (types, body)) = some (types, values) ∧
            paramCount ≤ types.length ∧
            (paramValues bitmap (fun i ↦ (s.longData (argId args, i.toUInt16)).map bytesLiteral) 0
              (types.take paramCount) values).isSome)

/-- What consuming the long data of a statement means: its entries go and no other does. -/
structure Consumes (s t : Statements) (id : UInt32) : Prop where
  gone : ∀ param, t.longData (id, param) = none
  kept : ∀ k : UInt32 × UInt16, k.1 ≠ id → t.longData k = s.longData k

variable {s : Statements} {id : UInt32} {stmt : PreparedStmt}

@[simp] theorem executeTypes_longData (s : Statements) (id : UInt32) (stmt : PreparedStmt)
    (newParamsBound : UInt8) (named : Bool) (paramCount : ℕ) (r : Bytes) :
    (s.executeTypes id stmt newParamsBound named paramCount r).1.longData = s.longData := by
  rw [executeTypes]
  split_ifs
  · cases paramTypes named paramCount r with
    | none => rfl
    | some _ => rfl
  · rfl

theorem executeTypes_snd (s : Statements) (id : UInt32) (stmt : PreparedStmt)
    (newParamsBound : UInt8) (named : Bool) (paramCount : ℕ) (r : Bytes) :
    (s.executeTypes id stmt newParamsBound named paramCount r).2 =
      if newParamsBound = 1 then paramTypes named paramCount r
      else stmt.paramTypes.map fun types ↦ (types, r) := by
  rw [executeTypes]
  split_ifs
  · cases paramTypes named paramCount r with
    | none => rfl
    | some _ => rfl
  · rfl

/-- The header of an execute: the statement id, the flags and the iteration count. -/
theorem executeHeader_eq (p : Bytes) :
    (do
      let id ← Reader.le 4
      let flags ← Reader.u8
      let _ ← Reader.take 4
      pure (id.toUInt32, flags) : Reader (UInt32 × UInt8)) p =
    if p.length < 9 then none else some ((argId p, p.getD 4 0), p.drop 9) := by
  simp only [Reader.bind_apply, Reader.le, Reader.map_apply, Reader.take_apply, Reader.u8_apply,
    Reader.pure_apply]
  by_cases hshort : p.length < 9
  · rw [if_pos hshort]
    by_cases hid : p.length < 4
    · simp [hid]
    · simp [hid]
      omega
  · rw [if_neg hshort]
    simp [argId, show ¬p.length < 4 by omega, show ¬p.length ≤ 4 by omega,
      show ¬p.length - 5 < 4 by omega]

/-- The NULL bitmap and the flag behind it. -/
theorem bitmapAndFlag_eq (n : ℕ) (r : Bytes) :
    (do
      let bitmap ← Reader.take n
      let newParamsBound ← Reader.u8
      pure (bitmap, newParamsBound) : Reader (Bytes × UInt8)) r =
    if r.length < n + 1 then none else some ((r.take n, r.getD n 0), r.drop (n + 1)) := by
  simp only [Reader.bind_apply, Reader.take_apply, Reader.u8_apply, Reader.pure_apply]
  by_cases hshort : r.length < n + 1
  · rw [if_pos hshort]
    by_cases hn : r.length < n
    · simp [hn]
    · simp [hn]
      omega
  · rw [if_neg hshort]
    simp [show ¬r.length < n by omega, show ¬r.length ≤ n by omega]

/-- Reading the values, case by case. -/
theorem executeValues_eq (s : Statements) (id : UInt32) (stmt : PreparedStmt) (named : Bool)
    {paramCount : ℕ} (hcount : paramCount ≠ 0) {r : Bytes}
    (hlength : (paramCount + 7) / 8 + 1 ≤ r.length) :
    s.executeValues id stmt named paramCount r =
      let n := (paramCount + 7) / 8
      let read := s.executeTypes id stmt (r.getD n 0) named paramCount (r.drop (n + 1))
      (read.1, read.2.bind fun q ↦
        if q.1.length < paramCount then none
        else (paramValues (r.take n)
          (fun i ↦ (read.1.longData (id, i.toUInt16)).map bytesLiteral) 0 (q.1.take paramCount)
          q.2).map Prod.fst) := by
  rw [executeValues, if_neg hcount, bitmapAndFlag_eq, if_neg (Nat.not_lt.mpr hlength)]
  dsimp only
  rcases s.executeTypes id stmt (r.getD ((paramCount + 7) / 8) 0) named paramCount
    (r.drop ((paramCount + 7) / 8 + 1)) with ⟨s', _ | ⟨types, rest⟩⟩
  · rfl
  · dsimp only [Option.bind_some]
    split_ifs <;> rfl

theorem executeValues_of_short (s : Statements) (id : UInt32) (stmt : PreparedStmt) (named : Bool)
    {paramCount : ℕ} (hcount : paramCount ≠ 0) {r : Bytes}
    (hlength : ¬(paramCount + 7) / 8 + 1 ≤ r.length) :
    s.executeValues id stmt named paramCount r = (s, none) := by
  rw [executeValues, if_neg hcount, bitmapAndFlag_eq, if_pos (Nat.lt_of_not_le hlength)]

theorem executeValues_longData (s : Statements) (id : UInt32) (stmt : PreparedStmt) (named : Bool)
    (paramCount : ℕ) (r : Bytes) :
    (s.executeValues id stmt named paramCount r).1.longData = s.longData := by
  by_cases hcount : paramCount = 0
  · rw [executeValues, if_pos hcount]
  by_cases hlength : (paramCount + 7) / 8 + 1 ≤ r.length
  · rw [executeValues_eq s id stmt named hcount hlength]
    exact executeTypes_longData s id stmt _ named paramCount _
  · rw [executeValues_of_short s id stmt named hcount hlength]

/-- The values are read exactly when they are all there. -/
theorem executeValues_isSome (s : Statements) (id : UInt32) (stmt : PreparedStmt) (named : Bool)
    (paramCount : ℕ) (r : Bytes) :
    (s.executeValues id stmt named paramCount r).2.isSome ↔
      paramCount = 0 ∨ (paramCount + 7) / 8 + 1 ≤ r.length ∧
        ∃ types values,
          (if r.getD ((paramCount + 7) / 8) 0 = 1 then
            paramTypes named paramCount (r.drop ((paramCount + 7) / 8 + 1))
          else stmt.paramTypes.map fun types ↦ (types, r.drop ((paramCount + 7) / 8 + 1))) =
            some (types, values) ∧
          paramCount ≤ types.length ∧
          (paramValues (r.take ((paramCount + 7) / 8))
            (fun i ↦ (s.longData (id, i.toUInt16)).map bytesLiteral) 0 (types.take paramCount)
            values).isSome := by
  by_cases hcount : paramCount = 0
  · rw [executeValues, if_pos hcount]
    exact iff_of_true rfl (Or.inl hcount)
  rw [or_iff_right hcount]
  by_cases hlength : (paramCount + 7) / 8 + 1 ≤ r.length
  · rw [executeValues_eq s id stmt named hcount hlength, and_iff_right hlength]
    dsimp only
    rw [executeTypes_snd, executeTypes_longData]
    cases (if r.getD ((paramCount + 7) / 8) 0 = 1 then
        paramTypes named paramCount (r.drop ((paramCount + 7) / 8 + 1))
      else stmt.paramTypes.map fun types ↦ (types, r.drop ((paramCount + 7) / 8 + 1))) with
    | none => simp
    | some q =>
      obtain ⟨types, values⟩ := q
      by_cases hfew : types.length < paramCount
      · simp [hfew]
      · simp [hfew, Nat.le_of_not_lt hfew]
  · rw [executeValues_of_short s id stmt named hcount hlength]
    exact iff_of_false Bool.false_ne_true fun h ↦ hlength h.1

/-- What an execute of a registered statement does to the long data: it is consumed when the values
are there, and kept when they are not. -/
theorem decodeExecute_longData (s : Statements) (queryAttrs : Bool) {args : Bytes}
    {stmt : PreparedStmt} (hstmt : s.stmts (argId args) = some stmt) :
    (s.ReadsValues queryAttrs stmt args →
      (s.decodeExecute queryAttrs args).1.longData = (s.dropLongData (argId args)).longData) ∧
    (¬s.ReadsValues queryAttrs stmt args →
      (s.decodeExecute queryAttrs args).1.longData = s.longData) := by
  rw [decodeExecute, executeHeader_eq, ReadsValues]
  by_cases hshort : args.length < 9
  · rw [if_pos hshort]
    exact ⟨fun h ↦ absurd h.1 (Nat.not_le.mpr hshort), fun _ ↦ rfl⟩
  rw [if_neg hshort, and_iff_right (Nat.le_of_not_lt hshort)]
  dsimp only
  rw [hstmt]
  dsimp only
  set named := queryAttrs && args.getD 4 0 &&& PARAMETER_COUNT_AVAILABLE != 0 with hnamed
  cases hcount : (if named then Reader.lenencInt else pure stmt.numParams) (args.drop 9) with
  | none => exact ⟨fun ⟨_, _, h, _⟩ ↦ absurd h nofun, fun _ ↦ rfl⟩
  | some q =>
    obtain ⟨paramCount, r⟩ := q
    have hread := executeValues_isSome s (argId args) stmt named paramCount r
    have hkept := executeValues_longData s (argId args) stmt named paramCount r
    dsimp only
    generalize s.executeValues (argId args) stmt named paramCount r = q at hread hkept ⊢
    obtain ⟨s', _ | values⟩ := q
    · refine ⟨fun ⟨n, r', h, hn⟩ ↦ ?_, fun _ ↦ hkept⟩
      obtain ⟨rfl, rfl⟩ := Prod.mk.inj (Option.some.inj h)
      exact absurd (hread.mpr hn) Bool.false_ne_true
    · refine ⟨fun _ ↦ ?_, fun h ↦ absurd ⟨paramCount, r, rfl, hread.mp rfl⟩ h⟩
      show (s'.dropLongData (argId args)).longData = _
      rw [dropLongData, dropLongData, hkept]

/-- An execute of a registered statement consumes its long data exactly when its values are there or
there is nothing to consume. -/
theorem decodeExecute_consumes_iff (s : Statements) (queryAttrs : Bool) {args : Bytes}
    {stmt : PreparedStmt} (hstmt : s.stmts (argId args) = some stmt) :
    Consumes s (s.decodeExecute queryAttrs args).1 (argId args) ↔
      s.ReadsValues queryAttrs stmt args ∨ ∀ param, s.longData (argId args, param) = none := by
  obtain ⟨hread, hkept⟩ := decodeExecute_longData s queryAttrs hstmt
  by_cases h : s.ReadsValues queryAttrs stmt args
  · refine iff_of_true ⟨fun param ↦ ?_, fun k hk ↦ ?_⟩ (Or.inl h)
    · rw [hread h, dropLongData]
      exact if_pos rfl
    · rw [hread h, dropLongData]
      exact if_neg hk
  · rw [or_iff_right h]
    constructor
    · intro hconsumes param
      rw [← hkept h]
      exact hconsumes.gone param
    · intro hnone
      refine ⟨fun param ↦ ?_, fun k _ ↦ ?_⟩
      · rw [hkept h]
        exact hnone param
      · rw [hkept h]

end Statements

/-! ## One packet -/

namespace PacketStep

/-- The state behind the packet. -/
def after (st : PacketStep) : ProtoState := (st.state.onPacket st.dir st.pkt).1

/-- The command byte and its arguments, where the packet is a command. -/
def command (st : PacketStep) : Option (UInt8 × Bytes) :=
  if st.dir = .client ∧ st.state.phase = .established ∧ st.pkt.firstSeq = 0 then
    match st.pkt.payload with
    | [] => none
    | cmd :: args => some (cmd, args)
  else none

/-- An execute that names a registered statement. -/
structure Executes (st : PacketStep) (args : Bytes) (stmt : PreparedStmt) : Prop where
  command_eq : st.command = some (COM_STMT_EXECUTE, args)
  id_sent : 4 ≤ args.length
  registered : st.state.statements.stmts (Statements.argId args) = some stmt

/-- The commands that drop the long data of the statement they name. -/
def Drops (s : Statements) (cmd : UInt8) (args : Bytes) : Prop :=
  4 ≤ args.length ∧ (cmd = COM_STMT_CLOSE ∨ cmd = COM_STMT_RESET ∨
    (cmd = COM_STMT_EXECUTE ∧ (s.stmts (Statements.argId args)).isSome))

instance (s : Statements) (cmd : UInt8) (args : Bytes) : Decidable (Drops s cmd args) :=
  inferInstanceAs (Decidable (4 ≤ args.length ∧ (cmd = COM_STMT_CLOSE ∨ cmd = COM_STMT_RESET ∨
    (cmd = COM_STMT_EXECUTE ∧ (s.stmts (Statements.argId args)).isSome))))

/-- The long data that is sent and not yet used behind the packet, when `held` is before it. -/
def unused (held : UInt32 × UInt16 → Option Bytes) (st : PacketStep) :
    UInt32 × UInt16 → Option Bytes :=
  match st.command with
  | none => held
  | some (cmd, args) => fun k ↦
    if cmd = COM_STMT_SEND_LONG_DATA ∧ 6 ≤ args.length ∧ k = Statements.longDataKey args then
      some ((held k).getD [] ++ args.drop 6)
    else if Drops st.state.statements cmd args ∧ k.1 = Statements.argId args then none
    else held k

end PacketStep

namespace ProtoState

theorem onLogin_statements (s : ProtoState) (p : Bytes) :
    (s.onLogin p).statements = s.statements := by
  have hnames (s : ProtoState) (caps : UInt32) (r : Bytes) :
      (s.onLoginNames caps r).statements = s.statements := by
    rw [onLoginNames]
    repeat' split
    all_goals rfl
  rw [onLogin]
  dsimp only
  split_ifs
  · rfl
  · rfl
  · rfl
  · rfl
  · exact hnames _ _ _

theorem onServerPacket_longData (s : ProtoState) (pkt : LogicalPacket) :
    (s.onServerPacket pkt).1.statements.longData = s.statements.longData := by
  have hresolve (s : ProtoState) (pending : Pending) :
      (s.resolve pending pkt).1.statements.longData = s.statements.longData := by
    cases pending with
    | event ev => rfl
    | silent => rfl
    | prepare sql =>
      show (s.statements.onPrepareResponse sql pkt.payload).longData = s.statements.longData
      rw [Statements.onPrepareResponse]
      split_ifs <;> rfl
  rw [onServerPacket]
  split
  · split <;> rfl
  · rfl
  · rw [onResponse]
    split_ifs
    · rfl
    · split
      · rfl
      · split_ifs
        · rfl
        · exact hresolve _ _

/-- A packet that is no command leaves the long data alone. -/
theorem onClientPacket_of_no_command {s : ProtoState} {pkt : LogicalPacket}
    (h : PacketStep.command ⟨s, .client, pkt⟩ = none) :
    (s.onClientPacket pkt).statements = s.statements := by
  rw [onClientPacket]
  cases hphase : s.phase with
  | greeting => rfl
  | login => exact onLogin_statements s _
  | established =>
    by_cases hseq : pkt.firstSeq = 0
    · rw [PacketStep.command, if_pos ⟨rfl, hphase, hseq⟩] at h
      dsimp only
      rw [if_neg (not_not.mpr hseq), onCommand]
      cases hp : pkt.payload with
      | nil =>
        dsimp only
        rw [dropContinuation]
        split_ifs <;> rfl
      | cons cmd args =>
        rw [hp] at h
        cases h
    · exact congrArg statements (if_pos hseq)

theorem onExecute_statements (s : ProtoState) (respSeq : UInt8) (tsMicros : ℤ) (args : Bytes) :
    (s.onExecute respSeq tsMicros args).statements =
      (s.statements.decodeExecute s.queryAttrs args).1 := by
  rw [onExecute]
  rcases s.statements.decodeExecute s.queryAttrs args with ⟨_, _ | _⟩
  · rfl
  · rfl

/-- What a command does to the prepared statements. -/
theorem dispatch_statements (s : ProtoState) (respSeq : UInt8) (tsMicros : ℤ) (cmd : UInt8)
    (args : Bytes) : (s.dispatch respSeq tsMicros cmd args).statements =
      if cmd = COM_STMT_EXECUTE then (s.statements.decodeExecute s.queryAttrs args).1
      else if cmd = COM_STMT_SEND_LONG_DATA then s.statements.onSendLongData args
      else if cmd = COM_STMT_CLOSE then s.statements.onClose args
      else if cmd = COM_STMT_RESET then s.statements.onReset args
      else s.statements := by
  by_cases hexecute : cmd = COM_STMT_EXECUTE
  · subst hexecute
    rw [if_pos rfl]
    exact onExecute_statements s respSeq tsMicros args
  rw [if_neg hexecute, dispatch]
  by_cases hquery : cmd = COM_QUERY
  · subst hquery
    rw [if_pos rfl]
    cases comQueryText s.queryAttrs args with
    | none => rfl
    | some text => rfl
  by_cases hinit : cmd = COM_INIT_DB
  · subst hinit
    rfl
  by_cases hprepare : cmd = COM_STMT_PREPARE
  · subst hprepare
    rfl
  rw [if_neg hquery, if_neg hinit, if_neg hprepare, if_neg hexecute]
  split_ifs <;> rfl

end ProtoState

namespace PacketStep

variable {st : PacketStep}

/-- A command is dispatched on the state that the packet finds, but for the continuation id. -/
theorem after_of_command {cmd : UInt8} {args : Bytes} (h : st.command = some (cmd, args)) :
    st.after =
      st.state.dropContinuation.dispatch (st.pkt.lastSeq + 1) st.pkt.tsMicros cmd args := by
  rw [command] at h
  split_ifs at h with hcommand
  obtain ⟨hdir, hphase, hseq⟩ := hcommand
  cases hp : st.pkt.payload with
  | nil =>
    rw [hp] at h
    cases h
  | cons c a =>
    rw [hp] at h
    obtain ⟨rfl, rfl⟩ := Prod.mk.inj (Option.some.inj h)
    rw [after, hdir, ProtoState.onPacket, ProtoState.onClientPacket, hphase]
    dsimp only
    rw [if_neg (not_not.mpr hseq), ProtoState.onCommand, hp]

theorem after_statements_of_command {cmd : UInt8} {args : Bytes}
    (h : st.command = some (cmd, args)) : st.after.statements =
      if cmd = COM_STMT_EXECUTE then
        (st.state.statements.decodeExecute st.state.queryAttrs args).1
      else if cmd = COM_STMT_SEND_LONG_DATA then st.state.statements.onSendLongData args
      else if cmd = COM_STMT_CLOSE then st.state.statements.onClose args
      else if cmd = COM_STMT_RESET then st.state.statements.onReset args
      else st.state.statements := by
  have hdrop : st.state.dropContinuation.statements = st.state.statements ∧
      st.state.dropContinuation.queryAttrs = st.state.queryAttrs := by
    rw [ProtoState.dropContinuation]
    split_ifs <;> exact ⟨rfl, rfl⟩
  rw [after_of_command h, ProtoState.dispatch_statements, hdrop.1, hdrop.2]

/-- An execute consumes the long data of its statement exactly when its values are there or there is
nothing to consume. -/
theorem consumes_iff {args : Bytes} {stmt : PreparedStmt} (h : st.Executes args stmt) :
    Statements.Consumes st.state.statements st.after.statements (Statements.argId args) ↔
      st.state.statements.ReadsValues st.state.queryAttrs stmt args ∨
        ∀ param, st.state.statements.longData (Statements.argId args, param) = none := by
  rw [after_statements_of_command h.command_eq, if_pos rfl]
  exact Statements.decodeExecute_consumes_iff _ _ h.registered

/-- An execute that names no registered statement does nothing to the prepared statements. -/
theorem decodeExecute_unregistered (s : Statements) (queryAttrs : Bool) {args : Bytes}
    (h : ¬(4 ≤ args.length ∧ (s.stmts (Statements.argId args)).isSome)) :
    (s.decodeExecute queryAttrs args).1 = s := by
  rw [Statements.decodeExecute, Statements.executeHeader_eq]
  by_cases hshort : args.length < 9
  · rw [if_pos hshort]
  · rw [if_neg hshort]
    have hnone : s.stmts (Statements.argId args) = none := by
      rw [and_iff_right (by omega), Option.not_isSome_iff_eq_none] at h
      exact h
    dsimp only
    rw [hnone]

/-- Dropping the long data of a statement, as close and reset do where they name one. -/
theorem dropLongData_longData {s : Statements} {cmd : UInt8} {args : Bytes}
    (hsend : cmd ≠ COM_STMT_SEND_LONG_DATA) (hcmd : cmd = COM_STMT_CLOSE ∨ cmd = COM_STMT_RESET)
    (k : UInt32 × UInt16) :
    (if args.length < 4 then s else s.dropLongData (Statements.argId args)).longData k =
      if cmd = COM_STMT_SEND_LONG_DATA ∧ 6 ≤ args.length ∧ k = Statements.longDataKey args then
        some ((s.longData k).getD [] ++ args.drop 6)
      else if Drops s cmd args ∧ k.1 = Statements.argId args then none
      else s.longData k := by
  have hno : ¬(cmd = COM_STMT_SEND_LONG_DATA ∧ 6 ≤ args.length ∧
      k = Statements.longDataKey args) := fun h ↦ hsend h.1
  rw [if_neg hno]
  by_cases hshort : args.length < 4
  · have hdrops : ¬(Drops s cmd args ∧ k.1 = Statements.argId args) :=
      fun h ↦ absurd h.1.1 (Nat.not_le.mpr hshort)
    rw [if_pos hshort, if_neg hdrops]
  · have hdrops : Drops s cmd args :=
      ⟨Nat.le_of_not_lt hshort, hcmd.elim Or.inl fun h ↦ Or.inr (Or.inl h)⟩
    rw [if_neg hshort, Statements.dropLongData]
    by_cases hk : k.1 = Statements.argId args
    · rw [if_pos (And.intro hdrops hk)]
      exact if_pos hk
    · have hother : ¬(Drops s cmd args ∧ k.1 = Statements.argId args) := fun h ↦ hk h.2
      rw [if_neg hother]
      exact if_neg hk

/-- Long data that is sent joins what is there. -/
theorem onSendLongData_longData (s : Statements) (args : Bytes) (k : UInt32 × UInt16) :
    (s.onSendLongData args).longData k =
      if 6 ≤ args.length ∧ k = Statements.longDataKey args then
        some ((s.longData k).getD [] ++ args.drop 6)
      else s.longData k := by
  rw [Statements.onSendLongData]
  by_cases hshort : args.length < 6
  · have hno : ¬(6 ≤ args.length ∧ k = Statements.longDataKey args) :=
      fun h ↦ absurd h.1 (Nat.not_le.mpr hshort)
    rw [if_pos hshort, if_neg hno]
  · rw [if_neg hshort]
    by_cases hk : k = Statements.longDataKey args
    · rw [if_pos (And.intro (Nat.le_of_not_lt hshort) hk), hk]
      exact if_pos rfl
    · have hno : ¬(6 ≤ args.length ∧ k = Statements.longDataKey args) := fun h ↦ hk h.2
      rw [if_neg hno]
      exact if_neg hk

theorem longData_of_not_execute (s : Statements) {cmd : UInt8} (h : cmd ≠ COM_STMT_EXECUTE)
    (args : Bytes) (k : UInt32 × UInt16) :
    (if cmd = COM_STMT_SEND_LONG_DATA then s.onSendLongData args
      else if cmd = COM_STMT_CLOSE then s.onClose args
      else if cmd = COM_STMT_RESET then s.onReset args
      else s).longData k =
      if cmd = COM_STMT_SEND_LONG_DATA ∧ 6 ≤ args.length ∧ k = Statements.longDataKey args then
        some ((s.longData k).getD [] ++ args.drop 6)
      else if Drops s cmd args ∧ k.1 = Statements.argId args then none
      else s.longData k := by
  by_cases hsend : cmd = COM_STMT_SEND_LONG_DATA
  · subst hsend
    have hdrops : ¬(Drops s COM_STMT_SEND_LONG_DATA args ∧ k.1 = Statements.argId args) := by
      rintro ⟨⟨-, h | h | h⟩, -⟩
      · exact absurd h (by decide)
      · exact absurd h (by decide)
      · exact absurd h.1 (by decide)
    rw [if_pos rfl, if_neg hdrops, onSendLongData_longData]
    simp only [true_and]
  rw [if_neg hsend]
  by_cases hclose : cmd = COM_STMT_CLOSE
  · rw [if_pos hclose, ← dropLongData_longData hsend (Or.inl hclose) k, Statements.onClose]
    split_ifs <;> rfl
  rw [if_neg hclose]
  by_cases hreset : cmd = COM_STMT_RESET
  · rw [if_pos hreset, ← dropLongData_longData hsend (Or.inr hreset) k, Statements.onReset]
  · have hno : ¬(cmd = COM_STMT_SEND_LONG_DATA ∧ 6 ≤ args.length ∧
        k = Statements.longDataKey args) := fun h ↦ hsend h.1
    have hdrops : ¬(Drops s cmd args ∧ k.1 = Statements.argId args) := by
      rintro ⟨⟨-, h' | h' | h'⟩, -⟩
      · exact hclose h'
      · exact hreset h'
      · exact h h'.1
    rw [if_neg hreset, if_neg hno, if_neg hdrops]

/-- The long data behind a packet is what is sent and unused, when the packet is no execute that
leaves long data behind. -/
theorem after_longData (hconsumes : ∀ args stmt, st.Executes args stmt →
      Statements.Consumes st.state.statements st.after.statements (Statements.argId args)) :
    st.after.statements.longData = unused st.state.statements.longData st := by
  rw [unused]
  cases hcommand : st.command with
  | none =>
    dsimp only
    cases hdir : st.dir with
    | client =>
      obtain ⟨s, dir, pkt⟩ := st
      subst hdir
      exact congrArg Statements.longData (ProtoState.onClientPacket_of_no_command hcommand)
    | server =>
      rw [after, hdir]
      exact ProtoState.onServerPacket_longData _ _
  | some c =>
    obtain ⟨cmd, args⟩ := c
    funext k
    dsimp only
    have hafter := after_statements_of_command hcommand
    by_cases hexecute : cmd = COM_STMT_EXECUTE
    · -- an execute of a registered statement uses its data up, any other changes nothing
      subst hexecute
      rw [if_neg (fun h ↦ absurd h.1 (by decide))]
      by_cases hnamed : 4 ≤ args.length ∧
          (st.state.statements.stmts (Statements.argId args)).isSome
      · have hdrops : Drops st.state.statements COM_STMT_EXECUTE args :=
          ⟨hnamed.1, Or.inr (Or.inr ⟨rfl, hnamed.2⟩)⟩
        obtain ⟨stmt, hstmt⟩ := Option.isSome_iff_exists.mp hnamed.2
        have hgone := hconsumes args stmt ⟨hcommand, hnamed.1, hstmt⟩
        by_cases hk : k.1 = Statements.argId args
        · rw [if_pos ⟨hdrops, hk⟩, ← hgone.gone k.2, ← hk]
        · rw [if_neg (fun h ↦ hk h.2), hgone.kept k hk]
      · have hdrops : ¬Drops st.state.statements COM_STMT_EXECUTE args := by
          rintro ⟨hlength, h | h | h⟩
          · exact absurd h (by decide)
          · exact absurd h (by decide)
          · exact hnamed ⟨hlength, h.2⟩
        rw [if_neg (fun h ↦ hdrops h.1), hafter, if_pos rfl,
          decodeExecute_unregistered _ _ hnamed]
    · rw [hafter, if_neg hexecute]
      exact longData_of_not_execute _ hexecute args k

end PacketStep

/-! ## Runs -/

namespace PacketStep

/-- Steps that follow each other: each finds the prepared statements that the one before left. -/
def Linked (t : Statements) : List PacketStep → Prop
  | [] => True
  | st :: sts => st.state.statements = t ∧ Linked st.after.statements sts

/-- The prepared statements behind such steps. -/
def leaves (t : Statements) (sts : List PacketStep) : Statements :=
  sts.foldl (fun _ st ↦ st.after.statements) t

theorem linked_append {t : Statements} {a b : List PacketStep} (ha : Linked t a)
    (hb : Linked (leaves t a) b) : Linked t (a ++ b) := by
  induction a generalizing t with
  | nil => exact hb
  | cons st a ih => exact ⟨ha.1, ih ha.2 hb⟩

/-- Linked steps that each leave the unused long data carry it along. -/
theorem longData_of_linked {t : Statements} {before rest : List PacketStep} {st : PacketStep}
    (h : Linked t (before ++ st :: rest))
    (hstep : ∀ x ∈ before, x.after.statements.longData = unused x.state.statements.longData x) :
    st.state.statements.longData = before.foldl unused t.longData := by
  induction before generalizing t with
  | nil => exact congrArg Statements.longData h.1
  | cons x before ih =>
    obtain ⟨hx, hbefore⟩ := List.forall_mem_cons.mp hstep
    rw [ih h.2 hbefore, List.foldl_cons, hx, h.1]

end PacketStep

namespace ProtoState

theorem packetSteps_linked (s : ProtoState) (dir : Dir) (pkts : List LogicalPacket) :
    PacketStep.Linked s.statements (s.packetSteps dir pkts) ∧
      PacketStep.leaves s.statements (s.packetSteps dir pkts) =
        (s.onPackets dir pkts).1.statements := by
  induction pkts generalizing s with
  | nil => exact ⟨trivial, rfl⟩
  | cons pkt pkts ih =>
    rw [packetSteps, onPackets]
    by_cases hdecoding : (s.onPacket dir pkt).1.decoding
    · rw [if_pos hdecoding, if_pos hdecoding]
      obtain ⟨hlinked, hleaves⟩ := ih (s.onPacket dir pkt).1
      exact ⟨⟨rfl, hlinked⟩, hleaves⟩
    · rw [if_neg hdecoding, if_neg hdecoding]
      exact ⟨⟨rfl, trivial⟩, rfl⟩

end ProtoState

namespace ConnDecoder

theorem chunkSteps_linked (d : ConnDecoder) (c : Chunk) :
    PacketStep.Linked d.statements (d.chunkSteps c) ∧
      PacketStep.leaves d.statements (d.chunkSteps c) = (d.onData c).1.statements := by
  have hfed := d.feed_toProtoState c
  rw [chunkSteps, onData]
  by_cases hdecoding : d.decoding
  · rw [if_pos hdecoding, onFed]
    by_cases hbroken : (d.feed c).1.client.broken || (d.feed c).1.server.broken
    · rw [if_neg (by simp [hbroken]), if_pos hbroken]
      refine ⟨trivial, ?_⟩
      show d.statements = (d.feed c).1.statements
      rw [hfed]
    · rw [if_pos (by simp [hdecoding, hbroken]), if_neg hbroken, hfed]
      exact d.toProtoState.packetSteps_linked c.dir (d.feed c).2
  · rw [if_neg (by simp [hdecoding]), if_neg hdecoding]
    exact ⟨trivial, rfl⟩

theorem packetSteps_linked (d : ConnDecoder) (cs : List Chunk) :
    PacketStep.Linked d.statements (d.packetSteps cs) := by
  induction cs generalizing d with
  | nil => exact trivial
  | cons c cs ih =>
    obtain ⟨hlinked, hleaves⟩ := d.chunkSteps_linked c
    rw [packetSteps]
    refine PacketStep.linked_append hlinked ?_
    rw [hleaves]
    exact ih (d.onData c).1

/-- Every execute of a registered statement consumes the statement's long data, and no other; so
what any packet of the run finds is the long data that was sent since. -/
structure ConsumesLongData (cs : List Chunk) : Prop where
  consumes : ∀ st ∈ new.packetSteps cs, ∀ args stmt, st.Executes args stmt →
    Statements.Consumes st.state.statements st.after.statements (Statements.argId args)
  found_eq : ∀ before st rest, new.packetSteps cs = before ++ st :: rest →
    st.state.statements.longData = before.foldl PacketStep.unused fun _ ↦ none

/-- Long data is consumed in a run if and only if the values of each execute of a registered
statement are there, or the statement has no long data. -/
theorem consumesLongData_iff (cs : List Chunk) : ConsumesLongData cs ↔
    ∀ st ∈ new.packetSteps cs, ∀ args stmt, st.Executes args stmt →
      st.state.statements.ReadsValues st.state.queryAttrs stmt args ∨
        ∀ param, st.state.statements.longData (Statements.argId args, param) = none := by
  constructor
  · intro h st hst args stmt hexecutes
    exact (PacketStep.consumes_iff hexecutes).mp (h.consumes st hst args stmt hexecutes)
  · intro h
    have hconsumes (st : PacketStep) (hst : st ∈ new.packetSteps cs) (args : Bytes)
        (stmt : PreparedStmt) (hexecutes : st.Executes args stmt) :=
      (PacketStep.consumes_iff hexecutes).mpr (h st hst args stmt hexecutes)
    refine ⟨hconsumes, fun before st rest hsteps ↦ ?_⟩
    have hlinked := new.packetSteps_linked cs
    rw [hsteps] at hlinked
    refine PacketStep.longData_of_linked hlinked fun x hx ↦ ?_
    exact PacketStep.after_longData (hconsumes x (by
      rw [hsteps]
      exact List.mem_append_left _ hx))

/-- A statement with one parameter, long data for it, and an execute that sends no types although
there is no earlier one whose types it could use. -/
def executeWithoutTypes : List Chunk :=
  handshake ++
    [⟨.client, 10, encodePacket 0 (COM_STMT_PREPARE :: ascii "SELECT ?")⟩,
      ⟨.server, 11, encodePacket 1 [0, 1, 0, 0, 0, 0, 0, 1, 0, 0, 0, 0]⟩,
      ⟨.client, 12, encodePacket 0 ([COM_STMT_SEND_LONG_DATA, 1, 0, 0, 0, 0, 0] ++ ascii "x")⟩,
      ⟨.client, 13, encodePacket 0 [COM_STMT_EXECUTE, 1, 0, 0, 0, 0, 1, 0, 0, 0, 0, 0]⟩]

theorem executeWithoutTypes_ne_nil : new.packetSteps executeWithoutTypes ≠ [] :=
  List.ne_nil_of_length_pos (by decide +kernel)

/-- The execute fails, and the long data stays for the next one. -/
theorem executeWithoutTypes_keeps : ¬ConsumesLongData executeWithoutTypes := by
  intro h
  have hlast := List.getLast_mem executeWithoutTypes_ne_nil
  have hgone := (h.consumes _ hlast [1, 0, 0, 0, 0, 1, 0, 0, 0, 0, 0]
    ⟨ascii "SELECT ?", 1, none⟩ ⟨by decide +kernel, by decide, by decide +kernel⟩).gone 0
  have hkept : ((new.packetSteps executeWithoutTypes).getLast
      executeWithoutTypes_ne_nil).after.statements.longData (1, 0) = some (ascii "x") := by
    decide +kernel
  exact absurd (hkept.symm.trans hgone) nofun

end ConnDecoder

end SqlReplay
