import SqlReplay.Proto.Assembler

/-!
# The connection decoder

`ConnDecoder` follows one MySQL connection through greeting, login and command phase and reports
one event for each client statement, with the latency from the request to the first packet of its
response. The state is split in two: the two packet assemblers, and `ProtoState`, which is all that
a logical packet can change.

Timestamps are microseconds since the epoch. They are integers here, and a latency is kept in
microseconds where the source divides by a million into a float.

## The queue of requests

A request waits in `pending` for the first packet of its response, and every packet that is not a
response start must be told apart from one by 8-bit sequence ids alone. The history field
`requested` records what `queueEvent` was called with. No function reads it: it is there to say
which statements a run owes.
-/

namespace SqlReplay

/-! ## Constants -/

def CLIENT_CONNECT_WITH_DB : UInt32 := 0x00000008
def CLIENT_COMPRESS : UInt32 := 0x00000020
def CLIENT_PROTOCOL_41 : UInt32 := 0x00000200
def CLIENT_SSL : UInt32 := 0x00000800
def CLIENT_SECURE_CONNECTION : UInt32 := 0x00008000
def CLIENT_PLUGIN_AUTH_LENENC_CLIENT_DATA : UInt32 := 0x00200000
def CLIENT_ZSTD_COMPRESSION_ALGORITHM : UInt32 := 0x04000000
def CLIENT_QUERY_ATTRIBUTES : UInt32 := 0x08000000

def PARAMETER_COUNT_AVAILABLE : UInt8 := 0x08

def COM_QUIT : UInt8 := 0x01
def COM_INIT_DB : UInt8 := 0x02
def COM_QUERY : UInt8 := 0x03
def COM_STMT_PREPARE : UInt8 := 0x16
def COM_STMT_EXECUTE : UInt8 := 0x17
def COM_STMT_SEND_LONG_DATA : UInt8 := 0x18
def COM_STMT_CLOSE : UInt8 := 0x19
def COM_STMT_RESET : UInt8 := 0x1A

/-! ## State -/

inductive Dir where
  | client
  | server
  deriving DecidableEq, Repr

/-- One decoded client statement. -/
structure ProtoEvent where
  tsMicros : ℤ
  query : Bytes
  /-- Request packet to first response packet, 0 when no response was captured. -/
  latencyMicros : ℤ
  responseSeen : Bool
  db : Option Bytes
  user : Option Bytes
  deriving DecidableEq, Repr

/-- Why a connection stopped being decoded. -/
inductive Disposition where
  | active
  | tls
  | compressed
  | badHandshake
  | broken
  deriving DecidableEq, Repr

/-- Per-connection decode counters. -/
structure ConnStats where
  statementsExpanded : ℕ := 0
  statementsInexpandable : ℕ := 0
  commandsIgnored : ℕ := 0
  responsesMissing : ℕ := 0
  deriving DecidableEq, Repr

structure PreparedStmt where
  sql : Bytes
  numParams : ℕ
  /-- The types of the last execute that sent types. -/
  paramTypes : Option (List ParamType)
  deriving DecidableEq, Repr

inductive Pending where
  /-- A statement waiting for its first response packet. -/
  | event (ev : ProtoEvent)
  /-- A prepare waiting for its statement id. -/
  | prepare (sql : Bytes)
  /-- A command with a response but no event. -/
  | silent
  deriving DecidableEq, Repr

/-- A request whose response starts at `respSeq`. -/
structure InFlight where
  respSeq : UInt8
  pending : Pending
  deriving DecidableEq, Repr

inductive Phase where
  | greeting
  | login
  | established
  deriving DecidableEq, Repr

/-- The prepared statements of a connection and the parameter data sent ahead for them. -/
structure Statements where
  stmts : UInt32 → Option PreparedStmt
  longData : UInt32 × UInt16 → Option Bytes

/-- What logical packets change. -/
structure ProtoState where
  phase : Phase
  disposition : Disposition
  caps : UInt32
  serverCaps : UInt32
  queryAttrs : Bool
  user : Option Bytes
  db : Option Bytes
  serverVersion : Option Bytes
  threadId : Option UInt32
  statements : Statements
  pending : List InFlight
  /-- The sequence id of the next continuation packet of the current response. -/
  serverContSeq : Option UInt8
  stats : ConnStats
  finished : Bool
  /-- History: the statements passed to `queueEvent`. -/
  requested : List ProtoEvent

structure ConnDecoder extends ProtoState where
  client : PacketAssembler
  server : PacketAssembler

/-! ## Prepared statements -/

namespace Statements

/-- `HashMap::insert` on the statements. -/
def register (s : Statements) (id : UInt32) (stmt : PreparedStmt) : Statements :=
  { s with stmts := fun i ↦ if i = id then some stmt else s.stmts i }

/-- `long_data.retain(|(sid, _), _| *sid != stmt_id)`. -/
def dropLongData (s : Statements) (id : UInt32) : Statements :=
  { s with longData := fun k ↦ if k.1 = id then none else s.longData k }

/-- The statement id behind a command byte. -/
def argId (args : Bytes) : UInt32 := (leNat (args.take 4)).toUInt32

/-- The COM_STMT_SEND_LONG_DATA arm: data sent in pieces is joined. -/
def onSendLongData (s : Statements) (args : Bytes) : Statements :=
  if args.length < 6 then s
  else
    let key := (argId args, (leNat ((args.drop 4).take 2)).toUInt16)
    { s with longData := fun k ↦
        if k = key then some ((s.longData key).getD [] ++ args.drop 6) else s.longData k }

/-- The COM_STMT_CLOSE arm. -/
def onClose (s : Statements) (args : Bytes) : Statements :=
  if args.length < 4 then s
  else
    { s.dropLongData (argId args) with
      stmts := fun i ↦ if i = argId args then none else s.stmts i }

/-- The first packet of a prepare response: an OK packet carries the statement's id and number of
parameters, and an error packet registers nothing. -/
def onPrepareResponse (s : Statements) (sql p : Bytes) : Statements :=
  if 9 ≤ p.length ∧ p.head? = some 0 then
    s.register (argId (p.drop 1)) ⟨sql, leNat ((p.drop 7).take 2), none⟩
  else s

/-- The COM_STMT_RESET arm. -/
def onReset (s : Statements) (args : Bytes) : Statements :=
  if args.length < 4 then s else s.dropLongData (argId args)

/-- The types of an execute's parameters and the statements that remember them: the packet's own
when it sends types, else those of the last execute that did. -/
def executeTypes (s : Statements) (id : UInt32) (stmt : PreparedStmt) (newParamsBound : UInt8)
    (named : Bool) (paramCount : ℕ) (r : Bytes) : Statements × Option (List ParamType × Bytes) :=
  if newParamsBound = 1 then
    match paramTypes named paramCount r with
    | none => (s, none)
    | some (types, r) =>
      (s.register id { stmt with paramTypes := some types }, some (types, r))
  else (s, stmt.paramTypes.map fun types ↦ (types, r))

/-- The values of an execute, from the NULL bitmap on. -/
def executeValues (s : Statements) (id : UInt32) (stmt : PreparedStmt) (named : Bool)
    (paramCount : ℕ) (r : Bytes) : Statements × Option (List Bytes) :=
  if paramCount = 0 then (s, some [])
  else
    match (do
      let bitmap ← Reader.take ((paramCount + 7) / 8)
      let newParamsBound ← Reader.u8
      pure (bitmap, newParamsBound) : Reader (Bytes × UInt8)) r with
    | none => (s, none)
    | some ((bitmap, newParamsBound), r) =>
      match s.executeTypes id stmt newParamsBound named paramCount r with
      | (s, none) => (s, none)
      | (s, some (types, r)) =>
        if types.length < paramCount then (s, none)
        else
          let sent (i : ℕ) := (s.longData (id, i.toUInt16)).map bytesLiteral
          (s, (paramValues bitmap sent 0 (types.take paramCount) r).map Prod.fst)

/-- `decode_execute`: the statement's text with its parameter values, nothing when it cannot be
expanded. Long data is kept when the values do not decode. -/
def decodeExecute (s : Statements) (queryAttrs : Bool) (p : Bytes) : Statements × Option Bytes :=
  match (do
    let id ← Reader.le 4
    let flags ← Reader.u8
    let _ ← Reader.take 4
    pure (id.toUInt32, flags) : Reader (UInt32 × UInt8)) p with
  | none => (s, none)
  | some ((id, flags), r) =>
    match s.stmts id with
    | none => (s, none)
    | some stmt =>
      let named := queryAttrs && flags &&& PARAMETER_COUNT_AVAILABLE != 0
      match (if named then Reader.lenencInt else pure stmt.numParams) r with
      | none => (s, none)
      | some (paramCount, r) =>
        match s.executeValues id stmt named paramCount r with
        | (s, none) => (s, none)
        | (s, some values) =>
          (s.dropLongData id,
            interpolate stmt.sql (values.take stmt.numParams) stmt.numParams)

end Statements

/-! ## Handshake -/

/-- `parse_greeting`: the server's version, thread id and capabilities, missing capability bytes
read as zero. -/
def parseGreeting (p : Bytes) : Option (Bytes × UInt32 × UInt32) :=
  if p.head? ≠ some 10 then none
  else
    match (do
      let version ← Reader.cstring
      let threadId ← Reader.le 4
      pure (version, threadId) : Reader (Bytes × ℕ)) p.tail with
    | none => none
    | some ((version, threadId), r) =>
      -- the salt (8) and a filler, then charset (1) and status (2) between the two halves
      let r := r.drop 9
      let low := if r.length < 2 then 0 else leNat (r.take 2)
      let high :=
        if r.length < 2 ∨ (r.drop 5).length < 2 then 0 else leNat ((r.drop 5).take 2)
      some (fromUtf8Lossy version, threadId.toUInt32, (low + 2 ^ 16 * high).toUInt32)

/-- The three forms of the authentication response in the login packet. -/
def authResponse (caps : UInt32) : Reader Unit := do
  if caps &&& CLIENT_PLUGIN_AUTH_LENENC_CLIENT_DATA ≠ 0 then
    let _ ← Reader.lenencBytes
  else if caps &&& CLIENT_SECURE_CONNECTION ≠ 0 then
    let n ← Reader.u8
    let _ ← Reader.take n.toNat
  else
    let _ ← Reader.cstring

/-- `com_query_text`: the text of a query, behind its attributes when the connection has them. -/
def comQueryText (queryAttrs : Bool) (p : Bytes) : Option Bytes :=
  if queryAttrs then (attributesThenText p).map Prod.fst else some p

/-- The event of a request whose response starts at `tsMicros`. -/
def answered (ev : ProtoEvent) (tsMicros : ℤ) : ProtoEvent :=
  { ev with latencyMicros := max (tsMicros - ev.tsMicros) 0, responseSeen := true }

/-- The statement that a COM_INIT_DB stands for. -/
def initDbStatement (db : Bytes) : Bytes :=
  ascii "USE " ++ backtick :: doubleBackticks db ++ [backtick]

namespace ProtoState

/-- The state of `ConnDecoder::new`. -/
def new : ProtoState where
  phase := .greeting
  disposition := .active
  caps := 0
  serverCaps := 0
  queryAttrs := false
  user := none
  db := none
  serverVersion := none
  threadId := none
  statements := ⟨fun _ ↦ none, fun _ ↦ none⟩
  pending := []
  serverContSeq := none
  stats := {}
  finished := false
  requested := []

/-- `ConnDecoder::decoding`. -/
def decoding (s : ProtoState) : Bool := !s.finished && s.disposition == .active

/-- The user and database of the login packet, from the user name on; whatever does not parse
stays unset. -/
def onLoginNames (s : ProtoState) (caps : UInt32) (r : Bytes) : ProtoState :=
  match Reader.cstring r with
  | none => s
  | some (user, r) =>
    let s := { s with user := some (fromUtf8Lossy user) }
    match authResponse caps r with
    | none => s
    | some ((), r) =>
      if caps &&& CLIENT_CONNECT_WITH_DB = 0 then s
      else
        match Reader.cstring r with
        | none => s
        | some (db, _) => if db = [] then s else { s with db := some (fromUtf8Lossy db) }

/-- `on_login`. Query attributes are in use when both sides asked for them. -/
def onLogin (s : ProtoState) (p : Bytes) : ProtoState :=
  if p.length < 4 then { s with disposition := .badHandshake }
  else
    let caps := (leNat (p.take 4)).toUInt32
    if caps &&& CLIENT_PROTOCOL_41 = 0 then { s with disposition := .badHandshake }
    else if caps &&& CLIENT_SSL ≠ 0 then { s with disposition := .tls }
    else if caps &&& (CLIENT_COMPRESS ||| CLIENT_ZSTD_COMPRESSION_ALGORITHM) ≠ 0 then
      { s with disposition := .compressed }
    else
      let s := { s with
        caps := caps
        queryAttrs := caps &&& s.serverCaps &&& CLIENT_QUERY_ATTRIBUTES != 0 }
      -- capabilities, maximal packet size, charset and filler
      { s.onLoginNames caps (p.drop (4 + 4 + 1 + 23)) with phase := .established }

/-! ## Commands -/

/-- `push_pending`. -/
def pushPending (s : ProtoState) (respSeq : UInt8) (pending : Pending) : ProtoState :=
  { s with pending := s.pending ++ [⟨respSeq, pending⟩] }

/-- `queue_event`: a `USE` statement moves the default database before it is recorded. -/
def queueEvent (s : ProtoState) (respSeq : UInt8) (tsMicros : ℤ) (query : Bytes) : ProtoState :=
  let db := (parseUseTarget query).orElse fun _ ↦ s.db
  let ev : ProtoEvent := ⟨tsMicros, query, 0, false, db, s.user⟩
  { s with db := db, requested := s.requested ++ [ev] }.pushPending respSeq (.event ev)


/-- A command that is counted as ignored: it responds, but it is no statement. -/
def ignoreCommand (s : ProtoState) (respSeq : UInt8) : ProtoState :=
  { s with stats.commandsIgnored := s.stats.commandsIgnored + 1 }.pushPending respSeq .silent

/-- The COM_STMT_EXECUTE arm. -/
def onExecute (s : ProtoState) (respSeq : UInt8) (tsMicros : ℤ) (args : Bytes) : ProtoState :=
  match s.statements.decodeExecute s.queryAttrs args with
  | (statements, some query) =>
    { s with
      statements := statements
      stats.statementsExpanded := s.stats.statementsExpanded + 1 }.queueEvent respSeq tsMicros query
  | (statements, none) =>
    { s with
      statements := statements
      stats.statementsInexpandable := s.stats.statementsInexpandable + 1 }.pushPending
        respSeq .silent

/-- The COM_INIT_DB arm. -/
def onInitDb (s : ProtoState) (respSeq : UInt8) (tsMicros : ℤ) (args : Bytes) : ProtoState :=
  { s with db := some (fromUtf8Lossy args) }.queueEvent respSeq tsMicros
    (initDbStatement (fromUtf8Lossy args))

/-- The match of `on_command` on the command byte. -/
def dispatch (s : ProtoState) (respSeq : UInt8) (tsMicros : ℤ) (cmd : UInt8) (args : Bytes) :
    ProtoState :=
  if cmd = COM_QUERY then
    match comQueryText s.queryAttrs args with
    | some text => s.queueEvent respSeq tsMicros (fromUtf8Lossy text)
    | none => s.ignoreCommand respSeq
  else if cmd = COM_INIT_DB then s.onInitDb respSeq tsMicros args
  else if cmd = COM_STMT_PREPARE then s.pushPending respSeq (.prepare (fromUtf8Lossy args))
  else if cmd = COM_STMT_EXECUTE then s.onExecute respSeq tsMicros args
  else if cmd = COM_STMT_SEND_LONG_DATA then
    { s with statements := s.statements.onSendLongData args }
  else if cmd = COM_STMT_CLOSE then { s with statements := s.statements.onClose args }
  else if cmd = COM_STMT_RESET then
    { s with statements := s.statements.onReset args }.pushPending respSeq .silent
  else if cmd = COM_QUIT then { s with finished := true }
  else s.ignoreCommand respSeq

/-- With nothing in flight the previous response is over, and its continuation id is dropped. -/
def dropContinuation (s : ProtoState) : ProtoState :=
  if s.pending = [] then { s with serverContSeq := none } else s

/-- `on_command`. -/
def onCommand (s : ProtoState) (pkt : LogicalPacket) : ProtoState :=
  match pkt.payload with
  | [] => s.dropContinuation
  | cmd :: args => s.dropContinuation.dispatch (pkt.lastSeq + 1) pkt.tsMicros cmd args

/-- `on_client_packet`. -/
def onClientPacket (s : ProtoState) (pkt : LogicalPacket) : ProtoState :=
  match s.phase with
  | .greeting => { s with disposition := .badHandshake }
  | .login => s.onLogin pkt.payload
  | .established => if pkt.firstSeq ≠ 0 then s else s.onCommand pkt

/-! ## Responses -/

/-- What the first packet of a response does to the request it answers. -/
def resolve (s : ProtoState) (pending : Pending) (pkt : LogicalPacket) :
    ProtoState × List ProtoEvent :=
  match pending with
  | .event ev => (s, [answered ev pkt.tsMicros])
  | .prepare sql =>
    ({ s with statements := s.statements.onPrepareResponse sql pkt.payload }, [])
  | .silent => (s, [])

/-- The established arm of `on_server_packet`: a continuation of the current response, the start
of the response to the oldest request, or a stray packet. -/
def onResponse (s : ProtoState) (pkt : LogicalPacket) : ProtoState × List ProtoEvent :=
  if s.serverContSeq = some pkt.firstSeq then
    ({ s with serverContSeq := some (pkt.lastSeq + 1) }, [])
  else
    match s.pending with
    | [] => ({ s with serverContSeq := none }, [])
    | front :: rest =>
      if front.respSeq ≠ pkt.firstSeq then ({ s with serverContSeq := none }, [])
      else { s with serverContSeq := some (pkt.lastSeq + 1), pending := rest }.resolve
        front.pending pkt

/-- `on_server_packet`, with the events it appends to `out`. -/
def onServerPacket (s : ProtoState) (pkt : LogicalPacket) : ProtoState × List ProtoEvent :=
  match s.phase with
  | .greeting =>
    match parseGreeting pkt.payload with
    | some (version, threadId, caps) =>
      ({ s with
        serverVersion := some version
        threadId := some threadId
        serverCaps := caps
        phase := .login }, [])
    | none => ({ s with disposition := .badHandshake }, [])
  | .login => ({ s with disposition := .badHandshake }, [])
  | .established => s.onResponse pkt

/-! ## Runs -/

/-- One logical packet of either direction. -/
def onPacket (s : ProtoState) (dir : Dir) (pkt : LogicalPacket) : ProtoState × List ProtoEvent :=
  match dir with
  | .client => (s.onClientPacket pkt, [])
  | .server => s.onServerPacket pkt

/-- The loop of `on_data` over the packets of a chunk. -/
def onPackets (s : ProtoState) (dir : Dir) : List LogicalPacket → ProtoState × List ProtoEvent
  | [] => (s, [])
  | pkt :: pkts =>
    if (s.onPacket dir pkt).1.decoding then
      (((s.onPacket dir pkt).1.onPackets dir pkts).1,
        (s.onPacket dir pkt).2 ++ ((s.onPacket dir pkt).1.onPackets dir pkts).2)
    else s.onPacket dir pkt

/-- The event of a request that got no response. -/
def unanswered : Pending → Option ProtoEvent
  | .event ev => some { ev with latencyMicros := 0, responseSeen := false }
  | _ => none

/-- `ConnDecoder::finish`: the requests in flight are flushed without a response, unless the
connection is finished already. -/
def finish (s : ProtoState) : ProtoState × List ProtoEvent :=
  if s.finished then (s, [])
  else
    let out := s.pending.filterMap (unanswered ·.pending)
    ({ s with
      finished := true
      pending := []
      stats.responsesMissing := s.stats.responsesMissing + out.length }, out)

end ProtoState

/-- One call of `on_data`. -/
structure Chunk where
  dir : Dir
  tsMicros : ℤ
  data : Bytes
  deriving DecidableEq, Repr

namespace ConnDecoder

/-- `ConnDecoder::new`. -/
def new : ConnDecoder := { ProtoState.new with client := .new, server := .new }

/-- The assembler of a direction. -/
def assembler (d : ConnDecoder) : Dir → PacketAssembler
  | .client => d.client
  | .server => d.server

/-- The decoder with another assembler for a direction. -/
def setAssembler (d : ConnDecoder) (dir : Dir) (a : PacketAssembler) : ConnDecoder :=
  match dir with
  | .client => { d with client := a }
  | .server => { d with server := a }

@[simp] theorem setAssembler_toProtoState (d : ConnDecoder) (dir : Dir) (a : PacketAssembler) :
    (d.setAssembler dir a).toProtoState = d.toProtoState := by cases dir <;> rfl

@[simp] theorem assembler_setAssembler (d : ConnDecoder) (dir : Dir) (a : PacketAssembler) :
    (d.setAssembler dir a).assembler dir = a := by cases dir <;> rfl

/-- The chunk goes to the assembler of its direction. -/
def feed (d : ConnDecoder) (c : Chunk) : ConnDecoder × List LogicalPacket :=
  let r := (d.assembler c.dir).feed c.tsMicros c.data
  (d.setAssembler c.dir r.1, r.2)

/-- What `on_data` does with the packets of a chunk: nothing once the framing broke. -/
def onFed (d : ConnDecoder) (dir : Dir) (pkts : List LogicalPacket) :
    ConnDecoder × List ProtoEvent :=
  if d.client.broken || d.server.broken then
    ({ d with toProtoState := { d.toProtoState with disposition := .broken } }, [])
  else ({ d with toProtoState := (d.onPackets dir pkts).1 }, (d.onPackets dir pkts).2)

/-- `ConnDecoder::on_data`, with the events it appends to `out`. -/
def onData (d : ConnDecoder) (c : Chunk) : ConnDecoder × List ProtoEvent :=
  if d.decoding then (d.feed c).1.onFed c.dir (d.feed c).2 else (d, [])

/-- `ConnDecoder::finish`, with the events it appends to `out`. -/
def finish (d : ConnDecoder) : ConnDecoder × List ProtoEvent :=
  ({ d with toProtoState := d.toProtoState.finish.1 }, d.toProtoState.finish.2)

/-- A sequence of calls of `on_data`, with all the events they append to `out`. -/
def run (d : ConnDecoder) : List Chunk → ConnDecoder × List ProtoEvent
  | [] => (d, [])
  | c :: cs => (((d.onData c).1.run cs).1, (d.onData c).2 ++ ((d.onData c).1.run cs).2)

end ConnDecoder

end SqlReplay
