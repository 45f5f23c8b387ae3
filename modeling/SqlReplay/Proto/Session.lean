import SqlReplay.Proto.Attributes
import SqlReplay.Proto.Wire

/-!
# What a session means

The decoder sees packets with 8-bit sequence ids and has to find out which response belongs to
which request. `Session` is the model without that problem: an observer who is handed every command
together with its response. It has no queue and no sequence ids, only what commands change, the
default database and the prepared statements. What it makes of an answer is said here in its own
terms (`Session.answer`, `Statements.prepared`): the event has seen its response, its latency is the
time from the request to the response, and an OK packet registers the statement under the id that it
bears.

The step lemmas here say what each packet does to the decoder in these terms: a command is sent
(`Session.send`) and waits at the end of the queue, and a response that starts where it is expected
is the answer to the oldest request (`Session.answer`). Whether every response is met by its own
request is then a statement about runs.
-/

namespace SqlReplay

/-- The packet that answers a prepare: a status byte of zero, the statement's id, the number of its
columns and that of its parameters. An error packet registers nothing. -/
def Statements.prepared (s : Statements) (sql : Bytes) : Bytes → Statements
  | 0 :: i₀ :: i₁ :: i₂ :: i₃ :: _ :: _ :: n₀ :: n₁ :: _ =>
    { s with
      stmts := fun id ↦
        if id = (leNat [i₀, i₁, i₂, i₃]).toUInt32 then some ⟨sql, leNat [n₀, n₁], none⟩
        else s.stmts id }
  | _ => s

theorem Statements.onPrepareResponse_eq (s : Statements) (sql payload : Bytes) :
    s.onPrepareResponse sql payload = s.prepared sql payload := by
  unfold prepared
  split
  · next i₀ i₁ i₂ i₃ c₀ c₁ n₀ n₁ rest =>
    rw [onPrepareResponse, if_pos ⟨by simp, rfl⟩]
    rfl
  · next hshort =>
    rw [onPrepareResponse, if_neg]
    rintro ⟨hlength, hhead⟩
    match payload, hlength, hhead with
    | _ :: i₀ :: i₁ :: i₂ :: i₃ :: c₀ :: c₁ :: n₀ :: n₁ :: rest, _, rfl =>
      exact hshort i₀ i₁ i₂ i₃ c₀ c₁ n₀ n₁ rest rfl

/-- The part of a session that its statements depend on. -/
structure Session where
  db : Option Bytes
  user : Option Bytes
  queryAttrs : Bool
  statements : Statements

namespace Session

/-- A statement is sent: a `USE` moves the default database first. -/
def query (s : Session) (tsMicros : ℤ) (text : Bytes) : Session × Pending :=
  let db := (parseUseTarget text).orElse fun _ ↦ s.db
  ({ s with db := db }, .event ⟨tsMicros, text, 0, false, db, s.user⟩)

/-- The text of a query: all of it, or what stands behind the attributes on a connection that has
them. -/
def queryText (s : Session) (args : Bytes) : Option Bytes :=
  if s.queryAttrs then (attributesThenText args).map Prod.fst else some args

/-- A command that has a response is sent, and the request waits. -/
def send (s : Session) (tsMicros : ℤ) : Bytes → Session × Pending
  | [] => (s, .silent)
  | cmd :: args =>
    if cmd = COM_QUERY then
      match s.queryText args with
      | some text => s.query tsMicros (fromUtf8Lossy text)
      | none => (s, .silent)
    else if cmd = COM_INIT_DB then
      { s with db := some (fromUtf8Lossy args) }.query tsMicros
        (initDbStatement (fromUtf8Lossy args))
    else if cmd = COM_STMT_PREPARE then (s, .prepare (fromUtf8Lossy args))
    else if cmd = COM_STMT_EXECUTE then
      match s.statements.decodeExecute s.queryAttrs args with
      | (statements, some text) => { s with statements := statements }.query tsMicros text
      | (statements, none) => ({ s with statements := statements }, .silent)
    else if cmd = COM_STMT_RESET then
      ({ s with statements := s.statements.onReset args }, .silent)
    else (s, .silent)

/-- A command without a response is sent. -/
def sendSilent (s : Session) (payload : Bytes) : Session :=
  { s with statements := match payload with
    | [] => s.statements
    | cmd :: args =>
      if cmd = COM_STMT_SEND_LONG_DATA then s.statements.onSendLongData args
      else s.statements.onClose args }

/-- The first packet of a request's own response arrives. -/
def answer (s : Session) (pending : Pending) (tsMicros : ℤ) (payload : Bytes) :
    Session × List ProtoEvent :=
  match pending with
  | .event ev =>
    (s, [{ ev with latencyMicros := max (tsMicros - ev.tsMicros) 0, responseSeen := true }])
  | .prepare sql => ({ s with statements := s.statements.prepared sql payload }, [])
  | .silent => (s, [])

end Session

/-- A command asks for the statement with this text: a query for its own, which stands behind its
attributes if the connection has them, a change of the database for a `USE`, and an execute for what
it expands to. -/
inductive Session.Asks (s : Session) : Bytes → Bytes → Prop
  | query {args : Bytes} (h : s.queryAttrs = false) :
    s.Asks (COM_QUERY :: args) (fromUtf8Lossy args)
  | attributed {attributes text : Bytes} (h : s.queryAttrs = true)
    (hattrs : IsAttributes attributes) :
    s.Asks (COM_QUERY :: (attributes ++ text)) (fromUtf8Lossy text)
  | initDb {db : Bytes} : s.Asks (COM_INIT_DB :: db) (initDbStatement (fromUtf8Lossy db))
  | execute {args text : Bytes}
    (h : (s.statements.decodeExecute s.queryAttrs args).2 = some text) :
    s.Asks (COM_STMT_EXECUTE :: args) text

namespace Session

variable {s : Session} {command text : Bytes}

/-- The default database when a statement is sent: the one it moves to, if it is a `USE`, or that a
change of the database names. -/
def databaseFor (s : Session) (command text : Bytes) : Option Bytes :=
  (parseUseTarget text).orElse fun _ ↦ match command with
    | [] => s.db
    | cmd :: name => if cmd = COM_INIT_DB then some (fromUtf8Lossy name) else s.db

/-- The prepared statements behind a command: an execute uses up the data sent for it and leaves its
types, and a reset drops that data. -/
def statementsBehind (s : Session) : Bytes → Statements
  | [] => s.statements
  | cmd :: args =>
    if cmd = COM_STMT_EXECUTE then (s.statements.decodeExecute s.queryAttrs args).1
    else if cmd = COM_STMT_RESET then s.statements.onReset args
    else s.statements

/-- A command that asks for a statement makes an event of it, and moves to its database. -/
theorem send_of_asks (h : s.Asks command text) (tsMicros : ℤ) :
    (s.send tsMicros command).2 =
        .event ⟨tsMicros, text, 0, false, s.databaseFor command text, s.user⟩ ∧
      (s.send tsMicros command).1.db = s.databaseFor command text := by
  cases h with
  | query h => rw [send, if_pos rfl, queryText, h]; exact ⟨rfl, rfl⟩
  | @attributed attributes text h hattrs =>
    have hread : attributesThenText (attributes ++ text) = some (text, text) :=
      attributesThenText_iff.mpr ⟨rfl, attributes, hattrs, rfl⟩
    rw [send, if_pos rfl, queryText, h, if_pos rfl, hread]
    exact ⟨rfl, rfl⟩
  | initDb => exact ⟨rfl, rfl⟩
  | @execute args text h =>
    rw [send, if_neg (by decide), if_neg (by decide), if_neg (by decide), if_pos rfl]
    rcases hdecode : s.statements.decodeExecute s.queryAttrs args with ⟨statements, result⟩
    rw [hdecode] at h
    dsimp only at h
    subst h
    exact ⟨rfl, rfl⟩

/-- No command changes the user or the attributes, and this is what it does to the statements. -/
theorem send_keeps (s : Session) (tsMicros : ℤ) (command : Bytes) :
    (s.send tsMicros command).1.user = s.user ∧
      (s.send tsMicros command).1.queryAttrs = s.queryAttrs ∧
      (s.send tsMicros command).1.statements = s.statementsBehind command := by
  rcases command with _ | ⟨cmd, args⟩
  · exact ⟨rfl, rfl, rfl⟩
  by_cases hquery : cmd = COM_QUERY
  · subst hquery
    rw [show s.statementsBehind (COM_QUERY :: args) = s.statements from rfl, send, if_pos rfl]
    cases s.queryText args <;> exact ⟨rfl, rfl, rfl⟩
  by_cases hinit : cmd = COM_INIT_DB
  · subst hinit
    exact ⟨rfl, rfl, rfl⟩
  by_cases hprepare : cmd = COM_STMT_PREPARE
  · subst hprepare
    exact ⟨rfl, rfl, rfl⟩
  by_cases hexecute : cmd = COM_STMT_EXECUTE
  · subst hexecute
    rw [send, if_neg hquery, if_neg hinit, if_neg hprepare, if_pos rfl,
      statementsBehind, if_pos rfl]
    rcases s.statements.decodeExecute s.queryAttrs args with ⟨statements, _ | text⟩
    · exact ⟨rfl, rfl, rfl⟩
    · exact ⟨rfl, rfl, rfl⟩
  rw [send, if_neg hquery, if_neg hinit, if_neg hprepare, if_neg hexecute, statementsBehind,
    if_neg hexecute]
  split_ifs <;> exact ⟨rfl, rfl, rfl⟩

/-- Any other command makes no event, and stays in the default database. -/
theorem send_of_not_asks (h : ∀ text, ¬s.Asks command text) (tsMicros : ℤ) :
    (∀ ev, (s.send tsMicros command).2 ≠ .event ev) ∧ (s.send tsMicros command).1.db = s.db := by
  cases command with
  | nil => exact ⟨fun _ ↦ Pending.noConfusion, rfl⟩
  | cons cmd args =>
    rw [send]
    split_ifs with hquery hinit hprepare hexecute
    · subst hquery
      rw [queryText]
      split_ifs with hattrs
      · cases hread : attributesThenText args with
        | none => exact ⟨fun _ ↦ Pending.noConfusion, rfl⟩
        | some r =>
          obtain ⟨-, attributes, hattributes, rfl⟩ := attributesThenText_iff.mp hread
          exact absurd (.attributed hattrs hattributes) (h _)
      · exact absurd (.query (Bool.eq_false_iff.mpr hattrs)) (h _)
    · subst hinit
      exact absurd .initDb (h _)
    · exact ⟨fun _ ↦ Pending.noConfusion, rfl⟩
    · subst hexecute
      rcases hdecode : s.statements.decodeExecute s.queryAttrs args with ⟨statements, _ | text⟩
      · exact ⟨fun _ ↦ Pending.noConfusion, rfl⟩
      · exact absurd (.execute (congrArg Prod.snd hdecode)) (h text)
    · exact ⟨fun _ ↦ Pending.noConfusion, rfl⟩
    · exact ⟨fun _ ↦ Pending.noConfusion, rfl⟩

/-- Only a prepare waits for a statement's id. -/
theorem send_ne_prepare (h : ∀ sql, command ≠ COM_STMT_PREPARE :: sql) (tsMicros : ℤ)
    (text : Bytes) : (s.send tsMicros command).2 ≠ .prepare text := by
  cases command with
  | nil => exact Pending.noConfusion
  | cons cmd args =>
    rw [send]
    split_ifs with hquery hinit hprepare hexecute
    · cases s.queryText args <;> exact Pending.noConfusion
    · exact Pending.noConfusion
    · subst hprepare
      exact absurd rfl (h args)
    · rcases s.statements.decodeExecute s.queryAttrs args with ⟨statements, _ | text⟩ <;>
        exact Pending.noConfusion
    · exact Pending.noConfusion
    · exact Pending.noConfusion

end Session

/-- A command that has a response. -/
def Responds (payload : Bytes) : Prop :=
  ∃ cmd args, payload = cmd :: args ∧ cmd ≠ COM_STMT_SEND_LONG_DATA ∧ cmd ≠ COM_STMT_CLOSE ∧
    cmd ≠ COM_QUIT

/-- A command that has none. -/
def Silent (payload : Bytes) : Prop :=
  ∃ cmd args, payload = cmd :: args ∧ (cmd = COM_STMT_SEND_LONG_DATA ∨ cmd = COM_STMT_CLOSE)

namespace ProtoState

/-- The session that a decoder state has arrived at. -/
def session (s : ProtoState) : Session := ⟨s.db, s.user, s.queryAttrs, s.statements⟩

/-! ## Commands -/

section Commands

variable {s : ProtoState} {respSeq : UInt8}

/-- What a command does: the session moves to `r.1` and the request `r.2` joins the queue. -/
structure Sends (s s' : ProtoState) (respSeq : UInt8) (r : Session × Pending) : Prop where
  session_eq : s'.session = r.1
  pending_eq : s'.pending = s.pending ++ [⟨respSeq, r.2⟩]
  cont_eq : s'.serverContSeq = s.serverContSeq
  phase_eq : s'.phase = s.phase
  decoding_eq : s'.decoding = s.decoding

theorem Sends.established {s' : ProtoState} {r : Session × Pending} (hs : Sends s s' respSeq r)
    (h : s.Established) : s'.Established :=
  ⟨hs.phase_eq.trans h.phase_eq, hs.decoding_eq.trans h.decoding⟩

theorem queueEvent_sends (s : ProtoState) (respSeq : UInt8) (tsMicros : ℤ) (text : Bytes) :
    Sends s (s.queueEvent respSeq tsMicros text) respSeq (s.session.query tsMicros text) :=
  ⟨rfl, rfl, rfl, rfl, rfl⟩

theorem dispatch_sends (tsMicros : ℤ) {cmd : UInt8} (args : Bytes)
    (hlong : cmd ≠ COM_STMT_SEND_LONG_DATA) (hclose : cmd ≠ COM_STMT_CLOSE)
    (hquit : cmd ≠ COM_QUIT) :
    Sends s (s.dispatch respSeq tsMicros cmd args) respSeq
      (s.session.send tsMicros (cmd :: args)) := by
  rw [dispatch, Session.send]
  simp only [if_neg hlong, if_neg hclose, if_neg hquit]
  split_ifs
  · rw [show s.session.queryText args = comQueryText s.queryAttrs args from rfl]
    cases comQueryText s.queryAttrs args with
    | some text => exact queueEvent_sends s respSeq tsMicros _
    | none => exact ⟨rfl, rfl, rfl, rfl, rfl⟩
  · exact ⟨rfl, rfl, rfl, rfl, rfl⟩
  · exact ⟨rfl, rfl, rfl, rfl, rfl⟩
  · rw [onExecute, show s.session.statements.decodeExecute s.session.queryAttrs args =
      s.statements.decodeExecute s.queryAttrs args from rfl]
    rcases s.statements.decodeExecute s.queryAttrs args with ⟨statements, _ | text⟩
    · exact ⟨rfl, rfl, rfl, rfl, rfl⟩
    · exact ⟨rfl, rfl, rfl, rfl, rfl⟩
  · exact ⟨rfl, rfl, rfl, rfl, rfl⟩
  · exact ⟨rfl, rfl, rfl, rfl, rfl⟩

theorem onClientPacket_established (h : s.Established) {pkt : LogicalPacket}
    (hseq : pkt.firstSeq = 0) : s.onClientPacket pkt = s.onCommand pkt := by
  rw [onClientPacket, h.phase_eq]
  exact if_neg (not_not.mpr hseq)

@[simp] theorem dropContinuation_session (s : ProtoState) :
    s.dropContinuation.session = s.session := by
  rw [dropContinuation]
  split_ifs <;> rfl

@[simp] theorem dropContinuation_pending (s : ProtoState) :
    s.dropContinuation.pending = s.pending := by
  rw [dropContinuation]
  split_ifs <;> rfl

theorem dropContinuation_established (h : s.Established) : s.dropContinuation.Established := by
  rw [dropContinuation]
  split_ifs
  · exact ⟨h.phase_eq, h.decoding⟩
  · exact h

theorem dropContinuation_cont (h : s.pending = [] ∨ s.serverContSeq = none) :
    s.dropContinuation.serverContSeq = none := by
  rw [dropContinuation]
  split_ifs with hpending
  · rfl
  · exact h.resolve_left hpending

/-- A command is sent, the continuation id dropped when nothing was in flight. -/
theorem onClientPacket_sends (h : s.Established) {payload : Bytes} (hresponds : Responds payload)
    (lastSeq : UInt8) (tsMicros : ℤ) :
    Sends s.dropContinuation (s.onClientPacket ⟨0, lastSeq, tsMicros, payload⟩) (lastSeq + 1)
      (s.session.send tsMicros payload) := by
  obtain ⟨cmd, args, rfl, hlong, hclose, hquit⟩ := hresponds
  rw [onClientPacket_established h rfl, ← dropContinuation_session]
  exact dispatch_sends tsMicros args hlong hclose hquit

/-- A command without a response changes the prepared statements only. -/
theorem onClientPacket_silent (h : s.Established) (hpending : s.pending = []) {payload : Bytes}
    (hsilent : Silent payload) (lastSeq : UInt8) (tsMicros : ℤ) :
    s.onClientPacket ⟨0, lastSeq, tsMicros, payload⟩ =
      { s with
        serverContSeq := none
        statements := (s.session.sendSilent payload).statements } := by
  obtain ⟨cmd, args, rfl, rfl | rfl⟩ := hsilent
  · rw [onClientPacket_established h rfl, onCommand, dropContinuation, if_pos hpending]
    rfl
  · rw [onClientPacket_established h rfl, onCommand, dropContinuation, if_pos hpending]
    rfl

end Commands

/-! ## Responses -/

section Responses

variable {s : ProtoState} (pkt : LogicalPacket)

theorem onServerPacket_established (h : s.Established) :
    s.onServerPacket pkt = s.onResponse pkt := by rw [onServerPacket, h.phase_eq]

/-- The packet expected next continues the current response, whatever is in flight. -/
theorem onServerPacket_continuation (h : s.Established)
    (hcont : s.serverContSeq = some pkt.firstSeq) :
    s.onServerPacket pkt = ({ s with serverContSeq := some (pkt.lastSeq + 1) }, []) := by
  rw [onServerPacket_established pkt h, onResponse, if_pos hcont]

/-- A server packet that answers the oldest request: what it does to the decoder. -/
structure AnswersFront (s s' : ProtoState) (rest : List InFlight) (cont : UInt8)
    (r : Session × List ProtoEvent) (out : List ProtoEvent) : Prop where
  session_eq : s'.session = r.1
  out_eq : out = r.2
  pending_eq : s'.pending = rest
  cont_eq : s'.serverContSeq = some cont
  phase_eq : s'.phase = s.phase
  decoding_eq : s'.decoding = s.decoding

/-- A packet that is no continuation and has the sequence id the oldest request expects. -/
theorem onServerPacket_answer (h : s.Established) (hcont : s.serverContSeq ≠ some pkt.firstSeq)
    {pending : Pending} {rest : List InFlight}
    (hpending : s.pending = ⟨pkt.firstSeq, pending⟩ :: rest) :
    AnswersFront s (s.onServerPacket pkt).1 rest (pkt.lastSeq + 1)
      (s.session.answer pending pkt.tsMicros pkt.payload) (s.onServerPacket pkt).2 := by
  rw [onServerPacket_established pkt h, onResponse, if_neg hcont]
  simp only [hpending, ne_eq, not_true_eq_false, if_false]
  cases pending with
  | event ev => exact ⟨rfl, rfl, rfl, rfl, rfl, rfl⟩
  | prepare sql =>
    refine ⟨?_, rfl, rfl, rfl, rfl, rfl⟩
    rw [Session.answer, ← Statements.onPrepareResponse_eq]
    rfl
  | silent => exact ⟨rfl, rfl, rfl, rfl, rfl, rfl⟩

theorem AnswersFront.established {s' : ProtoState} {rest : List InFlight} {cont : UInt8}
    {r : Session × List ProtoEvent} {out : List ProtoEvent}
    (ha : AnswersFront s s' rest cont r out) (h : s.Established) : s'.Established :=
  ⟨ha.phase_eq.trans h.phase_eq, ha.decoding_eq.trans h.decoding⟩

/-- The rest of a response moves nothing but the continuation id. -/
theorem onPackets_continuation (h : s.Established) (clock : ℕ → ℤ) (offset : ℕ) {seq : UInt8}
    (hcont : s.serverContSeq = some seq) (payloads : List Bytes) :
    s.onPackets .server (packetsAt clock offset (numbered seq payloads)) =
      ({ s with serverContSeq := some (seqAfter seq payloads) }, []) := by
  induction payloads generalizing s seq offset with
  | nil => rw [seqAfter, ← hcont]; rfl
  | cons payload payloads ih =>
    have hstep := onServerPacket_continuation
      ⟨seq, lastSeqOf seq payload, clock offset, payload⟩ h hcont
    rw [numbered, packetsAt, onPackets, onPacket, hstep]
    have hest : Established { s with serverContSeq := some (lastSeqOf seq payload + 1) } :=
      ⟨h.phase_eq, h.decoding⟩
    rw [if_pos hest.decoding, ih hest _ rfl]
    rfl

/-- A whole response that starts where the oldest request expects it, and not where the current
response continues, is the answer to that request. -/
theorem onPackets_response (h : s.Established) (clock : ℕ → ℤ) (offset : ℕ) {seq : UInt8}
    (hcont : s.serverContSeq ≠ some seq) {pending : Pending} {rest : List InFlight}
    (hpending : s.pending = ⟨seq, pending⟩ :: rest) (payload : Bytes) (payloads : List Bytes) :
    AnswersFront s
      (s.onPackets .server (packetsAt clock offset (numbered seq (payload :: payloads)))).1 rest
      (seqAfter seq (payload :: payloads)) (s.session.answer pending (clock offset) payload)
      (s.onPackets .server (packetsAt clock offset (numbered seq (payload :: payloads)))).2 := by
  have hstart := onServerPacket_answer
    ⟨seq, lastSeqOf seq payload, clock offset, payload⟩ h hcont hpending
  have hest := hstart.established h
  rw [numbered, packetsAt, onPackets, onPacket, if_pos hest.decoding,
    onPackets_continuation hest _ _ hstart.cont_eq, List.append_nil]
  exact ⟨hstart.session_eq, hstart.out_eq, hstart.pending_eq, rfl, hstart.phase_eq,
    hstart.decoding_eq⟩

end Responses

end ProtoState

end SqlReplay
