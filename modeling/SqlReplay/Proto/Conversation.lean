import SqlReplay.Proto.Session

/-!
# Conversations

A client that waits for each response before its next command has a conversation with the server:
exchanges of a command and its complete response, with silent commands in between. The decoder
reports of such a conversation exactly what the session model says of it, event by event, whatever
the chunks in which TCP delivered it. What that is for a single exchange is `Exchange.Answered`: a
command that asks for a statement is one event with the latency to its own response, any other
command is none, and a prepared statement is registered under the id of its own response.

The invariant between two exchanges is that nothing is in flight. It makes the continuation id
harmless: a command that finds the queue empty drops it, so the response that follows cannot be
taken for a continuation of an older one, not even where their sequence ids collide.

The one limit is the decoder's own, `maxLogicalPacket`: a connection with a larger packet is given
up as broken. And where queries have attributes, one without them has no text to report.
-/

namespace SqlReplay

/-- A command with its response, and the silent commands sent right before it. The chunks are what
the decoder is fed. -/
structure Exchange where
  silent : List Bytes
  command : Bytes
  response : List Bytes
  clientChunks : List (ℤ × Bytes)
  serverChunks : List (ℤ × Bytes)

/-- Exchanges, and silent commands after the last of them. -/
structure Conversation where
  exchanges : List Exchange
  closing : List Bytes
  closingChunks : List (ℤ × Bytes)

namespace Exchange

/-- What the client sends. -/
def requests (e : Exchange) : List (UInt8 × Bytes) := commandPackets (e.silent ++ [e.command])

/-- What the server sends: its sequence ids go on from the command's last one. -/
def replies (e : Exchange) : List (UInt8 × Bytes) :=
  numbered (lastSeqOf 0 e.command + 1) e.response

/-- The timestamp of the command's first byte. -/
def requestTs (e : Exchange) : ℤ :=
  tsAt e.clientChunks (encodePackets (commandPackets e.silent)).length

/-- The timestamp of the response's first byte. -/
def responseTs (e : Exchange) : ℤ := tsAt e.serverChunks 0

structure WellFormed (e : Exchange) : Prop where
  silent_spec : ∀ p ∈ e.silent, Silent p
  responds : Responds e.command
  response_ne : e.response ≠ []
  client_eq : chunkBytes e.clientChunks = encodePackets e.requests
  server_eq : chunkBytes e.serverChunks = encodePackets e.replies

/-- No packet is larger than the decoder takes. -/
def WithinLimits (e : Exchange) : Prop := WithinLimit e.requests ∧ WithinLimit e.replies

/-- The calls that deliver the exchange. -/
def calls (e : Exchange) : List Chunk :=
  ConnDecoder.chunksOf .client e.clientChunks ++ ConnDecoder.chunksOf .server e.serverChunks

end Exchange

/-- An exchange as the session sees it: the command is sent and the first packet of the response
that belongs to it is its answer. -/
def Session.exchange (s : Session) (e : Exchange) : Session × List ProtoEvent :=
  let r := (e.silent.foldl Session.sendSilent s).send e.requestTs e.command
  r.1.answer r.2 e.responseTs (e.response.headD [])

/-- Exchange after exchange. -/
def Session.exchanges (s : Session) : List Exchange → Session × List ProtoEvent
  | [] => (s, [])
  | e :: es => (((s.exchange e).1.exchanges es).1,
      (s.exchange e).2 ++ ((s.exchange e).1.exchanges es).2)

/-- A conversation as the session sees it. -/
def Session.converse (s : Session) (conv : Conversation) : Session × List ProtoEvent :=
  (conv.closing.foldl Session.sendSilent (s.exchanges conv.exchanges).1,
    (s.exchanges conv.exchanges).2)

namespace Conversation

structure WellFormed (conv : Conversation) : Prop where
  exchanges_spec : ∀ e ∈ conv.exchanges, e.WellFormed
  closing_spec : ∀ p ∈ conv.closing, Silent p
  closing_eq : chunkBytes conv.closingChunks = encodePackets (commandPackets conv.closing)

def WithinLimits (conv : Conversation) : Prop :=
  (∀ e ∈ conv.exchanges, e.WithinLimits) ∧ WithinLimit (commandPackets conv.closing)

def calls (conv : Conversation) : List Chunk :=
  conv.exchanges.flatMap Exchange.calls ++ ConnDecoder.chunksOf .client conv.closingChunks

end Conversation

/-! ## What an exchange comes to -/

/-- The OK packet of a prepare. -/
def prepareOk (id : UInt32) (columns params : UInt16) (rest : Bytes) : Bytes :=
  0 :: (leBytes 4 id.toNat ++ (leBytes 2 columns.toNat ++ (leBytes 2 params.toNat ++ rest)))

/-- An exchange in a session, what it reports, and the session behind it. -/
structure Exchange.Answered (e : Exchange) (s : Session) (out : List ProtoEvent) (s' : Session) :
    Prop where
  /-- A statement is reported once, with the latency from its request to its own response, the user
  that logged in, and the database that it finds or moves to. -/
  statement : ∀ text, s.Asks e.command text → ∃ ev, out = [ev] ∧ ev.query = text ∧
    ev.tsMicros = e.requestTs ∧ ev.responseSeen = true ∧
    ev.latencyMicros = max (e.responseTs - e.requestTs) 0 ∧
    ev.user = s.user ∧ ev.db = s.databaseFor e.command text ∧ s'.db = ev.db
  other : (∀ text, ¬s.Asks e.command text) → out = [] ∧ s'.db = s.db
  user : s'.user = s.user
  queryAttrs : s'.queryAttrs = s.queryAttrs
  /-- A prepared statement is registered under the id of its own response, and nothing else is. -/
  prepared : ∀ sql id columns params rest, e.command = COM_STMT_PREPARE :: sql →
    e.response.head? = some (prepareOk id columns params rest) →
      s'.statements.stmts id = some ⟨fromUtf8Lossy sql, params.toNat, none⟩ ∧
        (∀ id', id' ≠ id → s'.statements.stmts id' = s.statements.stmts id') ∧
        s'.statements.longData = s.statements.longData
  refused : ∀ sql, e.command = COM_STMT_PREPARE :: sql →
    (∀ id columns params rest, e.response.head? ≠ some (prepareOk id columns params rest)) →
      s'.statements = s.statements
  statements : (∀ sql, e.command ≠ COM_STMT_PREPARE :: sql) →
    s'.statements = s.statementsBehind e.command

/-- Exchange after exchange, silent commands before each. -/
inductive Session.Converses : Session → List Exchange → List ProtoEvent → Session → Prop
  | nil (s : Session) : s.Converses [] [] s
  | cons {s s' s'' : Session} {e : Exchange} {es : List Exchange} {out outs : List ProtoEvent}
    (he : e.Answered (e.silent.foldl Session.sendSilent s) out s')
    (hes : s'.Converses es outs s'') : s.Converses (e :: es) (out ++ outs) s''

namespace Session

theorem prepared_prepareOk (t : Statements) (sql : Bytes) (id : UInt32) (columns params : UInt16)
    (rest : Bytes) : t.prepared sql (prepareOk id columns params rest) =
      t.register id ⟨sql, params.toNat, none⟩ := by
  have hid : leNat (leBytes 4 id.toNat) = id.toNat := leNat_leBytes id.toNat_lt
  have hparams : leNat (leBytes 2 params.toNat) = params.toNat := leNat_leBytes params.toNat_lt
  simp only [leBytes] at hid hparams
  simp only [prepareOk, leBytes, List.cons_append, List.nil_append, Statements.prepared, hid,
    hparams, Statements.register]
  rw [show id.toNat.toUInt32 = id from UInt32.ofNat_toNat]

/-- Any other packet registers nothing. -/
theorem prepared_of_ne {payload : Bytes}
    (h : ∀ id columns params rest, payload ≠ prepareOk id columns params rest) (t : Statements)
    (sql : Bytes) : t.prepared sql payload = t := by
  unfold Statements.prepared
  split
  · next i₀ i₁ i₂ i₃ c₀ c₁ n₀ n₁ rest =>
    have hid : leBytes 4 ((leNat [i₀, i₁, i₂, i₃]).toUInt32).toNat = [i₀, i₁, i₂, i₃] := by
      have hlt : leNat [i₀, i₁, i₂, i₃] < 2 ^ 32 := (leNat_lt _).trans_le (by simp)
      rw [Nat.toUInt32, UInt32.toNat_ofNat', Nat.mod_eq_of_lt hlt]
      exact leBytes_leNat [i₀, i₁, i₂, i₃]
    have htwo (x y : UInt8) : leBytes 2 ((leNat [x, y]).toUInt16).toNat = [x, y] := by
      have hlt : leNat [x, y] < 2 ^ 16 := (leNat_lt _).trans_le (by simp)
      rw [Nat.toUInt16, UInt16.toNat_ofNat', Nat.mod_eq_of_lt hlt]
      exact leBytes_leNat [x, y]
    refine absurd ?_ (h (leNat [i₀, i₁, i₂, i₃]).toUInt32 (leNat [c₀, c₁]).toUInt16
      (leNat [n₀, n₁]).toUInt16 rest)
    rw [prepareOk, hid, htwo, htwo]
    rfl
  · rfl

theorem send_prepare (s : Session) (tsMicros : ℤ) (sql : Bytes) :
    s.send tsMicros (COM_STMT_PREPARE :: sql) = (s, .prepare (fromUtf8Lossy sql)) := rfl

/-- The session model keeps to it. -/
theorem exchange_answered (s : Session) (e : Exchange) :
    e.Answered (e.silent.foldl sendSilent s) (s.exchange e).2 (s.exchange e).1 := by
  rw [exchange]
  generalize e.silent.foldl sendSilent s = s
  obtain ⟨huser, hattrs, hstatements⟩ := send_keeps s e.requestTs e.command
  have hanswer (p : Pending) (t : Session) (ts : ℤ) (payload : Bytes) :
      (t.answer p ts payload).1.user = t.user ∧
        (t.answer p ts payload).1.queryAttrs = t.queryAttrs ∧
        (t.answer p ts payload).1.db = t.db := by
    cases p <;> exact ⟨rfl, rfl, rfl⟩
  refine ⟨?_, ?_, (hanswer ..).1.trans huser, (hanswer ..).2.1.trans hattrs, ?_, ?_, ?_⟩
  · intro text h
    obtain ⟨hsend, hdb⟩ := send_of_asks h e.requestTs
    rw [hsend]
    exact ⟨_, rfl, rfl, rfl, rfl, rfl, rfl, rfl, hdb⟩
  · intro h
    obtain ⟨hsend, hdb⟩ := send_of_not_asks h e.requestTs
    refine ⟨?_, (hanswer ..).2.2.trans hdb⟩
    cases hpending : (s.send e.requestTs e.command).2 with
    | event ev => exact absurd hpending (hsend ev)
    | prepare sql => rfl
    | silent => rfl
  · intro sql id columns params rest hcommand hresponse
    have hhead : e.response.headD [] = prepareOk id columns params rest := by
      rw [List.headD_eq_head?_getD, hresponse]
      rfl
    rw [hcommand, send_prepare, answer, hhead, prepared_prepareOk]
    exact ⟨if_pos rfl, fun id' hne ↦ if_neg hne, rfl⟩
  · intro sql hcommand hresponse
    rw [hcommand, send_prepare, answer, prepared_of_ne]
    intro id columns params rest heq
    cases he : e.response with
    | nil => rw [he] at heq; exact absurd heq.symm (List.cons_ne_nil _ _)
    | cons payload payloads =>
      rw [he] at heq hresponse
      exact hresponse id columns params rest (congrArg some heq)
  · intro hcommand
    rw [← hstatements]
    cases hpending : (s.send e.requestTs e.command).2 with
    | event ev => rfl
    | prepare sql => exact absurd hpending (send_ne_prepare hcommand _ sql)
    | silent => rfl

theorem converses (s : Session) (es : List Exchange) :
    s.Converses es (s.exchanges es).2 (s.exchanges es).1 := by
  induction es generalizing s with
  | nil => exact .nil s
  | cons e es ih => exact .cons (exchange_answered s e) (ih _)

end Session

/-! ## The client's turn -/

namespace ProtoState

/-- Silent commands leave the connection quiet. -/
theorem onPackets_silent {s : ProtoState} (h : s.Quiet) (clock : ℕ → ℤ) (offset : ℕ)
    {commands : List Bytes} (hsilent : ∀ p ∈ commands, Silent p) :
    let r := s.onPackets .client (packetsAt clock offset (commandPackets commands))
    r.1.Quiet ∧ r.1.session = commands.foldl Session.sendSilent s.session ∧ r.2 = [] := by
  induction commands generalizing s offset with
  | nil => exact ⟨h, rfl, rfl⟩
  | cons payload commands ih =>
    obtain ⟨hpayload, hcommands⟩ := List.forall_mem_cons.mp hsilent
    have hstep := onClientPacket_silent h.toEstablished h.pending_eq hpayload
      (lastSeqOf 0 payload) (clock offset)
    have hquiet : Quiet { s with
        serverContSeq := none
        statements := (s.session.sendSilent payload).statements } :=
      ⟨⟨h.phase_eq, h.decoding⟩, h.pending_eq⟩
    rw [commandPackets, List.map_cons, packetsAt, onPackets, onPacket, hstep,
      if_pos hquiet.decoding]
    exact ih hquiet _ hcommands

/-- A command behind silent ones is the only request in flight, and no continuation is expected. -/
theorem onPackets_command {s : ProtoState} (h : s.Quiet) (clock : ℕ → ℤ) {silent : List Bytes}
    (hsilent : ∀ p ∈ silent, Silent p) {command : Bytes} (hresponds : Responds command) :
    let r := s.onPackets .client (packetsAt clock 0 (commandPackets (silent ++ [command])))
    let sent := (silent.foldl Session.sendSilent s.session).send
      (clock (encodePackets (commandPackets silent)).length) command
    r.1.Established ∧ r.1.session = sent.1 ∧ r.1.serverContSeq = none ∧
      r.1.pending = [⟨lastSeqOf 0 command + 1, sent.2⟩] ∧ r.2 = [] := by
  obtain ⟨hquiet, hsession, hout⟩ := onPackets_silent h clock 0 hsilent
  have hsends := onClientPacket_sends hquiet.toEstablished hresponds (lastSeqOf 0 command)
    (clock (encodePackets (commandPackets silent)).length)
  rw [hsession] at hsends
  have hsplit : packetsAt clock 0 (commandPackets (silent ++ [command])) =
      packetsAt clock 0 (commandPackets silent) ++ [⟨0, lastSeqOf 0 command,
        clock (encodePackets (commandPackets silent)).length, command⟩] := by
    rw [commandPackets, List.map_append, packetsAt_append, Nat.zero_add]
    rfl
  have hest := hsends.established (dropContinuation_established hquiet.toEstablished)
  rw [hsplit, onPackets_append hquiet.decoding, hout, List.nil_append]
  rw [onPackets, onPacket, if_pos hest.decoding]
  refine ⟨hest, hsends.session_eq, ?_, ?_, rfl⟩
  · exact hsends.cont_eq.trans (dropContinuation_cont (Or.inl hquiet.pending_eq))
  · rw [onPackets, hsends.pending_eq, dropContinuation_pending, hquiet.pending_eq]
    rfl

end ProtoState

/-! ## One exchange -/

namespace ConnDecoder

theorem run_exchange {d : ConnDecoder} (hd : d.Ready) {e : Exchange} (he : e.WellFormed)
    (hlimits : e.WithinLimits) :
    let r := d.run e.calls
    r.1.Ready ∧ r.1.session = (d.session.exchange e).1 ∧ r.2 = (d.session.exchange e).2 := by
  -- the client's turn
  obtain ⟨hest, hsession, hcont, hpending, hout⟩ :=
    ProtoState.onPackets_command hd.quiet (tsAt e.clientChunks) he.silent_spec he.responds
  rw [show commandPackets (e.silent ++ [e.command]) = e.requests from rfl] at *
  obtain ⟨hstate, hclientOut, hidle⟩ := run_packets hd.quiet.decoding hd.idle hlimits.1
    he.client_eq hest.decoding
  -- the server's turn
  obtain ⟨payload, payloads, hresponse⟩ := List.exists_cons_of_ne_nil he.response_ne
  have hanswer := ProtoState.onPackets_response hest (tsAt e.serverChunks) 0
    (by rw [hcont]; exact nofun) hpending payload payloads
  have hanswered := hanswer.established hest
  rw [← hresponse, ← hstate, show numbered _ e.response = e.replies from rfl] at hanswer hanswered
  obtain ⟨hstate', hserverOut, hidle'⟩ := run_packets (by rw [hstate]; exact hest.decoding) hidle
    hlimits.2 he.server_eq hanswered.decoding
  rw [← hstate'] at hanswer hanswered
  rw [Exchange.calls, run_append]
  refine ⟨⟨⟨hanswered, hanswer.pending_eq⟩, hidle'⟩, ?_, ?_⟩
  · rw [hanswer.session_eq, hstate, hsession, Session.exchange, hresponse]
    rfl
  · rw [hclientOut, hout, List.nil_append, hserverOut, hanswer.out_eq, hstate, hsession,
      Session.exchange, hresponse]
    rfl

/-! ## Whole conversations -/

theorem run_exchanges {d : ConnDecoder} (hd : d.Ready) {es : List Exchange}
    (hes : ∀ e ∈ es, e.WellFormed) (hlimits : ∀ e ∈ es, e.WithinLimits) :
    let r := d.run (es.flatMap Exchange.calls)
    r.1.Ready ∧ r.1.session = (d.session.exchanges es).1 ∧ r.2 = (d.session.exchanges es).2 := by
  induction es generalizing d with
  | nil => exact ⟨hd, rfl, rfl⟩
  | cons e es ih =>
    obtain ⟨he, hes⟩ := List.forall_mem_cons.mp hes
    obtain ⟨hlimit, hlimits⟩ := List.forall_mem_cons.mp hlimits
    obtain ⟨hready, hsession, hout⟩ := run_exchange hd he hlimit
    obtain ⟨hready', hsession', hout'⟩ := ih hready hes hlimits
    rw [List.flatMap_cons, run_append, Session.exchanges]
    rw [hsession] at hsession' hout'
    exact ⟨hready', hsession', by rw [hout, hout']⟩

/-- A decoder that is ready for a conversation is ready behind it, and has reported what the session
model says. -/
theorem run_converse {d : ConnDecoder} (hd : d.Ready) {conv : Conversation}
    (hconv : conv.WellFormed) (hlimits : conv.WithinLimits) :
    let r := d.run conv.calls
    r.1.Ready ∧ r.1.session = (d.session.converse conv).1 ∧
      r.2 = (d.session.converse conv).2 := by
  obtain ⟨hready, hsession, hout⟩ := run_exchanges hd hconv.exchanges_spec hlimits.1
  obtain ⟨hquiet, hsilent, hnone⟩ := ProtoState.onPackets_silent hready.quiet
    (tsAt conv.closingChunks) 0 hconv.closing_spec
  obtain ⟨hstate, hclosing, hidle⟩ := run_packets hready.quiet.decoding hready.idle hlimits.2
    hconv.closing_eq hquiet.decoding
  rw [← hstate] at hquiet hsilent
  rw [Conversation.calls, run_append, Session.converse]
  refine ⟨⟨hquiet, hidle⟩, ?_, ?_⟩
  · rw [hsilent, hsession]
  · rw [hout, hclosing, hnone, List.append_nil]

/-- A conversation of one query and an OK response. -/
def queryConversationAt (sent answered : ℤ) (text : Bytes) : Conversation where
  exchanges := [{
    silent := []
    command := COM_QUERY :: text
    response := [[0, 0, 0, 2, 0, 0, 0]]
    clientChunks := [(sent, encodePackets (commandPackets [COM_QUERY :: text]))]
    serverChunks := [(answered, encodePackets (numbered (lastSeqOf 0 (COM_QUERY :: text) + 1)
      [[0, 0, 0, 2, 0, 0, 0]]))] }]
  closing := []
  closingChunks := []

abbrev queryConversation (text : Bytes) : Conversation := queryConversationAt 5 9 text

theorem queryConversation_wellFormed (sent answered : ℤ) (text : Bytes) :
    (queryConversationAt sent answered text).WellFormed where
  exchanges_spec := fun e he ↦ by
    rw [List.mem_singleton.mp he]
    exact ⟨fun _ h ↦ absurd h List.not_mem_nil, ⟨COM_QUERY, text, rfl, by decide, by decide,
      by decide⟩, List.cons_ne_nil _ _, List.append_nil _, List.append_nil _⟩
  closing_spec := fun _ h ↦ absurd h List.not_mem_nil
  closing_eq := rfl

example : ((new.run handshake).1.session.converse (queryConversation (ascii "SELECT 1"))).2 =
    [⟨5, ascii "SELECT 1", 4, true, none, some (ascii "app")⟩] := by decide +kernel

/-- Five full wire packets: a query beyond the limit. -/
def oversizedText : Bytes := List.replicate (5 * fullPayload) 65

/-- A session that asks for a statement owes an event. -/
theorem not_converses_nil {s s' : Session} {conv : Conversation} {e : Exchange} {text : Bytes}
    (hexchanges : conv.exchanges = [e]) (hsilent : e.silent = [])
    (hasks : s.Asks e.command text) : ¬s.Converses conv.exchanges [] s' := by
  rw [hexchanges]
  intro h
  generalize hout : ([] : List ProtoEvent) = out at h
  cases h with
  | cons he hes =>
    rw [hsilent] at he
    obtain ⟨ev, rfl, -⟩ := he.statement text hasks
    cases hout

/-- A login on a connection whose queries have attributes. -/
def attributesHandshake : List Chunk :=
  [⟨.server, 1, encodePacket 0 (10 :: ascii "8.0" ++ 0 :: [1, 0, 0, 0] ++ List.replicate 9 0 ++
      [255, 255, 33, 2, 0, 255, 255] ++ List.replicate 11 0)⟩,
    ⟨.client, 2, encodePacket 1 ([0, 0x82, 0, 8] ++ List.replicate 4 0 ++ 33 ::
      List.replicate 23 0 ++ ascii "app" ++ [0, 0])⟩]

theorem attributesHandshake_ready : (new.run attributesHandshake).1.Ready where
  quiet := ⟨⟨by decide +kernel, by decide +kernel⟩, by decide +kernel⟩
  idle := fun dir ↦ by
    cases dir
    · exact ⟨by decide +kernel, by decide +kernel, by decide +kernel, by decide +kernel,
        by decide +kernel⟩
    · exact ⟨by decide +kernel, by decide +kernel, by decide +kernel, by decide +kernel,
        by decide +kernel⟩

end ConnDecoder

end SqlReplay
