import SqlReplay.Proto.Wire

/-!
# No statement is lost

Every statement that the decoder queues is owed to the caller: it leaves with the start of its
response, or it is flushed when the connection ends. The ledger of a run is the equation

```text
emitted, as they were asked  ++  waiting  =  requested
```

which every packet preserves: a command appends to both sides, a response moves the oldest request
over. At the end `finish` empties the queue, and the equation says that every statement came out
once and in order.

COM_QUIT is the exception. It sets `finished`, and `finish` takes a finished connection for one
that it has flushed already, so what waits at a COM_QUIT is never emitted. The ledger is balanced
at the end of a run if and only if no COM_QUIT found a statement waiting.
-/

namespace SqlReplay

/-- An event as `queueEvent` made it, before anything was known of its response. -/
def asked (ev : ProtoEvent) : ProtoEvent := { ev with latencyMicros := 0, responseSeen := false }

/-- The statement that waits in a request. -/
def Pending.statement? : Pending → Option ProtoEvent
  | .event ev => some ev
  | _ => none

/-- The statements among some requests. -/
def statementsOf (requests : List InFlight) : List ProtoEvent :=
  requests.filterMap (·.pending.statement?)

@[simp] theorem statementsOf_nil : statementsOf [] = [] := rfl

@[simp] theorem statementsOf_append (a b : List InFlight) :
    statementsOf (a ++ b) = statementsOf a ++ statementsOf b := List.filterMap_append

theorem statementsOf_cons_none {respSeq : UInt8} {p : Pending} (h : p.statement? = none)
    (q : List InFlight) : statementsOf (⟨respSeq, p⟩ :: q) = statementsOf q :=
  List.filterMap_cons_none h

namespace ProtoState

/-- The statements that wait for their response. -/
def waiting (s : ProtoState) : List ProtoEvent := statementsOf s.pending

/-! ## What a command does to the queue -/

/-- A command that queues the requests `q`: what the ledger needs to know of it. -/
structure Queues (s s' : ProtoState) (q : List InFlight) : Prop where
  pending_eq : s'.pending = s.pending ++ q
  requested_eq : s'.requested = s.requested ++ statementsOf q
  asked_eq : ∀ ev ∈ statementsOf q, asked ev = ev
  missing_eq : s'.stats.responsesMissing = s.stats.responsesMissing
  finished_eq : s'.finished = s.finished

section Queues

variable {s s' : ProtoState}

/-- A command that queues nothing. -/
theorem Queues.none (hpending : s'.pending = s.pending) (hrequested : s'.requested = s.requested)
    (hmissing : s'.stats.responsesMissing = s.stats.responsesMissing)
    (hfinished : s'.finished = s.finished) : Queues s s' [] where
  pending_eq := by rw [hpending, List.append_nil]
  requested_eq := by rw [hrequested, statementsOf_nil, List.append_nil]
  asked_eq := fun _ h ↦ absurd h List.not_mem_nil
  missing_eq := hmissing
  finished_eq := hfinished

theorem Queues.refl (s : ProtoState) : Queues s s [] := .none rfl rfl rfl rfl

theorem Queues.trans {t : ProtoState} {q : List InFlight} (h : Queues s s' [])
    (h' : Queues s' t q) : Queues s t q where
  pending_eq := by rw [h'.pending_eq, h.pending_eq, List.append_nil]
  requested_eq := by rw [h'.requested_eq, h.requested_eq, statementsOf_nil, List.append_nil]
  asked_eq := h'.asked_eq
  missing_eq := h'.missing_eq.trans h.missing_eq
  finished_eq := h'.finished_eq.trans h.finished_eq

/-- A request that is no statement. -/
theorem Queues.push (h : Queues s s' []) (respSeq : UInt8) {p : Pending}
    (hp : p.statement? = .none) : Queues s (s'.pushPending respSeq p) [⟨respSeq, p⟩] where
  pending_eq := by rw [pushPending, h.pending_eq, List.append_nil]
  requested_eq := by
    rw [statementsOf_cons_none hp]
    exact h.requested_eq
  asked_eq := by
    rw [statementsOf_cons_none hp]
    exact h.asked_eq
  missing_eq := h.missing_eq
  finished_eq := h.finished_eq

/-- A statement. -/
theorem Queues.queue (h : Queues s s' []) (respSeq : UInt8) (ts : ℤ) (query : Bytes) :
    Queues s (s'.queueEvent respSeq ts query) [⟨respSeq, .event
      ⟨ts, query, 0, false, (parseUseTarget query).orElse fun _ ↦ s'.db, s'.user⟩⟩] where
  pending_eq := by rw [queueEvent, pushPending, h.pending_eq, List.append_nil]
  requested_eq := by
    rw [queueEvent, pushPending, h.requested_eq, statementsOf_nil, List.append_nil]
    rfl
  asked_eq := fun ev hev ↦ by
    rw [List.mem_singleton.mp hev]
    rfl
  missing_eq := h.missing_eq
  finished_eq := h.finished_eq

theorem Queues.ignore (h : Queues s s' []) (respSeq : UInt8) :
    Queues s (s'.ignoreCommand respSeq) [⟨respSeq, .silent⟩] := by
  refine Queues.push ?_ respSeq rfl
  exact ⟨h.pending_eq, h.requested_eq, h.asked_eq, h.missing_eq, h.finished_eq⟩

end Queues

/-- An execute queues its statement, or a request that is none when it cannot be expanded. -/
theorem onExecute_queues (s : ProtoState) (respSeq : UInt8) (ts : ℤ) (args : Bytes) :
    ∃ q, Queues s (s.onExecute respSeq ts args) q := by
  rw [onExecute]
  split
  · refine ⟨_, Queues.queue ?_ respSeq ts _⟩
    exact .none rfl rfl rfl rfl
  · refine ⟨_, Queues.push ?_ respSeq rfl⟩
    exact .none rfl rfl rfl rfl

theorem onInitDb_queues (s : ProtoState) (respSeq : UInt8) (ts : ℤ) (args : Bytes) :
    ∃ q, Queues s (s.onInitDb respSeq ts args) q := by
  refine ⟨_, Queues.queue ?_ respSeq ts _⟩
  exact .none rfl rfl rfl rfl

/-- Every command other than COM_QUIT queues at most one request and leaves the connection as open
as it was. -/
theorem dispatch_queues (s : ProtoState) (respSeq : UInt8) (ts : ℤ) {cmd : UInt8} (args : Bytes)
    (h : cmd ≠ COM_QUIT) : ∃ q, Queues s (s.dispatch respSeq ts cmd args) q := by
  rw [dispatch]
  split_ifs
  · cases comQueryText s.queryAttrs args with
    | some text => exact ⟨_, (Queues.refl s).queue respSeq ts _⟩
    | none => exact ⟨_, (Queues.refl s).ignore respSeq⟩
  · exact onInitDb_queues s respSeq ts args
  · exact ⟨_, (Queues.refl s).push respSeq rfl⟩
  · exact onExecute_queues s respSeq ts args
  · exact ⟨_, .none rfl rfl rfl rfl⟩
  · exact ⟨_, .none rfl rfl rfl rfl⟩
  · refine ⟨_, Queues.push ?_ respSeq rfl⟩
    exact .none rfl rfl rfl rfl
  · exact ⟨_, (Queues.refl s).ignore respSeq⟩

theorem onLoginNames_queues (s : ProtoState) (caps : UInt32) (r : Bytes) :
    Queues s (s.onLoginNames caps r) [] := by
  rw [onLoginNames]
  split
  · exact .refl s
  · split
    · exact .none rfl rfl rfl rfl
    · split_ifs
      · exact .none rfl rfl rfl rfl
      · split
        · exact .none rfl rfl rfl rfl
        · split_ifs
          · exact .none rfl rfl rfl rfl
          · exact .none rfl rfl rfl rfl

theorem onLogin_queues (s : ProtoState) (p : Bytes) : Queues s (s.onLogin p) [] := by
  rw [onLogin]
  split_ifs
  · exact .none rfl rfl rfl rfl
  dsimp only
  split_ifs
  · exact .none rfl rfl rfl rfl
  · exact .none rfl rfl rfl rfl
  · exact .none rfl rfl rfl rfl
  · have h := onLoginNames_queues
      { s with
        caps := (leNat (p.take 4)).toUInt32
        queryAttrs :=
          (leNat (p.take 4)).toUInt32 &&& s.serverCaps &&& CLIENT_QUERY_ATTRIBUTES != 0 }
      (leNat (p.take 4)).toUInt32 (p.drop (4 + 4 + 1 + 23))
    exact ⟨h.pending_eq, h.requested_eq, h.asked_eq, h.missing_eq, h.finished_eq⟩

theorem dispatch_quit (s : ProtoState) (respSeq : UInt8) (ts : ℤ) (args : Bytes) :
    s.dispatch respSeq ts COM_QUIT args = { s with finished := true } := rfl

/-- A client packet that is a COM_QUIT in the command phase. -/
def Quits (s : ProtoState) (dir : Dir) (pkt : LogicalPacket) : Prop :=
  dir = .client ∧ s.phase = .established ∧ pkt.firstSeq = 0 ∧ pkt.payload.head? = some COM_QUIT

/-- Dropping the continuation id is no business of the queue. -/
theorem dropContinuation_queues (s : ProtoState) : Queues s s.dropContinuation [] := by
  rw [dropContinuation]
  split_ifs
  · exact .none rfl rfl rfl rfl
  · exact .refl s

theorem onCommand_queues (s : ProtoState) (pkt : LogicalPacket)
    (h : pkt.payload.head? ≠ some COM_QUIT) : ∃ q, Queues s (s.onCommand pkt) q := by
  rw [onCommand]
  cases hp : pkt.payload with
  | nil => exact ⟨[], s.dropContinuation_queues⟩
  | cons cmd args =>
    obtain ⟨q, hq⟩ := s.dropContinuation.dispatch_queues (pkt.lastSeq + 1) pkt.tsMicros args
      fun hcmd ↦ h (by rw [hp, ← hcmd]; rfl)
    exact ⟨q, s.dropContinuation_queues.trans hq⟩

theorem onClientPacket_queues (s : ProtoState) (pkt : LogicalPacket) (h : ¬s.Quits .client pkt) :
    ∃ q, Queues s (s.onClientPacket pkt) q := by
  rw [onClientPacket]
  split
  · exact ⟨[], .none rfl rfl rfl rfl⟩
  · exact ⟨[], onLogin_queues s pkt.payload⟩
  · next hphase =>
    split_ifs with hseq
    · exact ⟨[], .refl s⟩
    · exact onCommand_queues s pkt fun hp ↦ h ⟨rfl, hphase, not_not.mp hseq, hp⟩

/-- COM_QUIT closes the decoder and leaves what waits in the queue. -/
theorem onClientPacket_quit (s : ProtoState) (pkt : LogicalPacket) (h : s.Quits .client pkt) :
    (s.onClientPacket pkt).finished ∧ Queues s { s.onClientPacket pkt with finished := s.finished }
      [] := by
  obtain ⟨-, hphase, hseq, hp⟩ := h
  obtain ⟨args, hargs⟩ := List.head?_eq_some_iff.mp hp
  rw [onClientPacket, hphase]
  simp only [hseq, ne_eq, not_true_eq_false, if_false, onCommand, hargs, dispatch_quit]
  have hdrop := s.dropContinuation_queues
  exact ⟨trivial, hdrop.pending_eq, hdrop.requested_eq, hdrop.asked_eq, hdrop.missing_eq, rfl⟩

/-! ## What a server packet does to the queue -/

/-- A server packet that answers the requests `q`, at most one, and emits `out`. -/
structure Answers (s s' : ProtoState) (q : List InFlight) (out : List ProtoEvent) : Prop where
  pending_eq : s.pending = q ++ s'.pending
  out_eq : out.map asked = (statementsOf q).map asked
  seen : ∀ ev ∈ out, ev.responseSeen
  requested_eq : s'.requested = s.requested
  missing_eq : s'.stats.responsesMissing = s.stats.responsesMissing
  finished_eq : s'.finished = s.finished

theorem Answers.none {s s' : ProtoState} (hpending : s'.pending = s.pending)
    (hrequested : s'.requested = s.requested)
    (hmissing : s'.stats.responsesMissing = s.stats.responsesMissing)
    (hfinished : s'.finished = s.finished) : Answers s s' [] [] :=
  ⟨hpending.symm, rfl, fun _ h ↦ absurd h List.not_mem_nil, hrequested, hmissing, hfinished⟩

theorem resolve_answers (s : ProtoState) {front : InFlight} {rest : List InFlight}
    (h : s.pending = front :: rest) (cont : Option UInt8) (pkt : LogicalPacket) :
    Answers s ({ s with serverContSeq := cont, pending := rest }.resolve front.pending pkt).1
      [front] ({ s with serverContSeq := cont, pending := rest }.resolve front.pending pkt).2 := by
  obtain ⟨respSeq, pending⟩ := front
  cases pending with
  | event ev =>
    refine ⟨h, rfl, fun e he ↦ ?_, rfl, rfl, rfl⟩
    rw [List.mem_singleton.mp he]
    rfl
  | prepare sql => exact ⟨h, rfl, fun _ h ↦ absurd h List.not_mem_nil, rfl, rfl, rfl⟩
  | silent => exact ⟨h, rfl, fun _ h ↦ absurd h List.not_mem_nil, rfl, rfl, rfl⟩

theorem onServerPacket_answers (s : ProtoState) (pkt : LogicalPacket) :
    ∃ q, Answers s (s.onServerPacket pkt).1 q (s.onServerPacket pkt).2 := by
  rw [onServerPacket]
  split
  · split
    · exact ⟨[], .none rfl rfl rfl rfl⟩
    · exact ⟨[], .none rfl rfl rfl rfl⟩
  · exact ⟨[], .none rfl rfl rfl rfl⟩
  · rw [onResponse]
    split_ifs
    · exact ⟨[], .none rfl rfl rfl rfl⟩
    · split
      · exact ⟨[], .none rfl rfl rfl rfl⟩
      · next front rest hpending =>
        split_ifs
        · exact ⟨[], .none rfl rfl rfl rfl⟩
        · exact ⟨[front], resolve_answers s hpending _ pkt⟩

/-! ## The ledger -/

/-- The ledger of a run that emitted `out` and stands at `s`. -/
structure Ledger (out : List ProtoEvent) (s : ProtoState) : Prop where
  balance : out.map asked ++ s.waiting = s.requested
  asked_eq : ∀ ev ∈ s.requested, asked ev = ev
  seen : ∀ ev ∈ out, ev.responseSeen
  missing_eq : s.stats.responsesMissing = 0

theorem Ledger.new : Ledger [] .new :=
  ⟨rfl, fun _ h ↦ absurd h List.not_mem_nil, fun _ h ↦ absurd h List.not_mem_nil, rfl⟩

section Ledger

variable {out new : List ProtoEvent} {s s' : ProtoState} {q : List InFlight}

theorem Ledger.queues (h : Ledger out s) (hq : Queues s s' q) : Ledger out s' where
  balance := by
    rw [waiting, hq.pending_eq, statementsOf_append, ← List.append_assoc, hq.requested_eq]
    exact congrArg (· ++ _) h.balance
  asked_eq := by
    rw [hq.requested_eq]
    intro ev hev
    rcases List.mem_append.mp hev with hev | hev
    · exact h.asked_eq ev hev
    · exact hq.asked_eq ev hev
  seen := h.seen
  missing_eq := hq.missing_eq.trans h.missing_eq

theorem Ledger.answers (h : Ledger out s) (hq : Answers s s' q new) : Ledger (out ++ new) s' where
  balance := by
    have hbalance := h.balance
    rw [waiting, hq.pending_eq, statementsOf_append] at hbalance
    -- what is waiting is as it was asked
    have hasked : (statementsOf q).map asked = statementsOf q :=
      List.map_congr_left (fun ev hev ↦ h.asked_eq ev (by rw [← hbalance]; simp [hev])) |>.trans
        (List.map_id _)
    rw [List.map_append, hq.out_eq, hasked, List.append_assoc, hq.requested_eq]
    exact hbalance
  asked_eq := by
    rw [hq.requested_eq]
    exact h.asked_eq
  seen := fun ev hev ↦ (List.mem_append.mp hev).elim (h.seen ev) (hq.seen ev)
  missing_eq := hq.missing_eq.trans h.missing_eq

/-- Every packet keeps the books. -/
theorem Ledger.onPacket (h : Ledger out s) (dir : Dir) (pkt : LogicalPacket) :
    Ledger (out ++ (s.onPacket dir pkt).2) (s.onPacket dir pkt).1 := by
  cases dir with
  | client =>
    rw [ProtoState.onPacket, List.append_nil]
    by_cases hquit : s.Quits .client pkt
    · have hl := h.queues (s.onClientPacket_quit pkt hquit).2
      exact ⟨hl.balance, hl.asked_eq, hl.seen, hl.missing_eq⟩
    · exact h.queues (s.onClientPacket_queues pkt hquit).choose_spec
  | server => exact h.answers (s.onServerPacket_answers pkt).choose_spec

theorem Ledger.onPackets (h : Ledger out s) (dir : Dir) (pkts : List LogicalPacket) :
    Ledger (out ++ (s.onPackets dir pkts).2) (s.onPackets dir pkts).1 := by
  induction pkts generalizing out s with
  | nil => simpa [ProtoState.onPackets] using h
  | cons pkt pkts ih =>
    have hstep := h.onPacket dir pkt
    rw [ProtoState.onPackets]
    split_ifs
    · rw [← List.append_assoc]
      exact ih hstep
    · exact hstep

end Ledger

end ProtoState

namespace ConnDecoder

theorem feed_toProtoState (d : ConnDecoder) (c : Chunk) :
    (d.feed c).1.toProtoState = d.toProtoState := setAssembler_toProtoState d c.dir _

theorem ledger_onData {out : List ProtoEvent} {d : ConnDecoder}
    (h : ProtoState.Ledger out d.toProtoState) (c : Chunk) :
    ProtoState.Ledger (out ++ (d.onData c).2) (d.onData c).1.toProtoState := by
  rw [onData]
  split_ifs
  · rw [← d.feed_toProtoState c] at h
    rw [onFed]
    split_ifs
    · rw [List.append_nil]
      exact ⟨h.balance, h.asked_eq, h.seen, h.missing_eq⟩
    · exact h.onPackets c.dir (d.feed c).2
  · rw [List.append_nil]
    exact h

theorem ledger_run {out : List ProtoEvent} {d : ConnDecoder}
    (h : ProtoState.Ledger out d.toProtoState) (cs : List Chunk) :
    ProtoState.Ledger (out ++ (d.run cs).2) (d.run cs).1.toProtoState := by
  induction cs generalizing out d with
  | nil => simpa [run] using h
  | cons c cs ih =>
    rw [run, ← List.append_assoc]
    exact ih (ledger_onData h c)

end ConnDecoder

/-! ## Where a run stops

A COM_QUIT is the only packet that sets `finished`, and nothing is decoded behind it. So a run
that ends finished ends with the queue that its COM_QUIT found. -/

/-- One logical packet that a run decodes, with the state that receives it. -/
structure PacketStep where
  state : ProtoState
  dir : Dir
  pkt : LogicalPacket

/-- A COM_QUIT that arrives while statements wait for their responses. -/
def PacketStep.AbandonsStatements (st : PacketStep) : Prop :=
  st.state.Quits st.dir st.pkt ∧ st.state.waiting ≠ []

namespace ProtoState

/-- The packets of a chunk that are decoded. -/
def packetSteps (s : ProtoState) (dir : Dir) : List LogicalPacket → List PacketStep
  | [] => []
  | pkt :: pkts =>
    ⟨s, dir, pkt⟩ ::
      if (s.onPacket dir pkt).1.decoding then (s.onPacket dir pkt).1.packetSteps dir pkts else []

/-- A finished connection with statements that nobody will flush. -/
def Abandoned (s : ProtoState) : Prop := s.finished ∧ s.waiting ≠ []

theorem not_abandoned {s : ProtoState} (hopen : s.finished = false) : ¬s.Abandoned := by
  intro h
  rw [Abandoned, hopen] at h
  cases h.1

theorem finished_of_decoding {s : ProtoState} (h : s.decoding) : s.finished = false := by
  rw [decoding, Bool.and_eq_true] at h
  simpa using h.1

theorem onPacket_abandoned {s : ProtoState} (hopen : s.finished = false) (dir : Dir)
    (pkt : LogicalPacket) :
    (s.onPacket dir pkt).1.Abandoned ↔ PacketStep.AbandonsStatements ⟨s, dir, pkt⟩ := by
  by_cases hquit : s.Quits dir pkt
  · obtain rfl : dir = .client := hquit.1
    obtain ⟨hfinished, hq⟩ := s.onClientPacket_quit pkt hquit
    have hwaiting : (s.onClientPacket pkt).waiting = s.waiting :=
      congrArg statementsOf (hq.pending_eq.trans (List.append_nil _))
    rw [onPacket, Abandoned, hwaiting]
    exact and_congr_left fun _ ↦ iff_of_true hfinished hquit
  · have hstill : (s.onPacket dir pkt).1.finished = false := by
      cases dir with
      | client => exact (s.onClientPacket_queues pkt hquit).choose_spec.finished_eq.trans hopen
      | server => exact (s.onServerPacket_answers pkt).choose_spec.finished_eq.trans hopen
    exact iff_of_false (not_abandoned hstill) fun h ↦ hquit h.1

theorem onPackets_abandoned {s : ProtoState} (hopen : s.finished = false) (dir : Dir)
    (pkts : List LogicalPacket) :
    (s.onPackets dir pkts).1.Abandoned ↔
      ∃ st ∈ s.packetSteps dir pkts, st.AbandonsStatements := by
  induction pkts generalizing s with
  | nil => exact iff_of_false (not_abandoned hopen) (by simp [packetSteps])
  | cons pkt pkts ih =>
    have hstep := onPacket_abandoned hopen dir pkt
    simp only [onPackets, packetSteps, List.mem_cons, exists_eq_or_imp, ← hstep]
    split_ifs with hdecoding
    · have hopen' := finished_of_decoding hdecoding
      rw [ih hopen', or_iff_right (not_abandoned hopen')]
    · simp

end ProtoState

namespace ConnDecoder

/-- The packets of one call that are decoded. -/
def chunkSteps (d : ConnDecoder) (c : Chunk) : List PacketStep :=
  if d.decoding && !((d.feed c).1.client.broken || (d.feed c).1.server.broken) then
    d.toProtoState.packetSteps c.dir (d.feed c).2
  else []

/-- The packets that a run decodes. -/
def packetSteps (d : ConnDecoder) : List Chunk → List PacketStep
  | [] => []
  | c :: cs => d.chunkSteps c ++ (d.onData c).1.packetSteps cs

/-- A decoder that has stopped decodes nothing. -/
theorem packetSteps_of_not_decoding {d : ConnDecoder} (h : d.decoding = false) (cs : List Chunk) :
    d.packetSteps cs = [] := by
  induction cs with
  | nil => rfl
  | cons c cs ih =>
    have hstep : d.onData c = (d, []) := by rw [onData, h, if_neg Bool.false_ne_true]
    rw [packetSteps, chunkSteps, hstep, ih, h]
    rfl

theorem onData_abandoned {d : ConnDecoder} (hopen : d.finished = false) (c : Chunk) :
    (d.onData c).1.Abandoned ↔ ∃ st ∈ d.chunkSteps c, st.AbandonsStatements := by
  rw [onData, chunkSteps, onFed]
  cases hdecoding : d.decoding with
  | false => exact iff_of_false (ProtoState.not_abandoned hopen) (by simp)
  | true =>
    have hopen' : (d.feed c).1.finished = false := by rw [d.feed_toProtoState c, hopen]
    cases hbroken : (d.feed c).1.client.broken || (d.feed c).1.server.broken with
    | true => exact iff_of_false (ProtoState.not_abandoned hopen') (by simp)
    | false =>
      simp only [Bool.false_eq_true, if_false, if_true, Bool.not_false, Bool.and_self]
      rw [ProtoState.onPackets_abandoned hopen', d.feed_toProtoState c]

theorem run_abandoned {d : ConnDecoder} (hopen : d.finished = false) (cs : List Chunk) :
    (d.run cs).1.Abandoned ↔ ∃ st ∈ d.packetSteps cs, st.AbandonsStatements := by
  induction cs generalizing d with
  | nil => exact iff_of_false (ProtoState.not_abandoned hopen) (by simp [packetSteps])
  | cons c cs ih =>
    have hstep := onData_abandoned hopen c
    simp only [run, packetSteps, List.mem_append, or_and_right, exists_or]
    rw [← hstep]
    cases hfinished : (d.onData c).1.finished with
    | false => rw [ih hfinished, or_iff_right (ProtoState.not_abandoned hfinished)]
    | true =>
      have hstop : (d.onData c).1.decoding = false := by rw [ProtoState.decoding, hfinished]; rfl
      rw [run_of_not_decoding hstop cs, packetSteps_of_not_decoding hstop cs]
      simp

/-! ## The whole run -/

/-- Every statement passed to `queueEvent` is emitted exactly once and in request order: those
whose response started carry `responseSeen`, and `finish` flushes every other one without a
latency and counts it. -/
structure EmitsEveryStatement (cs : List Chunk) : Prop where
  each_once : ((new.run cs).2 ++ (new.run cs).1.finish.2).map asked =
    (new.run cs).1.finish.1.requested
  answered : ∀ ev ∈ (new.run cs).2, ev.responseSeen
  flushed : ∀ ev ∈ (new.run cs).1.finish.2, ev.responseSeen = false ∧ ev.latencyMicros = 0
  counted : (new.run cs).1.finish.1.stats.responsesMissing = (new.run cs).1.finish.2.length

theorem finish_requested (d : ConnDecoder) : d.finish.1.requested = d.requested := by
  rw [finish, ProtoState.finish]
  split_ifs <;> rfl

/-- What `finish` flushes, statement by statement. -/
theorem filterMap_unanswered (q : List InFlight) :
    q.filterMap (ProtoState.unanswered ·.pending) = (statementsOf q).map asked := by
  rw [statementsOf, List.map_filterMap]
  congr 1
  funext f
  cases f.pending <;> rfl

theorem finish_of_finished {d : ConnDecoder} (h : d.finished) : d.finish = (d, []) := by
  rw [finish, ProtoState.finish, if_pos h]

theorem finish_of_open {d : ConnDecoder} (h : d.finished = false) :
    d.finish.2 = d.waiting.map asked ∧ d.finish.1.stats.responsesMissing =
      d.stats.responsesMissing + d.finish.2.length := by
  rw [finish, ProtoState.finish, h, if_neg Bool.false_ne_true]
  exact ⟨filterMap_unanswered d.pending, rfl⟩

/-- No statement is lost, unless a COM_QUIT comes while statements wait. -/
theorem emitsEveryStatement_iff (cs : List Chunk) :
    EmitsEveryStatement cs ↔
      ∀ st ∈ new.packetSteps cs, st.state.Quits st.dir st.pkt → st.state.waiting = [] := by
  have hledger : ProtoState.Ledger (new.run cs).2 (new.run cs).1.toProtoState :=
    @ledger_run [] new .new cs
  have habandoned := @run_abandoned new rfl cs
  have hrequested := (new.run cs).1.finish_requested
  rw [show (∀ st ∈ new.packetSteps cs, st.state.Quits st.dir st.pkt → st.state.waiting = []) ↔
    ¬(new.run cs).1.Abandoned by rw [habandoned]; simp [PacketStep.AbandonsStatements]]
  constructor
  · intro h habandoned
    have honce := h.each_once
    rw [finish_of_finished habandoned.1, List.append_nil] at honce
    rw [← hledger.balance] at honce
    exact habandoned.2 (List.self_eq_append_right.mp honce)
  · intro h
    cases hfinished : (new.run cs).1.finished with
    | true =>
      -- nothing waits, so nothing is lost by not flushing
      have hwaiting : (new.run cs).1.waiting = [] := not_not.mp fun hw ↦ h ⟨hfinished, hw⟩
      have hbalance := hledger.balance
      rw [hwaiting, List.append_nil] at hbalance
      refine ⟨?_, hledger.seen, ?_, ?_⟩
      · rw [finish_of_finished hfinished, List.append_nil]
        exact hbalance
      · rw [finish_of_finished hfinished]
        exact fun _ h ↦ absurd h List.not_mem_nil
      · rw [finish_of_finished hfinished]
        exact hledger.missing_eq
    | false =>
      -- what waits is flushed as it was asked for
      obtain ⟨hflushed, hmissing⟩ := finish_of_open hfinished
      have hasked : ((new.run cs).1.waiting.map asked).map asked = (new.run cs).1.waiting := by
        rw [List.map_map]
        refine (List.map_congr_left fun ev hev ↦ ?_).trans (List.map_id _)
        exact hledger.asked_eq ev (by rw [← hledger.balance]; simp [hev])
      refine ⟨?_, hledger.seen, fun ev hev ↦ ?_, ?_⟩
      · rw [hrequested, hflushed, List.map_append, hasked]
        exact hledger.balance
      · rw [hflushed] at hev
        obtain ⟨e, -, rfl⟩ := List.mem_map.mp hev
        exact ⟨rfl, rfl⟩
      · rw [hmissing, hledger.missing_eq, Nat.zero_add]

/-- A query, and a COM_QUIT before its response is captured. -/
def quitAfterQuery : List Chunk :=
  handshake ++ [⟨.client, 3, encodePacket 0 (COM_QUERY :: ascii "SELECT 1")⟩,
    ⟨.client, 4, encodePacket 0 [COM_QUIT]⟩]

theorem quitAfterQuery_lost : ¬EmitsEveryStatement quitAfterQuery := by
  intro h
  exact absurd h.each_once (by decide +kernel)

end ConnDecoder

end SqlReplay
