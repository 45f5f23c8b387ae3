import SqlReplay.Proto.Session

/-!
# Pipelined commands

A client may send several commands before it reads the first response. The responses then follow
each other, each numbered from 1, and the decoder has nothing but the continuation id to tell the
start of one from the middle of another: a packet that bears the id the current response would go
on with is taken for its continuation.

A response of `n` wire packets would go on with the id `1 + n` modulo 256. So the next response is
swallowed exactly when `n` is a multiple of 256, and then its request and every later one stays
behind by one response. The invariant of the run is a count: each response takes one request off
the queue, or none if it is swallowed.
-/

namespace SqlReplay

/-- Commands sent back to back and their responses. The chunks are what the decoder is fed. -/
structure Pipeline where
  commands : List Bytes
  responses : List (List Bytes)
  clientChunks : List (ℤ × Bytes)
  serverChunks : List (ℤ × Bytes)

/-- The wire packets of a response. -/
def wireCount (response : List Bytes) : ℕ :=
  (response.map fun payload ↦ payload.length / fullPayload + 1).sum

/-- Each command with the timestamp of its first byte. -/
def commandStarts (clock : ℕ → ℤ) (offset : ℕ) : List Bytes → List (ℤ × Bytes)
  | [] => []
  | payload :: payloads =>
    (clock offset, payload) ::
      commandStarts clock (offset + (encodePacket 0 payload).length) payloads

/-- The first packet of each response with the timestamp of its first byte. -/
def responseStarts (clock : ℕ → ℤ) (offset : ℕ) : List (List Bytes) → List (ℤ × Bytes)
  | [] => []
  | response :: responses =>
    (clock offset, response.headD []) ::
      responseStarts clock (offset + (encodePackets (numbered 1 response)).length) responses

theorem length_commandStarts (clock : ℕ → ℤ) (offset : ℕ) (commands : List Bytes) :
    (commandStarts clock offset commands).length = commands.length := by
  induction commands generalizing offset with
  | nil => rfl
  | cons payload commands ih => exact congrArg Nat.succ (ih _)

theorem length_responseStarts (clock : ℕ → ℤ) (offset : ℕ) (responses : List (List Bytes)) :
    (responseStarts clock offset responses).length = responses.length := by
  induction responses generalizing offset with
  | nil => rfl
  | cons response responses ih => exact congrArg Nat.succ (ih _)

namespace Session

/-- Commands are sent one after the other. -/
def sendAll (s : Session) : List (ℤ × Bytes) → Session × List Pending
  | [] => (s, [])
  | (ts, payload) :: commands =>
    (((s.send ts payload).1.sendAll commands).1,
      (s.send ts payload).2 :: ((s.send ts payload).1.sendAll commands).2)

/-- Requests are answered one after the other, the first by the first response. -/
def answerAll (s : Session) : List Pending → List (ℤ × Bytes) → Session × List ProtoEvent
  | p :: ps, (ts, payload) :: responses =>
    (((s.answer p ts payload).1.answerAll ps responses).1,
      (s.answer p ts payload).2 ++ ((s.answer p ts payload).1.answerAll ps responses).2)
  | _, _ => (s, [])

/-- A pipeline as the session sees it: request `i` is answered by response `i`. -/
def pipeline (s : Session) (p : Pipeline) : Session × List ProtoEvent :=
  let sent := s.sendAll (commandStarts (tsAt p.clientChunks) 0 p.commands)
  sent.1.answerAll sent.2 (responseStarts (tsAt p.serverChunks) 0 p.responses)

/-- Commands sent back to back and their responses, each with its timestamp, and what is reported:
for a command that asks for a statement one event, which has seen its response and has the latency
to the first packet of its own response, for any other command none. -/
inductive Resolves : Session → List (ℤ × Bytes) → List (ℤ × Bytes) → List ProtoEvent → Prop
  | nil (s : Session) : s.Resolves [] [] []
  | statement {s : Session} {ts ts' : ℤ} {command text first : Bytes} {ev : ProtoEvent}
    {commands responses : List (ℤ × Bytes)} {out : List ProtoEvent}
    (hasks : s.Asks command text) (hquery : ev.query = text) (hts : ev.tsMicros = ts)
    (hseen : ev.responseSeen = true) (hlatency : ev.latencyMicros = max (ts' - ts) 0)
    (hrest : (s.send ts command).1.Resolves commands responses out) :
    s.Resolves ((ts, command) :: commands) ((ts', first) :: responses) (ev :: out)
  | other {s : Session} {ts : ℤ} {command : Bytes} {response : ℤ × Bytes}
    {commands responses : List (ℤ × Bytes)} {out : List ProtoEvent}
    (hasks : ∀ text, ¬s.Asks command text)
    (hrest : (s.send ts command).1.Resolves commands responses out) :
    s.Resolves ((ts, command) :: commands) (response :: responses) out

/-- The session model keeps to it. -/
theorem resolves_answerAll (s t : Session) {commands responses : List (ℤ × Bytes)}
    (hlength : responses.length = commands.length) :
    s.Resolves commands responses (t.answerAll (s.sendAll commands).2 responses).2 := by
  induction commands generalizing s t responses with
  | nil =>
    obtain rfl : responses = [] := List.length_eq_zero_iff.mp hlength
    exact .nil s
  | cons c commands ih =>
    obtain ⟨ts, command⟩ := c
    obtain ⟨⟨ts', first⟩, responses, rfl⟩ := List.exists_cons_of_length_eq_add_one hlength
    have hrest (t : Session) := ih (s.send ts command).1 t (Nat.succ.inj hlength)
    rw [sendAll, answerAll]
    by_cases hasks : ∃ text, s.Asks command text
    · obtain ⟨text, hasks⟩ := hasks
      rw [(send_of_asks hasks ts).1]
      exact .statement hasks rfl rfl rfl rfl (hrest _)
    · rw [not_exists] at hasks
      cases hsend : (s.send ts command).2 with
      | event ev => exact absurd hsend ((send_of_not_asks hasks ts).1 ev)
      | prepare sql => exact .other hasks (hrest _)
      | silent => exact .other hasks (hrest _)

end Session

namespace Pipeline

/-- What the client sends: each command is one wire packet. -/
def requests (p : Pipeline) : List (UInt8 × Bytes) := commandPackets p.commands

/-- What the server sends: each response is numbered from 1. -/
def replies (p : Pipeline) : List (UInt8 × Bytes) := p.responses.flatMap (numbered 1)

structure WellFormed (p : Pipeline) : Prop where
  responds : ∀ c ∈ p.commands, Responds c
  single : ∀ c ∈ p.commands, c.length < fullPayload
  length_eq : p.responses.length = p.commands.length
  response_ne : ∀ r ∈ p.responses, r ≠ []
  client_eq : chunkBytes p.clientChunks = encodePackets p.requests
  server_eq : chunkBytes p.serverChunks = encodePackets p.replies
  within_limit : WithinLimit p.replies

/-- The calls that deliver the pipeline. -/
def calls (p : Pipeline) : List Chunk :=
  ConnDecoder.chunksOf .client p.clientChunks ++ ConnDecoder.chunksOf .server p.serverChunks

end Pipeline

/-! ## Counting sequence ids -/

theorem seqAfter_eq (seq : UInt8) (response : List Bytes) :
    seqAfter seq response = seq + (wireCount response).toUInt8 := by
  induction response generalizing seq with
  | nil => exact (UInt8.add_zero seq).symm
  | cons payload payloads ih =>
    rw [seqAfter, ih, lastSeqOf, UInt8.add_assoc, UInt8.add_assoc]
    congr 1
    rw [wireCount, wireCount, List.map_cons, List.sum_cons]
    simp only [Nat.toUInt8, UInt8.ofNat_add, UInt8.add_assoc]
    rfl

/-- The next response's first packet bears the continuation id of this one exactly when this one
has a multiple of 256 packets. -/
theorem seqAfter_one_eq_iff (response : List Bytes) :
    seqAfter 1 response = 1 ↔ wireCount response % 256 = 0 := by
  rw [seqAfter_eq, UInt8.add_eq_left, ← UInt8.toNat_inj]
  exact Iff.rfl

/-! ## The client's turn -/

namespace ProtoState

/-- Requests that wait for a response numbered from 1. -/
def waitingFor (ps : List Pending) : List InFlight := ps.map (⟨1, ·⟩)

theorem onPackets_commands {s : ProtoState} (h : s.Established)
    (hcont : s.pending = [] ∨ s.serverContSeq = none) (clock : ℕ → ℤ) (offset : ℕ)
    {commands : List Bytes} (hresponds : ∀ c ∈ commands, Responds c)
    (hsingle : ∀ c ∈ commands, c.length < fullPayload) :
    let r := s.onPackets .client (packetsAt clock offset (commandPackets commands))
    let sent := s.session.sendAll (commandStarts clock offset commands)
    r.1.Established ∧ r.1.session = sent.1 ∧ r.1.pending = s.pending ++ waitingFor sent.2 ∧
      (commands ≠ [] → r.1.serverContSeq = none) ∧ r.2 = [] := by
  induction commands generalizing s offset with
  | nil => exact ⟨h, rfl, (List.append_nil _).symm, fun h ↦ absurd rfl h, rfl⟩
  | cons payload commands ih =>
    obtain ⟨hpayload, hresponds⟩ := List.forall_mem_cons.mp hresponds
    obtain ⟨hone, hsingle⟩ := List.forall_mem_cons.mp hsingle
    have hsends := onClientPacket_sends h hpayload (lastSeqOf 0 payload) (clock offset)
    have hest := hsends.established (dropContinuation_established h)
    have hnone := hsends.cont_eq.trans (dropContinuation_cont hcont)
    obtain ⟨hest', hsession, hpending, hcont', hout⟩ := ih hest (Or.inr hnone)
      (offset + (encodePacket 0 payload).length) hresponds hsingle
    rw [hsends.session_eq] at hsession hpending
    rw [commandPackets, List.map_cons, packetsAt, onPackets, onPacket, if_pos hest.decoding,
      commandStarts, Session.sendAll]
    refine ⟨hest', hsession, ?_, fun _ ↦ ?_, hout⟩
    · rw [show commands.map (0, ·) = commandPackets commands from rfl, hpending, hsends.pending_eq,
        dropContinuation_pending, List.append_assoc, lastSeqOf_of_lt 0 hone]
      rfl
    · by_cases hnil : commands = []
      · rw [hnil]
        exact hnone
      · exact hcont' hnil

/-! ## The server's turn -/

/-- One response: swallowed where it starts with the continuation id, else the answer to the oldest
request. Either way it leaves its own continuation id. -/
theorem onPackets_oneResponse {s : ProtoState} (h : s.Established) (clock : ℕ → ℤ) (offset : ℕ)
    {p : Pending} {rest : List InFlight} (hpending : s.pending = ⟨1, p⟩ :: rest)
    {response : List Bytes} (hne : response ≠ []) :
    let r := s.onPackets .server (packetsAt clock offset (numbered 1 response))
    r.1.Established ∧ r.1.serverContSeq = some (seqAfter 1 response) ∧
      (s.serverContSeq = some 1 → r.1.pending = s.pending) ∧
      (s.serverContSeq ≠ some 1 → AnswersFront s r.1 rest (seqAfter 1 response)
        (s.session.answer p (clock offset) (response.headD [])) r.2) := by
  obtain ⟨payload, payloads, rfl⟩ := List.exists_cons_of_ne_nil hne
  by_cases hcont : s.serverContSeq = some 1
  · rw [onPackets_continuation h clock offset hcont]
    exact ⟨⟨h.phase_eq, h.decoding⟩, rfl, fun _ ↦ rfl, fun hne ↦ absurd hcont hne⟩
  · have hanswer := onPackets_response h clock offset hcont hpending payload payloads
    exact ⟨hanswer.established h, hanswer.cont_eq, fun heq ↦ absurd heq hcont, fun _ ↦ hanswer⟩

/-- The packets of the responses, one response after the other. -/
theorem packetsAt_responses (clock : ℕ → ℤ) (offset : ℕ) (response : List Bytes)
    (responses : List (List Bytes)) :
    packetsAt clock offset ((response :: responses).flatMap (numbered 1)) =
      packetsAt clock offset (numbered 1 response) ++
        packetsAt clock (offset + (encodePackets (numbered 1 response)).length)
          (responses.flatMap (numbered 1)) := by
  rw [List.flatMap_cons, packetsAt_append]

/-- No response is swallowed when neither the id expected at first nor the one left by a response
before the last is 1. -/
theorem onPackets_responses {s : ProtoState} (h : s.Established) (clock : ℕ → ℤ) (offset : ℕ)
    {ps : List Pending} (hpending : s.pending = waitingFor ps) {responses : List (List Bytes)}
    (hlength : responses.length = ps.length) (hne : ∀ r ∈ responses, r ≠ [])
    (hcont : responses ≠ [] → s.serverContSeq ≠ some 1)
    (hcounts : ∀ r ∈ responses.dropLast, seqAfter 1 r ≠ 1) :
    let r := s.onPackets .server (packetsAt clock offset (responses.flatMap (numbered 1)))
    let answered := s.session.answerAll ps (responseStarts clock offset responses)
    r.1.Established ∧ r.1.session = answered.1 ∧ r.1.pending = [] ∧ r.2 = answered.2 := by
  induction responses generalizing s offset ps with
  | nil =>
    obtain rfl : ps = [] := List.length_eq_zero_iff.mp hlength.symm
    exact ⟨h, rfl, hpending, rfl⟩
  | cons response responses ih =>
    obtain ⟨p, ps, rfl⟩ := List.exists_cons_of_length_eq_add_one hlength.symm
    obtain ⟨hfirst, hne⟩ := List.forall_mem_cons.mp hne
    obtain ⟨hest, hseq, -, hanswer⟩ := onPackets_oneResponse h clock offset hpending hfirst
    have hanswer := hanswer (hcont (List.cons_ne_nil _ _))
    -- the id this response leaves is not expected to start the next one
    have hnext (hmore : responses ≠ []) : (s.onPackets .server
        (packetsAt clock offset (numbered 1 response))).1.serverContSeq ≠ some 1 := by
      have hmem : response ∈ (response :: responses).dropLast := by
        rw [List.dropLast_cons_of_ne_nil hmore]
        exact List.mem_cons_self
      rw [hseq]
      exact fun h ↦ hcounts response hmem (Option.some.inj h)
    have hcounts (r : List Bytes) (hr : r ∈ responses.dropLast) : seqAfter 1 r ≠ 1 := by
      have hmore : responses ≠ [] := fun hnil ↦ by
        rw [hnil] at hr
        exact List.not_mem_nil hr
      rw [List.dropLast_cons_of_ne_nil hmore] at hcounts
      exact hcounts r (List.mem_cons_of_mem _ hr)
    obtain ⟨hest', hsession, hdone, hout⟩ := ih hest
      (offset + (encodePackets (numbered 1 response)).length) hanswer.pending_eq
      (Nat.succ.inj hlength) hne hnext hcounts
    rw [packetsAt_responses, onPackets_append hest.decoding, responseStarts, Session.answerAll]
    rw [hanswer.session_eq] at hsession hout
    exact ⟨hest', hsession, hdone, by rw [hanswer.out_eq, hout]⟩

/-- Each response takes at most one request off the queue, and one that is swallowed takes none. -/
theorem length_le_onPackets_responses {s : ProtoState} (h : s.Established) (clock : ℕ → ℤ)
    (offset : ℕ) {ps : List Pending} (hpending : s.pending = waitingFor ps)
    {responses : List (List Bytes)} (hlength : responses.length ≤ ps.length)
    (hne : ∀ r ∈ responses, r ≠ []) :
    let r := s.onPackets .server (packetsAt clock offset (responses.flatMap (numbered 1)))
    r.1.Established ∧ ps.length ≤ r.1.pending.length + responses.length ∧
      ((responses ≠ [] ∧ s.serverContSeq = some 1) ∨ (∃ r ∈ responses.dropLast, seqAfter 1 r = 1) →
        ps.length < r.1.pending.length + responses.length) := by
  induction responses generalizing s offset ps with
  | nil =>
    refine ⟨h, ?_, by simp⟩
    show ps.length ≤ s.pending.length
    rw [hpending, waitingFor, List.length_map]
  | cons response responses ih =>
    obtain ⟨p, ps, rfl⟩ := List.exists_cons_of_length_pos
      (Nat.lt_of_lt_of_le (Nat.succ_pos _) hlength)
    obtain ⟨hfirst, hne⟩ := List.forall_mem_cons.mp hne
    obtain ⟨hest, hseq, hswallow, hanswer⟩ := onPackets_oneResponse h clock offset hpending hfirst
    rw [packetsAt_responses, onPackets_append hest.decoding]
    -- a response before the last that leaves the id 1 leaves it to the ones behind it
    have hlater (hex : ∃ r ∈ (response :: responses).dropLast, seqAfter 1 r = 1) :
        (responses ≠ [] ∧ some (seqAfter 1 response) = some (1 : UInt8)) ∨
          ∃ r ∈ responses.dropLast, seqAfter 1 r = 1 := by
      obtain ⟨r, hr, hr1⟩ := hex
      have hmore : responses ≠ [] := fun hnil ↦ by
        rw [hnil] at hr
        exact List.not_mem_nil hr
      rw [List.dropLast_cons_of_ne_nil hmore] at hr
      rcases List.mem_cons.mp hr with rfl | hr
      · exact Or.inl ⟨hmore, congrArg some hr1⟩
      · exact Or.inr ⟨r, hr, hr1⟩
    rw [List.length_cons, List.length_cons] at hlength
    by_cases hcont : s.serverContSeq = some 1
    · obtain ⟨hest', hrest, -⟩ := ih hest (offset + (encodePackets (numbered 1 response)).length)
        ((hswallow hcont).trans hpending) (Nat.le_succ_of_le (Nat.le_of_succ_le_succ hlength)) hne
      have hless := Nat.lt_succ_of_le hrest
      exact ⟨hest', hless.le, fun _ ↦ hless⟩
    · obtain ⟨hest', hle, hlt⟩ := ih hest (offset + (encodePackets (numbered 1 response)).length)
        (hanswer hcont).pending_eq (Nat.le_of_succ_le_succ hlength) hne
      rw [hseq] at hlt
      refine ⟨hest', Nat.succ_le_succ hle, fun hex ↦ Nat.succ_lt_succ (hlt (hlater ?_))⟩
      exact hex.resolve_left fun h ↦ hcont h.2

end ProtoState

/-! ## Whole pipelines -/

namespace Session

theorem length_sendAll (s : Session) (clock : ℕ → ℤ) (offset : ℕ) (commands : List Bytes) :
    (s.sendAll (commandStarts clock offset commands)).2.length = commands.length := by
  induction commands generalizing s offset with
  | nil => rfl
  | cons payload commands ih => exact congrArg Nat.succ (ih _ _)

end Session

namespace ConnDecoder

/-- Response `i` is matched to command `i`, for every `i`: event by event the decoder reports what
the session model does, and no request is left over. -/
structure Matches (d : ConnDecoder) (p : Pipeline) : Prop where
  resolves : d.session.Resolves (commandStarts (tsAt p.clientChunks) 0 p.commands)
    (responseStarts (tsAt p.serverChunks) 0 p.responses) (d.run p.calls).2
  events_eq : (d.run p.calls).2 = (d.session.pipeline p).2
  session_eq : (d.run p.calls).1.session = (d.session.pipeline p).1
  pending_eq : (d.run p.calls).1.pending = []

/-- A run over a pipeline, packet by packet: the client's turn leaves all requests in the queue and
no continuation to expect, and the server's turn goes on from there. -/
theorem run_pipeline {d : ConnDecoder} (hd : d.Ready) {p : Pipeline} (hp : p.WellFormed) :
    let sent := d.session.sendAll (commandStarts (tsAt p.clientChunks) 0 p.commands)
    ∃ s : ProtoState, s.Established ∧ s.session = sent.1 ∧
      s.pending = ProtoState.waitingFor sent.2 ∧ (p.responses ≠ [] → s.serverContSeq = none) ∧
      (d.run p.calls).1.toProtoState =
        (s.onPackets .server (packetsAt (tsAt p.serverChunks) 0 p.replies)).1 ∧
      (d.run p.calls).2 =
        (s.onPackets .server (packetsAt (tsAt p.serverChunks) 0 p.replies)).2 := by
  intro sent
  obtain ⟨hest, hsession, hpending, hcont, hout⟩ := ProtoState.onPackets_commands
    hd.quiet.toEstablished (Or.inl hd.quiet.pending_eq) (tsAt p.clientChunks) 0 hp.responds
    hp.single
  rw [hd.quiet.pending_eq, List.nil_append] at hpending
  have hrequests : WithinLimit p.requests := fun r hr ↦ by
    obtain ⟨c, hc, rfl⟩ := List.mem_map.mp hr
    exact (hp.single c hc).le.trans (by decide)
  obtain ⟨hstate, hclientOut, hidle⟩ := run_packets hd.quiet.decoding hd.idle hrequests
    hp.client_eq hest.decoding
  rw [show packetsAt (tsAt p.clientChunks) 0 (commandPackets p.commands) =
    packetsAt (tsAt p.clientChunks) 0 p.requests from rfl, ← hstate] at hest hsession hpending hcont
  have hlength : p.responses.length ≤ sent.2.length := by
    rw [Session.length_sendAll, hp.length_eq]
  have hend := (ProtoState.length_le_onPackets_responses hest (tsAt p.serverChunks) 0 hpending
    hlength hp.response_ne).1
  obtain ⟨hstate', hserverOut, -⟩ := run_packets hest.decoding hidle hp.within_limit hp.server_eq
    hend.decoding
  refine ⟨_, hest, hsession, hpending, fun hne ↦ hcont fun hnil ↦ hne ?_, ?_, ?_⟩
  · exact List.length_eq_zero_iff.mp (hp.length_eq.trans (by rw [hnil]; rfl))
  · rw [Pipeline.calls, run_append]
    exact hstate'
  · rw [Pipeline.calls, run_append, hclientOut]
    exact (congrArg (· ++ _) hout).trans hserverOut

/-- The requests that are left over, when a response before the last is a multiple of 256 packets
long. -/
theorem pending_ne_of_swallowed {d : ConnDecoder} (hd : d.Ready) {p : Pipeline}
    (hp : p.WellFormed) (hex : ∃ r ∈ p.responses.dropLast, wireCount r % 256 = 0) :
    (d.run p.calls).1.pending ≠ [] := by
  obtain ⟨s, hest, -, hpending, -, hstate, -⟩ := run_pipeline hd hp
  have hlength := Session.length_sendAll d.session (tsAt p.clientChunks) 0 p.commands
  obtain ⟨r, hr, hcount⟩ := hex
  have hlt := (ProtoState.length_le_onPackets_responses hest (tsAt p.serverChunks) 0 hpending
    (by rw [hlength, hp.length_eq]) hp.response_ne).2.2
    (Or.inr ⟨r, hr, (seqAfter_one_eq_iff r).mpr hcount⟩)
  intro hnil
  rw [Pipeline.replies] at hstate
  rw [← hstate, hnil, hlength, hp.length_eq, List.length_nil, Nat.zero_add] at hlt
  exact lt_irrefl _ hlt

/-- Two queries, and a response of `n` packets before the second one's. -/
def twoQueries (n : ℕ) : Pipeline where
  commands := [COM_QUERY :: ascii "SELECT 1", COM_QUERY :: ascii "SELECT 2"]
  responses := [List.replicate n [4], [[0, 0, 0, 2, 0, 0, 0]]]
  clientChunks := [(5, encodePackets (commandPackets
    [COM_QUERY :: ascii "SELECT 1", COM_QUERY :: ascii "SELECT 2"]))]
  serverChunks := [(9, encodePackets ([List.replicate n [4],
    [[0, 0, 0, 2, 0, 0, 0]]].flatMap (numbered 1)))]

theorem numbered_snd {seq : UInt8} {response : List Bytes} {q : UInt8 × Bytes}
    (h : q ∈ numbered seq response) : q.2 ∈ response := by
  induction response generalizing seq with
  | nil => exact absurd h List.not_mem_nil
  | cons payload payloads ih =>
    rcases List.mem_cons.mp h with rfl | h
    · exact List.mem_cons_self
    · exact List.mem_cons_of_mem _ (ih h)

theorem twoQueries_wellFormed {n : ℕ} (hn : n ≠ 0) : (twoQueries n).WellFormed where
  responds := List.forall_mem_cons.mpr ⟨⟨COM_QUERY, _, rfl, by decide, by decide, by decide⟩,
    List.forall_mem_singleton.mpr ⟨COM_QUERY, _, rfl, by decide, by decide, by decide⟩⟩
  single := (by decide : ∀ c ∈ (twoQueries 1).commands, c.length < fullPayload)
  length_eq := rfl
  response_ne := List.forall_mem_cons.mpr
    ⟨by simpa using hn, List.forall_mem_singleton.mpr (List.cons_ne_nil _ _)⟩
  client_eq := List.append_nil _
  server_eq := List.append_nil _
  within_limit := fun q hq ↦ by
    obtain ⟨response, hresponse, hq⟩ := List.mem_flatMap.mp hq
    have hpayload := numbered_snd hq
    have hsmall : ∀ r ∈ (twoQueries n).responses, ∀ p ∈ r, p.length ≤ maxLogicalPacket :=
      List.forall_mem_cons.mpr ⟨fun p hp ↦ by rw [List.eq_of_mem_replicate hp]; decide, by decide⟩
    exact hsmall response hresponse _ hpayload

end ConnDecoder

end SqlReplay
