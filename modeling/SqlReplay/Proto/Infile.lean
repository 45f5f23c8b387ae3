import SqlReplay.Proto.Conversation
import SqlReplay.Proto.LongData

/-!
# LOCAL INFILE uploads

A server may answer a query with the request for a file of the client. The client then sends the
file in data packets, and behind them an empty one, before the server gives its verdict. Nothing in
a data packet says that it is one: the decoder tells it from a command by its sequence id alone,
which goes on from the request while a command starts at 0.

The id is one byte. From the 255th wire packet of an upload on, a data packet may bear the id 0, and
then its content is taken for a command. The state it finds is quiet, since the query has its
response, and that makes the damage easy to tell: almost every content queues a phantom request,
ends the connection or moves the prepared statements. `Statements.Spares` names the contents that do
nothing, and the run lemmas say that an upload is ignored exactly when every data packet with the
id 0 has one of them.
-/

namespace SqlReplay

/-! ## Contents that do nothing -/

namespace Statements

variable (s : Statements) (args : Bytes)

/-- A payload that does nothing even when it is taken for a command: an empty one, long data that
adds no byte to a parameter that has some, or the close of a statement that is not there. -/
def Spares (s : Statements) : Bytes → Prop
  | [] => True
  | cmd :: args =>
    (cmd = COM_STMT_SEND_LONG_DATA ∧
      (args.length < 6 ∨ (args.length = 6 ∧ (s.longData (longDataKey args)).isSome))) ∨
    (cmd = COM_STMT_CLOSE ∧
      (args.length < 4 ∨ (s.stmts (argId args) = none ∧
        ∀ param, s.longData (argId args, param) = none)))

/-- The payloads of the packets with the id 0 do nothing. -/
def SparesPackets (s : Statements) (pkts : List (UInt8 × Bytes)) : Prop :=
  ∀ p ∈ pkts, p.1 = 0 → s.Spares p.2

/-- Long data leaves the tables alone when it is cut short, or when there is none of it and the
parameter has an entry already. -/
theorem onSendLongData_eq_self_iff : s.onSendLongData args = s ↔
    args.length < 6 ∨ (args.length = 6 ∧ (s.longData (longDataKey args)).isSome) := by
  rw [onSendLongData]
  split_ifs with hshort
  · exact iff_of_true rfl (Or.inl hshort)
  · rw [or_iff_right hshort]
    show (⟨s.stmts, fun k ↦ if k = longDataKey args then
      some ((s.longData (longDataKey args)).getD [] ++ args.drop 6) else s.longData k⟩ :
        Statements) = ⟨s.stmts, s.longData⟩ ↔ _
    rw [Statements.mk.injEq, and_iff_right rfl]
    constructor
    · intro h
      have hkey := congrFun h (longDataKey args)
      rw [if_pos rfl] at hkey
      have hdrop : args.drop 6 = [] := by
        rw [← hkey, Option.getD_some] at hkey
        simpa using hkey
      refine ⟨?_, by rw [← hkey]; rfl⟩
      rw [List.drop_eq_nil_iff] at hdrop
      omega
    · rintro ⟨hlength, hsome⟩
      obtain ⟨data, hdata⟩ := Option.isSome_iff_exists.mp hsome
      funext k
      by_cases hk : k = longDataKey args
      · rw [if_pos hk, hk, hdata, List.drop_eq_nil_of_le hlength.le, List.append_nil]
        rfl
      · rw [if_neg hk]

/-- A close leaves the tables alone when it is cut short, or when they hold nothing under its
id. -/
theorem onClose_eq_self_iff : s.onClose args = s ↔
    args.length < 4 ∨ (s.stmts (argId args) = none ∧
      ∀ param, s.longData (argId args, param) = none) := by
  rw [onClose]
  split_ifs with hshort
  · exact iff_of_true rfl (Or.inl hshort)
  · rw [or_iff_right hshort]
    show (⟨fun i ↦ if i = argId args then none else s.stmts i,
      fun k ↦ if k.1 = argId args then none else s.longData k⟩ : Statements) =
        ⟨s.stmts, s.longData⟩ ↔ _
    rw [Statements.mk.injEq]
    constructor
    · rintro ⟨hstmts, hlong⟩
      have hid := congrFun hstmts (argId args)
      rw [if_pos rfl] at hid
      refine ⟨hid.symm, fun param ↦ ?_⟩
      have hkey := congrFun hlong (argId args, param)
      rw [if_pos rfl] at hkey
      exact hkey.symm
    · rintro ⟨hid, hlong⟩
      constructor
      · funext i
        by_cases hi : i = argId args
        · rw [if_pos hi, hi, hid]
        · rw [if_neg hi]
      · funext k
        by_cases hk : k.1 = argId args
        · rw [if_pos hk, ← hlong k.2, ← hk]
        · rw [if_neg hk]

end Statements

/-! ## One data packet -/

/-- What a client packet of an upload must leave alone. -/
structure Unmoved (s t : ProtoState) : Prop where
  pending_eq : t.pending = s.pending
  statements_eq : t.statements = s.statements
  stats_eq : t.stats = s.stats
  finished_eq : t.finished = s.finished

/-- A decoded packet that is ignored in this sense. -/
def PacketStep.Ignored (st : PacketStep) : Prop :=
  Unmoved st.state (st.state.onPacket st.dir st.pkt).1

namespace ProtoState

variable {s : ProtoState}

theorem dropContinuation_unmoved (s : ProtoState) : Unmoved s s.dropContinuation := by
  rw [dropContinuation]
  split_ifs <;> exact ⟨rfl, rfl, rfl, rfl⟩

/-- A packet that is no command, or whose payload does nothing as one, costs at most the
continuation id. -/
theorem onClientPacket_of_spares (h : s.Established) {pkt : LogicalPacket}
    (hspares : pkt.firstSeq = 0 → s.statements.Spares pkt.payload) :
    s.onClientPacket pkt = s ∨ s.onClientPacket pkt = s.dropContinuation := by
  by_cases hseq : pkt.firstSeq = 0
  · refine Or.inr ?_
    have hpayload := hspares hseq
    have hstatements := s.dropContinuation_unmoved.statements_eq
    rw [onClientPacket_established h hseq, onCommand]
    cases hp : pkt.payload with
    | nil => rfl
    | cons cmd args =>
      rw [hp] at hpayload
      rcases hpayload with ⟨rfl, hlong⟩ | ⟨rfl, hclose⟩
      · show { s.dropContinuation with
          statements := s.dropContinuation.statements.onSendLongData args } = s.dropContinuation
        rw [hstatements, (s.statements.onSendLongData_eq_self_iff args).mpr hlong, ← hstatements]
      · show { s.dropContinuation with
          statements := s.dropContinuation.statements.onClose args } = s.dropContinuation
        rw [hstatements, (s.statements.onClose_eq_self_iff args).mpr hclose, ← hstatements]
  · rw [onClientPacket, h.phase_eq]
    exact Or.inl (if_pos hseq)

theorem established_of_spares (h : s.Established) {pkt : LogicalPacket}
    (hspares : pkt.firstSeq = 0 → s.statements.Spares pkt.payload) :
    (s.onClientPacket pkt).Established := by
  rcases onClientPacket_of_spares h hspares with heq | heq
  · rw [heq]
    exact h
  · rw [heq]
    exact dropContinuation_established h

/-- A command that moves nothing has a payload that does nothing. -/
theorem spares_of_dispatch_unmoved (respSeq : UInt8) (tsMicros : ℤ) {cmd : UInt8} {args : Bytes}
    (hopen : s.finished = false) (h : Unmoved s (s.dispatch respSeq tsMicros cmd args)) :
    s.statements.Spares (cmd :: args) := by
  by_cases hlong : cmd = COM_STMT_SEND_LONG_DATA
  · subst hlong
    exact Or.inl ⟨rfl, (s.statements.onSendLongData_eq_self_iff args).mp h.statements_eq⟩
  by_cases hclose : cmd = COM_STMT_CLOSE
  · subst hclose
    exact Or.inr ⟨rfl, (s.statements.onClose_eq_self_iff args).mp h.statements_eq⟩
  exfalso
  by_cases hquit : cmd = COM_QUIT
  · subst hquit
    have hfinished : true = s.finished := h.finished_eq
    rw [hopen] at hfinished
    cases hfinished
  · -- any other command has a response, and its request waits for it
    have hsends : Sends s (s.dispatch respSeq tsMicros cmd args) respSeq _ :=
      dispatch_sends tsMicros args hlong hclose hquit
    have hlength := congrArg List.length h.pending_eq
    rw [hsends.pending_eq, List.length_append] at hlength
    exact Nat.succ_ne_self _ hlength

/-- A client packet is ignored exactly when its sequence id or its payload lets it be. -/
theorem onClientPacket_unmoved_iff (h : s.Established) (pkt : LogicalPacket) :
    Unmoved s (s.onClientPacket pkt) ↔
      (pkt.firstSeq = 0 → s.statements.Spares pkt.payload) := by
  constructor
  · intro hmoved hseq
    rw [onClientPacket_established h hseq, onCommand] at hmoved
    have hdrop := s.dropContinuation_unmoved
    cases hp : pkt.payload with
    | nil => exact trivial
    | cons cmd args =>
      rw [hp] at hmoved
      rw [← hdrop.statements_eq]
      refine spares_of_dispatch_unmoved (pkt.lastSeq + 1) pkt.tsMicros
        (hdrop.finished_eq.trans (finished_of_decoding h.decoding)) ?_
      exact ⟨hmoved.pending_eq.trans hdrop.pending_eq.symm,
        hmoved.statements_eq.trans hdrop.statements_eq.symm,
        hmoved.stats_eq.trans hdrop.stats_eq.symm,
        hmoved.finished_eq.trans hdrop.finished_eq.symm⟩
  · intro hspares
    rcases onClientPacket_of_spares h hspares with heq | heq
    · rw [heq]
      exact ⟨rfl, rfl, rfl, rfl⟩
    · rw [heq]
      exact s.dropContinuation_unmoved

/-! ## The packets of an upload -/

/-- Client packets are all ignored exactly when the tables they find spare them. -/
theorem packetSteps_ignored_iff (h : s.Established) (clock : ℕ → ℤ) (offset : ℕ)
    (pkts : List (UInt8 × Bytes)) :
    (∀ st ∈ s.packetSteps .client (packetsAt clock offset pkts), st.Ignored) ↔
      s.statements.SparesPackets pkts := by
  induction pkts generalizing s offset with
  | nil => simp [packetsAt, packetSteps, Statements.SparesPackets]
  | cons p pkts ih =>
    obtain ⟨seq, payload⟩ := p
    have hone := onClientPacket_unmoved_iff h ⟨seq, lastSeqOf seq payload, clock offset, payload⟩
    rw [Statements.SparesPackets, List.forall_mem_cons, packetsAt, packetSteps,
      List.forall_mem_cons, ← hone]
    refine and_congr_right fun hmoved ↦ ?_
    have hrest := established_of_spares h (hone.mp hmoved)
    have hstatements := Unmoved.statements_eq hmoved
    rw [onPacket] at hstatements ⊢
    rw [if_pos hrest.decoding, ih hrest, hstatements, Statements.SparesPackets]

/-- A quiet connection stays quiet over them, and its session does not move. -/
theorem onPackets_spared (h : s.Quiet) (clock : ℕ → ℤ) (offset : ℕ)
    {pkts : List (UInt8 × Bytes)} (hspares : s.statements.SparesPackets pkts) :
    let r := s.onPackets .client (packetsAt clock offset pkts)
    r.1.Quiet ∧ r.1.session = s.session ∧ r.2 = [] := by
  induction pkts generalizing s offset with
  | nil => exact ⟨h, rfl, rfl⟩
  | cons p pkts ih =>
    obtain ⟨seq, payload⟩ := p
    obtain ⟨hfirst, hpkts⟩ := List.forall_mem_cons.mp hspares
    set pkt : LogicalPacket := ⟨seq, lastSeqOf seq payload, clock offset, payload⟩ with hpkt
    have hest : (s.onClientPacket pkt).Established :=
      established_of_spares h.toEstablished hfirst
    have hmoved := (onClientPacket_unmoved_iff h.toEstablished pkt).mpr hfirst
    have hsession : (s.onClientPacket pkt).session = s.session := by
      have hstep : s.onClientPacket pkt = s ∨ s.onClientPacket pkt = s.dropContinuation :=
        onClientPacket_of_spares h.toEstablished hfirst
      rcases hstep with heq | heq
      · rw [heq]
      · rw [heq, dropContinuation_session]
    obtain ⟨hquiet, hsession', hout⟩ := ih ⟨hest, hmoved.pending_eq.trans h.pending_eq⟩
      (offset + (encodePacket seq payload).length) (by rw [hmoved.statements_eq]; exact hpkts)
    rw [packetsAt, ← hpkt, onPackets, onPacket, if_pos hest.decoding]
    exact ⟨hquiet, hsession'.trans hsession, hout⟩

/-- A server packet that finds a quiet connection moves nothing but the continuation id. -/
theorem onServerPacket_quiet (h : s.Quiet) (pkt : LogicalPacket) :
    (s.onServerPacket pkt).1.Quiet ∧ (s.onServerPacket pkt).1.session = s.session ∧
      (s.onServerPacket pkt).2 = [] := by
  by_cases hcont : s.serverContSeq = some pkt.firstSeq
  · rw [onServerPacket_continuation pkt h.toEstablished hcont]
    exact ⟨⟨⟨h.phase_eq, h.decoding⟩, h.pending_eq⟩, rfl, rfl⟩
  · have hstray : s.onResponse pkt = ({ s with serverContSeq := none }, []) := by
      rw [onResponse, if_neg hcont, h.pending_eq]
    rw [onServerPacket_established pkt h.toEstablished, hstray]
    exact ⟨⟨⟨h.phase_eq, h.decoding⟩, h.pending_eq⟩, rfl, rfl⟩

/-- The packets that a run decodes are those of a first part and, if it is decoded to the end,
those behind it. -/
theorem packetSteps_append (h : s.decoding) (dir : Dir) (a b : List LogicalPacket) :
    s.packetSteps dir (a ++ b) = s.packetSteps dir a ++
      if (s.onPackets dir a).1.decoding then (s.onPackets dir a).1.packetSteps dir b else [] := by
  induction a generalizing s with
  | nil => rw [List.nil_append, packetSteps, onPackets, if_pos h, List.nil_append]
  | cons pkt a ih =>
    rw [List.cons_append, packetSteps, packetSteps, onPackets, List.cons_append]
    by_cases hdecoding : (s.onPacket dir pkt).1.decoding
    · simp only [if_pos hdecoding]
      rw [ih hdecoding]
    · simp only [if_neg hdecoding]
      rfl

end ProtoState

namespace ConnDecoder

theorem chunkSteps_eq {d : ConnDecoder} {c : Chunk} {a : PacketAssembler}
    {pkts : List LogicalPacket} (hfeed : (d.assembler c.dir).feed c.tsMicros c.data = (a, pkts))
    (ha : a.broken = false) (hd : ∀ dir, (d.assembler dir).broken = false) (hstart : d.decoding) :
    d.chunkSteps c = d.toProtoState.packetSteps c.dir pkts := by
  have hclient : d.client.broken = false := hd .client
  have hserver : d.server.broken = false := hd .server
  rw [chunkSteps, hstart, feed, hfeed]
  cases hdir : c.dir with
  | client => exact if_pos (by simp [setAssembler, ha, hserver])
  | server => exact if_pos (by simp [setAssembler, ha, hclient])

/-- The packets that a run over the chunks of one direction decodes. -/
theorem packetSteps_chunksOf {d : ConnDecoder} {dir : Dir} {chunks : List (ℤ × Bytes)}
    {pkts : List LogicalPacket} {a : PacketAssembler}
    (hfeed : (d.assembler dir).feedAll chunks = (a, pkts)) (ha : a.broken = false)
    (hd : ∀ dir, (d.assembler dir).broken = false) (hstart : d.decoding) :
    d.packetSteps (chunksOf dir chunks) = d.toProtoState.packetSteps dir pkts := by
  induction chunks generalizing d pkts with
  | nil =>
    obtain ⟨-, rfl⟩ : d.assembler dir = a ∧ [] = pkts := by
      simpa [PacketAssembler.feedAll] using hfeed
    rfl
  | cons c chunks ih =>
    obtain ⟨ts, data⟩ := c
    cases hone : (d.assembler dir).feed ts data with
    | mk a₁ p₁ =>
    cases hrest : a₁.feedAll chunks with
    | mk a₂ p₂ =>
    obtain ⟨rfl, rfl⟩ : a₂ = a ∧ p₁ ++ p₂ = pkts := by
      simpa [PacketAssembler.feedAll, hone, hrest] using hfeed
    have ha₁ : a₁.broken = false := by
      by_contra hb
      have hstuck := PacketAssembler.broken_feedAll (Bool.eq_true_of_not_eq_false hb) chunks
      rw [hrest] at hstuck
      rw [← hstuck] at hb
      exact hb ha
    have hsteps := chunkSteps_eq (c := ⟨dir, ts, data⟩) hone ha₁ hd hstart
    have hstep := onData_eq (c := ⟨dir, ts, data⟩) hone ha₁ hd hstart
    rw [chunksOf, List.map_cons, packetSteps, hsteps, hstep,
      ProtoState.packetSteps_append hstart]
    congr 1
    by_cases hmid : (d.onPackets dir p₁).1.decoding
    · rw [if_pos hmid]
      exact ih (by rw [after_assembler, hrest]) (after_not_broken ha₁ hd _) hmid
    · rw [if_neg hmid]
      exact packetSteps_of_not_decoding (Bool.eq_false_of_not_eq_true hmid) _

/-- Whole packets of the client are all ignored exactly when the tables they find spare them. -/
theorem steps_ignored_iff {d : ConnDecoder} (hd : d.Ready) {pkts : List (UInt8 × Bytes)}
    (hlimit : WithinLimit pkts) {chunks : List (ℤ × Bytes)}
    (hchunks : chunkBytes chunks = encodePackets pkts) :
    (∀ st ∈ d.packetSteps (chunksOf .client chunks), st.Ignored) ↔
      d.statements.SparesPackets pkts := by
  obtain ⟨hafter, hpackets⟩ :=
    PacketAssembler.feedAll_encodePackets (hd.idle .client) hlimit hchunks
  have hfeed : (d.assembler .client).feedAll chunks =
      (((d.assembler .client).feedAll chunks).1, packetsAt (tsAt chunks) 0 pkts) :=
    Prod.ext rfl hpackets
  rw [packetSteps_chunksOf hfeed hafter.not_broken (fun dir ↦ (hd.idle dir).not_broken)
    hd.quiet.decoding]
  exact ProtoState.packetSteps_ignored_iff hd.quiet.toEstablished _ _ _

end ConnDecoder

/-! ## Uploads in a conversation -/

/-- A file sent by the client and the server's verdict. The chunks are what the decoder is fed. -/
structure Upload where
  data : List Bytes
  verdict : Bytes
  dataChunks : List (ℤ × Bytes)
  verdictChunks : List (ℤ × Bytes)

namespace Upload

/-- What the client sends: the data and the empty packet behind it, numbered on from the server's
request. -/
def body (u : Upload) (seq : UInt8) : List (UInt8 × Bytes) := numbered seq (u.data ++ [[]])

/-- What the server sends behind it. -/
def reply (u : Upload) (seq : UInt8) : List (UInt8 × Bytes) :=
  [(seqAfter seq (u.data ++ [[]]), u.verdict)]

/-- The verdict is an OK or an ERR packet, and the first empty packet is the last. -/
structure WellFormed (u : Upload) (seq : UInt8) : Prop where
  data_ne : ∀ p ∈ u.data, p ≠ []
  verdict_spec : u.verdict.head? = some 0x00 ∨ u.verdict.head? = some 0xFF
  client_eq : chunkBytes u.dataChunks = encodePackets (u.body seq)
  server_eq : chunkBytes u.verdictChunks = encodePackets (u.reply seq)

def WithinLimits (u : Upload) (seq : UInt8) : Prop :=
  WithinLimit (u.body seq) ∧ WithinLimit (u.reply seq)

/-- The calls that deliver the upload. -/
def calls (u : Upload) : List Chunk :=
  ConnDecoder.chunksOf .client u.dataChunks ++ ConnDecoder.chunksOf .server u.verdictChunks

end Upload

/-- A query whose response is the request for a file. -/
structure Exchange.IsInfile (e : Exchange) : Prop where
  command_eq : ∃ text, e.command = COM_QUERY :: text
  response_eq : ∃ file, e.response = [0xFB :: file]

/-- An exchange, and the upload that its response asks for. -/
structure Turn where
  exchange : Exchange
  upload : Option Upload

namespace Turn

/-- The sequence id that an upload starts with. -/
def uploadSeq (t : Turn) : UInt8 :=
  seqAfter (lastSeqOf 0 t.exchange.command + 1) t.exchange.response

structure WellFormed (t : Turn) : Prop where
  exchange_spec : t.exchange.WellFormed
  infile_spec : ∀ u ∈ t.upload, t.exchange.IsInfile
  upload_spec : ∀ u ∈ t.upload, u.WellFormed t.uploadSeq

/-- No packet is larger than the decoder takes. -/
def WithinLimits (t : Turn) : Prop :=
  t.exchange.WithinLimits ∧ ∀ u ∈ t.upload, u.WithinLimits t.uploadSeq

/-- The calls that deliver the turn. -/
def calls (t : Turn) : List Chunk := t.exchange.calls ++ t.upload.elim [] Upload.calls

end Turn

/-- Turn after turn as the session sees it: an upload is none of its business. -/
def Session.turns (s : Session) (ts : List Turn) : Session × List ProtoEvent :=
  s.exchanges (ts.map Turn.exchange)

/-- Every upload is spared by the tables that the session has when it starts. -/
def Session.SparesUploads (s : Session) : List Turn → Prop
  | [] => True
  | t :: ts =>
    (∀ u ∈ t.upload, (s.exchange t.exchange).1.statements.SparesPackets (u.body t.uploadSeq)) ∧
      (s.exchange t.exchange).1.SparesUploads ts

namespace ConnDecoder

/-- Every client packet of every upload is ignored. -/
def IgnoresUploads (d : ConnDecoder) : List Turn → Prop
  | [] => True
  | t :: ts =>
    (∀ u ∈ t.upload, ∀ st ∈ (d.run t.exchange.calls).1.packetSteps
      (chunksOf .client u.dataChunks), st.Ignored) ∧ (d.run t.calls).1.IgnoresUploads ts

/-- What the uploads of a connection must not disturb: no client packet of theirs changes the
queue, the tables, the counters or the finished flag, and every statement, also of whatever
conversation follows, is matched to its own response. -/
structure SurvivesUploads (d : ConnDecoder) (ts : List Turn) : Prop where
  ignores : d.IgnoresUploads ts
  matched : ∀ conv : Conversation, conv.WellFormed → conv.WithinLimits →
    (d.run (ts.flatMap Turn.calls ++ conv.calls)).2 =
      (d.session.turns ts).2 ++ ((d.session.turns ts).1.converse conv).2

/-! ## What a spared upload leaves -/

/-- The data of an upload that is spared. -/
theorem run_body {d : ConnDecoder} (hd : d.Ready) {u : Upload} {seq : UInt8}
    (hu : u.WellFormed seq) (hlimit : WithinLimit (u.body seq))
    (hspares : d.statements.SparesPackets (u.body seq)) :
    let r := d.run (chunksOf .client u.dataChunks)
    r.1.Ready ∧ r.1.session = d.session ∧ r.2 = [] := by
  obtain ⟨hquiet, hsession, hout⟩ :=
    ProtoState.onPackets_spared hd.quiet (tsAt u.dataChunks) 0 hspares
  obtain ⟨hstate, hrun, hidle⟩ := run_packets hd.quiet.decoding hd.idle hlimit hu.client_eq
    hquiet.decoding
  rw [← hstate] at hquiet hsession
  exact ⟨⟨hquiet, hidle⟩, hsession, hrun.trans hout⟩

/-- The verdict finds nothing in flight. -/
theorem run_reply {d : ConnDecoder} (hd : d.Ready) {u : Upload} {seq : UInt8}
    (hu : u.WellFormed seq) (hlimit : WithinLimit (u.reply seq)) :
    let r := d.run (chunksOf .server u.verdictChunks)
    r.1.Ready ∧ r.1.session = d.session ∧ r.2 = [] := by
  set pkt : LogicalPacket := ⟨seqAfter seq (u.data ++ [[]]),
    lastSeqOf (seqAfter seq (u.data ++ [[]])) u.verdict, tsAt u.verdictChunks 0, u.verdict⟩
    with hpkt
  obtain ⟨hquiet, hsession, hout⟩ := ProtoState.onServerPacket_quiet hd.quiet pkt
  have hone : d.onPackets .server (packetsAt (tsAt u.verdictChunks) 0 (u.reply seq)) =
      d.onServerPacket pkt := by
    rw [Upload.reply, packetsAt, packetsAt, ← hpkt, ProtoState.onPackets, ProtoState.onPacket,
      if_pos hquiet.decoding, ProtoState.onPackets, List.append_nil]
  obtain ⟨hstate, hrun, hidle⟩ := run_packets hd.quiet.decoding hd.idle hlimit hu.server_eq
    (by rw [hone]; exact hquiet.decoding)
  rw [hone] at hstate hrun
  rw [← hstate] at hquiet hsession
  exact ⟨⟨hquiet, hidle⟩, hsession, hrun.trans hout⟩

theorem run_upload {d : ConnDecoder} (hd : d.Ready) {u : Upload} {seq : UInt8}
    (hu : u.WellFormed seq) (hlimits : u.WithinLimits seq)
    (hspares : d.statements.SparesPackets (u.body seq)) :
    let r := d.run u.calls
    r.1.Ready ∧ r.1.session = d.session ∧ r.2 = [] := by
  obtain ⟨hready, hsession, hout⟩ := run_body hd hu hlimits.1 hspares
  obtain ⟨hready', hsession', hout'⟩ := run_reply hready hu hlimits.2
  rw [Upload.calls, run_append]
  exact ⟨hready', hsession'.trans hsession, by rw [hout, hout', List.append_nil]⟩

/-- A turn whose upload is spared is to the session the exchange alone. -/
theorem run_turn {d : ConnDecoder} (hd : d.Ready) {t : Turn} (ht : t.WellFormed)
    (hlimits : t.WithinLimits) (hspares : ∀ u ∈ t.upload,
      (d.session.exchange t.exchange).1.statements.SparesPackets (u.body t.uploadSeq)) :
    let r := d.run t.calls
    r.1.Ready ∧ r.1.session = (d.session.exchange t.exchange).1 ∧
      r.2 = (d.session.exchange t.exchange).2 := by
  obtain ⟨hready, hsession, hout⟩ := run_exchange hd ht.exchange_spec hlimits.1
  rw [Turn.calls, run_append]
  cases hupload : t.upload with
  | none => exact ⟨hready, hsession, (List.append_nil _).trans hout⟩
  | some u =>
    have hspared := hspares u hupload
    rw [← hsession] at hspared
    obtain ⟨hready', hsession', hout'⟩ := run_upload hready (ht.upload_spec u hupload)
      (hlimits.2 u hupload) hspared
    refine ⟨hready', hsession'.trans hsession, ?_⟩
    rw [Option.elim_some, hout', List.append_nil, hout]

theorem run_turns {d : ConnDecoder} (hd : d.Ready) {ts : List Turn}
    (hts : ∀ t ∈ ts, t.WellFormed) (hlimits : ∀ t ∈ ts, t.WithinLimits)
    (hspares : d.session.SparesUploads ts) :
    let r := d.run (ts.flatMap Turn.calls)
    r.1.Ready ∧ r.1.session = (d.session.turns ts).1 ∧ r.2 = (d.session.turns ts).2 := by
  induction ts generalizing d with
  | nil => exact ⟨hd, rfl, rfl⟩
  | cons t ts ih =>
    obtain ⟨ht, hts⟩ := List.forall_mem_cons.mp hts
    obtain ⟨hlimit, hlimits⟩ := List.forall_mem_cons.mp hlimits
    obtain ⟨hfirst, hspares⟩ := hspares
    obtain ⟨hready, hsession, hout⟩ := run_turn hd ht hlimit hfirst
    rw [← hsession] at hspares
    obtain ⟨hready', hsession', hout'⟩ := ih hready hts hlimits hspares
    rw [List.flatMap_cons, run_append, Session.turns, List.map_cons, Session.exchanges]
    rw [hsession, Session.turns] at hsession' hout'
    exact ⟨hready', hsession', by rw [hout, hout']⟩

/-- Spared uploads are ignored, packet by packet. -/
theorem ignoresUploads_of_spares {d : ConnDecoder} (hd : d.Ready) {ts : List Turn}
    (hts : ∀ t ∈ ts, t.WellFormed) (hlimits : ∀ t ∈ ts, t.WithinLimits)
    (hspares : d.session.SparesUploads ts) : d.IgnoresUploads ts := by
  induction ts generalizing d with
  | nil => exact trivial
  | cons t ts ih =>
    obtain ⟨ht, hts⟩ := List.forall_mem_cons.mp hts
    obtain ⟨hlimit, hlimits⟩ := List.forall_mem_cons.mp hlimits
    obtain ⟨hfirst, hspares⟩ := hspares
    refine ⟨fun u hu ↦ ?_, ?_⟩
    · obtain ⟨hready, hsession, -⟩ := run_exchange hd ht.exchange_spec hlimit.1
      have hspared := hfirst u hu
      rw [← hsession] at hspared
      exact (steps_ignored_iff hready (hlimit.2 u hu).1 (ht.upload_spec u hu).client_eq).mpr
        hspared
    · obtain ⟨hready, hsession, -⟩ := run_turn hd ht hlimit hfirst
      rw [← hsession] at hspares
      exact ih hready hts hlimits hspares

/-! ## What an upload that is not spared costs -/

/-- A decoder that is still decoding behind an exchange was sent no packet beyond the limit. -/
theorem exchange_withinLimits {d : ConnDecoder} (hd : d.Ready) {e : Exchange} (he : e.WellFormed)
    (h : (d.run e.calls).1.decoding) : e.WithinLimits := by
  rw [Exchange.calls, run_append] at h
  have hrequests := withinLimit_of_run (hd.idle .client) he.client_eq (decoding_of_run h)
  obtain ⟨hest, -⟩ :=
    ProtoState.onPackets_command hd.quiet (tsAt e.clientChunks) he.silent_spec he.responds
  obtain ⟨-, -, hidle⟩ := run_packets hd.quiet.decoding hd.idle hrequests he.client_eq
    hest.decoding
  exact ⟨hrequests, withinLimit_of_run (hidle .server) he.server_eq h⟩

/-- A decoder that ignores an upload and is still decoding behind it was sent no packet beyond the
limit, and its tables spared the upload. -/
theorem upload_spared {d : ConnDecoder} (hd : d.Ready) {u : Upload} {seq : UInt8}
    (hu : u.WellFormed seq) (h : (d.run u.calls).1.decoding)
    (hignores : ∀ st ∈ d.packetSteps (chunksOf .client u.dataChunks), st.Ignored) :
    u.WithinLimits seq ∧ d.statements.SparesPackets (u.body seq) := by
  rw [Upload.calls, run_append] at h
  have hbody := withinLimit_of_run (hd.idle .client) hu.client_eq (decoding_of_run h)
  have hspares := (steps_ignored_iff hd hbody hu.client_eq).mp hignores
  obtain ⟨hready, -⟩ := run_body hd hu hbody hspares
  exact ⟨⟨hbody, withinLimit_of_run (hready.idle .server) hu.server_eq h⟩, hspares⟩

theorem turns_spared {d : ConnDecoder} (hd : d.Ready) {ts : List Turn}
    (hts : ∀ t ∈ ts, t.WellFormed) (h : (d.run (ts.flatMap Turn.calls)).1.decoding)
    (hignores : d.IgnoresUploads ts) :
    (∀ t ∈ ts, t.WithinLimits) ∧ d.session.SparesUploads ts := by
  induction ts generalizing d with
  | nil => exact ⟨fun _ ht ↦ absurd ht List.not_mem_nil, trivial⟩
  | cons t ts ih =>
    obtain ⟨ht, hts⟩ := List.forall_mem_cons.mp hts
    obtain ⟨hfirst, hignores⟩ := hignores
    rw [List.flatMap_cons, run_append] at h
    have hturn := decoding_of_run h
    have hexchange : (d.run t.exchange.calls).1.decoding := by
      rw [Turn.calls, run_append] at hturn
      exact decoding_of_run hturn
    have hlimits := exchange_withinLimits hd ht.exchange_spec hexchange
    obtain ⟨hready, hsession, -⟩ := run_exchange hd ht.exchange_spec hlimits
    have hupload : ∀ u ∈ t.upload, u.WithinLimits t.uploadSeq ∧
        (d.session.exchange t.exchange).1.statements.SparesPackets (u.body t.uploadSeq) := by
      intro u hu
      rw [Turn.calls, run_append, Option.mem_def.mp hu] at hturn
      rw [← hsession]
      exact upload_spared hready (ht.upload_spec u hu) hturn (hfirst u hu)
    have hturnLimits : t.WithinLimits := ⟨hlimits, fun u hu ↦ (hupload u hu).1⟩
    have hspares := fun u hu ↦ (hupload u hu).2
    obtain ⟨hready', hsession', -⟩ := run_turn hd ht hturnLimits hspares
    obtain ⟨hrestLimits, hrest⟩ := ih hready' hts h hignores
    rw [hsession'] at hrest
    exact ⟨List.forall_mem_cons.mpr ⟨hturnLimits, hrestLimits⟩, hspares, hrest⟩

/-! ## When uploads are survived -/

/-- A conversation of one COM_INIT_DB, which is a statement in every session. -/
def useConversation (db : Bytes) : Conversation where
  exchanges := [{
    silent := []
    command := COM_INIT_DB :: db
    response := [[0, 0, 0, 2, 0, 0, 0]]
    clientChunks := [(5, encodePackets (commandPackets [COM_INIT_DB :: db]))]
    serverChunks := [(9, encodePackets (numbered (lastSeqOf 0 (COM_INIT_DB :: db) + 1)
      [[0, 0, 0, 2, 0, 0, 0]]))] }]
  closing := []
  closingChunks := []

theorem useConversation_wellFormed (db : Bytes) : (useConversation db).WellFormed where
  exchanges_spec := fun e he ↦ by
    rw [List.mem_singleton.mp he]
    exact ⟨fun _ h ↦ absurd h List.not_mem_nil, ⟨COM_INIT_DB, db, rfl, by decide, by decide,
      by decide⟩, List.cons_ne_nil _ _, List.append_nil _, List.append_nil _⟩
  closing_spec := fun _ h ↦ absurd h List.not_mem_nil
  closing_eq := rfl

/-- A decoder that has stopped misses the statement of a conversation that follows. -/
theorem SurvivesUploads.decoding {d : ConnDecoder} {ts : List Turn} (h : d.SurvivesUploads ts) :
    (d.run (ts.flatMap Turn.calls)).1.decoding := by
  by_contra hstop
  have hmute (cs : List Chunk) : (d.run (ts.flatMap Turn.calls ++ cs)).2 =
      (d.run (ts.flatMap Turn.calls)).2 := by
    rw [run_append, run_of_not_decoding (Bool.eq_false_of_not_eq_true hstop), List.append_nil]
  have hnone := h.matched ⟨[], [], []⟩
    ⟨fun _ h ↦ absurd h List.not_mem_nil, fun _ h ↦ absurd h List.not_mem_nil, rfl⟩
    ⟨fun _ h ↦ absurd h List.not_mem_nil, fun _ h ↦ absurd h List.not_mem_nil⟩
  have huse := h.matched (useConversation []) (useConversation_wellFormed [])
    ⟨fun e he ↦ by
      rw [List.mem_singleton.mp he]
      exact ⟨by decide, by decide⟩, by decide⟩
  rw [hmute] at hnone huse
  rw [hnone] at huse
  exact absurd (List.append_cancel_left huse) (List.cons_ne_nil _ _).symm

/-- Uploads are survived if and only if no packet is beyond the limit of the decoder and every data
packet whose sequence id has come round to 0 bears a payload that does nothing as a command. -/
theorem survivesUploads_iff {d : ConnDecoder} (hd : d.Ready) {ts : List Turn}
    (hts : ∀ t ∈ ts, t.WellFormed) :
    d.SurvivesUploads ts ↔ (∀ t ∈ ts, t.WithinLimits) ∧ d.session.SparesUploads ts := by
  constructor
  · intro h
    exact turns_spared hd hts h.decoding h.ignores
  · rintro ⟨hlimits, hspares⟩
    refine ⟨ignoresUploads_of_spares hd hts hlimits hspares, fun conv hconv hconvLimits ↦ ?_⟩
    obtain ⟨hready, hsession, hout⟩ := run_turns hd hts hlimits hspares
    obtain ⟨-, -, hevents⟩ := run_converse hready hconv hconvLimits
    rw [run_append, hout, hevents, hsession]

/-- A query that the server answers with the request for a file. -/
def loadData : Bytes := COM_QUERY :: ascii "LOAD DATA LOCAL INFILE 'f' INTO TABLE t"

/-- An upload of `n` short lines. -/
def linesUpload (n : ℕ) : Turn where
  exchange := {
    silent := []
    command := loadData
    response := [0xFB :: ascii "f"]
    clientChunks := [(5, encodePackets (commandPackets [loadData]))]
    serverChunks := [(9, encodePackets (numbered 1 [0xFB :: ascii "f"]))] }
  upload := some {
    data := List.replicate n (ascii "1")
    verdict := [0, 0, 0, 2, 0, 0, 0]
    dataChunks := [(11, encodePackets (numbered 2 (List.replicate n (ascii "1") ++ [[]])))]
    verdictChunks := [(12, encodePackets
      [(seqAfter 2 (List.replicate n (ascii "1") ++ [[]]), [0, 0, 0, 2, 0, 0, 0])])] }

theorem linesUpload_wellFormed (n : ℕ) : (linesUpload n).WellFormed where
  exchange_spec := by
    have hseq : lastSeqOf 0 loadData + 1 = 1 := by decide
    refine ⟨fun _ h ↦ absurd h List.not_mem_nil,
      ⟨COM_QUERY, _, rfl, by decide, by decide, by decide⟩, List.cons_ne_nil _ _,
      List.append_nil _, ?_⟩
    rw [Exchange.replies, show (linesUpload n).exchange.command = loadData from rfl, hseq]
    exact List.append_nil _
  infile_spec := fun _ _ ↦ ⟨⟨_, rfl⟩, ⟨_, rfl⟩⟩
  upload_spec := fun u hu ↦ by
    have hseq : (linesUpload n).uploadSeq = 2 := by
      show seqAfter (lastSeqOf 0 loadData + 1) [0xFB :: ascii "f"] = 2
      decide
    obtain rfl := Option.some.inj hu
    rw [hseq]
    exact ⟨fun p hp ↦ by rw [List.eq_of_mem_replicate hp]; exact List.cons_ne_nil _ _,
      Or.inl rfl, List.append_nil _, List.append_nil _⟩

theorem survivesUploads_short : (new.run handshake).1.SurvivesUploads [linesUpload 1] ↔
    (∀ t ∈ [linesUpload 1], t.WithinLimits) ∧
      (new.run handshake).1.session.SparesUploads [linesUpload 1] :=
  survivesUploads_iff handshake_ready
    (List.forall_mem_singleton.mpr (linesUpload_wellFormed 1))

/-- The 255th data packet bears the id 0, and its line is taken for a command. -/
theorem linesUpload_disturbs : ¬(new.run handshake).1.SurvivesUploads [linesUpload 255] := by
  intro h
  obtain ⟨-, hspares, -⟩ := turns_spared handshake_ready
    (List.forall_mem_singleton.mpr (linesUpload_wellFormed 255)) h.decoding h.ignores
  have hline : ((0 : UInt8), ascii "1") ∈ numbered 2 (List.replicate 255 (ascii "1") ++ [[]]) := by
    decide
  have hseq : (linesUpload 255).uploadSeq = 2 := by decide
  have hspared := hspares _ rfl
  rw [hseq] at hspared
  rcases hspared _ hline rfl with ⟨hlong, -⟩ | ⟨hclose, -⟩
  · exact absurd hlong (by decide)
  · exact absurd hclose (by decide)

end ConnDecoder

end SqlReplay
