import SqlReplay.Capture.JsonText
import SqlReplay.Data.FloatRange
import SqlReplay.Pcap.Scan
import SqlReplay.Pcap.Sessions
import SqlReplay.Replay.SpoolBuild

/-!
# Capturing from the wire

`run_capture_pcap` is the other source of captures. It scans a packet capture and writes what the
engine brings out in the format that slow logs are captured in, so that nothing later can tell the
two apart. Writing succeeds here, as in `runCapture`.

A captured slow log cannot always be read back, because a log may say that a query took `inf`
seconds. Latencies on the wire are measured, between times of frames, and times are integers of 64
bits: whatever the file says, a latency is finite. So a capture from the wire can always be read
back (`capturePcap_reads_back`), and behind the round trips of the wire comes that of the file: what
the clients said is what a replay reads (`dialogues_read_back`).
-/

namespace SqlReplay

/-- A latency in seconds, as `f64`. It is not negative. -/
def latencyS (micros : ℤ) : F64 := F64.ofNat micros.toNat / F64.ofNat 1000000

/-- The event of a statement; the emitter interns its fingerprint. -/
def ProtoEvent.toEvent (sessionId : ℕ) (ev : ProtoEvent) : Event where
  tsMicros := ev.tsMicros
  sessionId := sessionId
  user := ev.user
  db := ev.db
  query := ev.query
  origQueryTimeS := latencyS ev.latencyMicros
  fingerprintId := 0

/-- The counters in the summary. -/
def PcapStats.summary (s : PcapStats) : PcapSummary where
  packets := s.packets
  truncatedPackets := s.truncatedPackets
  ipFragmentsSkipped := s.ipFragmentsSkipped
  connections := s.connections
  connectionsDecoded := s.connectionsDecoded
  connectionsTlsSkipped := s.connectionsTlsSkipped
  connectionsCompressedSkipped := s.connectionsCompressedSkipped
  connectionsMidstreamSkipped := s.connectionsMidstreamSkipped
  connectionsBroken := s.connectionsBroken
  statementsExpanded := s.statementsExpanded
  statementsInexpandable := s.statementsInexpandable
  responsesMissing := s.responsesMissing
  serverVersions := s.serverVersions

/-- The summary that `run_capture_pcap` hands to the emitter, which counts. -/
def captureSummary (stats : PcapStats) (dialectOverride : Option Bytes) : Summary where
  sourceDialect := dialectOverride.getD
    (match stats.serverVersions.head? with
      | some v => ascii "pcap:" ++ v
      | none => ascii "pcap")
  eventCount := 0
  sessionCount := 0
  adminCommandsIgnored := stats.commandsIgnored
  serverRestartsSeen := 0
  pcap := some stats.summary
  fingerprints := []

/-- `run_capture_pcap`: the summary it returns, and the file it writes. -/
def runCapturePcap (serde : SerdeJson) (toolVersion createdAt path : Bytes) (port : ℕ)
    (order : PcapEngine → List FlowKey) (dialectOverride : Option Bytes)
    (reader : Except Bytes (List Reading)) : Except Bytes (Summary × Bytes) :=
  scanPcapFile path port order (fun em x ↦ .ok (em.emit serde (x.2.toEvent x.1)))
      (EventEmitter.create serde toolVersion createdAt) reader >>= fun r ↦
    .ok (r.2.finish serde (captureSummary r.1 dialectOverride))

/-! ## What is written -/

/-- The summary of some events. -/
def Summary.counting (summary : Summary) (events : List Event) : Summary :=
  { summary with
    eventCount := events.length
    sessionCount := (events.map (·.sessionId)).toFinset.card
    fingerprints := FingerprintRegistry.table (events.map fun e ↦ fingerprint e.query).eraseDups }

/-- The records of a capture of some events: the events have the ids of their fingerprints. -/
def capturedRecords (toolVersion createdAt : Bytes) (events : List Event) (summary : Summary) :
    List Record :=
  .header ⟨FORMAT_VERSION, toolVersion, createdAt⟩ ::
    (events.map fun e ↦ e.interned (fingerprints events)).map .event ++
      [.summary (summary.counting events)]

/-- What the emitter leaves behind some events. -/
theorem EventEmitter.finish_foldl_emit (serde : SerdeJson) (toolVersion createdAt : Bytes)
    (events : List Event) (summary : Summary) :
    finish serde (events.foldl (emit serde) (create serde toolVersion createdAt)) summary =
      (summary.counting events,
        linesOf serde (capturedRecords toolVersion createdAt events summary)) := by
  rw [foldl_emit, finish]
  dsimp only
  rw [CaptureWriter.write_linesOf]
  rfl

/-- What the engine brings out of some frames. -/
def emittedOf (port : ℕ) (order : PcapEngine → List FlowKey) (ps : List Packet) : Emitted :=
  let r := (PcapEngine.new port).run ps
  r.2 ++ (r.1.finish (order r.1)).2

/-- The events of some frames. -/
def wireEvents (port : ℕ) (order : PcapEngine → List FlowKey) (ps : List Packet) : List Event :=
  (emittedOf port order ps).map fun x ↦ x.2.toEvent x.1

/-- The counters at the end of some frames. -/
def wireStats (port : ℕ) (order : PcapEngine → List FlowKey) (ps : List Packet) : PcapStats :=
  let e := ((PcapEngine.new port).run ps).1
  (e.finish (order e)).1.stats

/-- The frames that are read of a file. -/
def framesOf (path : Bytes) (readings : List Reading) : List Packet :=
  Headers.packets {} (readBlocks path (2 ^ 20) readings).1

section Written

variable {serde : SerdeJson} {toolVersion createdAt path : Bytes} {port : ℕ}
  {order : PcapEngine → List FlowKey} {dialectOverride : Option Bytes}

/-- A capture comes about unless reading fails, and then holds the events of the frames. -/
theorem runCapturePcap_eq (readings : List Reading) :
    runCapturePcap serde toolVersion createdAt path port order dialectOverride (.ok readings) =
      match (readBlocks path (2 ^ 20) readings).2 with
      | some e => .error e
      | none =>
        let ps := framesOf path readings
        let summary := captureSummary (wireStats port order ps) dialectOverride
        .ok (summary.counting (wireEvents port order ps),
          linesOf serde (capturedRecords toolVersion createdAt (wireEvents port order ps)
            summary)) := by
  have hfold (em : EventEmitter) (out : Emitted) :
      out.foldlM (fun em x ↦
        (.ok (em.emit serde (x.2.toEvent x.1)) : Except Bytes EventEmitter)) em =
        .ok ((out.map fun x ↦ x.2.toEvent x.1).foldl (EventEmitter.emit serde) em) := by
    induction out generalizing em with
    | nil => rfl
    | cons x out ih => exact ih _
  rw [runCapturePcap, scanPcapFile_eq]
  dsimp only
  rw [hfold]
  cases (readBlocks path (2 ^ 20) readings).2 with
  | some e => rfl
  | none =>
    dsimp only
    rw [← EventEmitter.finish_foldl_emit, wireEvents, emittedOf, List.map_append, List.foldl_append]
    change finishScan _ order _ none _ >>= _ = _
    rw [finishScan, hfold]
    rfl

end Written

/-! ## Latencies -/

theorem asI64_spec (n : ℤ) : -2 ^ 63 ≤ asI64 n ∧ asI64 n < 2 ^ 63 := by
  have hge : -((2 ^ 64 : ℕ) / 2 : ℤ) ≤ asI64 n := Int.le_bmod (by decide)
  have hlt : asI64 n < ((2 ^ 64 : ℕ) + 1) / 2 := Int.bmod_lt (by decide)
  exact ⟨by omega, by omega⟩

/-- The times of the frames have 64 bits. -/
theorem Headers.packets_micros (h : Headers) (bs : List PcapBlock) :
    ∀ p ∈ h.packets bs, -2 ^ 63 ≤ p.tsMicros ∧ p.tsMicros < 2 ^ 63 := by
  induction bs generalizing h with
  | nil => exact fun p hp ↦ absurd hp List.not_mem_nil
  | cons b bs ih =>
    rw [packets]
    refine List.forall_mem_append.mpr ⟨?_, ih _⟩
    intro p hp
    have hp : (h.onBlock b).2 = some p := Option.mem_toList.mp hp
    cases b with
    | legacy tsSec tsUsec caplen origlen data =>
      rw [← Option.some.inj hp]
      have hsec := tsSec.toNat_lt
      have hsub := tsUsec.toNat_lt
      dsimp only [legacyMicros]
      split_ifs <;> omega
    | enhancedPacket ifId tsHigh tsLow caplen origlen data =>
      obtain ⟨iface, -, rfl⟩ := Option.map_eq_some_iff.mp hp
      dsimp only
      rw [NgInterface.micros]
      exact asI64_spec _
    | legacyHeader network nanos => exact absurd hp.symm (Option.some_ne_none p)
    | sectionHeader => exact absurd hp.symm (Option.some_ne_none p)
    | interfaceDescription linktype tsResolution ifTsoffset =>
      exact absurd hp.symm (Option.some_ne_none p)
    | other => exact absurd hp.symm (Option.some_ne_none p)

theorem latencyS_isFinite {micros : ℤ} (h : micros < 2 ^ 64) : (latencyS micros).isFinite = true :=
  F64.isFinite_ofNat_div (by omega) (by decide) (by decide)

namespace PcapEngine

theorem exists_of_mem_arrivalsOf {port : ℕ} {key : FlowKey} {ps : List Packet} {a : Arrival}
    (h : a ∈ arrivalsOf port key ps) : ∃ p ∈ ps, p.tsMicros = a.tsMicros := by
  obtain ⟨p, hp, heq⟩ := List.mem_filterMap.mp h
  obtain ⟨ka, hka, hkey⟩ := Option.bind_eq_some_iff.mp heq
  refine ⟨p, hp, ?_⟩
  rw [arrival] at hka
  split at hka
  · exact absurd hka (Option.some_ne_none ka).symm
  · obtain ⟨k, -, rfl⟩ := Option.map_eq_some_iff.mp hka
    split_ifs at hkey
    rw [← Option.some.inj hkey]

end PcapEngine

/-- The table hands out all its keys behind some frames. -/
def Enumerates (order : PcapEngine → List FlowKey) (port : ℕ) (ps : List Packet) : Prop :=
  let e := ((PcapEngine.new port).run ps).1
  ∀ key, (e.conns key).isSome → key ∈ order e

/-- Latencies on the wire are finite, whatever the times in the file. -/
theorem wireEvents_isFinite {order : PcapEngine → List FlowKey} {port : ℕ} {path : Bytes}
    {readings : List Reading} (horder : Enumerates order port (framesOf path readings)) :
    ∀ e ∈ wireEvents port order (framesOf path readings), e.origQueryTimeS.isFinite = true := by
  intro e he
  obtain ⟨x, hx, rfl⟩ := List.mem_map.mp he
  apply latencyS_isFinite
  obtain ⟨k, -, -, harrivals, a, ha, -, -, hlatency⟩ := PcapEngine.times_observed horder x hx
  obtain ⟨p, hp, hts⟩ := PcapEngine.exists_of_mem_arrivalsOf (harrivals a ha)
  have hmicros := Headers.packets_micros _ _ p hp
  rcases hlatency with ⟨-, hzero⟩ | ⟨-, b, hb, -, hlatency⟩
  · omega
  · obtain ⟨q, hq, hts'⟩ := PcapEngine.exists_of_mem_arrivalsOf (harrivals b hb)
    have hmicros' := Headers.packets_micros _ _ q hq
    omega

/-! ## Reading back -/

section ReadBack

variable {serde : SerdeJson} {reread : F64 → F64} {toolVersion createdAt path : Bytes} {port : ℕ}
  {order : PcapEngine → List FlowKey} {dialectOverride : Option Bytes} {readings : List Reading}
  {summary : Summary} {file : Bytes}

/-- The events of a capture, as they are read back. -/
def rereadEvents (reread : F64 → F64) (events : List Event) : List Event :=
  (events.map fun e ↦ e.interned (fingerprints events)).map (Event.reread reread)

/-- The events that are written are read back, if their latencies are finite. -/
theorem readCapture_linesOf {events : List Event} {counted : Summary}
    (hdoc : ∀ r ∈ capturedRecords toolVersion createdAt events counted, serde.Documented reread r)
    (hfinite : ∀ e ∈ events, e.origQueryTimeS.isFinite = true) :
    readCapture serde (linesOf serde (capturedRecords toolVersion createdAt events counted)) =
      .ok ⟨⟨FORMAT_VERSION, toolVersion, createdAt⟩, rereadEvents reread events,
        counted.counting events⟩ := by
  have hcount : (counted.counting events).eventCount = (rereadEvents reread events).length := by
    rw [rereadEvents, List.length_map, List.length_map]
    rfl
  refine readCapture_of_records rfl hcount ((records_linesOf hdoc 0).mpr ?_)
  have hevents : ((events.map fun e : Event ↦ e.interned (fingerprints events)).map Record.event ++
      [Record.summary (counted.counting events)]).mapM (Record.reread reread) =
        some ((rereadEvents reread events).map .event ++ [.summary (counted.counting events)]) :=
    mapM_reread.mpr ⟨List.forall_mem_map.mpr hfinite, rfl⟩
  rw [capturedRecords, List.cons_append, List.mapM_cons, hevents]
  rfl

/-- **A capture from the wire can be read back**, whatever the file. It has the events that the
engine brought out, in that order and with finite latencies, and the summary that was returned,
which counts them and their sessions and has the engine's counters. The fingerprints are those of
the statements as long as their ids have 32 bits. -/
theorem capturePcap_reads_back (horder : Enumerates order port (framesOf path readings))
    (hdoc : ∀ r ∈ capturedRecords toolVersion createdAt
      (wireEvents port order (framesOf path readings))
      (captureSummary (wireStats port order (framesOf path readings)) dialectOverride),
      serde.Documented reread r)
    (h : runCapturePcap serde toolVersion createdAt path port order dialectOverride (.ok readings) =
      .ok (summary, file)) :
    let ps := framesOf path readings
    ∃ c, readCapture serde file = .ok c ∧ c.summary = summary ∧
      c.events.map (fun e ↦ { e with fingerprintId := 0 }) =
        (wireEvents port order ps).map (Event.reread reread) ∧
      (∀ e ∈ wireEvents port order ps, e.origQueryTimeS.isFinite = true) ∧
      summary.eventCount = c.events.length ∧
      summary.sessionCount = (c.events.map (·.sessionId)).toFinset.card ∧
      summary.pcap = some (wireStats port order ps).summary ∧
      ((∀ e ∈ c.events, summary.fingerprintText e.fingerprintId = some (fingerprint e.query)) ↔
        (fingerprints (wireEvents port order ps)).eraseDups.length ≤ 2 ^ 32) := by
  intro ps
  rw [runCapturePcap_eq] at h
  cases hend : (readBlocks path (2 ^ 20) readings).2 with
  | some e =>
    rw [hend] at h
    exact absurd h (by simp)
  | none =>
    rw [hend] at h
    obtain ⟨rfl, rfl⟩ := Prod.mk.inj (Except.ok.inj h)
    refine ⟨_, readCapture_linesOf hdoc (wireEvents_isFinite horder), rfl, ?_,
      wireEvents_isFinite horder, ?_, ?_, rfl, ?_⟩
    · rw [rereadEvents, List.map_map, List.map_map]
      apply List.map_congr_left
      intro e he
      obtain ⟨x, -, rfl⟩ := List.mem_map.mp he
      rfl
    · dsimp only
      rw [rereadEvents, List.length_map, List.length_map]
      rfl
    · dsimp only
      rw [rereadEvents, List.map_map, List.map_map]
      rfl
    · rw [← fingerprintText_iff, rereadEvents]
      simp only [List.forall_mem_map, fingerprints]
      exact Iff.rfl

/-! ## What the clients said -/

/-- The sessions of a capture, as a replay groups its events. -/
def sessionsOf (events : List Event) : List (List Event) :=
  (events.map (·.sessionId)).eraseDups.map fun sid ↦ Spool.eventsOf sid events

/-- An event without the ids that the capture gave it. -/
def Event.anonymous (e : Event) : Event := { e with sessionId := 0, fingerprintId := 0 }

/-- The events of a dialogue, as they are read back. -/
def Dialogue.said (reread : F64 → F64) (g : Dialogue) : List Event :=
  g.events.map fun ev ↦ (ev.toEvent 0).reread reread

/-- The sessions of what the sink was handed are its sections. -/
theorem sessionsOf_rereadEvents (out : Emitted) :
    (sessionsOf (rereadEvents reread (out.map fun x ↦ x.2.toEvent x.1))).map
        (List.map Event.anonymous) =
      (sections out).map (List.map fun ev ↦ (ev.toEvent 0).reread reread) := by
  rw [rereadEvents]
  generalize fingerprints (out.map fun x ↦ x.2.toEvent x.1) = fps
  have hids : (((out.map fun x ↦ x.2.toEvent x.1).map fun e ↦ e.interned fps).map
      (Event.reread reread)).map (·.sessionId) = out.map Prod.fst := by
    rw [List.map_map, List.map_map, List.map_map]
    rfl
  have hsession (sid : ℕ) : (Spool.eventsOf sid (((out.map fun x ↦ x.2.toEvent x.1).map fun e ↦
      e.interned fps).map (Event.reread reread))).map Event.anonymous =
        (labelled out sid).map fun ev ↦ (ev.toEvent 0).reread reread := by
    rw [Spool.eventsOf, labelled, List.map_map, List.map_map, List.filter_map, List.map_map,
      List.map_map]
    rfl
  rw [sessionsOf, sections, hids]
  refine List.map_map.trans (Eq.trans ?_ List.map_map.symm)
  exact List.map_congr_left fun sid _ ↦ hsession sid

end ReadBack

/-! ## A capture of two clients -/

/-- The records of a capture can be told apart if no two events are of the same time. -/
theorem capturedRecords_toldApart (toolVersion createdAt : Bytes) {events : List Event}
    (h : (events.map (·.tsMicros)).Nodup) (summary : Summary) :
    ToldApart (capturedRecords toolVersion createdAt events summary) := by
  intro r hr r' hr' htag
  have hmem {r : Record} (hr : r ∈ capturedRecords toolVersion createdAt events summary) :
      r = .header ⟨FORMAT_VERSION, toolVersion, createdAt⟩ ∨
        r = .summary (summary.counting events) ∨
        ∃ e ∈ events, r = .event (e.interned (fingerprints events)) := by
    simp only [capturedRecords, List.cons_append, List.mem_cons, List.mem_append, List.mem_map,
      List.not_mem_nil, or_false] at hr
    rcases hr with rfl | ⟨_, ⟨e, he, rfl⟩, rfl⟩ | rfl
    · exact Or.inl rfl
    · exact Or.inr (Or.inr ⟨e, he, rfl⟩)
    · exact Or.inr (Or.inl rfl)
  rcases hmem hr with rfl | rfl | ⟨e, he, rfl⟩ <;>
    rcases hmem hr' with rfl | rfl | ⟨e', he', rfl⟩
  any_goals rfl
  any_goals exact absurd htag RecordTag.noConfusion
  -- two events of the same time are the same
  have hts : e.tsMicros = e'.tsMicros := RecordTag.event.inj htag
  rw [List.inj_on_of_nodup_map h he he' hts]

/-- The queries of two clients are captured in a legacy file, and the capture written. -/
theorem exists_sampleCapture : ∃ (readings : List Reading) (order : PcapEngine → List FlowKey)
    (serde : SerdeJson) (t : FlowKey → Transport) (summary : Summary) (file : Bytes),
    Enumerates order 3306 (framesOf [] readings) ∧
      (∀ r ∈ capturedRecords (ascii "0.3.0") [] (wireEvents 3306 order (framesOf [] readings))
        (captureSummary (wireStats 3306 order (framesOf [] readings)) none),
        serde.Documented id r) ∧
      runCapturePcap serde (ascii "0.3.0") [] [] 3306 order none (.ok readings) =
        .ok (summary, file) ∧
      (∀ key ∈ PcapEngine.sampleClients, (t key).Carries (PcapEngine.sampleDialogues key)) ∧
      (∀ key ∈ PcapEngine.sampleClients,
        PcapEngine.arrivalsOf 3306 key (framesOf [] readings) = (t key).arrivals) ∧
      ∀ key ∉ PcapEngine.sampleClients,
        PcapEngine.arrivalsOf 3306 key (framesOf [] readings) = [] := by
  obtain ⟨ps, t, hcarries, harrivals, hrest, hpackets⟩ := PcapEngine.exists_twoClients
  have hfits : ∀ p ∈ ps, LegacyFits LINKTYPE_RAW p := by
    intro p hp
    obtain ⟨hlink, hlength, hts, hlt⟩ := hpackets p hp
    exact ⟨hlink, hts, hlt.trans (by decide), hlength.trans (by decide)⟩
  let readings := (legacyFile LINKTYPE_RAW false ps).map Reading.block
  have hframes : framesOf [] readings = ps := by
    rw [framesOf, readBlocks_blocks]
    exact Headers.packets_legacyFile {} false hfits
  let order : PcapEngine → List FlowKey := fun _ ↦ PcapEngine.keysOf 3306 ps
  have horder : Enumerates order 3306 ps := PcapEngine.mem_keysOf ps
  -- no two statements are sent at the same time
  have htimes : ((wireEvents 3306 order ps).map (·.tsMicros)).Nodup := by
    obtain ⟨-, others, hperm, hnone⟩ := PcapEngine.dialogues_captured horder
      PcapEngine.sampleClients_nodup hcarries harrivals
    rw [hnone hrest, List.append_nil, PcapEngine.sampleDialogues_events] at hperm
    have hevents := (sections_flatten_perm (emittedOf 3306 order ps)).symm.trans hperm.flatten
    have hsent : ((PcapEngine.sampleSessions.filter fun events ↦
        !events.isEmpty).flatten.map ProtoEvent.tsMicros).Nodup := by
      decide
    have hmap : (wireEvents 3306 order ps).map (·.tsMicros) =
        ((emittedOf 3306 order ps).map Prod.snd).map ProtoEvent.tsMicros := by
      rw [wireEvents, List.map_map, List.map_map]
      rfl
    rw [hmap]
    exact (hevents.map _).nodup_iff.mpr hsent
  let rs := capturedRecords (ascii "0.3.0") [] (wireEvents 3306 order ps)
    (captureSummary (wireStats 3306 order ps) none)
  have hrun : runCapturePcap (jsonSerde rs) (ascii "0.3.0") [] [] 3306 order none (.ok readings) =
    _ := runCapturePcap_eq readings
  rw [readBlocks_blocks] at hrun
  refine ⟨readings, order, jsonSerde rs, t, _, _, ?_, ?_, hrun, hcarries, ?_, ?_⟩
  · rw [hframes]
    exact horder
  · rw [hframes]
    exact fun r hr ↦ jsonSerde_documented (capturedRecords_toldApart _ _ htimes _) hr
  · rw [hframes]
    exact harrivals
  · rw [hframes]
    exact hrest

/-- The capture of two clients can be read back. -/
theorem capturePcap_reads_back_sample : ∃ serde order readings summary file c,
    runCapturePcap serde (ascii "0.3.0") [] [] 3306 order none (.ok readings) =
        .ok (summary, file) ∧
      readCapture serde file = .ok c ∧ c.summary = summary := by
  obtain ⟨readings, order, serde, t, summary, file, horder, hdoc, hrun, -⟩ := exists_sampleCapture
  obtain ⟨c, hread, hsummary, -⟩ := capturePcap_reads_back horder hdoc hrun
  exact ⟨serde, order, readings, summary, file, c, hrun, hread, hsummary⟩

end SqlReplay
