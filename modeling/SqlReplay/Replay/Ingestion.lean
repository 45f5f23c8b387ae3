import SqlReplay.Capture.JsonText
import SqlReplay.Replay.Pass
import SqlReplay.Replay.SpoolBuild

/-!
# Two ways to read a capture

A pass replays sessions; where these come from is decided before it. `inMemory` reads the capture
into memory, filters its events and groups them; `spooled` builds the spool and hands every session
a cursor. The in-memory way is the reference, and the spool refines it: it can be built for the same
captures, gives the same description of the run and the same sessions, and what a session reads
through its cursor is its group (`spool_refines_inMemory`).

The spool reads the capture twice. If it changes in between, a build that succeeds has still put
complete records of what it read the second time into every region (`changed_capture`).
-/

namespace SqlReplay

/-- A callback of serde only builds what the types of an event allow: the timestamp is an `i64`, and
JSON has no number for an infinite latency. -/
structure SerdeJson.ReadsTyped (serde : SerdeJson) : Prop where
  tsMicros_le : ∀ line e, serde.fromStr line = some (.event e) → e.tsMicros ≤ i64Max
  isFinite : ∀ line e, serde.fromStr line = some (.event e) → e.origQueryTimeS.isFinite = true

/-- The record of an event can be written and read back: decoding undoes encoding if the latency is
finite, and the length prefix holds the length. -/
structure SerdeJson.Carries (serde : SerdeJson) (e : Event) : Prop where
  fromSlice_toVec : e.origQueryTimeS.isFinite = true → serde.fromSlice (serde.toVec e) = some e
  length_lt : (serde.toVec e).length < 2 ^ 32

/-- The record of an event is read back but for its latency, which is parsed again. -/
structure SerdeJson.CarriesAs (serde : SerdeJson) (reread : F64 → F64) (e : Event) : Prop where
  fromSlice_toVec : e.origQueryTimeS.isFinite = true →
    serde.fromSlice (serde.toVec e) = some (e.reread reread)
  length_lt : (serde.toVec e).length < 2 ^ 32

theorem SerdeJson.Carries.carriesAs {serde : SerdeJson} {e : Event} (h : serde.Carries e) :
    serde.CarriesAs id e := ⟨h.fromSlice_toVec, h.length_lt⟩

theorem map_reread_id (events : List Event) : events.map (Event.reread id) = events :=
  List.map_id events

/-! ## Reading a region -/

theorem leNat_u32ToLeBytes (n : UInt32) : leNat (u32ToLeBytes n) = n.toNat := by
  have h₁ : (2 : ℕ) ^ (UInt32.toNat 8 % 32) = 256 := rfl
  have h₂ : (2 : ℕ) ^ (UInt32.toNat 16 % 32) = 65536 := rfl
  have h₃ : (2 : ℕ) ^ (UInt32.toNat 24 % 32) = 16777216 := rfl
  have := n.toNat_lt
  simp only [u32ToLeBytes, leNat, UInt32.toNat_toUInt8, UInt32.toNat_shiftRight,
    Nat.shiftRight_eq_div_pow, h₁, h₂, h₃]
  omega

namespace SpoolCursor

variable {serde : SerdeJson} {reread : F64 → F64}

/-- A cursor in front of a record reads it, and moves behind it. -/
theorem nextEvent_record {c : SpoolCursor} {e : Event} {rest : Bytes}
    (he : serde.CarriesAs reread e)
    (hfinite : e.origQueryTimeS.isFinite = true)
    (hslice : IsSlice c.file c.pos (encodeRecord serde e ++ rest))
    (hstop : c.stop = c.pos + (encodeRecord serde e ++ rest).length) :
    c.nextEvent serde =
      (.ok (some (e.reread reread)), { c with pos := c.pos + (encodeRecord serde e).length }) := by
  have hlen : leNat (u32ToLeBytes (serde.toVec e).length.toUInt32) = (serde.toVec e).length := by
    rw [leNat_u32ToLeBytes]
    exact Nat.mod_eq_of_lt he.length_lt
  have hrecord := hslice.append_left
  have hbefore : readExactAt c.file 4 c.pos =
      some (u32ToLeBytes (serde.toVec e).length.toUInt32) := hrecord.append_left.readExactAt
  have hbody : readExactAt c.file (serde.toVec e).length (c.pos + 4) = some (serde.toVec e) :=
    hrecord.append_right.readExactAt
  rw [List.length_append, Spool.length_encodeRecord, recordSize] at hstop
  rw [nextEvent, if_neg (by omega), hbefore]
  dsimp only
  rw [hlen, if_neg (by omega), hbody]
  dsimp only
  rw [he.fromSlice_toVec hfinite, Spool.length_encodeRecord, recordSize, Nat.add_assoc]

theorem nextEvent_end (serde : SerdeJson) {c : SpoolCursor} (h : c.stop ≤ c.pos) :
    c.nextEvent serde = (.ok none, c) := if_pos h

/-- A cursor over records reads their events. -/
theorem readEvents_eq {events : List Event} {c : SpoolCursor}
    (hcarries : ∀ e ∈ events, serde.CarriesAs reread e)
    (hfinite : ∀ e ∈ events, e.origQueryTimeS.isFinite = true)
    (hslice : IsSlice c.file c.pos (events.flatMap (encodeRecord serde)))
    (hstop : c.stop = c.pos + (events.flatMap (encodeRecord serde)).length) :
    c.readEvents serde = .ok (events.map (Event.reread reread)) := by
  induction events generalizing c with
  | nil =>
    have hend := nextEvent_end serde hstop.le
    rw [readEvents]
    split
    · next h => rw [hend] at h; cases h
    · rfl
    · next h => rw [hend] at h; cases h
  | cons e events ih =>
    have he := nextEvent_record (hcarries e List.mem_cons_self) (hfinite e List.mem_cons_self)
      hslice hstop
    have hrest := ih (c := { c with pos := c.pos + (encodeRecord serde e).length })
      (fun x hx ↦ hcarries x (List.mem_cons_of_mem _ hx))
      (fun x hx ↦ hfinite x (List.mem_cons_of_mem _ hx)) hslice.append_right
      (by rw [hstop, List.flatMap_cons, List.length_append, Nat.add_assoc])
    rw [readEvents]
    split
    · next h => rw [he] at h; cases h
    · next h => rw [he] at h; cases h
    · next h =>
      rw [he] at h
      cases h
      rw [hrest]
      rfl

end SpoolCursor

/-! ## What a pass is given -/

/-- What a run reports about its capture. -/
structure CaptureInfo where
  file : Bytes
  dialect : Bytes
  fpTexts : UInt32 → Option Bytes
  events : ℕ
  filtered : ℕ
  sessions : ℕ
  baseTsMicros : ℤ

/-- The fingerprint texts of a summary, collected into a map. -/
def fpTexts (summary : Summary) : UInt32 → Option Bytes :=
  summary.fingerprints.foldl (fun m e ↦ Function.update m e.id (some e.text)) fun _ ↦ none

/-- What `run_replay_with_target` hands to its passes. -/
def spooled (path : Bytes) (spool : Spool) : CaptureInfo × List (SessionMeta × SpoolCursor) :=
  ({ file := path
     dialect := spool.summary.sourceDialect
     fpTexts := fpTexts spool.summary
     events := spool.eventCount
     filtered := spool.filtered
     sessions := spool.sessions.length
     baseTsMicros := spool.baseTsMicros },
    spool.sessions.map fun s ↦ (⟨s.sessionId, s.hasExecutable⟩, spool.cursor s))

/-- `group_sessions`: every session recorded in the order list has its group. -/
def groupSessions (events : List Event) : List (List Event) :=
  let g : Groups ℕ (List Event) :=
    events.foldl (Groups.gather (fun _ ↦ []) (·.sessionId) fun es e ↦ es ++ [e]) Groups.empty
  g.order.map fun sid ↦ (g.groups sid).getD []

/-- What `run_replay_in_memory_with_target` hands to its passes. -/
def inMemory (serde : SerdeJson) (path : Bytes) (filters : Filters) (allowWrites : Bool)
    (file : Bytes) : Except Bytes (CaptureInfo × List (SessionMeta × List Event)) :=
  readCapture serde file >>= fun capture ↦
    let total := capture.events.length
    let events := capture.events.filter filters.matchesEvent
    let filtered := total - events.length
    if events.isEmpty ∧ 0 < filtered then
      .error (ascii "filters excluded all " ++ decimal filtered ++ ascii " events of " ++ path ++
        ascii " " ++ emDash ++ ascii " nothing to replay")
    else
      let grouped := groupSessions events
      .ok ({ file := path
             dialect := capture.summary.sourceDialect
             fpTexts := fpTexts capture.summary
             events := total - filtered
             filtered := filtered
             sessions := grouped.length
             baseTsMicros := (events.map (·.tsMicros)).min?.getD 0 },
        grouped.map fun events ↦
          (⟨(events.head?.map (·.sessionId)).getD 0,
            events.any fun e ↦ shouldExecute e.query allowWrites⟩, events))

theorem foldl_snoc (events before : List Event) :
    events.foldl (fun es e ↦ es ++ [e]) before = before ++ events := by
  induction events generalizing before with
  | nil => rw [List.append_nil]; rfl
  | cons e events ih => rw [List.foldl_cons, ih, List.append_assoc, List.singleton_append]

/-- The groups are the sessions in the order they first appear, each with its events in the order
of the capture. -/
theorem groupSessions_eq (events : List Event) :
    groupSessions events =
      (events.map (·.sessionId)).eraseDups.map fun sid ↦ Spool.eventsOf sid events := by
  rw [groupSessions, Groups.gatherAll]
  apply List.map_congr_left
  intro sid hsid
  rw [Groups.of_groups hsid, foldl_snoc]
  rfl

/-- The pacing origin: starting from the largest timestamp or from the first one is the same. -/
theorem foldl_min_eq {ts : List ℤ} (h : ∀ t ∈ ts, t ≤ i64Max) (hne : ts ≠ []) :
    ts.foldl min i64Max = ts.min?.getD 0 := by
  obtain ⟨t, ts, rfl⟩ := List.exists_cons_of_ne_nil hne
  rw [List.foldl_cons, min_eq_right (h t List.mem_cons_self), List.min?_cons']
  rfl

theorem head_eventsOf {events : List Event} {sid : ℕ} (h : sid ∈ events.map (·.sessionId)) :
    ((Spool.eventsOf sid events).head?.map (·.sessionId)).getD 0 = sid := by
  obtain ⟨e, he, rfl⟩ := List.mem_map.mp h
  have hmem : e ∈ Spool.eventsOf e.sessionId events :=
    List.mem_filter.mpr ⟨he, decide_eq_true rfl⟩
  obtain ⟨x, xs, hxs⟩ := List.exists_cons_of_ne_nil (List.ne_nil_of_mem hmem)
  have hx : x ∈ Spool.eventsOf e.sessionId events := hxs ▸ List.mem_cons_self
  rw [hxs]
  exact of_decide_eq_true (List.mem_filter.mp hx).2

/-! ## The spool refines the in-memory way -/

section Refinement

variable {serde : SerdeJson} {reread : F64 → F64} {path : Bytes} {filters : Filters}
  {allowWrites : Bool} {first second : Bytes} {spool : Spool}

/-- A session of a spool reads the events of its second pass. -/
theorem readEvents_of_holds {a b : List Event} (h : spool.Holds serde allowWrites a b)
    (hcarries : ∀ e ∈ b, serde.CarriesAs reread e)
    (hfinite : ∀ e ∈ b, e.origQueryTimeS.isFinite = true)
    {p : SpoolSession} (hp : p ∈ spool.sessions) :
    (spool.cursor p).readEvents serde =
      .ok ((Spool.eventsOf p.sessionId b).map (Event.reread reread)) := by
  apply SpoolCursor.readEvents_eq
  · exact fun e he ↦ hcarries e (List.mem_of_mem_filter he)
  · exact fun e he ↦ hfinite e (List.mem_of_mem_filter he)
  · exact h.isSlice p hp
  · exact h.stop p hp

/-- A capture that changes between the passes: every session of a spool that was built reads the
events the second pass saw of it, in their order and each of them whole, and every one of these
belongs to such a session. A session only the second pass saw makes the build fail. -/
theorem changed_capture (serde : SerdeJson) (htyped : serde.ReadsTyped) (path : Bytes)
    (filters : Filters) (allowWrites : Bool) (first second : Bytes)
    (hcarries : ∀ b, readCapture serde second = .ok b →
      ∀ e ∈ Spool.included filters b.events, serde.Carries e) :
    (∀ spool, Spool.build serde path filters allowWrites first second = .ok spool →
      ∃ b, readCapture serde second = .ok b ∧
        (∀ p ∈ spool.sessions, (spool.cursor p).readEvents serde =
          .ok (Spool.eventsOf p.sessionId (Spool.included filters b.events))) ∧
        ∀ e ∈ Spool.included filters b.events, e.sessionId ∈ spool.sessions.map (·.sessionId)) ∧
      ∀ a b, readCapture serde first = .ok a → readCapture serde second = .ok b →
        (∃ e ∈ Spool.included filters b.events,
          e.sessionId ∉ (Spool.included filters a.events).map (·.sessionId)) →
        ∃ err, Spool.build serde path filters allowWrites first second = .error err := by
  constructor
  · intro spool hspool
    obtain ⟨a, l, ha, -, hplan, -, hbehind⟩ := Spool.build_eq_ok.mp hspool
    obtain ⟨b, hb, hagree, hholds, -, -⟩ := Spool.buildBehind_eq_ok hplan hbehind
    refine ⟨b, hb, fun p hp ↦ ?_, fun e he ↦ ?_⟩
    · have hread := readEvents_of_holds hholds (fun e he ↦ (hcarries b hb e he).carriesAs)
        (fun e he ↦ ?_) hp
      · rw [hread, map_reread_id]
      · obtain ⟨line, hline⟩ := exists_event_line hb (List.mem_of_mem_filter he)
        exact htyped.isFinite line e hline
    · rw [hholds.ids]
      exact List.mem_eraseDups.mpr (hagree.known e he)
  · rintro a b ha hb ⟨e, he, hnew⟩
    cases hbuild : Spool.build serde path filters allowWrites first second with
    | error err => exact ⟨err, rfl⟩
    | ok spool =>
      obtain ⟨a', l, ha', -, hplan, -, hbehind⟩ := Spool.build_eq_ok.mp hbuild
      obtain ⟨b', hb', hagree, -⟩ := Spool.buildBehind_eq_ok hplan hbehind
      obtain rfl := Except.ok.inj (ha.symm.trans ha')
      obtain rfl := Except.ok.inj (hb.symm.trans hb')
      exact absurd (hagree.known e he) hnew

/-- The in-memory way bails when the capture cannot be read or nothing of it is left to replay. -/
theorem inMemory_eq_ok {ref : CaptureInfo × List (SessionMeta × List Event)} {capture : Bytes} :
    inMemory serde path filters allowWrites capture = .ok ref ↔
      ∃ c, readCapture serde capture = .ok c ∧
        ¬(Spool.included filters c.events = [] ∧ c.events ≠ []) ∧
        ref =
          ({ file := path
             dialect := c.summary.sourceDialect
             fpTexts := fpTexts c.summary
             events := (Spool.included filters c.events).length
             filtered := c.events.length - (Spool.included filters c.events).length
             sessions := (groupSessions (Spool.included filters c.events)).length
             baseTsMicros := ((Spool.included filters c.events).map (·.tsMicros)).min?.getD 0 },
            (groupSessions (Spool.included filters c.events)).map fun events ↦
              (⟨(events.head?.map (·.sessionId)).getD 0,
                events.any fun e ↦ shouldExecute e.query allowWrites⟩, events)) := by
  rw [inMemory, bind_eq_ok]
  refine exists_congr fun c ↦ and_congr_right fun _ ↦ ?_
  change (if (Spool.included filters c.events).isEmpty ∧
    0 < c.events.length - (Spool.included filters c.events).length then _ else _) = _ ↔ _
  have hle : (c.events.filter filters.matchesEvent).length ≤ c.events.length :=
    List.length_filter_le _ _
  have hempty : ((Spool.included filters c.events).isEmpty = true ∧
      0 < c.events.length - (Spool.included filters c.events).length) ↔
        (Spool.included filters c.events = [] ∧ c.events ≠ []) := by
    rw [List.isEmpty_iff]
    refine and_congr_right fun h ↦ ?_
    rw [h, List.length_nil, Nat.sub_zero, List.length_pos_iff]
  rw [if_congr hempty rfl rfl, Nat.sub_sub_self hle]
  split_ifs with hnone
  · exact ⟨nofun, fun h ↦ absurd hnone h.1⟩
  · exact ⟨fun h ↦ ⟨hnone, (Except.ok.inj h).symm⟩, fun h ↦ congrArg _ h.2.symm⟩

/-- The sessions of a spool whose passes read the same are the groups. -/
theorem sessions_of_holds {events : List Event} (h : spool.Holds serde allowWrites events events)
    (hcarries : ∀ e ∈ events, serde.Carries e)
    (hfinite : ∀ e ∈ events, e.origQueryTimeS.isFinite = true) :
    (spooled path spool).2.map (fun s ↦ (s.1, s.2.readEvents serde)) =
      ((groupSessions events).map fun events ↦
        ((⟨(events.head?.map (·.sessionId)).getD 0,
          events.any fun e ↦ shouldExecute e.query allowWrites⟩ : SessionMeta), events)).map
        fun s ↦ (s.1, .ok s.2) := by
  rw [groupSessions_eq, ← h.ids, spooled, List.map_map, List.map_map, List.map_map, List.map_map]
  apply List.map_congr_left
  intro p hp
  have hmem : p.sessionId ∈ events.map (·.sessionId) := by
    rw [← List.mem_eraseDups, ← h.ids]
    exact List.mem_map_of_mem hp
  simp only [Function.comp_apply]
  rw [readEvents_of_holds h (fun e he ↦ (hcarries e he).carriesAs) hfinite hp, map_reread_id,
    head_eventsOf hmem, h.hasExecutable p hp]

/-- For a capture that does not change, the spool can be built exactly when the in-memory way does
not bail, and it describes the run and its sessions in the same way: the same ids in the order of
first appearance, the same `has_executable`, and reading a session to its end gives its group. -/
theorem spool_refines_inMemory (serde : SerdeJson) (htyped : serde.ReadsTyped) (path : Bytes)
    (filters : Filters) (allowWrites : Bool) (capture : Bytes)
    (hcarries : ∀ c, readCapture serde capture = .ok c → ∀ e ∈ c.events, serde.Carries e) :
    ((∃ spool, Spool.build serde path filters allowWrites capture capture = .ok spool) ↔
      ∃ ref, inMemory serde path filters allowWrites capture = .ok ref) ∧
    ∀ spool ref, Spool.build serde path filters allowWrites capture capture = .ok spool →
      inMemory serde path filters allowWrites capture = .ok ref →
      (spooled path spool).1 = ref.1 ∧
        (spooled path spool).2.map (fun s ↦ (s.1, s.2.readEvents serde)) =
          ref.2.map fun s ↦ (s.1, .ok s.2) := by
  refine ⟨⟨?_, ?_⟩, ?_⟩
  · rintro ⟨spool, hspool⟩
    obtain ⟨a, -, ha, hnonempty, -⟩ := Spool.build_eq_ok.mp hspool
    exact ⟨_, inMemory_eq_ok.mpr ⟨a, ha, hnonempty, rfl⟩⟩
  · rintro ⟨ref, href⟩
    obtain ⟨a, ha, hnonempty, -⟩ := inMemory_eq_ok.mp href
    obtain ⟨l, hl, hplan⟩ := Spool.exists_plan serde allowWrites
      (Spool.included filters a.events)
    have hagree : Spool.Agree serde (Spool.included filters a.events)
        (Spool.included filters a.events) := ⟨fun e he ↦ List.mem_map_of_mem he, fun _ _ ↦ rfl⟩
    obtain ⟨spool, hspool⟩ := Spool.exists_buildBehind path hplan ha hagree
    exact ⟨spool, Spool.build_eq_ok.mpr ⟨a, l, ha, hnonempty, hplan, hl, hspool⟩⟩
  · intro spool ref hspool href
    obtain ⟨a, l, ha, -, hplan, -, hbehind⟩ := Spool.build_eq_ok.mp hspool
    obtain ⟨b, hb, -, hholds, hsummary, hfiltered⟩ := Spool.buildBehind_eq_ok hplan hbehind
    obtain ⟨c, hc, -, rfl⟩ := inMemory_eq_ok.mp href
    obtain rfl := Except.ok.inj (ha.symm.trans hb)
    obtain rfl := Except.ok.inj (ha.symm.trans hc)
    have htypes (e : Event) (he : e ∈ a.events) :
        e.tsMicros ≤ i64Max ∧ e.origQueryTimeS.isFinite = true := by
      obtain ⟨line, hline⟩ := exists_event_line ha he
      exact ⟨htyped.tsMicros_le line e hline, htyped.isFinite line e hline⟩
    refine ⟨?_, ?_⟩
    · -- the description: the counts, and the earliest time as the start
      have hsessions : spool.sessions.length =
          (groupSessions (Spool.included filters a.events)).length := by
        rw [groupSessions_eq, List.length_map, ← hholds.ids, List.length_map]
      have hbase : spool.baseTsMicros =
          ((Spool.included filters a.events).map (·.tsMicros)).min?.getD 0 := by
        rw [hholds.baseTsMicros]
        split_ifs with hpos
        · apply foldl_min_eq
          · intro t ht
            obtain ⟨e, he, rfl⟩ := List.mem_map.mp ht
            exact (htypes e (List.mem_of_mem_filter he)).1
          · exact fun h ↦ hpos.ne' (by rw [← List.length_map, h, List.length_nil])
        · rw [not_lt, Nat.le_zero, List.length_eq_zero_iff] at hpos
          rw [hpos]
          rfl
      rw [spooled, hsummary, hfiltered, hholds.eventCount, hsessions, hbase]
    · exact sessions_of_holds hholds (fun e he ↦ hcarries a ha e (List.mem_of_mem_filter he))
        fun e he ↦ (htypes e (List.mem_of_mem_filter he)).2

end Refinement

/-! ## Captures of two sessions -/

/-- An event of a session, with the fingerprint of its statement. -/
def sampleEvent (session : ℕ) (tsMicros : ℤ) (query : Bytes) (fingerprintId : UInt32) : Event :=
  ⟨tsMicros, session, some (ascii "app"), none, query, half, fingerprintId⟩

/-- Two sessions, the one between two statements of the other. -/
def interleavedEvents : List Event :=
  [sampleEvent 7 1000 (ascii "SELECT 1") 0, sampleEvent 9 2000 (ascii "SELECT a") 1,
    sampleEvent 7 3000 (ascii "SELECT 3") 0]

/-- The same sessions with other statements of the same lengths, one session after the other. -/
def changedEvents : List Event :=
  [sampleEvent 7 4000 (ascii "SELECT 4") 0, sampleEvent 7 5000 (ascii "SELECT 5") 0,
    sampleEvent 9 6000 (ascii "SELECT a") 1]

def sampleHeader : Header := ⟨1, ascii "0.3.0", []⟩

def sampleSummary : Summary :=
  ⟨ascii "mysql", 3, 2, 0, 0, none, [⟨0, ascii "select ?"⟩, ⟨1, ascii "select a"⟩]⟩

/-- The records of a capture of some events. -/
def sampleRecords (events : List Event) : List Record :=
  .header sampleHeader :: events.map .event ++ [.summary sampleSummary]

/-- `serde_json` on the records of both captures. -/
def sampleSerde : SerdeJson := jsonSerde (sampleRecords (interleavedEvents ++ changedEvents))

/-- The file of a capture. -/
def sampleFile (events : List Event) : Bytes := linesOf sampleSerde (sampleRecords events)

theorem sampleRecords_toldApart :
    ToldApart (sampleRecords (interleavedEvents ++ changedEvents)) := by decide +kernel

theorem mem_sampleRecords {events : List Event} {e : Event} :
    Record.event e ∈ sampleRecords events ↔ e ∈ events := by
  simp [sampleRecords]

theorem sampleSerde_event {line : Bytes} {e : Event}
    (h : sampleSerde.fromStr line = some (.event e)) :
    e ∈ interleavedEvents ++ changedEvents ∧ e.origQueryTimeS.isFinite = true :=
  (jsonSerde_event h).imp_left mem_sampleRecords.mp

theorem sampleSerde_readsTyped : sampleSerde.ReadsTyped := by
  constructor
  · intro line e h
    have htimes : ∀ x ∈ interleavedEvents ++ changedEvents, x.tsMicros ≤ i64Max := by decide
    exact htimes e (sampleSerde_event h).1
  · intro line e h
    exact (sampleSerde_event h).2

theorem sampleSerde_carries {file : Bytes} {c : CaptureFile}
    (h : readCapture sampleSerde file = .ok c) {e : Event} (he : e ∈ c.events) :
    sampleSerde.Carries e := by
  obtain ⟨line, hline⟩ := exists_event_line h he
  have hmem := (sampleSerde_event hline).1
  constructor
  · exact jsonSerde_fromSlice sampleRecords_toldApart (mem_sampleRecords.mpr hmem)
  · have hlengths : ∀ x ∈ interleavedEvents ++ changedEvents, (jsonEvent x).length < 2 ^ 32 := by
      decide +kernel
    exact hlengths e hmem

/-- A capture of three of the events can be read. -/
theorem readCapture_sampleFile {events : List Event} (hlength : events.length = 3)
    (hsub : events ⊆ interleavedEvents ++ changedEvents) :
    readCapture sampleSerde (sampleFile events) = .ok ⟨sampleHeader, events, sampleSummary⟩ := by
  have hfinite : ∀ e ∈ events, e.origQueryTimeS.isFinite = true := by
    have hall : ∀ x ∈ interleavedEvents ++ changedEvents, x.origQueryTimeS.isFinite = true := by
      decide +kernel
    exact fun e he ↦ hall e (hsub he)
  have hdocumented : ∀ r ∈ sampleRecords events, sampleSerde.Documented id r := by
    intro r hr
    refine jsonSerde_documented sampleRecords_toldApart ?_
    simp only [sampleRecords, List.cons_append, List.mem_cons, List.mem_append, List.mem_map,
      List.not_mem_nil, or_false] at hr ⊢
    exact hr.imp_right (Or.imp_left fun ⟨e, he, heq⟩ ↦ ⟨e, by simpa using hsub he, heq⟩)
  refine readCapture_of_records rfl hlength.symm ((records_linesOf hdocumented 0).mpr ?_)
  have hevents := mapM_reread.mpr ⟨hfinite, congrArg (fun l ↦ List.map Record.event l ++
    [.summary sampleSummary]) (map_reread_id events).symm⟩
  rw [sampleRecords, List.cons_append, List.mapM_cons, hevents]
  rfl

theorem readCapture_interleaved : readCapture sampleSerde (sampleFile interleavedEvents) =
    .ok ⟨sampleHeader, interleavedEvents, sampleSummary⟩ :=
  readCapture_sampleFile rfl (List.subset_append_left _ _)

theorem readCapture_changed : readCapture sampleSerde (sampleFile changedEvents) =
    .ok ⟨sampleHeader, changedEvents, sampleSummary⟩ :=
  readCapture_sampleFile rfl (List.subset_append_right _ _)

theorem included_interleaved : Spool.included {} interleavedEvents ≠ [] := by decide

/-- The capture can be spooled, and its two sessions read their events. -/
theorem spool_refines_inMemory_sample :
    (∃ spool, Spool.build sampleSerde (ascii "c.zst") {} false (sampleFile interleavedEvents)
        (sampleFile interleavedEvents) = .ok spool) ∧
      ∀ spool ref, Spool.build sampleSerde (ascii "c.zst") {} false (sampleFile interleavedEvents)
          (sampleFile interleavedEvents) = .ok spool →
        inMemory sampleSerde (ascii "c.zst") {} false (sampleFile interleavedEvents) = .ok ref →
        (spooled (ascii "c.zst") spool).1 = ref.1 ∧
          (spooled (ascii "c.zst") spool).2.map (fun s ↦ (s.1, s.2.readEvents sampleSerde)) =
            ref.2.map fun s ↦ (s.1, .ok s.2) := by
  have h := spool_refines_inMemory sampleSerde sampleSerde_readsTyped (ascii "c.zst") {} false
    (sampleFile interleavedEvents) fun c hc e he ↦ sampleSerde_carries hc he
  refine ⟨h.1.mpr ⟨_, inMemory_eq_ok.mpr ⟨_, readCapture_interleaved, ?_, rfl⟩⟩, h.2⟩
  exact fun hnone ↦ included_interleaved hnone.1

/-- Another capture of the same sessions between the passes: each reads what the second one has of
it. -/
theorem changed_capture_sample :
    ∃ spool, Spool.build sampleSerde (ascii "c.zst") {} false (sampleFile interleavedEvents)
        (sampleFile changedEvents) = .ok spool ∧
      ∀ p ∈ spool.sessions, (spool.cursor p).readEvents sampleSerde =
        .ok (Spool.eventsOf p.sessionId changedEvents) := by
  have h := changed_capture sampleSerde sampleSerde_readsTyped (ascii "c.zst") {} false
    (sampleFile interleavedEvents) (sampleFile changedEvents) fun b hb e he ↦
      sampleSerde_carries hb (List.mem_of_mem_filter he)
  obtain ⟨l, hl, hplan⟩ := Spool.exists_plan sampleSerde false
    (Spool.included {} interleavedEvents)
  have hagree : Spool.Agree sampleSerde (Spool.included {} interleavedEvents)
      (Spool.included {} changedEvents) := ⟨by decide, by decide +kernel⟩
  obtain ⟨spool, hspool⟩ := Spool.exists_buildBehind (ascii "c.zst")
    (a := ⟨sampleHeader, interleavedEvents, sampleSummary⟩) hplan readCapture_changed hagree
  have hbuild := Spool.build_eq_ok.mpr
    ⟨_, l, readCapture_interleaved, fun hnone ↦ included_interleaved hnone.1, hplan, hl, hspool⟩
  obtain ⟨b, hb, hsessions, -⟩ := h.1 spool hbuild
  obtain rfl := Except.ok.inj (readCapture_changed.symm.trans hb)
  exact ⟨spool, hbuild, hsessions⟩

end SqlReplay
