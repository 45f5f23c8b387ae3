import SqlReplay.Capture.Emitter

/-!
# Reading a capture back

A captured slow log is read back by `streamCapture`. `serde_json` writes a record as one line, an
object, and reads back what it wrote, except that it writes a number that is not finite as `null`,
which is no number, and that a number may come back as a neighbour of it (`reread`).

So a capture cannot be read back if one of its events has an infinite or undefined latency, and the
header parser takes `inf` and `nan` for a query time like any text that parses as `f64`. The other
thing that limits a capture is the width of a fingerprint id. There is no third (`readsBack_iff`).
-/

namespace SqlReplay

/-- An event as it is read back, if its latency is a number. -/
def Event.reread (reread : F64 → F64) (e : Event) : Event :=
  { e with origQueryTimeS := reread e.origQueryTimeS }

/-- A record as it is read back. -/
def Record.reread (reread : F64 → F64) : Record → Option Record
  | .event e => if e.origQueryTimeS.isFinite then some (.event (e.reread reread)) else none
  | r => some r

/-- What `serde_json` documents of writing and reading a record. -/
structure SerdeJson.Documented (serde : SerdeJson) (reread : F64 → F64) (r : Record) : Prop where
  newline_notMem : newline ∉ serde.toWriter r
  isUtf8 : isUtf8 (serde.toWriter r) = true
  object : ∃ body, serde.toWriter r = ch '\x7b' :: body ++ [ch '\x7d']
  fromStr : serde.fromStr (serde.toWriter r) = r.reread reread

/-! ## The lines of a file -/

/-- A line is read up to its newline. -/
theorem readUntil_append {line : Bytes} (h : newline ∉ line) (s : Bytes) :
    readUntil (line ++ newline :: s) = (line ++ [newline]) :: readUntil s := by
  induction line with
  | nil =>
    rw [List.nil_append, readUntil, if_pos rfl]
    rfl
  | cons c line ih =>
    have hc : c ≠ newline := fun heq ↦ h (heq ▸ List.mem_cons_self)
    rw [List.cons_append, readUntil, if_neg hc, ih fun hmem ↦ h (List.mem_cons_of_mem _ hmem)]
    rfl

section Lines

variable {serde : SerdeJson} {reread : F64 → F64}

theorem readUntil_linesOf {rs : List Record} (h : ∀ r ∈ rs, serde.Documented reread r) :
    readUntil (linesOf serde rs) = rs.map fun r ↦ serde.toWriter r ++ [newline] := by
  induction rs with
  | nil => rfl
  | cons r rs ih =>
    have hline := readUntil_append (h r List.mem_cons_self).newline_notMem (linesOf serde rs)
    rw [List.map_cons, ← ih fun x hx ↦ h x (List.mem_cons_of_mem _ hx), ← hline, linesOf,
      List.flatMap_cons, List.append_assoc]
    rfl

/-- The line of a record has the record as it is read back, if it can be. -/
theorem lineRecord_eq_ok {r : Record} (h : serde.Documented reread r) (idx : ℕ)
    {o : Option Record} :
    lineRecord serde (serde.toWriter r ++ [newline]) idx = .ok o ↔
      ∃ r', r.reread reread = some r' ∧ o = some r' := by
  obtain ⟨body, hobject⟩ := h.object
  have hstrip : stripLineEnding (serde.toWriter r ++ [newline]) = serde.toWriter r := by
    rw [stripLineEnding, if_pos List.getLast?_concat, List.dropLast_concat, if_neg]
    rw [hobject, List.getLast?_concat]
    decide
  have hblank : trim (serde.toWriter r) ≠ [] := by
    rw [hobject, trim_between body (by decide) (by decide) (by decide) (by decide)]
    exact List.cons_ne_nil _ _
  rw [lineRecord, hstrip, if_neg (by rw [isUtf8_concat h.isUtf8 (by decide)]; decide),
    if_neg hblank, h.fromStr]
  cases r.reread reread with
  | none => simp
  | some r' => simp [eq_comm]

/-- The records of a file are those written, as they are read back. -/
theorem records_linesOf {rs rs' : List Record} (h : ∀ r ∈ rs, serde.Documented reread r) (n : ℕ) :
    records serde ((readUntil (linesOf serde rs)).zipIdx n) = .ok rs' ↔
      rs.mapM (Record.reread reread) = some rs' := by
  rw [readUntil_linesOf h]
  induction rs generalizing n rs' with
  | nil => simp [records]
  | cons r rs ih =>
    have htail : ∀ x ∈ rs, serde.Documented reread x := fun x hx ↦ h x (List.mem_cons_of_mem _ hx)
    rw [List.map_cons, List.zipIdx_cons, records, bind_eq_ok, List.mapM_cons]
    simp only [lineRecord_eq_ok (h r List.mem_cons_self), map_eq_ok, ih htail, Option.bind_eq_bind,
      Option.bind_eq_some_iff, Option.pure_def, Option.some.injEq]
    constructor
    · rintro ⟨_, ⟨r', hr', rfl⟩, rs', hrs', rfl⟩
      exact ⟨r', hr', rs', hrs', rfl⟩
    · rintro ⟨r', hr', rs', hrs', rfl⟩
      exact ⟨_, ⟨r', hr', rfl⟩, rs', hrs', rfl⟩

end Lines

/-! ## The stream of a file -/

/-- Events are counted, whatever else the stream has seen. -/
theorem foldlM_next_events (st : StreamState) (events : List Event) :
    (events.map Record.event).foldlM StreamState.next st =
      .ok { st with eventCount := st.eventCount + events.length } := by
  induction events generalizing st with
  | nil => rfl
  | cons e events ih =>
    refine (ih { st with eventCount := st.eventCount + 1 }).trans ?_
    rw [List.length_cons, Nat.add_assoc, Nat.add_comm 1]

theorem flatMap_events (events : List Event) :
    (events.map Record.event).flatMap Record.events = events := by
  induction events with
  | nil => rfl
  | cons e events ih => rw [List.map_cons, List.flatMap_cons, ih]; rfl

/-- A header, events and a summary that counts them are a capture. -/
theorem readCapture_of_records {serde : SerdeJson} {file : Bytes} {header : Header}
    {events : List Event} {summary : Summary} (hversion : header.version = FORMAT_VERSION)
    (hcount : summary.eventCount = events.length)
    (h : records serde (readUntil file).zipIdx =
      .ok (.header header :: events.map .event ++ [.summary summary])) :
    readCapture serde file = .ok ⟨header, events, summary⟩ := by
  have hheader : StreamState.next {} (.header header) = .ok { header := some header } := by
    rw [StreamState.next, onRecord, if_neg (not_not.mpr hversion)]
    rfl
  refine readCapture_eq_ok.mpr ⟨_, ⟨some header, some summary, events.length⟩, h, ?_, ?_, ?_⟩
  · rw [List.cons_append, List.foldlM_cons, hheader]
    refine bind_eq_ok.mpr ⟨_, rfl, ?_⟩
    rw [List.foldlM_append, foldlM_next_events]
    refine bind_eq_ok.mpr ⟨_, rfl, ?_⟩
    rw [Nat.zero_add]
    rfl
  · rw [StreamState.close]
    exact if_neg (not_not.mpr hcount)
  · rw [List.cons_append, List.flatMap_cons, List.flatMap_append, flatMap_events]
    exact (List.append_nil _).symm

/-! ## Reading back what was captured -/

/-- The events of a capture are read back, and its summary, exactly if the latencies are finite. -/
theorem mapM_reread {reread : F64 → F64} {events : List Event} {summary : Summary}
    {rs : List Record} :
    (events.map Record.event ++ [Record.summary summary]).mapM (Record.reread reread) = some rs ↔
      (∀ e ∈ events, e.origQueryTimeS.isFinite = true) ∧
        rs = (events.map (Event.reread reread)).map .event ++ [.summary summary] := by
  induction events generalizing rs with
  | nil =>
    constructor
    · intro h
      exact ⟨fun e he ↦ absurd he List.not_mem_nil, (Option.some.inj h).symm⟩
    · rintro ⟨-, rfl⟩
      rfl
  | cons e events ih =>
    rw [List.map_cons, List.cons_append, List.mapM_cons, List.forall_mem_cons]
    simp only [Option.bind_eq_bind, Option.bind_eq_some_iff, Option.pure_def, Option.some.injEq, ih]
    rw [Record.reread]
    constructor
    · rintro ⟨r, hr, rs, ⟨hfinite, rfl⟩, rfl⟩
      split_ifs at hr with he
      obtain rfl := Option.some.inj hr
      exact ⟨⟨he, hfinite⟩, rfl⟩
    · rintro ⟨⟨he, hfinite⟩, rfl⟩
      exact ⟨_, if_pos he, _, ⟨hfinite, rfl⟩, rfl⟩

section ReadsBack

variable (serde : SerdeJson) (reread : F64 → F64) (crate : TimeCrate)
  (toolVersion createdAt log : Bytes) (dialectOverride : Option Bytes)

/-- A captured log can be read back: its file streams to the end, with the summary that was
returned and the events of the parser in their order; the summary counts them and their sessions,
and every event's fingerprint is in its table. -/
def ReadsBack : Prop :=
  let r := runCapture serde crate toolVersion createdAt log dialectOverride
  ∃ header events, streamCapture serde collect [] r.2 = .ok ((header, r.1), events) ∧
    events.map (fun e ↦ { e with fingerprintId := 0 }) =
      (logQueries crate log).map (fun q ↦ q.toEvent.reread reread) ∧
    r.1.eventCount = events.length ∧
    r.1.sessionCount = (events.map (·.sessionId)).toFinset.card ∧
    ∀ e ∈ events, r.1.fingerprintText e.fingerprintId = some (fingerprint e.query)

/-- A log can be captured so that it can be read back: its latencies are finite, and its
fingerprints have ids of their own. -/
structure IsCapturable : Prop where
  isFinite : ∀ q ∈ logQueries crate log, q.queryTimeS.isFinite = true
  length_le : ((logQueries crate log).map fun q ↦ fingerprint q.query).eraseDups.length ≤ 2 ^ 32

variable {reread crate log}

theorem loggedEvents_isFinite : (∀ e ∈ loggedEvents crate log, e.origQueryTimeS.isFinite = true) ↔
    ∀ q ∈ logQueries crate log, q.queryTimeS.isFinite = true := by
  simp only [loggedEvents, List.forall_mem_map]
  exact Iff.rfl

/-- The fingerprints of the events that are read back. -/
theorem fingerprintText_logged (reread : F64 → F64) {summary : Summary}
    (h : summary.fingerprints = FingerprintRegistry.table
      ((logQueries crate log).map fun q ↦ fingerprint q.query).eraseDups) :
    (∀ e ∈ (loggedEvents crate log).map (Event.reread reread),
        summary.fingerprintText e.fingerprintId = some (fingerprint e.query)) ↔
      ((logQueries crate log).map fun q ↦ fingerprint q.query).eraseDups.length ≤ 2 ^ 32 := by
  have hfps : fingerprints ((logQueries crate log).map ParsedQuery.toEvent) =
      (logQueries crate log).map fun q ↦ fingerprint q.query := by
    rw [fingerprints, List.map_map]
    rfl
  rw [← fingerprintText_iff]
  simp only [loggedEvents, List.forall_mem_map, hfps, Summary.fingerprintText, h]
  exact Iff.rfl

section Documented

variable {toolVersion createdAt dialectOverride}
  (h : ∀ r ∈ recordsWritten crate log toolVersion createdAt
    (runCapture serde crate toolVersion createdAt log dialectOverride).1, serde.Documented reread r)
include h

/-- The records of the file are those written, if the latencies are finite. -/
theorem records_runCapture (rs : List Record) :
    records serde (readUntil
        (runCapture serde crate toolVersion createdAt log dialectOverride).2).zipIdx = .ok rs ↔
      (∀ q ∈ logQueries crate log, q.queryTimeS.isFinite = true) ∧
        rs = .header ⟨FORMAT_VERSION, toolVersion, createdAt⟩ ::
          ((loggedEvents crate log).map (Event.reread reread)).map .event ++
            [.summary (runCapture serde crate toolVersion createdAt log dialectOverride).1] := by
  have hfile := (runCapture_spec crate log serde toolVersion createdAt dialectOverride).1
  rw [hfile, records_linesOf h 0, recordsWritten, List.cons_append, List.mapM_cons]
  simp only [Record.reread, Option.bind_eq_bind, Option.bind_some, Option.pure_def,
    Option.bind_eq_some_iff, Option.some.injEq, mapM_reread, loggedEvents_isFinite]
  constructor
  · rintro ⟨_, ⟨hfinite, rfl⟩, rfl⟩
    exact ⟨hfinite, rfl⟩
  · rintro ⟨hfinite, rfl⟩
    exact ⟨_, ⟨hfinite, rfl⟩, rfl⟩

/-- A capture with finite latencies can be read, and has the events of the log. -/
theorem readCapture_runCapture
    (hfinite : ∀ q ∈ logQueries crate log, q.queryTimeS.isFinite = true) :
    readCapture serde (runCapture serde crate toolVersion createdAt log dialectOverride).2 =
      .ok ⟨⟨FORMAT_VERSION, toolVersion, createdAt⟩,
        (loggedEvents crate log).map (Event.reread reread),
        (runCapture serde crate toolVersion createdAt log dialectOverride).1⟩ := by
  obtain ⟨-, hcount, -⟩ := runCapture_spec crate log serde toolVersion createdAt dialectOverride
  exact readCapture_of_records rfl (hcount.trans (List.length_map _).symm)
    ((records_runCapture serde h _).mpr ⟨hfinite, rfl⟩)

theorem isCapturable_of_readsBack
    (hback : ReadsBack serde reread crate toolVersion createdAt log dialectOverride) :
    IsCapturable crate log := by
  obtain ⟨header, events, hstream, -, -, -, hresolve⟩ := hback
  obtain ⟨-, -, -, htable⟩ := runCapture_spec crate log serde toolVersion createdAt dialectOverride
  obtain ⟨events', hread, hcollect⟩ := streamCapture_eq_ok.mp hstream
  rw [foldlM_collect, List.nil_append] at hcollect
  obtain rfl := Except.ok.inj hcollect
  obtain ⟨rs, -, hrs, -, -, hevents⟩ := readCapture_eq_ok.mp hread
  obtain ⟨hfinite, rfl⟩ := (records_runCapture serde h rs).mp hrs
  refine ⟨hfinite, (fingerprintText_logged reread htable).mp ?_⟩
  rw [List.cons_append, List.flatMap_cons, List.flatMap_append, flatMap_events] at hevents
  have hevents : events' = (loggedEvents crate log).map (Event.reread reread) :=
    hevents.trans (List.append_nil _)
  rw [← hevents]
  exact hresolve

theorem readsBack_of_isCapturable (hlog : IsCapturable crate log) :
    ReadsBack serde reread crate toolVersion createdAt log dialectOverride := by
  obtain ⟨-, hcount, hsessions, htable⟩ :=
    runCapture_spec crate log serde toolVersion createdAt dialectOverride
  have hread := readCapture_runCapture serde h hlog.isFinite
  refine ⟨_, _, streamCapture_eq_ok.mpr ⟨_, hread, foldlM_collect _ _⟩, ?_, ?_, ?_,
    (fingerprintText_logged reread htable).mpr hlog.length_le⟩
  · rw [List.nil_append, loggedEvents, List.map_map, List.map_map, List.map_map]
    rfl
  · exact hcount.trans (List.length_map _).symm
  · rw [hsessions, List.nil_append, List.map_map]
    rfl

end Documented

/-- A captured log can be read back exactly if it is capturable. -/
theorem readsBack_iff
    (h : ∀ r ∈ recordsWritten crate log toolVersion createdAt
      (runCapture serde crate toolVersion createdAt log dialectOverride).1,
      serde.Documented reread r) :
    ReadsBack serde reread crate toolVersion createdAt log dialectOverride ↔
      IsCapturable crate log :=
  ⟨isCapturable_of_readsBack serde h, readsBack_of_isCapturable serde h⟩

end ReadsBack

/-! ## Logs of one query -/

/-- A line of ASCII characters between braces is as `serde_json` documents it. -/
def isJsonLine (line : Bytes) : Bool :=
  line.all (fun c ↦ c < 0x80 && c != newline) && line.head? == some (ch '\x7b') &&
    line.tail.getLast? == some (ch '\x7d')

theorem SerdeJson.documented_of_isJsonLine {serde : SerdeJson} {reread : F64 → F64} {r : Record}
    (hline : isJsonLine (serde.toWriter r) = true)
    (hread : serde.fromStr (serde.toWriter r) = r.reread reread) : serde.Documented reread r := by
  simp only [isJsonLine, Bool.and_eq_true, List.all_eq_true, decide_eq_true_eq, bne_iff_ne,
    beq_iff_eq] at hline
  obtain ⟨⟨hbytes, hhead⟩, hlast⟩ := hline
  refine ⟨fun hmem ↦ (hbytes _ hmem).2 rfl, isUtf8_of_ascii fun c hc ↦ (hbytes c hc).1, ?_, hread⟩
  obtain ⟨rest, hrest⟩ := List.head?_eq_some_iff.mp hhead
  rw [hrest, List.tail_cons] at hlast
  obtain ⟨body, rfl⟩ := List.getLast?_eq_some_iff.mp hlast
  exact ⟨body, hrest⟩

/-- A log with one query: its query time, and its text. -/
def timedLog (queryTime query : Bytes) : Bytes :=
  ascii "# User@Host: app[app] @ web01 []  Id: 7" ++ newline ::
    (ascii "# Query_time: " ++ queryTime ++ ascii "  Lock_time: 0.0") ++ newline ::
    ascii "SET timestamp=100;" ++ newline :: query ++ [ch ';', newline]

def timedHeader : Header := ⟨1, ascii "0.3.0", []⟩

def timedEvent (queryTime : F64) (query : Bytes) : Event :=
  ⟨100000000, 7, some (ascii "app"), none, query, queryTime, 0⟩

def timedSummary : Summary := ⟨ascii "mysql", 1, 1, 0, 0, none, [⟨0, ascii "select ?"⟩]⟩

def timedHeaderLine : Bytes :=
  ascii "\x7b\"type\":\"header\",\"version\":1,\"tool_version\":\"0.3.0\",\"created_at\":\"\"\x7d"

/-- The fields of an event, with their closing brace. -/
def timedFields (queryTime query : Bytes) : Bytes :=
  ascii "\"ts_micros\":100000000,\"session_id\":7,\"user\":\"app\",\"query\":\"" ++ query ++
    ascii "\",\"orig_query_time_s\":" ++ queryTime ++ ascii ",\"fingerprint_id\":0\x7d"

def timedEventLine (queryTime query : Bytes) : Bytes :=
  ascii "\x7b\"type\":\"event\"," ++ timedFields queryTime query

def timedSummaryLine : Bytes :=
  ascii "\x7b\"type\":\"summary\",\"source_dialect\":\"mysql\",\"event_count\":1," ++
    ascii "\"session_count\":1,\"admin_commands_ignored\":0,\"server_restarts_seen\":0," ++
    ascii "\"fingerprints\":[\x7b\"id\":0,\"text\":\"select ?\"\x7d]\x7d"

def half : F64 := .nearest false 1 2

def infinite : F64 := .ofMagnitude false F64.infinityBits

def firstQuery : Bytes := ascii "SELECT 1"

def secondQuery : Bytes := ascii "SELECT 2"

/-- A query time of these logs as a number. -/
def jsonTime (queryTime : F64) : Bytes :=
  if queryTime.isFinite then ascii "0.5" else ascii "null"

/-- `serde_json` on the records of these logs. -/
def timedSerde : SerdeJson where
  toWriter r :=
    match r with
    | .header _ => timedHeaderLine
    | .event e => timedEventLine (jsonTime e.origQueryTimeS) e.query
    | .summary _ => timedSummaryLine
  fromStr line :=
    if line = timedHeaderLine then some (.header timedHeader)
    else if line = timedSummaryLine then some (.summary timedSummary)
    else if line = timedEventLine (ascii "0.5") firstQuery then
      some (.event (timedEvent half firstQuery))
    else if line = timedEventLine (ascii "0.5") secondQuery then
      some (.event (timedEvent half secondQuery))
    else none
  toVec e := ch '\x7b' :: timedFields (jsonTime e.origQueryTimeS) e.query
  fromSlice body :=
    if body = ch '\x7b' :: timedFields (ascii "0.5") firstQuery then
      some (timedEvent half firstQuery)
    else if body = ch '\x7b' :: timedFields (ascii "0.5") secondQuery then
      some (timedEvent half secondQuery)
    else none

/-- No line of these logs has a time to be parsed by the crate. -/
def noTimes : TimeCrate := ⟨fun _ ↦ none, fun _ _ _ _ _ _ ↦ none⟩

def timedCapture (queryTime query : Bytes) : Summary × Bytes :=
  runCapture timedSerde noTimes (ascii "0.3.0") [] (timedLog queryTime query) (some (ascii "mysql"))

theorem timedSummaryLine_ne : timedSummaryLine ≠ timedHeaderLine := by
  rw [timedSummaryLine, timedHeaderLine]
  repeat rw [ascii_ofList]
  decide

theorem timedEventLine_ne (queryTime query : Bytes) :
    timedEventLine queryTime query ≠ timedHeaderLine ∧
      timedEventLine queryTime query ≠ timedSummaryLine := by
  rw [timedEventLine, timedSummaryLine, timedHeaderLine]
  repeat rw [ascii_ofList]
  exact ⟨by simp [ch], by simp [ch]⟩

theorem isJsonLine_timedHeaderLine : isJsonLine timedHeaderLine = true := by
  rw [timedHeaderLine, ascii_ofList]
  decide

theorem isJsonLine_timedSummaryLine : isJsonLine timedSummaryLine = true := by
  rw [timedSummaryLine]
  repeat rw [ascii_ofList]
  decide

theorem timedSerde_header : timedSerde.Documented id (.header timedHeader) := by
  apply SerdeJson.documented_of_isJsonLine
  · simp only [timedSerde, isJsonLine_timedHeaderLine]
  · simp only [timedSerde, Record.reread, ↓reduceIte]

theorem timedSerde_summary : timedSerde.Documented id (.summary timedSummary) := by
  apply SerdeJson.documented_of_isJsonLine
  · simp only [timedSerde, isJsonLine_timedSummaryLine]
  · simp only [timedSerde, timedSummaryLine_ne, Record.reread, ↓reduceIte]

theorem isJsonLine_timedEventLine {time query : Bytes} (htime : time ∈ [ascii "0.5", ascii "null"])
    (hquery : query ∈ [firstQuery, secondQuery]) :
    isJsonLine (timedEventLine time query) = true := by
  have hall : ∀ time ∈ [ascii "0.5", ascii "null"], ∀ query ∈ [firstQuery, secondQuery],
      isJsonLine (timedEventLine time query) = true := by
    simp only [timedEventLine, timedFields, firstQuery, secondQuery]
    repeat rw [ascii_ofList]
    decide
  exact hall time htime query hquery

theorem timedEventLine_ne_half :
    timedEventLine (ascii "0.5") secondQuery ≠ timedEventLine (ascii "0.5") firstQuery ∧
      ∀ query ∈ [firstQuery, secondQuery],
        timedEventLine (ascii "null") firstQuery ≠ timedEventLine (ascii "0.5") query := by
  simp only [timedEventLine, timedFields, firstQuery, secondQuery]
  repeat rw [ascii_ofList]
  decide

theorem timedSerde_fromStr (time query : Bytes) :
    timedSerde.fromStr (timedEventLine time query) =
      if timedEventLine time query = timedEventLine (ascii "0.5") firstQuery then
        some (.event (timedEvent half firstQuery))
      else if timedEventLine time query = timedEventLine (ascii "0.5") secondQuery then
        some (.event (timedEvent half secondQuery))
      else none := by
  obtain ⟨hheader, hsummary⟩ := timedEventLine_ne time query
  simp only [timedSerde, hheader, hsummary, ↓reduceIte]

theorem half_isFinite : half.isFinite = true := by
  decide

theorem infinite_isFinite : infinite.isFinite = false := by
  decide

theorem timedSerde_half {query : Bytes} (h : query = firstQuery ∨ query = secondQuery) :
    timedSerde.Documented id (.event (timedEvent half query)) := by
  have hmem : query ∈ [firstQuery, secondQuery] := List.mem_pair.mpr h
  have hline : timedSerde.toWriter (.event (timedEvent half query)) =
      timedEventLine (ascii "0.5") query := by
    simp only [timedSerde, timedEvent, jsonTime, half_isFinite, ↓reduceIte]
  apply SerdeJson.documented_of_isJsonLine
  · rw [hline]
    exact isJsonLine_timedEventLine List.mem_cons_self hmem
  · have hreread : Record.reread id (.event (timedEvent half query)) =
        some (.event (timedEvent half query)) := if_pos half_isFinite
    rw [hline, hreread, timedSerde_fromStr]
    rcases h with rfl | rfl
    · rw [if_pos rfl]
    · rw [if_neg timedEventLine_ne_half.1, if_pos rfl]

theorem timedSerde_infinite :
    timedSerde.Documented id (.event (timedEvent infinite firstQuery)) := by
  have hline : timedSerde.toWriter (.event (timedEvent infinite firstQuery)) =
      timedEventLine (ascii "null") firstQuery := by
    simp only [timedSerde, timedEvent, jsonTime, infinite_isFinite, Bool.false_eq_true, ↓reduceIte]
  apply SerdeJson.documented_of_isJsonLine
  · rw [hline]
    exact isJsonLine_timedEventLine (List.mem_cons_of_mem _ List.mem_cons_self) List.mem_cons_self
  · have hreread : Record.reread id (.event (timedEvent infinite firstQuery)) = none := by
      simp only [Record.reread, timedEvent, infinite_isFinite, Bool.false_eq_true, ↓reduceIte]
    have hne := timedEventLine_ne_half.2
    rw [hline, hreread, timedSerde_fromStr, if_neg (hne _ List.mem_cons_self),
      if_neg (hne _ (List.mem_cons_of_mem _ List.mem_cons_self))]

/-- The records of the capture of a log with a finite query time. -/
theorem recordsWritten_half {query : Bytes} (h : query = firstQuery ∨ query = secondQuery) :
    recordsWritten noTimes (timedLog (ascii "0.5") query) (ascii "0.3.0") []
      (timedCapture (ascii "0.5") query).1 =
        [.header timedHeader, .event (timedEvent half query), .summary timedSummary] := by
  rcases h with rfl | rfl
  all_goals
    simp only [timedCapture, timedLog, firstQuery, secondQuery]
    repeat rw [ascii_ofList]
    decide +kernel

/-- The event of a capture of three records. -/
theorem loggedEvents_of_recordsWritten {crate : TimeCrate} {log toolVersion createdAt : Bytes}
    {summary summary' : Summary} {header : Header} {e : Event}
    (h : recordsWritten crate log toolVersion createdAt summary =
      [.header header, .event e, .summary summary']) : loggedEvents crate log = [e] := by
  have htail : (loggedEvents crate log).map Record.event ++ [.summary summary] =
      [.event e] ++ [.summary summary'] := (List.cons.inj h).2
  obtain ⟨e', he', he⟩ := List.map_eq_singleton_iff.mp (List.append_inj' htail rfl).1
  rw [he', Record.event.inj he]

theorem timedSerde_recordsWritten {query : Bytes} (h : query = firstQuery ∨ query = secondQuery) :
    ∀ r ∈ recordsWritten noTimes (timedLog (ascii "0.5") query) (ascii "0.3.0") []
      (timedCapture (ascii "0.5") query).1, timedSerde.Documented id r := by
  rw [recordsWritten_half h]
  intro r hr
  rcases List.mem_cons.mp hr with rfl | hr
  · exact timedSerde_header
  rcases List.mem_pair.mp hr with rfl | rfl
  · exact timedSerde_half h
  · exact timedSerde_summary

theorem loggedEvents_half {query : Bytes} (h : query = firstQuery ∨ query = secondQuery) :
    loggedEvents noTimes (timedLog (ascii "0.5") query) = [timedEvent half query] :=
  loggedEvents_of_recordsWritten (recordsWritten_half h)

theorem logQueries_half_isFinite {query : Bytes} (h : query = firstQuery ∨ query = secondQuery) :
    ∀ q ∈ logQueries noTimes (timedLog (ascii "0.5") query), q.queryTimeS.isFinite = true := by
  rw [← loggedEvents_isFinite, loggedEvents_half h]
  intro e he
  rw [List.mem_singleton.mp he]
  exact half_isFinite

/-- A log with a finite query time can be read back. -/
theorem readsBack_half : ReadsBack timedSerde id noTimes (ascii "0.3.0") []
    (timedLog (ascii "0.5") firstQuery) (some (ascii "mysql")) := by
  have hdoc := timedSerde_recordsWritten (Or.inl rfl)
  refine (readsBack_iff timedSerde _ _ _ hdoc).mpr ⟨logQueries_half_isFinite (Or.inl rfl), ?_⟩
  have hlen : (logQueries noTimes (timedLog (ascii "0.5") firstQuery)).length = 1 := by
    simpa [loggedEvents] using congrArg List.length (loggedEvents_half (Or.inl rfl))
  obtain ⟨q, hq⟩ := List.length_eq_one_iff.mp hlen
  rw [hq, List.map_singleton, List.eraseDups_cons, List.filter_nil, List.eraseDups_nil]
  exact Nat.one_le_two_pow

/-- A query time of `inf` is captured, but the capture cannot be read back. -/
theorem infinite_not_readsBack :
    (∀ r ∈ recordsWritten noTimes (timedLog (ascii "inf") firstQuery) (ascii "0.3.0") []
      (timedCapture (ascii "inf") firstQuery).1, timedSerde.Documented id r) ∧
    ¬ReadsBack timedSerde id noTimes (ascii "0.3.0") [] (timedLog (ascii "inf") firstQuery)
      (some (ascii "mysql")) := by
  have hwritten : recordsWritten noTimes (timedLog (ascii "inf") firstQuery) (ascii "0.3.0") []
      (timedCapture (ascii "inf") firstQuery).1 =
        [.header timedHeader, .event (timedEvent infinite firstQuery), .summary timedSummary] := by
    simp only [timedCapture, timedLog, firstQuery]
    repeat rw [ascii_ofList]
    decide +kernel
  have hdoc : ∀ r ∈ recordsWritten noTimes (timedLog (ascii "inf") firstQuery) (ascii "0.3.0") []
      (timedCapture (ascii "inf") firstQuery).1, timedSerde.Documented id r := by
    rw [hwritten]
    intro r hr
    rcases List.mem_cons.mp hr with rfl | hr
    · exact timedSerde_header
    rcases List.mem_pair.mp hr with rfl | rfl
    · exact timedSerde_infinite
    · exact timedSerde_summary
  refine ⟨hdoc, fun hback ↦ ?_⟩
  have hfinite := (isCapturable_of_readsBack timedSerde hdoc hback).isFinite
  have hevents := loggedEvents_of_recordsWritten hwritten
  have hinfinite := loggedEvents_isFinite.mpr hfinite (timedEvent infinite firstQuery)
    (by rw [hevents]; exact List.mem_cons_self)
  exact Bool.false_ne_true (infinite_isFinite.symm.trans hinfinite)

end SqlReplay
