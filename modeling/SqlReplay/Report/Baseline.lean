import SqlReplay.Capture.ReadBack
import SqlReplay.Data.Checked
import SqlReplay.Data.Extremes
import SqlReplay.Replay.Spool
import SqlReplay.Report.PassReport

/-!
# Baselines

`build_baseline` turns a capture into a report without a replay: the events are streamed once, those
that pass the filters are counted under their fingerprints, and the first and the last timestamp
give the length of the run. Its arithmetic is checked here, so that a run of it that would end in an
overflow is `none` inside the result; the length of the run is an exact fraction.

What the stream leaves behind is a function of the events (`BaselineState.Holds`), and neither the
counters nor the running extremes can go wrong, a capture counting its events in 64 bits itself. The
one operation that can is the last: two timestamps of 64 bits may lie further apart than 63 bits
reach. So a baseline is exact when no two of its events do (`baseline_exact_iff`), and a slow log
can hold two that do (`extremeLog`).
-/

namespace SqlReplay

/-! ## Rounding -/

/-- `x.round().max(0.0) as u64`. -/
def F64.roundToU64 (x : F64) : ℕ :=
  if infinityBits < x.magnitude ∨ x.isNegative then 0
  else
    let unit := 2 ^ (-x.exponent).toNat
    min ((2 * (x.significand * 2 ^ x.exponent.toNat) + unit) / (2 * unit)) (2 ^ 64 - 1)

namespace Aggregate

/-- The latency recorded with an event, in microseconds. -/
def recordedMicros (e : Event) : ℕ :=
  (e.origQueryTimeS.mul (F64.nearest false 1000000 1)).roundToU64

/-! ## Streaming -/

/-- The aggregate of a fingerprint. -/
structure BaselineAgg where
  hist : Histogram := {}
  count : ℕ := 0
  deriving DecidableEq, Repr

/-- The local variables of `build_baseline`. The aggregates are in a map sorted by id, where the
source has a hash map. -/
structure BaselineState where
  perFp : SortedMap UInt32 BaselineAgg := SortedMap.empty
  sessions : Finset ℕ := ∅
  events : ℕ := 0
  total : ℕ := 0
  minTs : ℤ := 2 ^ 63 - 1
  maxTs : ℤ := -2 ^ 63

namespace BaselineState

variable (filters : Filters)

/-- The callback, unless a counter overflows. -/
def onEvent (s : BaselineState) (e : Event) : Option BaselineState := do
  let total ← Checked.add 64 s.total 1
  if filters.matchesEvent e = false then
    some { s with total := total }
  else
    let events ← Checked.add 64 s.events 1
    let agg := (s.perFp.get? e.fingerprintId).getD {}
    let count ← Checked.add 64 agg.count 1
    some
      { perFp := s.perFp.upsert e.fingerprintId fun _ ↦
          ⟨agg.hist.saturatingRecord (max (recordedMicros e) 1), count⟩
        sessions := insert e.sessionId s.sessions
        events := events
        total := total
        minTs := min s.minTs e.tsMicros
        maxTs := max s.maxTs e.tsMicros }

end BaselineState

/-! ## The report -/

section Report

variable (serde : SerdeJson) (stats : HistogramStats ℚ) (formatTsMicros : ℤ → Bytes)
  (rawWindow : TimeWindow → Bytes) (toolVersion path : Bytes) (filters : Filters)

/-- The report of a fingerprint. -/
def baselineFingerprint (summary : Summary) (id : UInt32) (a : BaselineAgg) :
    FingerprintReport ℚ where
  id := id
  fingerprint := ((summary.fingerprints.reverse.find? (·.id == id)).map (·.text)).getD
    (ascii "<unknown fingerprint " ++ decimal id.toNat ++ ascii ">")
  count := a.count
  errors := 0
  firstError := none
  skipped := 0
  notRun := 0
  p50Us := stats.valueAtQuantile a.hist 50
  p95Us := stats.valueAtQuantile a.hist 95
  p99Us := stats.valueAtQuantile a.hist 99
  maxUs := stats.max a.hist
  meanUs := stats.mean a.hist
  checksum := none
  resultBytes := none
  sizeBuckets := []

/-- The report of what was streamed, whose timestamps lie `span` apart. -/
def baselineReport (summary : Summary) (s : BaselineState) (filtered : ℕ) (span : ℤ) :
    RunReport ℚ :=
  let wallSecs : ℚ := span / 1000000
  { tool := ascii "sql-replay"
    toolVersion := toolVersion
    captureFile := path
    captureDialect := summary.sourceDialect
    latencySource := ascii "recorded-slow-log"
    targetUrl := []
    targetServerVersion := []
    startedAt := formatTsMicros s.minTs
    endedAt := formatTsMicros s.maxTs
    wallSecs := wallSecs
    aborted := false
    aggregation := none
    flags :=
      { maxConnections := 0
        allowWrites := false
        readOnly := false
        dbOverride := none
        speed := ascii "recorded"
        checksum := false
        pool := none
        warmup := false
        filterDb := filters.db
        filterUser := filters.user
        timeWindow := filters.window.map rawWindow }
    totals :=
      { events := s.events
        sessions := s.sessions.card
        executed := s.events
        skipped := 0
        errors := 0
        notRun := 0
        connectFailures := 0
        qps := if 0 < wallSecs then s.events / wallSecs else 0
        filtered := filtered }
    saturation := ⟨0, 0, 0⟩
    pacing := none
    targetSettings := SortedMap.empty
    fingerprints := sortBy slowestFirst
      (s.perFp.entries.map fun e ↦ baselineFingerprint stats summary e.1 e.2) }

/-- `build_baseline`. An overflow is `none` in place of the report. -/
def buildBaseline (file : Bytes) : Except Bytes (Option (RunReport ℚ)) :=
  streamCapture serde (fun s e ↦ .ok (s.bind fun s ↦ s.onEvent filters e)) (some {}) file >>=
    fun r ↦
      match r.2 with
      | none => .ok none
      | some s =>
        match Checked.sub s.total s.events with
        | none => .ok none
        | some filtered =>
          if s.events = 0 then
            if 0 < filtered then
              .error (ascii "filters excluded all " ++ decimal filtered ++ ascii " events of " ++
                path ++ ascii " " ++ emDash ++ ascii " nothing to aggregate")
            else .error (path ++ ascii " contains no events")
          else
            .ok ((Checked.subI64 s.maxTs s.minTs).map fun span ↦
              baselineReport stats formatTsMicros rawWindow toolVersion path filters r.1.2 s
                filtered span)

end Report

/-! ## What the stream leaves behind -/

/-- The events that pass the filters. -/
def included (filters : Filters) (l : List Event) : List Event := l.filter filters.matchesEvent

/-- The variables after a list of events. -/
structure BaselineState.Holds (filters : Filters) (s : BaselineState) (l : List Event) : Prop where
  total : s.total = l.length
  events : s.events = (included filters l).length
  counts : (s.perFp.entries.map fun e ↦ e.2.count).sum = s.events
  minTs : s.minTs = ((included filters l).map Event.tsMicros).foldl min (2 ^ 63 - 1)
  maxTs : s.maxTs = ((included filters l).map Event.tsMicros).foldl max (-2 ^ 63)

variable {filters : Filters}

theorem included_concat (l : List Event) (e : Event) :
    included filters (l ++ [e]) =
      if filters.matchesEvent e = true then included filters l ++ [e] else included filters l := by
  unfold included
  rw [List.filter_append, List.filter_cons, List.filter_nil]
  split_ifs
  · rfl
  · exact List.append_nil _

/-- The count of a fingerprint is one of those that make up the events. -/
theorem BaselineState.Holds.count_le {s : BaselineState} {l : List Event} (h : s.Holds filters l)
    (id : UInt32) : ((s.perFp.get? id).getD {}).count ≤ s.events := by
  cases ha : s.perFp.get? id with
  | none => exact Nat.zero_le _
  | some a =>
    have hmem : a.count ∈ s.perFp.entries.map fun e ↦ e.2.count :=
      List.mem_map.mpr ⟨(id, a), SortedMap.mem_iff_get?.mpr ha, rfl⟩
    exact (List.single_le_sum (fun _ _ ↦ Nat.zero_le _) _ hmem).trans_eq h.counts

/-- One event more: no counter overflows as long as the events are fewer than `2 ^ 64`. -/
theorem BaselineState.Holds.onEvent {s : BaselineState} {l : List Event} (h : s.Holds filters l)
    (e : Event) (hl : (l ++ [e]).length < 2 ^ 64) :
    ∃ s', s.onEvent filters e = some s' ∧ s'.Holds filters (l ++ [e]) := by
  have hlen : l.length + 1 < 2 ^ 64 := by rwa [List.length_append] at hl
  have hincluded : (included filters l).length ≤ l.length := List.length_filter_le _ _
  have htotal : Checked.add 64 s.total 1 = some (l.length + 1) := by
    rw [h.total]
    exact Checked.add_of_lt hlen
  unfold BaselineState.onEvent
  rw [htotal, Option.bind_eq_bind, Option.bind_some]
  by_cases hmatch : filters.matchesEvent e = true
  · have hcount := h.count_le e.fingerprintId
    have hevents : Checked.add 64 s.events 1 = some (s.events + 1) :=
      Checked.add_of_lt (by rw [h.events]; omega)
    have hagg : Checked.add 64 ((s.perFp.get? e.fingerprintId).getD {}).count 1 =
        some (((s.perFp.get? e.fingerprintId).getD {}).count + 1) :=
      Checked.add_of_lt (by rw [h.events] at hcount; omega)
    rw [if_neg fun h ↦ Bool.false_ne_true (h.symm.trans hmatch), hevents, Option.bind_some]
    dsimp only
    rw [hagg, Option.bind_some]
    refine ⟨_, rfl, ?_, ?_, ?_, ?_, ?_⟩
    · rw [List.length_append]
      rfl
    · rw [included_concat, if_pos hmatch, List.length_append, ← h.events]
      rfl
    · -- The count under the fingerprint grows by one, and with it the sum.
      have hsum := SortedMap.sum_upsert BaselineAgg.count s.perFp e.fingerprintId fun _ ↦
        ⟨((s.perFp.get? e.fingerprintId).getD {}).hist.saturatingRecord
          (max (recordedMicros e) 1), ((s.perFp.get? e.fingerprintId).getD {}).count + 1⟩
      have hget : ((s.perFp.get? e.fingerprintId).map BaselineAgg.count).getD 0 =
          ((s.perFp.get? e.fingerprintId).getD {}).count := by
        cases s.perFp.get? e.fingerprintId <;> rfl
      rw [hget, h.counts] at hsum
      dsimp only at hsum ⊢
      omega
    · rw [included_concat, if_pos hmatch, List.map_append, List.foldl_append, ← h.minTs]
      rfl
    · rw [included_concat, if_pos hmatch, List.map_append, List.foldl_append, ← h.maxTs]
      rfl
  · rw [if_pos (Bool.eq_false_iff.mpr hmatch)]
    have hsame : included filters (l ++ [e]) = included filters l := by
      rw [included_concat, if_neg hmatch]
    refine ⟨_, rfl, ?_, ?_, h.counts, ?_, ?_⟩
    · rw [List.length_append]
      rfl
    · rw [hsame]
      exact h.events
    · rw [hsame]
      exact h.minTs
    · rw [hsame]
      exact h.maxTs

/-- A stream of fewer than `2 ^ 64` events goes through. -/
theorem stream_holds {l : List Event} (hl : l.length < 2 ^ 64) :
    ∃ s : BaselineState, s.Holds filters l ∧
      l.foldlM (fun s e ↦ (.ok (s.bind fun s ↦ s.onEvent filters e) :
        Except Bytes (Option BaselineState))) (some {}) = .ok (some s) := by
  induction l using List.reverseRecOn with
  | nil => exact ⟨{}, ⟨rfl, rfl, rfl, rfl, rfl⟩, rfl⟩
  | append_singleton l e ih =>
    have hlen : l.length < 2 ^ 64 := by
      rw [List.length_append] at hl
      omega
    obtain ⟨s, hs, hstream⟩ := ih hlen
    obtain ⟨s', hs', hholds⟩ := hs.onEvent e hl
    refine ⟨s', hholds, ?_⟩
    rw [List.foldlM_append, hstream, ← hs']
    rfl

end Aggregate

/-! ## The events of a capture -/

/-- The stream counts the events. -/
theorem eventCount_of_next {rs : List Record} {st st' : StreamState}
    (h : rs.foldlM StreamState.next st = .ok st') :
    st'.eventCount = st.eventCount + (rs.flatMap Record.events).length := by
  induction rs generalizing st with
  | nil =>
    rw [← Except.ok.inj h]
    rfl
  | cons r rs ih =>
    rw [List.foldlM_cons, bind_eq_ok] at h
    obtain ⟨st₁, hr, hrs⟩ := h
    rw [ih hrs, List.flatMap_cons, List.length_append, ← Nat.add_assoc]
    congr 1
    cases r with
    | header hd =>
      rw [StreamState.next, onRecord] at hr
      split_ifs at hr
      · cases hr
      · rw [← Except.ok.inj hr]
        rfl
    | event e =>
      rw [← Except.ok.inj hr]
      rfl
    | summary s =>
      rw [← Except.ok.inj hr]
      rfl

/-- The summary of a capture that can be read counts its events. -/
theorem eventCount_of_readCapture {serde : SerdeJson} {file : Bytes} {c : CaptureFile}
    (h : readCapture serde file = .ok c) : c.summary.eventCount = c.events.length := by
  obtain ⟨rs, st, -, hst, hclose, hevents⟩ := readCapture_eq_ok.mp h
  have hcount := eventCount_of_next hst
  unfold StreamState.close at hclose
  rw [hevents]
  cases hheader : st.header with
  | none =>
    rw [hheader] at hclose
    cases hclose
  | some header =>
    cases hsummary : st.summary with
    | none =>
      rw [hheader, hsummary] at hclose
      cases hclose
    | some summary =>
      rw [hheader, hsummary] at hclose
      dsimp only at hclose
      split_ifs at hclose with hne
      · rw [← (Prod.mk.inj (Except.ok.inj hclose)).2, not_not.mp hne, hcount]
        exact Nat.zero_add _

namespace Aggregate

/-! ## Exactness -/

variable {filters : Filters}

/-- What a baseline reports of the events that passed the filters, and counts of the others. -/
structure ExactBaseline (filters : Filters) (l : List Event) (r : RunReport ℚ) : Prop where
  /-- The run is as long as the time from the first timestamp to the last. -/
  wallSecs : ∃ first last, IsLeast {t | t ∈ (included filters l).map Event.tsMicros} first ∧
    IsGreatest {t | t ∈ (included filters l).map Event.tsMicros} last ∧ 0 ≤ last - first ∧
      r.wallSecs = ((last - first : ℤ) : ℚ) / 10 ^ 6
  events : r.totals.events = (r.fingerprints.map (·.count)).sum
  filtered : r.totals.events + r.totals.filtered = l.length

/-- No two of the events that pass the filters are `2 ^ 63` microseconds apart. -/
def SpanFits (filters : Filters) (l : List Event) : Prop :=
  ∀ e ∈ included filters l, ∀ e' ∈ included filters l, e'.tsMicros - e.tsMicros < 2 ^ 63

section

variable {serde : SerdeJson} (stats : HistogramStats ℚ) (formatTsMicros : ℤ → Bytes)
  (rawWindow : TimeWindow → Bytes) (toolVersion path : Bytes) {file : Bytes} {c : CaptureFile}

/-- Of a capture with an event that passes the filters, the report or the overflow depends on the
difference of the timestamps. -/
theorem buildBaseline_eq (hread : readCapture serde file = .ok c)
    (hcount : c.summary.eventCount < 2 ^ 64)
    (hincluded : ∃ e ∈ c.events, filters.matchesEvent e = true) :
    ∃ s : BaselineState, s.Holds filters c.events ∧
      buildBaseline serde stats formatTsMicros rawWindow toolVersion path filters file =
        .ok ((Checked.subI64 s.maxTs s.minTs).map fun span ↦
          baselineReport stats formatTsMicros rawWindow toolVersion path filters c.summary s
            (s.total - s.events) span) := by
  rw [eventCount_of_readCapture hread] at hcount
  obtain ⟨s, hs, hstream⟩ := stream_holds hcount
  refine ⟨s, hs, ?_⟩
  have hcapture := streamCapture_eq_ok.mpr ⟨c.events, hread, hstream⟩
  have hle : s.events ≤ s.total := by
    rw [hs.events, hs.total]
    exact List.length_filter_le _ _
  have hpos : s.events ≠ 0 := by
    rw [hs.events]
    obtain ⟨e, he, hmatch⟩ := hincluded
    exact (List.length_pos_of_mem (List.mem_filter.mpr ⟨he, hmatch⟩)).ne'
  unfold buildBaseline
  rw [hcapture]
  change (match Checked.sub s.total s.events with | none => _ | some filtered => _) = _
  rw [Checked.sub_of_le hle]
  exact if_neg hpos

/-- The running extremes are those of the timestamps. -/
theorem BaselineState.Holds.extremes {s : BaselineState} {l : List Event} (h : s.Holds filters l)
    (hts : ∀ e ∈ l, -2 ^ 63 ≤ e.tsMicros ∧ e.tsMicros < 2 ^ 63)
    (hincluded : ∃ e ∈ l, filters.matchesEvent e = true) :
    IsLeast {t | t ∈ (included filters l).map Event.tsMicros} s.minTs ∧
      IsGreatest {t | t ∈ (included filters l).map Event.tsMicros} s.maxTs := by
  obtain ⟨e, he, hmatch⟩ := hincluded
  have hne : (included filters l).map Event.tsMicros ≠ [] :=
    List.ne_nil_of_mem (List.mem_map_of_mem (List.mem_filter.mpr ⟨he, hmatch⟩))
  have hrange : ∀ t ∈ (included filters l).map Event.tsMicros, -2 ^ 63 ≤ t ∧ t < 2 ^ 63 := by
    intro t ht
    obtain ⟨e', he', rfl⟩ := List.mem_map.mp ht
    exact hts e' (List.mem_filter.mp he').1
  rw [h.minTs, h.maxTs]
  constructor
  · exact isLeast_foldl_min_of_le hne fun t ht ↦ Int.le_sub_one_of_lt (hrange t ht).2
  · exact isGreatest_foldl_max_of_le hne fun t ht ↦ (hrange t ht).1

/-- A baseline of an accepted capture is exact when no two of its events are too far apart, and only
then. -/
theorem baseline_exact_iff (hread : readCapture serde file = .ok c)
    (hcount : c.summary.eventCount < 2 ^ 64)
    (hts : ∀ e ∈ c.events, -2 ^ 63 ≤ e.tsMicros ∧ e.tsMicros < 2 ^ 63)
    (hincluded : ∃ e ∈ c.events, filters.matchesEvent e = true) :
    (∃ r, buildBaseline serde stats formatTsMicros rawWindow toolVersion path filters file =
        .ok (some r) ∧ ExactBaseline filters c.events r) ↔ SpanFits filters c.events := by
  obtain ⟨s, hs, hbuild⟩ := buildBaseline_eq stats formatTsMicros rawWindow toolVersion path hread
    hcount hincluded
  obtain ⟨hleast, hgreatest⟩ := hs.extremes hts hincluded
  rw [hbuild]
  constructor
  · -- the subtraction has gone through, and the extremes are further apart than any two events
    rintro ⟨r, hr, -⟩ e he e' he'
    have hspan : s.maxTs - s.minTs < 2 ^ 63 := by
      cases hsub : Checked.subI64 s.maxTs s.minTs with
      | none =>
        rw [hsub] at hr
        cases hr
      | some span =>
        unfold Checked.subI64 at hsub
        split_ifs at hsub with hfits
        exact hfits.2
    have hlow : s.minTs ≤ e.tsMicros := hleast.2 (List.mem_map_of_mem he)
    have hhigh : e'.tsMicros ≤ s.maxTs := hgreatest.2 (List.mem_map_of_mem he')
    omega
  · -- the extremes are times of events
    intro hfits
    obtain ⟨e, he, hfirst⟩ := List.mem_map.mp hleast.1
    obtain ⟨e', he', hlast⟩ := List.mem_map.mp hgreatest.1
    have hspan := hfits e he e' he'
    have hnonneg : 0 ≤ s.maxTs - s.minTs := sub_nonneg.mpr (hleast.2 hgreatest.1)
    have hsub : Checked.subI64 s.maxTs s.minTs = some (s.maxTs - s.minTs) :=
      if_pos ⟨by omega, by omega⟩
    rw [hsub]
    refine ⟨_, rfl, ⟨s.minTs, s.maxTs, hleast, hgreatest, hnonneg, ?_⟩, ?_, ?_⟩
    · change ((s.maxTs - s.minTs : ℤ) : ℚ) / 1000000 = _
      norm_num
    · -- Ranking permutes the counts.
      have hperm := (sortBy_perm slowestFirst (s.perFp.entries.map fun e ↦
        baselineFingerprint stats c.summary e.1 e.2)).map (·.count)
      change s.events = ((sortBy slowestFirst _).map _).sum
      rw [hperm.sum_eq, List.map_map, ← hs.counts]
      rfl
    · change s.events + (s.total - s.events) = c.events.length
      have hle : s.events ≤ s.total := by
        rw [hs.events, hs.total]
        exact List.length_filter_le _ _
      rw [Nat.add_sub_cancel' hle, hs.total]

end

/-! ## A log at both ends of time -/

/-- An entry of a slow log with a timestamp. -/
def stampedEntry (timestamp query : Bytes) : Bytes :=
  ascii "# User@Host: app[app] @ web01 []  Id: 7" ++ newline ::
    ascii "# Query_time: 0.5  Lock_time: 0.0" ++ newline ::
    (ascii "SET timestamp=" ++ timestamp ++ [ch ';']) ++ newline :: query ++ [ch ';', newline]

/-- Timestamps beyond both ends of the range, where the parser keeps to the ends. -/
def extremeLog : Bytes :=
  stampedEntry (ascii "1e30") firstQuery ++ stampedEntry (ascii "-1e30") secondQuery

def stampedEvent (tsMicros : ℤ) (query : Bytes) : Event :=
  ⟨tsMicros, 7, some (ascii "app"), none, query, half, 0⟩

def latestEvent : Event := stampedEvent (2 ^ 63 - 1) firstQuery

def earliestEvent : Event := stampedEvent (-2 ^ 63) secondQuery

def extremeSummary : Summary := ⟨ascii "mysql", 2, 1, 0, 0, none, [⟨0, ascii "select ?"⟩]⟩

/-- The fields of an event, with their closing brace. -/
def stampedFields (e : Event) : Bytes :=
  ascii "\"ts_micros\":" ++
    (if 0 ≤ e.tsMicros then decimal e.tsMicros.toNat else ch '-' :: decimal (-e.tsMicros).toNat) ++
    ascii ",\"session_id\":7,\"user\":\"app\",\"query\":\"" ++ e.query ++
    ascii "\",\"orig_query_time_s\":0.5,\"fingerprint_id\":0\x7d"

def stampedEventLine (e : Event) : Bytes := ascii "\x7b\"type\":\"event\"," ++ stampedFields e

def extremeSummaryLine : Bytes :=
  ascii "\x7b\"type\":\"summary\",\"source_dialect\":\"mysql\",\"event_count\":2," ++
    ascii "\"session_count\":1,\"admin_commands_ignored\":0,\"server_restarts_seen\":0," ++
    ascii "\"fingerprints\":[\x7b\"id\":0,\"text\":\"select ?\"\x7d]\x7d"

/-- `serde_json` on the records of this log. -/
def extremeSerde : SerdeJson where
  toWriter r :=
    match r with
    | .header _ => timedHeaderLine
    | .event e => stampedEventLine e
    | .summary _ => extremeSummaryLine
  fromStr line :=
    if line = timedHeaderLine then some (.header timedHeader)
    else if line = extremeSummaryLine then some (.summary extremeSummary)
    else if line = stampedEventLine latestEvent then some (.event latestEvent)
    else if line = stampedEventLine earliestEvent then some (.event earliestEvent)
    else none
  toVec e := ch '\x7b' :: stampedFields e
  fromSlice body :=
    if body = ch '\x7b' :: stampedFields latestEvent then some latestEvent
    else if body = ch '\x7b' :: stampedFields earliestEvent then some earliestEvent
    else none

/-- The capture of the log. -/
def extremeCapture : Summary × Bytes :=
  runCapture extremeSerde noTimes (ascii "0.3.0") [] extremeLog (some (ascii "mysql"))

/-- What the parser makes of the log. -/
theorem logQueries_extremeLog :
    logQueries noTimes extremeLog =
        [⟨2 ^ 63 - 1, 7, some (ascii "app"), none, firstQuery, half⟩,
          ⟨-2 ^ 63, 7, some (ascii "app"), none, secondQuery, half⟩] ∧
      (SlowLogParser.pushLines {} noTimes (logLines extremeLog)).1.takeQuery.1.stats = {} := by
  simp only [extremeLog, stampedEntry, firstQuery, secondQuery]
  repeat rw [ascii_ofList]
  decide +kernel

theorem fingerprint_extremeLog :
    fingerprint firstQuery = ascii "select ?" ∧ fingerprint secondQuery = ascii "select ?" := by
  rw [firstQuery, secondQuery]
  repeat rw [ascii_ofList]
  decide +kernel

theorem loggedEvents_extremeLog :
    loggedEvents noTimes extremeLog = [latestEvent, earliestEvent] := by
  obtain ⟨hfirst, hsecond⟩ := fingerprint_extremeLog
  simp only [loggedEvents, logQueries_extremeLog.1, List.map_cons, List.map_nil, fingerprints,
    ParsedQuery.toEvent, Event.interned, hfirst, hsecond]
  rfl

theorem summary_extremeCapture : extremeCapture.1 = extremeSummary := by
  obtain ⟨-, hcount, hsessions, htable⟩ := runCapture_spec noTimes extremeLog extremeSerde
    (ascii "0.3.0") [] (some (ascii "mysql"))
  obtain ⟨hdialect, hadmin, hrestarts, hpcap⟩ := runCapture_stats noTimes extremeLog extremeSerde
    (ascii "0.3.0") [] (some (ascii "mysql"))
  have hext (s : Summary) (hdialect : s.sourceDialect = ascii "mysql") (hevents : s.eventCount = 2)
      (hsessions : s.sessionCount = 1) (hadmin : s.adminCommandsIgnored = 0)
      (hrestarts : s.serverRestartsSeen = 0) (hpcap : s.pcap = none)
      (htable : s.fingerprints = [⟨0, ascii "select ?"⟩]) : s = extremeSummary := by
    cases s
    subst hdialect hevents hsessions hadmin hrestarts hpcap htable
    rfl
  refine hext _ hdialect ?_ ?_ ?_ ?_ hpcap ?_
  · refine hcount.trans ?_
    rw [loggedEvents_extremeLog]
    rfl
  · refine hsessions.trans ?_
    rw [loggedEvents_extremeLog]
    decide
  · rw [extremeCapture, hadmin, logQueries_extremeLog.2]
  · rw [extremeCapture, hrestarts, logQueries_extremeLog.2]
  · refine htable.trans ?_
    obtain ⟨hfirst, hsecond⟩ := fingerprint_extremeLog
    rw [logQueries_extremeLog.1, List.map_cons, List.map_singleton, hfirst, hsecond]
    rfl

/-! ### The lines of its capture -/

theorem isJsonLine_extremeSummaryLine : isJsonLine extremeSummaryLine = true := by
  rw [extremeSummaryLine]
  repeat rw [ascii_ofList]
  decide

theorem isJsonLine_stampedEventLine :
    ∀ e ∈ [latestEvent, earliestEvent], isJsonLine (stampedEventLine e) = true := by
  simp only [stampedEventLine, stampedFields]
  repeat rw [ascii_ofList]
  decide

theorem extremeSummaryLine_ne : extremeSummaryLine ≠ timedHeaderLine := by
  rw [extremeSummaryLine, timedHeaderLine]
  repeat rw [ascii_ofList]
  decide

theorem stampedEventLine_ne (e : Event) :
    stampedEventLine e ≠ timedHeaderLine ∧ stampedEventLine e ≠ extremeSummaryLine := by
  rw [stampedEventLine, extremeSummaryLine, timedHeaderLine]
  repeat rw [ascii_ofList]
  exact ⟨by simp [ch], by simp [ch]⟩

theorem stampedEventLine_earliestEvent_ne :
    stampedEventLine earliestEvent ≠ stampedEventLine latestEvent := by
  simp only [stampedEventLine, stampedFields]
  repeat rw [ascii_ofList]
  decide

theorem extremeSerde_header : extremeSerde.Documented id (.header timedHeader) := by
  apply SerdeJson.documented_of_isJsonLine
  · simp only [extremeSerde, isJsonLine_timedHeaderLine]
  · simp only [extremeSerde, Record.reread, ↓reduceIte]

theorem extremeSerde_summary : extremeSerde.Documented id (.summary extremeSummary) := by
  apply SerdeJson.documented_of_isJsonLine
  · simp only [extremeSerde, isJsonLine_extremeSummaryLine]
  · simp only [extremeSerde, extremeSummaryLine_ne, Record.reread, ↓reduceIte]

theorem extremeSerde_event {e : Event} (h : e ∈ [latestEvent, earliestEvent]) :
    extremeSerde.Documented id (.event e) := by
  obtain ⟨hheader, hsummary⟩ := stampedEventLine_ne e
  apply SerdeJson.documented_of_isJsonLine
  · exact isJsonLine_stampedEventLine e h
  · have hfinite : e.origQueryTimeS.isFinite = true := by
      rcases List.mem_pair.mp h with rfl | rfl <;> exact half_isFinite
    have hreread : Record.reread id (.event e) = some (.event e) := if_pos hfinite
    rw [hreread]
    simp only [extremeSerde, hheader, hsummary, ↓reduceIte]
    rcases List.mem_pair.mp h with rfl | rfl
    · rw [if_pos rfl]
    · rw [if_neg stampedEventLine_earliestEvent_ne, if_pos rfl]

/-- The file of this log can be read, with both events. -/
theorem readCapture_extremeCapture : readCapture extremeSerde extremeCapture.2 =
    .ok ⟨timedHeader, [latestEvent, earliestEvent], extremeSummary⟩ := by
  have hdocumented : ∀ r ∈ recordsWritten noTimes extremeLog (ascii "0.3.0") [] extremeCapture.1,
      extremeSerde.Documented id r := by
    rw [recordsWritten, loggedEvents_extremeLog, summary_extremeCapture]
    intro r hr
    rcases List.mem_cons.mp hr with rfl | hr
    · exact extremeSerde_header
    rcases List.mem_cons.mp hr with rfl | hr
    · exact extremeSerde_event List.mem_cons_self
    rcases List.mem_pair.mp hr with rfl | rfl
    · exact extremeSerde_event (List.mem_cons_of_mem _ List.mem_cons_self)
    · exact extremeSerde_summary
  have hfinite : ∀ q ∈ logQueries noTimes extremeLog, q.queryTimeS.isFinite = true := by
    rw [logQueries_extremeLog.1]
    exact List.forall_mem_cons.mpr ⟨half_isFinite, List.forall_mem_singleton.mpr half_isFinite⟩
  have hread := readCapture_runCapture extremeSerde hdocumented hfinite
  have hsummary := summary_extremeCapture
  unfold extremeCapture at hsummary ⊢
  rw [hread, hsummary, loggedEvents_extremeLog]
  rfl

/-- The capture of a slow log whose baseline overflows. -/
theorem extremeCapture_overflows :
    readCapture extremeSerde extremeCapture.2 =
        .ok ⟨timedHeader, [latestEvent, earliestEvent], extremeSummary⟩ ∧
      (∃ e ∈ [latestEvent, earliestEvent], Filters.matchesEvent {} e = true) ∧
      ¬∃ r, buildBaseline extremeSerde ⟨fun _ _ ↦ 0, fun _ ↦ 0, fun _ ↦ 0⟩ (fun _ ↦ []) (fun _ ↦ [])
          [] [] {} extremeCapture.2 = .ok (some r) ∧
        ExactBaseline {} [latestEvent, earliestEvent] r := by
  have hread := readCapture_extremeCapture
  have hincluded : ∃ e ∈ [latestEvent, earliestEvent], Filters.matchesEvent {} e = true :=
    ⟨latestEvent, List.mem_cons_self, rfl⟩
  refine ⟨hread, hincluded, ?_⟩
  rintro ⟨r, hr, -⟩
  obtain ⟨s, hs, hbuild⟩ := buildBaseline_eq ⟨fun _ _ ↦ 0, fun _ ↦ 0, fun _ ↦ 0⟩ (fun _ ↦ [])
    (fun _ ↦ []) [] [] hread (by decide) hincluded
  rw [hbuild, hs.minTs, hs.maxTs] at hr
  cases hr

/-- Of the same capture, from the epoch on, the baseline is exact. -/
theorem baseline_exact_sinceEpoch :
    ∃ r, buildBaseline extremeSerde ⟨fun _ _ ↦ 0, fun _ ↦ 0, fun _ ↦ 0⟩ (fun _ ↦ [])
      (fun _ ↦ []) [] []
        { window := some ⟨some 0, none⟩ } extremeCapture.2 = .ok (some r) ∧
      ExactBaseline { window := some ⟨some 0, none⟩ } [latestEvent, earliestEvent] r := by
  have hts : ∀ e ∈ [latestEvent, earliestEvent], -2 ^ 63 ≤ e.tsMicros ∧ e.tsMicros < 2 ^ 63 := by
    decide
  refine (baseline_exact_iff _ _ _ _ _ readCapture_extremeCapture (by decide) hts
    ⟨latestEvent, List.mem_cons_self, rfl⟩).mpr ?_
  have hone : included { window := some ⟨some 0, none⟩ } [latestEvent, earliestEvent] =
      [latestEvent] := rfl
  intro e he e' he'
  rw [hone, List.mem_singleton] at he he'
  rw [he, he', sub_self]
  decide

end Aggregate

end SqlReplay
