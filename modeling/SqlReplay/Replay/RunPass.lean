import Mathlib.Algebra.Order.Field.Rat
import SqlReplay.Replay.Ingestion
import SqlReplay.Replay.Termination
import SqlReplay.Report.PassReport
import SqlReplay.Report.RedactUrl
import SqlReplay.Sql.Nondeterministic

/-!
# The report of a pass

`run_pass` spawns the sessions, joins them, drains the pool and makes a report of what the metrics
have counted. Its parts are read at different moments, but behind the join nothing is recorded any
more, so they are of one state. What a pass measures beside its metrics (`Measured`: the clock, the
sampler of the semaphore and the pacer) is not determined by the sessions and may be anything here.

The report adds up (`report_adds_up`): its totals are the events it was given, they are the sums of
its fingerprints, and each fingerprint has the events of the capture that have it.
-/

namespace SqlReplay.Aggregate

open Program Replay

/-! ## What a run is given -/

/-- The text that a fingerprint is reported with. -/
def fingerprintText (cap : CaptureInfo) (id : UInt32) : Bytes :=
  (cap.fpTexts id).getD (ascii "<unknown fingerprint " ++ decimal id.toNat ++ ascii ">")

/-- `TargetInfo`. -/
structure TargetInfo where
  serverVersion : Bytes
  settings : SortedMap Label Bytes

/-- The options of a run: those that the sessions read, and those that only the report and the loop
over the passes do. -/
structure RunOptions where
  pass : ReplayOptions
  url : Bytes
  readOnly : Bool
  /-- `Speed::label`. -/
  speed : Bytes
  warmup : Bool
  repeats : ℕ
  filters : Filters
  /-- The time window as it was given. -/
  window : Option Bytes

/-- What the report takes from elsewhere: the hash, the histograms, and the version of the tool. -/
structure Toolbox (F : Type) where
  xxh3 : Bytes → UInt64
  stats : HistogramStats F
  toolVersion : Bytes

/-- What a pass measures beside its metrics. -/
structure Measured (F : Type) where
  startedAt : Bytes
  endedAt : Bytes
  wallSecs : F
  samples : ℕ
  hits : ℕ
  pacing : Option (PacingReport F)

section

variable {F : Type} [Field F] [LinearOrder F] (tools : Toolbox F) (cap : CaptureInfo)
  (options : RunOptions) (info : TargetInfo)

/-! ## The report -/

def reportTotals (wallSecs : F) (m : Metrics) : Totals F where
  events := cap.events
  sessions := cap.sessions
  executed := m.executed
  skipped := m.skipped
  errors := m.errors
  notRun := m.notRun
  connectFailures := m.connectFailures
  qps := if 0 < wallSecs then m.executed / wallSecs else 0
  filtered := cap.filtered

def reportFlags : ReportFlags where
  maxConnections := options.pass.maxConnections
  allowWrites := options.pass.allowWrites
  readOnly := options.readOnly
  dbOverride := options.pass.dbOverride
  speed := options.speed
  checksum := options.pass.checksum
  pool := options.pass.pool
  warmup := options.warmup
  filterDb := options.filters.db
  filterUser := options.filters.user
  timeWindow := options.window

/-- The report that `run_pass` returns, of the metrics at its end and their map of aggregates as it
hands out its entries. -/
def passReport (w : Measured F) (aborted : Bool) (m : Metrics) (perFp : List (UInt32 × FpAgg)) :
    RunReport F where
  tool := ascii "sql-replay"
  toolVersion := tools.toolVersion
  captureFile := cap.file
  captureDialect := cap.dialect
  latencySource := ascii "replayed"
  targetUrl := redactUrl options.url
  targetServerVersion := info.serverVersion
  startedAt := w.startedAt
  endedAt := w.endedAt
  wallSecs := w.wallSecs
  aborted := aborted
  aggregation := none
  flags := reportFlags options
  totals := reportTotals cap w.wallSecs m
  saturation :=
    { samples := w.samples
      saturatedSamples := w.hits
      saturatedPct := if 0 < w.samples then w.hits * 100 / w.samples else 0 }
  pacing := w.pacing
  targetSettings := info.settings
  fingerprints := reportFingerprints tools.stats tools.xxh3 isNondeterministic cap.fpTexts perFp

end

/-- The entries of a map, each once. -/
structure ListsMap {α β : Type} (entries : List (α × β)) (m : α → Option β) : Prop where
  nodup : (entries.map Prod.fst).Nodup
  mem_iff : ∀ a b, (a, b) ∈ entries ↔ m a = some b

/-- A run of `run_pass`: the flag before it and behind it, and the report. The flag is read for the
report behind the last session. -/
def RunsPass {F : Type} [Field F] [LinearOrder F] (tools : Toolbox F) (cap : CaptureInfo)
    (options : RunOptions) (info : TargetInfo) (T : TargetDb) {n : ℕ}
    (sessions : Fin n → ReplaySession options.pass) (before : Bool) (r : RunReport F)
    (after : Bool) : Prop :=
  ∃ (c : Pass n) (w : Measured F) (perFp : List (UInt32 × FpAgg)),
    Tasks.Reachable (PassState.Responds options.pass T) PassState.Flips
      (Pass.new options.pass before sessions) c ∧
    c.Finished ∧ ListsMap perFp c.shared.metrics.perFp ∧
    c.shared.shutdown ≤ r.aborted ∧ r.aborted ≤ after ∧
    r = passReport tools cap options info w r.aborted c.shared.metrics perFp

/-! ## The metrics as calls -/

/-- The call that records an operation. -/
def recordCall? : Op → Option RecordCall
  | .recordOk fp micros outcome => some (.ok fp micros outcome)
  | .recordErr fp msg => some (.err fp msg)
  | .recordSkip fp => some (.skip fp)
  | .recordNotRun fp => some (.notRun fp)
  | _ => none

/-- Metrics of a pass in which every connect succeeded. -/
def forgetFailures (m : Metrics) : Metrics := { m with connectFailures := 0 }

theorem forgetFailures_tally (m : Metrics) (e : (op : Op) × op.Res) :
    forgetFailures (m.tally e) =
      (recordCall? e.1).elim (forgetFailures m) (forgetFailures m).call := by
  obtain ⟨op, r⟩ := e
  cases op with
  | _ => rfl

theorem forgetFailures_foldl (t : Trace Op.Res) (m : Metrics) :
    forgetFailures (t.foldl Metrics.tally m) =
      (t.filterMap fun e ↦ recordCall? e.1).foldl Metrics.call (forgetFailures m) := by
  induction t generalizing m with
  | nil => rfl
  | cons e t ih =>
    rw [List.foldl_cons, ih, forgetFailures_tally, List.filterMap_cons]
    rcases recordCall? e.1 with _ | c <;> rfl

variable {n : ℕ} {c : Pass n}

/-- A fingerprint has as many calls as it counts. -/
theorem totalOf_calls (l : List RecordCall) (fp : UInt32) :
    (Metrics.calls l).totalOf fp = (l.map RecordCall.fp).count fp := by
  induction l using List.reverseRecOn with
  | nil => rfl
  | append_singleton l call ih =>
    have hone : [call.fp].count fp = if call.fp = fp then 1 else 0 := by
      rw [List.count_singleton]
      exact if_congr beq_iff_eq rfl rfl
    rw [Metrics.calls_concat, List.map_append, List.count_append, List.map_singleton, hone, ← ih]
    cases call with
    | ok fp' micros outcome => exact Metrics.totalOf_recordOk _ fp' micros outcome fp
    | err fp' msg => exact Metrics.totalOf_recordErr _ fp' msg fp
    | skip fp' => exact Metrics.totalOf_recordSkip _ fp' fp
    | notRun fp' => exact Metrics.totalOf_recordNotRun _ fp' fp

/-- But for the connects that failed, the metrics of a pass are those of the calls on its log. -/
theorem exists_calls {o : ReplayOptions} {T : TargetDb} {sessions : Fin n → ReplaySession o}
    (h : Pass.Reaches o T sessions c) : ∃ l, forgetFailures c.shared.metrics = Metrics.calls l := by
  rw [h.metrics, forgetFailures_foldl]
  exact ⟨_, rfl⟩

/-! ## Sums over the fingerprints -/

variable {F : Type} [Field F] [LinearOrder F] {tools : Toolbox F} {cap : CaptureInfo}
  {options : RunOptions} {info : TargetInfo} {T : TargetDb}
  {sessions : Fin n → ReplaySession options.pass} {before after : Bool} {r : RunReport F}
  {m : Metrics} {perFp : List (UInt32 × FpAgg)}

/-- The aggregates listed have, together, what the global counter has. -/
theorem sum_counter (hlists : ListsMap perFp m.perFp) {l : List RecordCall}
    (hcalls : forgetFailures m = Metrics.calls l) (k : Metrics.Counter) :
    (perFp.map fun e ↦ e.2.counter k).sum = m.counter k := by
  have hkeys : ∀ call ∈ l, call.fp ∈ (perFp.map Prod.fst).toFinset := by
    intro call hcall
    have hsome : ((Metrics.calls l).perFp call.fp).isSome :=
      (Metrics.isSome_perFp_calls l call.fp).mpr (List.mem_toFinset.mpr (List.mem_map_of_mem hcall))
    rw [← hcalls] at hsome
    obtain ⟨a, ha⟩ := Option.isSome_iff_exists.mp hsome
    exact List.mem_toFinset.mpr (List.mem_map.mpr ⟨_, (hlists.mem_iff _ _).mpr ha, rfl⟩)
  have hsum := Metrics.counter_calls k hkeys
  rw [← hcalls, List.sum_toFinset _ hlists.nodup, List.map_map] at hsum
  have hglobal : (forgetFailures m).counter k = m.counter k := by cases k <;> rfl
  rw [← hglobal, hsum]
  refine congrArg List.sum (List.map_congr_left fun e he ↦ ?_)
  have hagg : (forgetFailures m).agg e.1 = e.2 := by
    change (m.perFp e.1).getD {} = e.2
    rw [(hlists.mem_iff e.1 e.2).mp he, Option.getD_some]
  exact congrArg (FpAgg.counter · k) hagg.symm

omit [Field F] [LinearOrder F] in
/-- The decades of a fingerprint have, together, what has been executed of it. -/
theorem sum_reportBuckets {a : FpAgg} {l : List Execution} (h : a.Holds l) :
    ((reportBuckets tools.stats a).map SizeBucketReport.count).sum = a.executed := by
  have hdecade (i : ℕ) :
      ((a.buckets i).map fun b ↦ FpAgg.histLen b.hist).getD 0 = (inDecade l i).length := by
    rw [h.buckets, FpAgg.bucketOf]
    split_ifs with hnil
    · rw [hnil]
      rfl
    · exact List.length_map _
  have hsum (is : List ℕ) :
      ((is.filterMap fun i ↦ (a.buckets i).map (reportBucket tools.stats i)).map
        SizeBucketReport.count).sum = (is.map fun i ↦ (inDecade l i).length).sum := by
    induction is with
    | nil => rfl
    | cons i is ih =>
      rw [List.map_cons, List.sum_cons, ← ih, ← hdecade, List.filterMap_cons]
      rcases a.buckets i with _ | b
      · exact (Nat.zero_add _).symm
      · rfl
  rw [reportBuckets, hsum, h.executed, ← length_inDecade l, ← List.sum_toFinset _ List.nodup_range,
    List.toFinset_range]

/-! ## The report adds up -/

/-- A report adds up, for a pass over these sessions. -/
structure AddsUp (sessions : Fin n → ReplaySession options.pass) (r : RunReport F) : Prop where
  /-- The totals are the events of the sessions. -/
  events : r.totals.executed + r.totals.skipped + r.totals.errors + r.totals.notRun =
    ∑ i, (sessions i).events.length
  executed : (r.fingerprints.map (·.count)).sum = r.totals.executed
  skipped : (r.fingerprints.map (·.skipped)).sum = r.totals.skipped
  errors : (r.fingerprints.map (·.errors)).sum = r.totals.errors
  notRun : (r.fingerprints.map (·.notRun)).sum = r.totals.notRun
  /-- A fingerprint has the events of the sessions that have it. -/
  fingerprint : ∀ f ∈ r.fingerprints, f.count + f.errors + f.skipped + f.notRun =
    ∑ i, (sessions i).events.countP (·.fingerprintId = f.id)
  /-- Its decades have what has been executed of it. -/
  buckets : ∀ f ∈ r.fingerprints, (f.sizeBuckets.map (·.count)).sum = f.count
  /-- No fingerprint has two entries, and those that have one are those of the events. -/
  nodup : (r.fingerprints.map (·.id)).Nodup
  ids : ∀ fp, fp ∈ r.fingerprints.map (·.id) ↔
    ∃ i, ∃ ev ∈ (sessions i).events, ev.fingerprintId = fp

/-- The report of a run adds up. -/
theorem RunsPass.addsUp (h : RunsPass tools cap options info T sessions before r after) :
    AddsUp sessions r := by
  obtain ⟨c, w, perFp, hrun, hfinished, hlists, -, -, hr⟩ := h
  have hreaches : Pass.Reaches options.pass T sessions c := ⟨before, hrun⟩
  obtain ⟨l, hcalls⟩ := exists_calls hreaches
  have hrecorded (i : Fin n) := hreaches.recorded (hfinished i)
  have hperm : r.fingerprints.Perm (perFp.map fun e ↦
      reportFingerprint tools.stats tools.xxh3 isNondeterministic cap.fpTexts e.1 e.2) := by
    rw [hr]
    exact sortBy_perm slowestFirst _
  have htotals : r.totals = reportTotals cap w.wallSecs c.shared.metrics := by
    rw [hr]
    rfl
  -- a field of the fingerprints that is a counter of the aggregates
  have hsum (field : FingerprintReport F → ℕ) (k : Metrics.Counter)
      (hfield : ∀ id a, field (reportFingerprint tools.stats tools.xxh3 isNondeterministic
        cap.fpTexts id a) = a.counter k) :
      (r.fingerprints.map field).sum = c.shared.metrics.counter k := by
    rw [(hperm.map field).sum_eq, List.map_map, ← sum_counter hlists hcalls k]
    exact congrArg List.sum (List.map_congr_left fun e _ ↦ hfield e.1 e.2)
  have hagg {e : UInt32 × FpAgg} (he : e ∈ perFp) : c.shared.metrics.agg e.1 = e.2 := by
    change (c.shared.metrics.perFp e.1).getD {} = e.2
    rw [(hlists.mem_iff e.1 e.2).mp he, Option.getD_some]
  have htotalOf (fp : UInt32) : (c.shared.metrics.agg fp).total =
      ∑ i, (sessions i).events.countP (·.fingerprintId = fp) := by
    refine (hreaches.measure (Metrics.totalOf · fp) rfl
      fun m e ↦ m.totalOf_tally fp e.1 e.2).trans (Finset.sum_congr rfl fun i _ ↦ ?_)
    rw [← recorded_count, hrecorded, List.count, List.countP_map]
    rfl
  have hids : (r.fingerprints.map (·.id)).Perm (perFp.map Prod.fst) := by
    refine (hperm.map _).trans (List.Perm.of_eq ?_)
    rw [List.map_map]
    rfl
  refine ⟨?_, ?_, ?_, ?_, ?_, fun f hf ↦ ?_, fun f hf ↦ ?_, ?_, fun fp ↦ ?_⟩
  · rw [htotals]
    change c.shared.metrics.total = _
    refine (hreaches.measure Metrics.total rfl fun m e ↦ m.total_tally e.1 e.2).trans ?_
    refine Finset.sum_congr rfl fun i _ ↦ ?_
    rw [← recorded_length, hrecorded, List.length_map]
  · rw [htotals]
    exact hsum _ .executed fun _ _ ↦ rfl
  · rw [htotals]
    exact hsum _ .skipped fun _ _ ↦ rfl
  · rw [htotals]
    exact hsum _ .errors fun _ _ ↦ rfl
  · rw [htotals]
    exact hsum _ .notRun fun _ _ ↦ rfl
  · obtain ⟨e, he, rfl⟩ := List.mem_map.mp (hperm.mem_iff.mp hf)
    change e.2.total = ∑ i, (sessions i).events.countP (·.fingerprintId = e.1)
    rw [← htotalOf, hagg he]
  · obtain ⟨e, he, rfl⟩ := List.mem_map.mp (hperm.mem_iff.mp hf)
    have hholds := Metrics.holds_calls l e.1
    rw [← hcalls] at hholds
    have hagg' : (forgetFailures c.shared.metrics).agg e.1 = e.2 := hagg he
    rw [hagg'] at hholds
    exact sum_reportBuckets hholds
  · exact hids.nodup_iff.mpr hlists.nodup
  · -- an aggregate is there when something has been counted in it
    have hsome : fp ∈ perFp.map Prod.fst ↔ 0 < (c.shared.metrics.agg fp).total := by
      change _ ↔ 0 < (forgetFailures c.shared.metrics).totalOf fp
      rw [hcalls, totalOf_calls, List.count_pos_iff]
      refine Iff.trans ?_ ((Metrics.isSome_perFp_calls l fp).trans List.mem_toFinset)
      rw [← hcalls, Option.isSome_iff_exists, List.mem_map]
      constructor
      · rintro ⟨e, he, rfl⟩
        exact ⟨e.2, (hlists.mem_iff e.1 e.2).mp he⟩
      · rintro ⟨a, ha⟩
        exact ⟨(fp, a), (hlists.mem_iff fp a).mpr ha, rfl⟩
    rw [hids.mem_iff, hsome, htotalOf, Finset.sum_pos_iff]
    refine exists_congr fun i ↦ ?_
    rw [List.countP_pos_iff]
    simp only [Finset.mem_univ, true_and, decide_eq_true_eq]

/-- **The report of a pass adds up**, whatever the target did, whenever the pass was aborted and in
whatever order the sessions went on. -/
theorem report_adds_up (h : RunsPass tools cap options info T sessions before r after) :
    AddsUp sessions r :=
  h.addsUp

/-! ## Passes exist -/

/-- The map of the metrics can be listed. -/
theorem exists_listsMap {l : List RecordCall} (hcalls : forgetFailures m = Metrics.calls l) :
    ∃ perFp, ListsMap perFp m.perFp := by
  have hmem (fp : UInt32) : (m.perFp fp).isSome ↔ fp ∈ fingerprintsOf l := by
    rw [← Metrics.isSome_perFp_calls l fp, ← hcalls]
    rfl
  have hkeys : (((fingerprintsOf l).toList.map fun fp ↦ (fp, m.agg fp)).map Prod.fst) =
      (fingerprintsOf l).toList := by
    rw [List.map_map]
    exact List.map_id _
  refine ⟨(fingerprintsOf l).toList.map fun fp ↦ (fp, m.agg fp), ?_, fun fp a ↦ ?_⟩
  · rw [hkeys]
    exact Finset.nodup_toList _
  · rw [List.mem_map]
    constructor
    · rintro ⟨fp', hfp', heq⟩
      obtain ⟨rfl, rfl⟩ := Prod.mk.inj heq
      obtain ⟨a, ha⟩ := Option.isSome_iff_exists.mp ((hmem fp').mpr (Finset.mem_toList.mp hfp'))
      rw [Metrics.agg, ha, Option.getD_some]
    · intro ha
      refine ⟨fp, Finset.mem_toList.mpr ((hmem fp).mp (ha ▸ rfl)), ?_⟩
      rw [Metrics.agg, ha, Option.getD_some]

/-- Every pass has a run, in which the flag is not touched. -/
theorem exists_runsPass (tools : Toolbox F) (cap : CaptureInfo) (info : TargetInfo)
    (T : TargetDb) (sessions : Fin n → ReplaySession options.pass) (flag : Bool) :
    ∃ r, RunsPass tools cap options info T sessions flag r flag := by
  have hstart : Pass.Reaches options.pass T sessions (Pass.new options.pass flag sessions) :=
    ⟨flag, .refl⟩
  obtain ⟨c, hrun, hfinished⟩ := hstart.exists_finished
  obtain ⟨l, hcalls⟩ := exists_calls (hstart.of_acts hrun)
  obtain ⟨perFp, hlists⟩ := exists_listsMap hcalls
  have hflag : c.shared.shutdown = flag :=
    (Tasks.Reachable.log_extends (P := fun s ↦ s.shutdown = flag) (E := fun _ ↦ True)
      (fun _ _ _ _ hs hresponds ↦ ⟨hresponds.2 ▸ hs, trivial⟩) (fun _ _ _ hfalse ↦ hfalse.elim)
      hrun rfl).1
  exact ⟨passReport tools cap options info ⟨[], [], 0, 0, 0, none⟩ flag c.shared.metrics perFp, c,
    ⟨[], [], 0, 0, 0, none⟩, perFp, Tasks.Reachable.of_tasks hrun, hfinished, hlists, hflag.le,
    le_rfl, rfl⟩

/-- Histograms that show nothing. -/
def sampleTools : Toolbox ℚ := ⟨fun _ ↦ 0, ⟨fun _ _ ↦ 0, fun _ ↦ 0, fun _ ↦ 0⟩, ascii "0.5.0"⟩

def sampleCapture : CaptureInfo := ⟨ascii "c.zst", ascii "mysql", fun _ ↦ none, 3, 0, 2, 0⟩

/-- Options of a read-only run. -/
def sampleRunOptions : RunOptions where
  pass := Pass.sampleOptions
  url := ascii "mysql://u:p@db/"
  readOnly := true
  speed := ascii "max"
  warmup := false
  repeats := 1
  filters := {}
  window := none

def sampleTarget : TargetInfo := ⟨[], .empty⟩

/-- A read beside a write that is kept back, and a session without a read. -/
theorem report_adds_up_sample :
    let sessions : Fin 2 → ReplaySession sampleRunOptions.pass :=
      ![.ofEvents _ 1 [Pass.sampleEvent (ascii "SELECT 1") 7,
        Pass.sampleEvent (ascii "DROP TABLE t") 8],
        .ofEvents _ 2 [Pass.sampleEvent (ascii "DROP TABLE t") 8]]
    ∃ r : RunReport ℚ, AddsUp sessions r ∧
      r.totals.executed + r.totals.skipped + r.totals.errors + r.totals.notRun = 3 := by
  intro sessions
  obtain ⟨r, hr⟩ := exists_runsPass sampleTools sampleCapture sampleTarget .plain sessions false
  exact ⟨r, report_adds_up hr, (report_adds_up hr).events⟩

end SqlReplay.Aggregate
