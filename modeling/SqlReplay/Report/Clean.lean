import SqlReplay.Data.FloatArithmetic
import SqlReplay.Report.AggregateOrder

/-!
# A run compared with itself

Of a report against itself the comparison has nothing to say. Each fingerprint finds itself, its
texts being unique, and its decades find themselves. What remains is arithmetic: the change of a
latency against itself is zero percent, or there is none because the latency is zero, or, past the
range of a double, it is no number. None of these meets a positive threshold from either side
(`Tolerant`), which holds of doubles as they are rounded (`tolerant_of_pos`).

The loop then keeps the comparison clean (`Comparison.Clean`), and the settings, which the
comparison of runs also lists, are equal under every name.
-/

namespace SqlReplay

/-- An entry is found by its key when no other has that key. -/
theorem lastWith_of_mem {α : Type} {key : α → Bytes} {l : List α}
    (hnodup : (l.map key).Nodup) {a : α} (ha : a ∈ l) : lastWith key (key a) l = some a := by
  cases h : lastWith key (key a) l with
  | none => exact absurd (List.mem_map_of_mem ha) ((lastWith_eq_none key).mp h)
  | some b =>
    have hb : b ∈ l := List.mem_reverse.mp (List.mem_of_find?_eq_some h)
    exact congrArg some (List.inj_on_of_nodup_map hnodup hb ha (key_of_lastWith key h))

theorem sortBy_eq_nil {α : Type} {cmp : α → α → Ordering} {l : List α} (h : l = []) :
    sortBy cmp l = [] := by
  rw [h]
  exact List.mergeSort_nil

theorem not_pos_of_pctChange {F : Type} [NatCast F] [OfNat F 100] [Sub F] [Mul F] [Div F] [LT F]
    [DecidableLT F] {base cand : F} (h : pctChange base cand = none) : ¬ ((0 : ℕ) : F) < base := by
  intro hpos
  rw [pctChange, if_pos hpos] at h
  exact Option.some_ne_none _ h

section Clean

variable {F : Type} [NatCast F] [OfNat F 100] [Sub F] [Mul F] [Div F] [Neg F] [LE F] [LT F]
  [DecidableLE F] [DecidableLT F]

/-- The change of a latency against itself meets the threshold from neither side. -/
def Tolerant (options : CompareOptions F) : Prop :=
  ∀ (n : ℕ) (p : F), pctChange (n : F) (n : F) = some p →
    ¬ options.thresholdPct ≤ p ∧ ¬ p ≤ -options.thresholdPct

variable {options : CompareOptions F}

theorem verdict_self (h : Tolerant options) (b : FingerprintReport F) :
    verdict options b b = .lowSample ∨ verdict options b b = .stable := by
  unfold verdict
  by_cases hfew : tooFew options b.count b.count = true
  · rw [if_pos hfew]
    exact Or.inl rfl
  · rw [if_neg hfew]
    right
    dsimp only [MetricDelta.new]
    cases hp : pctChange (b.p95Us : F) (b.p95Us : F) with
    | none => exact if_neg (not_pos_of_pctChange hp)
    | some p =>
      obtain ⟨hle, hge⟩ := h _ p hp
      dsimp only
      rw [if_neg hle, if_neg hge]

theorem bucketRegressed_self (h : Tolerant options) (bb : SizeBucketReport F) :
    bucketRegressed options bb bb = false := by
  unfold bucketRegressed
  dsimp only [MetricDelta.new]
  cases hp : pctChange (bb.p95Us : F) (bb.p95Us : F) with
  | none => exact decide_eq_false (not_pos_of_pctChange hp)
  | some p => exact decide_eq_false (h _ p hp).1

theorem bucketDeltas_self (h : Tolerant options) {b : FingerprintReport F}
    (hlabels : (b.sizeBuckets.map (·.bucket)).Nodup) : bucketDeltas options b b = [] := by
  unfold bucketDeltas
  refine List.filterMap_eq_nil_iff.mpr fun bb hbb ↦ ?_
  have hfind : lastWith SizeBucketReport.bucket bb.bucket b.sizeBuckets = some bb :=
    lastWith_of_mem hlabels hbb
  unfold comparableBucket
  rw [hfind, Option.filter_some]
  split_ifs
  · rw [Option.bind_some, bucketRegressed_self h, if_neg Bool.false_ne_true]
  · rfl

/-! ## The loop -/

/-- Correctness without a mismatch. -/
def CorrectnessReport.Clean (q : CorrectnessReport) : Prop := q.mismatches = [] ∧ q.advisory = []

omit [NatCast F] [OfNat F 100] [Sub F] [Mul F] [Div F] [Neg F] [LE F] [LT F] [DecidableLE F]
  [DecidableLT F] in
theorem CorrectnessReport.Clean.check {q : CorrectnessReport} (hq : q.Clean)
    (b : FingerprintReport F) : (q.check b b).Clean := by
  unfold CorrectnessReport.check comparableChecksums
  cases b.checksum with
  | none => exact hq
  | some c =>
    dsimp only
    by_cases hevents : 0 < c.events ∧ 0 < c.events
    · rw [if_pos hevents]
      dsimp only
      rw [if_pos rfl]
      exact hq
    · rw [if_neg hevents]
      exact hq

/-- Nothing but stable fingerprints and low samples. -/
structure Comparison.Clean (r : Comparison F) : Prop where
  regressions : r.regressions = []
  improvements : r.improvements = []
  onlyInBaseline : r.onlyInBaseline = []
  countMismatches : r.countMismatches = 0
  sizeRegressions : r.sizeRegressions = []
  correctness : ∀ q ∈ r.correctness, q.Clean

/-- A fingerprint that finds itself. -/
theorem Comparison.Clean.step (h : Tolerant options) {candidate : RunReport F} {r : Comparison F}
    (hr : r.Clean) {b : FingerprintReport F} (hb : candidate.byText b.fingerprint = some b)
    (hlabels : (b.sizeBuckets.map (·.bucket)).Nodup) :
    (Comparison.step options candidate r b).Clean := by
  have hcorrectness : ∀ q ∈ r.correctness.map fun q ↦ q.check b b, q.Clean := by
    intro q hq
    obtain ⟨q', hq', rfl⟩ := Option.mem_map.mp hq
    exact (hr.correctness q' hq').check b
  have hbuckets := bucketDeltas_self h hlabels
  unfold Comparison.step
  rw [hb]
  dsimp only
  rw [if_neg (not_not_intro rfl)]
  unfold Comparison.pushBuckets
  rcases verdict_self h b with hv | hv
  · rw [hv, if_neg (by decide), hbuckets, List.append_nil]
    exact ⟨hr.regressions, hr.improvements, hr.onlyInBaseline, hr.countMismatches,
      hr.sizeRegressions, hcorrectness⟩
  · rw [hv, if_neg (by decide), hbuckets, List.append_nil]
    exact ⟨hr.regressions, hr.improvements, hr.onlyInBaseline, hr.countMismatches,
      hr.sizeRegressions, hcorrectness⟩

/-- The loop over the baseline, which is the candidate. -/
theorem clean_comparison (h : Tolerant options) {r : RunReport F}
    (htexts : (r.fingerprints.map (·.fingerprint)).Nodup)
    (hlabels : ∀ f ∈ r.fingerprints, (f.sizeBuckets.map (·.bucket)).Nodup) :
    (comparison options r r).Clean := by
  have hloop (l : List (FingerprintReport F)) (hl : ∀ f ∈ l, f ∈ r.fingerprints)
      (c : Comparison F) (hc : c.Clean) :
      (l.foldl (Comparison.step options r) c).Clean := by
    induction l generalizing c with
    | nil => exact hc
    | cons b l ih =>
      have hb := hl b List.mem_cons_self
      refine ih (fun f hf ↦ hl f (List.mem_cons_of_mem b hf)) _ ?_
      exact hc.step h (lastWith_of_mem htexts hb) (hlabels b hb)
  refine hloop _ (fun _ hf ↦ hf) _ ⟨rfl, rfl, rfl, rfl, rfl, fun q hq ↦ ?_⟩
  have hq' : q = {} := by
    split_ifs at hq
    · exact (Option.mem_some_iff.mp hq).symm
    · exact absurd hq (Option.not_mem_none q)
  rw [hq']
  exact ⟨rfl, rfl⟩

end Clean

/-! ## Thresholds -/

/-- A positive threshold, with doubles. -/
theorem tolerant_of_pos {options : CompareOptions F64}
    (h : ((0 : ℕ) : F64) < options.thresholdPct) : Tolerant options := by
  intro n p hp
  unfold pctChange at hp
  split_ifs at hp with hpos
  obtain rfl := Option.some.inj hp
  rcases F64.selfChange hpos with hzero | hnan
  · rw [hzero]
    exact F64.zero_between h
  · exact F64.not_le_of_isNaN hnan _ _

/-! ## Settings and the whole comparison -/

namespace Aggregate

/-- `SettingDiff`. -/
structure SettingDiff where
  name : Bytes
  baseline : Option Bytes
  candidate : Option Bytes
  deriving DecidableEq, Repr

/-- `settings_diff`. -/
def settingsDiff (b c : SortedMap Label Bytes) : List SettingDiff :=
  let names := ((b.entries.map (·.1) ++ c.entries.map (·.1)).mergeSort).eraseReps
  (names.filter fun n ↦ b.get? n != c.get? n).map fun n ↦ ⟨n.bytes, b.get? n, c.get? n⟩

theorem settingsDiff_self (b : SortedMap Label Bytes) : settingsDiff b b = [] := by
  unfold settingsDiff
  refine List.map_eq_nil_iff.mpr (List.filter_eq_nil_iff.mpr fun n _ ↦ ?_)
  rw [bne_self_eq_false]
  exact Bool.false_ne_true

section

variable {F : Type}

/-- What comparing reads of a decade. -/
def SizeBucketReport.compared (b : SizeBucketReport F) : SqlReplay.SizeBucketReport F :=
  ⟨b.bucket, b.count, b.p50Us, b.p95Us, b.meanUs, b.bytesTotal⟩

/-- What comparing reads of a fingerprint. -/
def FingerprintReport.compared (f : FingerprintReport F) : SqlReplay.FingerprintReport F where
  fingerprint := f.fingerprint
  count := f.count
  errors := f.errors
  p50Us := f.p50Us
  p95Us := f.p95Us
  p99Us := f.p99Us
  meanUs := f.meanUs
  checksum := f.checksum
  resultBytes := f.resultBytes.map fun b ↦ ⟨b.mean, b.total⟩
  sizeBuckets := f.sizeBuckets.map SizeBucketReport.compared

/-- What comparing reads of a report, beside its settings. -/
def RunReport.compared (r : RunReport F) : SqlReplay.RunReport F :=
  ⟨r.flags.checksum, r.fingerprints.map FingerprintReport.compared⟩

variable [NatCast F] [OfNat F 100] [Sub F] [Mul F] [Div F] [Neg F] [LE F] [LT F] [DecidableLE F]
  [DecidableLT F] [Ord F]

/-- `CompareReport`: the verdicts and the settings that differ. -/
structure CompareReport (F : Type) extends SqlReplay.CompareReport F where
  settingsDiff : List SettingDiff

/-- `compare_runs`. A side without settings has none that differ. -/
def compareRuns (options : CompareOptions F) (baseline candidate : RunReport F) :
    CompareReport F where
  toCompareReport := SqlReplay.compareRuns options baseline.compared candidate.compared
  settingsDiff :=
    if baseline.targetSettings.entries.isEmpty || candidate.targetSettings.entries.isEmpty then []
    else Aggregate.settingsDiff baseline.targetSettings candidate.targetSettings

end

/-- A comparison with nothing to say. -/
structure CompareReport.Clean {F : Type} (r : CompareReport F) : Prop where
  regressions : r.regressions = []
  improvements : r.improvements = []
  sizeRegressions : r.sizeRegressions = []
  mismatches : ∀ q ∈ r.correctness, q.mismatches = []
  advisory : ∀ q ∈ r.correctness, q.advisory = []
  onlyInBaseline : r.onlyInBaseline = []
  onlyInCandidate : r.onlyInCandidate = []
  countMismatches : r.countMismatches = 0
  settingsDiff : r.settingsDiff = []
  /-- The gate passes. -/
  gate : r.gateFails = false

section

variable {F : Type} [NatCast F] [OfNat F 100] [Sub F] [Mul F] [Div F] [Neg F] [LE F] [LT F]
  [DecidableLE F] [DecidableLT F] [Ord F] {options : CompareOptions F} {r : RunReport F}

/-- A report compared with itself, at a threshold that tolerates it. -/
theorem clean_compareRuns (h : Tolerant options)
    (htexts : (r.fingerprints.map (·.fingerprint)).Nodup)
    (hlabels : ∀ f ∈ r.fingerprints, (f.sizeBuckets.map (·.bucket)).Nodup) :
    (compareRuns options r r).Clean := by
  have hc : (comparison options r.compared r.compared).Clean := by
    refine clean_comparison h ?_ fun f hf ↦ ?_
    · unfold RunReport.compared
      rw [List.map_map]
      exact htexts
    · obtain ⟨f', hf', rfl⟩ := List.mem_map.mp hf
      unfold FingerprintReport.compared
      rw [List.map_map]
      exact hlabels f' hf'
  have hcorrectness : ∀ q ∈ (compareRuns options r r).correctness, q.Clean := by
    intro q hq
    obtain ⟨q', hq', rfl⟩ := Option.mem_map.mp hq
    obtain ⟨hmismatches, hadvisory⟩ := hc.correctness q' hq'
    exact ⟨sortBy_eq_nil hmismatches, sortBy_eq_nil hadvisory⟩
  have hfailed : (compareRuns options r r).correctnessFailed = false := by
    change ((comparison options r.compared r.compared).correctness.any fun c ↦
      !c.mismatches.isEmpty) = false
    cases hq : (comparison options r.compared r.compared).correctness with
    | none => rfl
    | some q =>
      rw [Option.any_some, (hc.correctness q hq).1]
      rfl
  constructor
  · exact sortBy_eq_nil hc.regressions
  · exact sortBy_eq_nil hc.improvements
  · exact sortBy_eq_nil hc.sizeRegressions
  · exact fun q hq ↦ (hcorrectness q hq).1
  · exact fun q hq ↦ (hcorrectness q hq).2
  · exact sortBy_eq_nil hc.onlyInBaseline
  · -- Every text of the candidate is one of the baseline.
    refine sortBy_eq_nil (List.map_eq_nil_iff.mpr (List.filter_eq_nil_iff.mpr fun c hmem ↦ ?_))
    rw [List.elem_eq_true_of_mem (List.mem_map_of_mem hmem)]
    exact Bool.false_ne_true
  · exact hc.countMismatches
  · change (if _ then _ else _) = []
    rw [settingsDiff_self, ite_self]
  · change (!(comparison options r.compared r.compared).regressions.isEmpty ||
      !(comparison options r.compared r.compared).sizeRegressions.isEmpty ||
      (compareRuns options r r).correctnessFailed) = false
    rw [hc.regressions, hc.sizeRegressions, hfailed]
    rfl

end

/-- A report compared with itself is clean, at every positive threshold and every minimum count,
when its texts are unique, and in each fingerprint the labels of its decades. -/
theorem compareRuns_self (options : CompareOptions F64) (r : RunReport F64)
    (hthreshold : ((0 : ℕ) : F64) < options.thresholdPct)
    (htexts : (r.fingerprints.map (·.fingerprint)).Nodup)
    (hlabels : ∀ f ∈ r.fingerprints, (f.sizeBuckets.map (·.bucket)).Nodup) :
    (compareRuns options r r).Clean :=
  clean_compareRuns (tolerant_of_pos hthreshold) htexts hlabels

/-- A run of two fingerprints, one without latencies. -/
def sampleDoubles : RunReport F64 where
  tool := ascii "sql-replay"
  toolVersion := []
  captureFile := []
  captureDialect := []
  latencySource := ascii "replayed"
  targetUrl := []
  targetServerVersion := []
  startedAt := []
  endedAt := []
  wallSecs := .ofNat 3
  aborted := false
  aggregation := none
  flags := ⟨50, false, false, none, ascii "max", true, none, false, none, none, none⟩
  totals := ⟨3, 1, 3, 0, 0, 0, 0, .ofNat 1, 0⟩
  saturation := ⟨10, 0, .ofNat 0⟩
  pacing := none
  targetSettings := SortedMap.empty
  fingerprints :=
    [⟨7, ascii "select ?", 3, 0, none, 0, 0, 10, 30, 30, 30, .ofNat 15,
      some ⟨3, 0, 3, hex16 7, [ascii "id"], false, true⟩,
      some ⟨2100, 10, 2048, .ofNat 700, 42, 2048⟩,
      [⟨ascii "<1KB", 2, 10, 10, .ofNat 10, 10, 52⟩,
        ⟨ascii "1KB-10KB", 1, 30, 30, .ofNat 30, 30, 2048⟩]⟩,
      ⟨8, ascii "commit", 5, 0, none, 0, 0, 0, 0, 0, 0, .ofNat 0, none, none, []⟩]

theorem compareRuns_self_sample : (compareRuns ⟨.ofNat 20, 1⟩ sampleDoubles sampleDoubles).Clean :=
  compareRuns_self ⟨.ofNat 20, 1⟩ sampleDoubles (by decide) (by decide) (by decide)

end Aggregate

end SqlReplay
