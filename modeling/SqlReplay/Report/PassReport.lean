import SqlReplay.Proto.Text
import SqlReplay.Report.AggregateOrder

/-!
# The fingerprints of a pass

The report of a pass has an entry for each aggregate of its metrics. The aggregates come out of a
hash map, each id once and in no order that means anything, and are ranked afterwards. What is read
off a histogram is left to the histogram (`HistogramStats`), and whether a fingerprint looks
nondeterministic to a predicate of its text.

Such a report is well-formed: ids are the keys of a map, and the decades of a fingerprint are listed
by index, which is their place among the labels.
-/

namespace SqlReplay.Aggregate

/-- What is read off a histogram; quantiles in hundredths. -/
structure HistogramStats (F : Type) where
  valueAtQuantile : Histogram → ℕ → ℕ
  max : Histogram → ℕ
  mean : Histogram → F

section

variable {F : Type} (stats : HistogramStats F)

/-! ## Decades -/

/-- The report of a decade, by its index. -/
def reportBucket (i : ℕ) (b : BucketAgg) : SizeBucketReport F where
  bucket := sizeBucketLabels.getD i []
  count := FpAgg.histLen b.hist
  p50Us := stats.valueAtQuantile b.hist 50
  p95Us := stats.valueAtQuantile b.hist 95
  meanUs := stats.mean b.hist
  maxUs := stats.max b.hist
  bytesTotal := b.bytesTotal

/-- `FpAgg::size_buckets`. -/
def reportBuckets (a : FpAgg) : List (SizeBucketReport F) :=
  (List.range sizeBuckets).filterMap fun i ↦ (a.buckets i).map (reportBucket stats i)

/-- The labels are in their own order. -/
theorem bucketOrder_label {i : ℕ} (hi : i < sizeBuckets) :
    bucketOrder (sizeBucketLabels.getD i []) = i := by
  have hall : ∀ i ∈ List.range sizeBuckets, bucketOrder (sizeBucketLabels.getD i []) = i := by
    decide
  exact hall i (List.mem_range.mpr hi)

theorem bucketKey_lt_of_index {i j : ℕ} (hij : i < j) (hj : j < sizeBuckets) (b c : BucketAgg) :
    bucketKey (reportBucket stats i b) < bucketKey (reportBucket stats j c) := by
  refine Prod.Lex.toLex_lt_toLex.mpr (Or.inl ?_)
  change bucketOrder (sizeBucketLabels.getD i []) < bucketOrder (sizeBucketLabels.getD j [])
  rw [bucketOrder_label (hij.trans hj), bucketOrder_label hj]
  exact hij

theorem pairwise_reportBuckets (a : FpAgg) :
    (reportBuckets stats a).Pairwise fun b c ↦ bucketKey b < bucketKey c := by
  refine List.pairwise_filterMap.mpr (List.pairwise_lt_range.imp_of_mem ?_)
  intro i j hi hj hij b hb c hc
  obtain ⟨ba, -, rfl⟩ := Option.map_eq_some_iff.mp hb
  obtain ⟨ca, -, rfl⟩ := Option.map_eq_some_iff.mp hc
  exact bucketKey_lt_of_index stats hij (List.mem_range.mp hj) ba ca

/-! ## Fingerprints -/

variable [Field F]

/-- `FpBytesAgg::report`. -/
def reportBytes (a : FpBytesAgg) (executed : ℕ) : Option (ResultBytesReport F) :=
  if 0 < executed then some
    { total := a.total
      min := a.min
      max := a.max
      mean := a.total / executed
      p50 := stats.valueAtQuantile a.hist 50
      p95 := stats.valueAtQuantile a.hist 95 }
  else none

/-- The report of a fingerprint, whose text is looked up in the capture. -/
def reportFingerprint (xxh3 : Bytes → UInt64) (isNondeterministic : Bytes → Bool)
    (fpTexts : UInt32 → Option Bytes) (id : UInt32) (a : FpAgg) : FingerprintReport F :=
  let fingerprint := (fpTexts id).getD
    (ascii "<unknown fingerprint " ++ decimal id.toNat ++ ascii ">")
  { id := id
    fingerprint := fingerprint
    count := a.executed
    errors := a.errors
    firstError := a.firstError
    skipped := a.skipped
    notRun := a.notRun
    p50Us := stats.valueAtQuantile a.hist 50
    p95Us := stats.valueAtQuantile a.hist 95
    p99Us := stats.valueAtQuantile a.hist 99
    maxUs := stats.max a.hist
    meanUs := stats.mean a.hist
    checksum := a.checksum.map fun c ↦ c.report xxh3 (isNondeterministic fingerprint)
    resultBytes := reportBytes stats a.bytes a.executed
    sizeBuckets := reportBuckets stats a }

/-- The fingerprints of a pass: the aggregates as the map of the metrics hands them out, ranked. -/
def reportFingerprints (xxh3 : Bytes → UInt64) (isNondeterministic : Bytes → Bool)
    (fpTexts : UInt32 → Option Bytes) (perFp : List (UInt32 × FpAgg)) :
    List (FingerprintReport F) :=
  sortBy slowestFirst
    (perFp.map fun e ↦ reportFingerprint stats xxh3 isNondeterministic fpTexts e.1 e.2)

/-- Whatever the order in which a map hands out its aggregates, the report is well-formed. -/
theorem wellFormed_reportFingerprints (xxh3 : Bytes → UInt64) (isNondeterministic : Bytes → Bool)
    (fpTexts : UInt32 → Option Bytes) {perFp : List (UInt32 × FpAgg)}
    (hkeys : (perFp.map Prod.fst).Nodup) {r : RunReport F}
    (hr : r.fingerprints = reportFingerprints stats xxh3 isNondeterministic fpTexts perFp) :
    r.WellFormed := by
  have hperm := sortBy_perm slowestFirst
    (perFp.map fun e ↦ reportFingerprint stats xxh3 isNondeterministic fpTexts e.1 e.2)
  constructor
  · rw [hr]
    refine ((hperm.map FingerprintReport.id).nodup_iff).mpr ?_
    rw [List.map_map]
    exact hkeys
  · intro f hf
    rw [hr] at hf
    obtain ⟨e, -, rfl⟩ := List.mem_map.mp (hperm.mem_iff.mp hf)
    exact pairwise_reportBuckets stats e.2

end

end SqlReplay.Aggregate
