import Mathlib.Data.Prod.Lex
import Mathlib.Data.List.Lex
import Mathlib.Algebra.Field.Defs
import SqlReplay.Data.Group
import SqlReplay.Report.Compare
import SqlReplay.Replay.Population

/-!
# Aggregating passes

`--repeat` runs a capture several times and folds the reports of the passes into one: every number
is the median of its field over the passes, and what is no number is taken from the first pass, or
the last for the end of the run. The reports are kept here with all their fields, in a namespace of
their own, since comparing reads fewer of them.

The passes are a sample, as is every group of fingerprints or decades made from them, so that the
assertions of `median_u64` and `median_f64` and the index `fps[0]` hold by construction; of the
assertion of `aggregate_median` itself the `none` of `aggregateMedian` is what is left.

The means are in a field `F` with exact arithmetic, ordered, so that comparing two of them never
fails.
-/

namespace SqlReplay.Aggregate

/-! ## Keys of maps -/

/-- Fingerprint ids in their order as numbers. -/
instance linearOrderUInt32 : LinearOrder UInt32 where
  le_refl := UInt32.le_refl
  le_trans _ _ _ := UInt32.le_trans
  le_antisymm _ _ := UInt32.le_antisymm
  le_total := UInt32.le_total
  lt_iff_le_not_ge a b := by
    rw [UInt32.not_le, and_iff_right_of_imp]
    exact UInt32.le_of_lt
  toDecidableLE := inferInstance
  toDecidableEq := inferInstance
  toDecidableLT := inferInstance

/-- A text as a key, in the order of its bytes. -/
structure Label where
  bytes : Bytes
  deriving DecidableEq, Repr

namespace Label

/-- The bytes as numbers. -/
def codes (l : Label) : List ℕ := l.bytes.map UInt8.toNat

theorem codes_injective : Function.Injective codes := by
  intro l l' h
  have hbytes : l.bytes = l'.bytes :=
    List.map_injective_iff.mpr (fun _ _ ↦ UInt8.toNat_inj.mp) h
  cases l
  exact congrArg mk hbytes

instance linearOrder : LinearOrder Label := LinearOrder.lift' codes codes_injective

end Label

/-! ## Reports -/

/-- `SizeBucketReport`. -/
structure SizeBucketReport (F : Type) where
  bucket : Bytes
  count : ℕ
  p50Us : ℕ
  p95Us : ℕ
  meanUs : F
  maxUs : ℕ
  bytesTotal : ℕ
  deriving DecidableEq

/-- `ResultBytesReport`. -/
structure ResultBytesReport (F : Type) where
  total : ℕ
  min : ℕ
  max : ℕ
  mean : F
  p50 : ℕ
  p95 : ℕ
  deriving DecidableEq

/-- `FingerprintReport`. -/
structure FingerprintReport (F : Type) where
  id : UInt32
  fingerprint : Bytes
  count : ℕ
  errors : ℕ
  firstError : Option Bytes
  skipped : ℕ
  notRun : ℕ
  p50Us : ℕ
  p95Us : ℕ
  p99Us : ℕ
  maxUs : ℕ
  meanUs : F
  checksum : Option ChecksumReport
  resultBytes : Option (ResultBytesReport F)
  sizeBuckets : List (SizeBucketReport F)
  deriving DecidableEq

/-- `Totals`. -/
structure Totals (F : Type) where
  events : ℕ
  sessions : ℕ
  executed : ℕ
  skipped : ℕ
  errors : ℕ
  notRun : ℕ
  connectFailures : ℕ
  qps : F
  filtered : ℕ
  deriving DecidableEq

/-- `SaturationReport`. -/
structure SaturationReport (F : Type) where
  samples : ℕ
  saturatedSamples : ℕ
  saturatedPct : F
  deriving DecidableEq

/-- `PacingReport`. -/
structure PacingReport (F : Type) where
  speed : F
  pacedEvents : ℕ
  maxLagUs : ℕ
  meanLagUs : F
  deriving DecidableEq

/-- `AggregationInfo`. -/
structure AggregationInfo where
  passes : ℕ
  method : Bytes
  deriving DecidableEq

/-- `ReportFlags`. -/
structure ReportFlags where
  maxConnections : ℕ
  allowWrites : Bool
  readOnly : Bool
  dbOverride : Option Bytes
  speed : Bytes
  checksum : Bool
  pool : Option ℕ
  warmup : Bool
  filterDb : Option Bytes
  filterUser : Option Bytes
  timeWindow : Option Bytes
  deriving DecidableEq

/-- `RunReport`. -/
structure RunReport (F : Type) where
  tool : Bytes
  toolVersion : Bytes
  captureFile : Bytes
  captureDialect : Bytes
  latencySource : Bytes
  targetUrl : Bytes
  targetServerVersion : Bytes
  startedAt : Bytes
  endedAt : Bytes
  wallSecs : F
  aborted : Bool
  aggregation : Option AggregationInfo
  flags : ReportFlags
  totals : Totals F
  saturation : SaturationReport F
  pacing : Option (PacingReport F)
  targetSettings : SortedMap Label Bytes
  fingerprints : List (FingerprintReport F)

/-! ## Decades -/

/-- `SIZE_BUCKET_LABELS`. -/
def sizeBucketLabels : List Bytes :=
  [ascii "<1KB", ascii "1KB-10KB", ascii "10KB-100KB", ascii "100KB-1MB", ascii "1MB-10MB",
    ascii "10MB-100MB", ascii ">=100MB"]

/-- The place of a decade: by its label in the list, an unknown label behind all known ones. -/
def bucketOrder (bucket : Bytes) : ℕ := sizeBucketLabels.findIdx (· == bucket)

/-- The key of a decade. -/
def bucketKey {F : Type} (b : SizeBucketReport F) : ℕ ×ₗ Label :=
  toLex (bucketOrder b.bucket, ⟨b.bucket⟩)

/-! ## Medians -/

/-- `median_u64`. -/
def medianU64 (v : Sample ℕ) : ℕ := median (fun a b ↦ (a + b) / 2) v

section

variable {F : Type} [Field F] [LinearOrder F]

/-- `median_f64`. -/
def medianF64 (v : Sample F) : F := median (fun a b ↦ (a + b) / 2) v

/-- `aggregate_result_bytes`. -/
def aggregateResultBytes (fps : Sample (FingerprintReport F)) : Option (ResultBytesReport F) :=
  (Sample.ofList? (fps.toList.filterMap FingerprintReport.resultBytes)).map fun present ↦
    { total := medianU64 (present.map (·.total))
      min := medianU64 (present.map (·.min))
      max := medianU64 (present.map (·.max))
      mean := medianF64 (present.map (·.mean))
      p50 := medianU64 (present.map (·.p50))
      p95 := medianU64 (present.map (·.p95)) }

/-- The aggregate of a decade. -/
def aggregateBucket (label : Bytes) (bs : Sample (SizeBucketReport F)) : SizeBucketReport F where
  bucket := label
  count := medianU64 (bs.map (·.count))
  p50Us := medianU64 (bs.map (·.p50Us))
  p95Us := medianU64 (bs.map (·.p95Us))
  meanUs := medianF64 (bs.map (·.meanUs))
  maxUs := medianU64 (bs.map (·.maxUs))
  bytesTotal := medianU64 (bs.map (·.bytesTotal))

/-- The decades of a fingerprint over the passes, by label. -/
def bucketsByLabel (fps : Sample (FingerprintReport F)) :
    SortedMap (ℕ ×ₗ Label) (Sample (SizeBucketReport F)) :=
  group bucketKey (fps.toList.flatMap FingerprintReport.sizeBuckets)

/-- `aggregate_size_buckets`. -/
def aggregateSizeBuckets (fps : Sample (FingerprintReport F)) : List (SizeBucketReport F) :=
  (bucketsByLabel fps).entries.map fun e ↦ aggregateBucket (ofLex e.1).2.bytes e.2

/-- The checksum of the first pass, marked when another pass has another digest. -/
def aggregateChecksum (fps : Sample (FingerprintReport F)) : Option ChecksumReport :=
  fps.first.checksum.map fun c ↦
    let disagree := (fps.toList.filterMap FingerprintReport.checksum).any fun other ↦
      other.digest != c.digest
    { c with nondeterministic := c.nondeterministic || disagree }

/-- The aggregate of a fingerprint. -/
def aggregateFingerprint (id : UInt32) (fps : Sample (FingerprintReport F)) :
    FingerprintReport F where
  id := id
  fingerprint := fps.first.fingerprint
  count := medianU64 (fps.map (·.count))
  errors := medianU64 (fps.map (·.errors))
  firstError := fps.toList.findSome? FingerprintReport.firstError
  skipped := medianU64 (fps.map (·.skipped))
  notRun := medianU64 (fps.map (·.notRun))
  p50Us := medianU64 (fps.map (·.p50Us))
  p95Us := medianU64 (fps.map (·.p95Us))
  p99Us := medianU64 (fps.map (·.p99Us))
  maxUs := medianU64 (fps.map (·.maxUs))
  meanUs := medianF64 (fps.map (·.meanUs))
  checksum := aggregateChecksum fps
  resultBytes := aggregateResultBytes fps
  sizeBuckets := aggregateSizeBuckets fps

/-- The fingerprints of the passes by id. -/
def fingerprintsById (passes : Sample (RunReport F)) :
    SortedMap UInt32 (Sample (FingerprintReport F)) :=
  group FingerprintReport.id (passes.toList.flatMap RunReport.fingerprints)

/-- Slowest first, and of these the most frequent. -/
def slowestFirst (a b : FingerprintReport F) : Ordering :=
  (compare b.p95Us a.p95Us).then (compare b.count a.count)

/-- The pacing of the run, when all passes were paced. -/
def aggregatePacing (passes : Sample (RunReport F)) : Option (PacingReport F) :=
  if passes.toList.all fun p ↦ p.pacing.isSome then
    (Sample.ofList? (passes.toList.filterMap RunReport.pacing)).map fun pacings ↦
      { speed := pacings.first.speed
        pacedEvents := medianU64 (pacings.map (·.pacedEvents))
        maxLagUs := medianU64 (pacings.map (·.maxLagUs))
        meanLagUs := medianF64 (pacings.map (·.meanLagUs)) }
  else none

/-- The totals of the run. -/
def aggregateTotals (passes : Sample (RunReport F)) : Totals F where
  events := medianU64 (passes.map (·.totals.events))
  sessions := medianU64 (passes.map (·.totals.sessions))
  executed := medianU64 (passes.map (·.totals.executed))
  skipped := medianU64 (passes.map (·.totals.skipped))
  errors := medianU64 (passes.map (·.totals.errors))
  notRun := medianU64 (passes.map (·.totals.notRun))
  connectFailures := medianU64 (passes.map (·.totals.connectFailures))
  qps := medianF64 (passes.map (·.totals.qps))
  filtered := medianU64 (passes.map (·.totals.filtered))

/-- The saturation of the run. -/
def aggregateSaturation (passes : Sample (RunReport F)) : SaturationReport F where
  samples := medianU64 (passes.map (·.saturation.samples))
  saturatedSamples := medianU64 (passes.map (·.saturation.saturatedSamples))
  saturatedPct := medianF64 (passes.map (·.saturation.saturatedPct))

/-- `aggregate_median`, of at least one pass. -/
def aggregatePasses (passes : Sample (RunReport F)) : RunReport F where
  tool := passes.first.tool
  toolVersion := passes.first.toolVersion
  captureFile := passes.first.captureFile
  captureDialect := passes.first.captureDialect
  latencySource := passes.first.latencySource
  targetUrl := passes.first.targetUrl
  targetServerVersion := passes.first.targetServerVersion
  startedAt := passes.first.startedAt
  endedAt := (passes.rest.getLastD passes.first).endedAt
  wallSecs := medianF64 (passes.map (·.wallSecs))
  aborted := passes.toList.any RunReport.aborted
  aggregation := some ⟨passes.toList.length, ascii "median"⟩
  flags := passes.first.flags
  totals := aggregateTotals passes
  saturation := aggregateSaturation passes
  pacing := aggregatePacing passes
  targetSettings := passes.first.targetSettings
  fingerprints := sortBy slowestFirst
    ((fingerprintsById passes).entries.map fun e ↦ aggregateFingerprint e.1 e.2)

/-- `aggregate_median`, which asserts that there is a pass. -/
def aggregateMedian (passes : List (RunReport F)) : Option (RunReport F) :=
  (Sample.ofList? passes).map aggregatePasses

end

end SqlReplay.Aggregate
