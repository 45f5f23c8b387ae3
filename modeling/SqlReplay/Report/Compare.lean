import SqlReplay.Checksum.OrderFree
import Mathlib.Data.Nat.Cast.Defs

/-!
# Comparing two runs

`compare_runs` matches the fingerprints of two reports by their text and sorts each pair into one of
four lists by the change of its p95 latency; a pair that has not regressed as a whole is looked at
once more by size decade. The verdicts are one half of the result and the correctness of the results
the other.

The numbers are generic: `F` has the operations and the comparisons of `f64` that the source uses,
and nothing is assumed of them. The change of a p95 is finite, since both latencies are integers, so
a change that has no percentage ranks above all that have one (`f64::INFINITY`).

Left out is what the reader is told beside the verdicts: the warnings, the settings diff, the totals
and the notes.
-/

namespace SqlReplay

/-! ## Reports -/

/-- `SizeBucketReport`. -/
structure SizeBucketReport (F : Type) where
  bucket : Bytes
  count : ℕ
  p50Us : ℕ
  p95Us : ℕ
  meanUs : F
  bytesTotal : ℕ

/-- `ResultBytesReport`. -/
structure ResultBytesReport (F : Type) where
  mean : F
  total : ℕ

/-- `FingerprintReport`. -/
structure FingerprintReport (F : Type) where
  fingerprint : Bytes
  count : ℕ
  errors : ℕ
  p50Us : ℕ
  p95Us : ℕ
  p99Us : ℕ
  meanUs : F
  checksum : Option ChecksumReport
  resultBytes : Option (ResultBytesReport F)
  sizeBuckets : List (SizeBucketReport F)

/-- `RunReport`: the fingerprints, and whether the run recorded checksums. -/
structure RunReport (F : Type) where
  checksum : Bool
  fingerprints : List (FingerprintReport F)

/-- `CompareOptions`. -/
structure CompareOptions (F : Type) where
  thresholdPct : F
  minCount : ℕ

/-! ## Deltas -/

/-- `MetricDelta`. -/
structure MetricDelta (F : Type) where
  baselineUs : F
  candidateUs : F
  deltaUs : F
  /-- `none` when the baseline value is zero. -/
  deltaPct : Option F

/-- `BytesDelta`. -/
structure BytesDelta (F : Type) where
  baselineMean : F
  candidateMean : F
  meanDeltaPct : Option F
  baselineTotal : ℕ
  candidateTotal : ℕ

/-- `FpDelta`. The error delta is an `i64` in the source, which counts below 2^63 fit. -/
structure FpDelta (F : Type) where
  fingerprint : Bytes
  baselineCount : ℕ
  candidateCount : ℕ
  countMismatch : Bool
  baselineErrors : ℕ
  candidateErrors : ℕ
  errorDelta : ℤ
  p50 : MetricDelta F
  p95 : MetricDelta F
  p99 : MetricDelta F
  mean : MetricDelta F
  resultBytes : Option (BytesDelta F)

/-- `BucketDelta`. -/
structure BucketDelta (F : Type) where
  fingerprint : Bytes
  bucket : Bytes
  baselineCount : ℕ
  candidateCount : ℕ
  countMismatch : Bool
  p50 : MetricDelta F
  p95 : MetricDelta F
  mean : MetricDelta F
  baselineBytesTotal : ℕ
  candidateBytesTotal : ℕ

/-- `OnlyIn`. -/
structure OnlyIn where
  fingerprint : Bytes
  count : ℕ
  errors : ℕ
  deriving DecidableEq, Repr

/-- `ChecksumDelta`. -/
structure ChecksumDelta where
  fingerprint : Bytes
  baselineDigest : Bytes
  candidateDigest : Bytes
  baselineRows : ℕ
  candidateRows : ℕ
  baselineEvents : ℕ
  candidateEvents : ℕ
  columnsDiffer : Bool
  nondeterministic : Bool
  eventsDiffer : Bool
  deriving DecidableEq, Repr

/-- `CorrectnessReport`, without its note. -/
structure CorrectnessReport where
  checked : ℕ := 0
  matched : ℕ := 0
  mismatches : List ChecksumDelta := []
  advisory : List ChecksumDelta := []
  deriving DecidableEq, Repr

/-- `CompareReport`: the verdicts. -/
structure CompareReport (F : Type) where
  regressions : List (FpDelta F)
  improvements : List (FpDelta F)
  stable : List (FpDelta F)
  lowSample : List (FpDelta F)
  onlyInBaseline : List OnlyIn
  onlyInCandidate : List OnlyIn
  countMismatches : ℕ
  regressed : Bool
  correctness : Option CorrectnessReport
  correctnessFailed : Bool
  sizeRegressions : List (BucketDelta F)
  sizeBucketsChecked : ℕ
  sizeRegressed : Bool

section Compare

variable {F : Type} [NatCast F] [OfNat F 100] [Sub F] [Mul F] [Div F] [Neg F] [LE F] [LT F]
  [DecidableLE F] [DecidableLT F] [Ord F]

/-- `pct_change`. -/
def pctChange (base cand : F) : Option F :=
  if ((0 : ℕ) : F) < base then some ((cand - base) / base * 100) else none

/-- `MetricDelta::new`. -/
def MetricDelta.new (baselineUs candidateUs : F) : MetricDelta F :=
  ⟨baselineUs, candidateUs, candidateUs - baselineUs, pctChange baselineUs candidateUs⟩

/-- The delta of a matched fingerprint. -/
def FpDelta.new (b c : FingerprintReport F) : FpDelta F where
  fingerprint := b.fingerprint
  baselineCount := b.count
  candidateCount := c.count
  countMismatch := b.count != c.count
  baselineErrors := b.errors
  candidateErrors := c.errors
  errorDelta := c.errors - b.errors
  p50 := .new (b.p50Us : F) (c.p50Us : F)
  p95 := .new (b.p95Us : F) (c.p95Us : F)
  p99 := .new (b.p99Us : F) (c.p99Us : F)
  mean := .new b.meanUs c.meanUs
  resultBytes := match b.resultBytes, c.resultBytes with
    | some bb, some cb => some ⟨bb.mean, cb.mean, pctChange bb.mean cb.mean, bb.total, cb.total⟩
    | _, _ => none

/-- The delta of a size decade. -/
def BucketDelta.new (fingerprint : Bytes) (bb cb : SizeBucketReport F) : BucketDelta F where
  fingerprint := fingerprint
  bucket := bb.bucket
  baselineCount := bb.count
  candidateCount := cb.count
  countMismatch := bb.count != cb.count
  p50 := .new (bb.p50Us : F) (cb.p50Us : F)
  p95 := .new (bb.p95Us : F) (cb.p95Us : F)
  mean := .new bb.meanUs cb.meanUs
  baselineBytesTotal := bb.bytesTotal
  candidateBytesTotal := cb.bytesTotal

/-! ## Verdicts -/

/-- Where a matched fingerprint is listed. -/
inductive Verdict where
  | lowSample
  | regressed
  | improved
  | stable
  deriving DecidableEq, Repr

/-- Too few samples on a side for a comparison. -/
def tooFew (options : CompareOptions F) (baseCount candCount : ℕ) : Bool :=
  baseCount == 0 || candCount == 0 || baseCount < options.minCount || candCount < options.minCount

/-- The verdict on a matched fingerprint. Without a percentage any latency at all is a
regression. -/
def verdict (options : CompareOptions F) (b c : FingerprintReport F) : Verdict :=
  if tooFew options b.count c.count then .lowSample
  else
    let p95 : MetricDelta F := .new (b.p95Us : F) (c.p95Us : F)
    match p95.deltaPct with
    | some p =>
      if options.thresholdPct ≤ p then .regressed
      else if p ≤ -options.thresholdPct then .improved
      else .stable
    | none => if ((0 : ℕ) : F) < p95.candidateUs then .regressed else .stable

/-- The verdict on a size decade. -/
def bucketRegressed (options : CompareOptions F) (bb cb : SizeBucketReport F) : Bool :=
  let p95 : MetricDelta F := .new (bb.p95Us : F) (cb.p95Us : F)
  match p95.deltaPct with
  | some p => options.thresholdPct ≤ p
  | none => ((0 : ℕ) : F) < p95.candidateUs

/-- A map collected from a list: of several entries with one key the last stays. -/
def lastWith {α : Type} (key : α → Bytes) (k : Bytes) (l : List α) : Option α :=
  l.reverse.find? fun x ↦ key x == k

/-- The entry with a text (`cand_by_text`). -/
def RunReport.byText (r : RunReport F) (text : Bytes) : Option (FingerprintReport F) :=
  lastWith FingerprintReport.fingerprint text r.fingerprints

/-- The candidate's decade with the same label, when both have samples enough. -/
def comparableBucket (options : CompareOptions F) (c : FingerprintReport F)
    (bb : SizeBucketReport F) : Option (SizeBucketReport F) :=
  (lastWith SizeBucketReport.bucket bb.bucket c.sizeBuckets).filter
    fun cb ↦ !tooFew options bb.count cb.count

/-- The size decades that have regressed inside a matched fingerprint. -/
def bucketDeltas (options : CompareOptions F) (b c : FingerprintReport F) : List (BucketDelta F) :=
  b.sizeBuckets.filterMap fun bb ↦ (comparableBucket options c bb).bind fun cb ↦
    if bucketRegressed options bb cb then some (.new b.fingerprint bb cb) else none

/-! ## Correctness -/

/-- The checksums of a matched fingerprint, where both sides have some. -/
def comparableChecksums (b c : FingerprintReport F) : Option (ChecksumReport × ChecksumReport) :=
  match b.checksum, c.checksum with
  | some bc, some cc => if 0 < bc.events ∧ 0 < cc.events then some (bc, cc) else none
  | _, _ => none

/-- The delta of checksums whose digests differ. -/
def ChecksumDelta.new (fingerprint : Bytes) (bc cc : ChecksumReport) : ChecksumDelta where
  fingerprint := fingerprint
  baselineDigest := bc.digest
  candidateDigest := cc.digest
  baselineRows := bc.rowsTotal
  candidateRows := cc.rowsTotal
  baselineEvents := bc.events
  candidateEvents := cc.events
  columnsDiffer := bc.columns != cc.columns
  nondeterministic := bc.nondeterministic || cc.nondeterministic
  eventsDiffer := bc.events != cc.events

/-- A matched fingerprint in the correctness report. -/
def CorrectnessReport.check (r : CorrectnessReport) (b c : FingerprintReport F) :
    CorrectnessReport :=
  match comparableChecksums b c with
  | none => r
  | some (bc, cc) =>
    let r := { r with checked := r.checked + 1 }
    if bc.digest = cc.digest then { r with matched := r.matched + 1 }
    else
      let delta := ChecksumDelta.new b.fingerprint bc cc
      if delta.nondeterministic || delta.eventsDiffer then
        { r with advisory := r.advisory ++ [delta] }
      else { r with mismatches := r.mismatches ++ [delta] }

/-! ## The loop over the baseline -/

/-- The lists that the loop fills. -/
structure Comparison (F : Type) where
  regressions : List (FpDelta F) := []
  improvements : List (FpDelta F) := []
  stable : List (FpDelta F) := []
  lowSample : List (FpDelta F) := []
  onlyInBaseline : List OnlyIn := []
  countMismatches : ℕ := 0
  correctness : Option CorrectnessReport
  sizeRegressions : List (BucketDelta F) := []
  sizeBucketsChecked : ℕ := 0

namespace Comparison

/-- A delta goes to the list of its verdict. -/
def push (r : Comparison F) (delta : FpDelta F) : Verdict → Comparison F
  | .lowSample => { r with lowSample := r.lowSample ++ [delta] }
  | .regressed => { r with regressions := r.regressions ++ [delta] }
  | .improved => { r with improvements := r.improvements ++ [delta] }
  | .stable => { r with stable := r.stable ++ [delta] }

/-- The size decades of a matched fingerprint; they are not reported inside one that has regressed
as a whole. -/
def pushBuckets (options : CompareOptions F) (r : Comparison F) (b c : FingerprintReport F) :
    Comparison F :=
  { r with
    sizeBucketsChecked :=
      r.sizeBucketsChecked + b.sizeBuckets.countP fun bb ↦ (comparableBucket options c bb).isSome
    sizeRegressions :=
      if verdict options b c = .regressed then r.sizeRegressions
      else r.sizeRegressions ++ bucketDeltas options b c }

/-- One fingerprint of the baseline. -/
def step (options : CompareOptions F) (candidate : RunReport F) (r : Comparison F)
    (b : FingerprintReport F) : Comparison F :=
  match candidate.byText b.fingerprint with
  | none => { r with onlyInBaseline := r.onlyInBaseline ++ [⟨b.fingerprint, b.count, b.errors⟩] }
  | some c =>
    let r := { r with
      countMismatches := if b.count ≠ c.count then r.countMismatches + 1 else r.countMismatches
      correctness := r.correctness.map fun q ↦ CorrectnessReport.check q b c }
    (r.push (.new b c) (verdict options b c)).pushBuckets options b c

end Comparison

/-! ## Ranking -/

/-- The order of changes, one without a percentage above all others. -/
def comparePct : Option F → Option F → Ordering
  | none, none => .eq
  | none, some _ => .gt
  | some _, none => .lt
  | some p, some q => compare p q

/-- A stable sort by a comparison. -/
def sortBy {α : Type} (cmp : α → α → Ordering) (l : List α) : List α :=
  l.mergeSort fun a b ↦ (cmp a b).isLE

/-- The percentage by which improvements and low samples rank. -/
def FpDelta.pct (d : FpDelta F) : F := d.p95.deltaPct.getD ((0 : ℕ) : F)

/-- Worst first, ties by the absolute change. -/
def worseP95 (a b : MetricDelta F) : Ordering :=
  (comparePct b.deltaPct a.deltaPct).then (compare b.deltaUs a.deltaUs)

/-- How far the row counts are apart. -/
def ChecksumDelta.rowsApart (d : ChecksumDelta) : ℕ :=
  (d.baselineRows - d.candidateRows) + (d.candidateRows - d.baselineRows)

/-- `Reverse(baseline_rows.abs_diff(candidate_rows))`. -/
def moreRowsApart (a b : ChecksumDelta) : Ordering := compare b.rowsApart a.rowsApart

/-- The fingerprints of the candidate that the baseline does not have. -/
def onlyInCandidate (baseline candidate : RunReport F) : List OnlyIn :=
  (candidate.fingerprints.filter fun c ↦
    !(baseline.fingerprints.map FingerprintReport.fingerprint).elem c.fingerprint).map
      fun c ↦ ⟨c.fingerprint, c.count, c.errors⟩

/-- The loop over the baseline. -/
def comparison (options : CompareOptions F) (baseline candidate : RunReport F) : Comparison F :=
  baseline.fingerprints.foldl (Comparison.step options candidate)
    { correctness := if baseline.checksum && candidate.checksum then some {} else none }

/-- `compare_runs`. -/
def compareRuns (options : CompareOptions F) (baseline candidate : RunReport F) :
    CompareReport F :=
  let r := comparison options baseline candidate
  { regressions := sortBy (fun a b ↦ worseP95 a.p95 b.p95) r.regressions
    improvements := sortBy (fun a b ↦
      (compare a.pct b.pct).then (compare a.p95.deltaUs b.p95.deltaUs)) r.improvements
    stable := r.stable
    lowSample := sortBy (fun a b ↦ compare b.pct a.pct) r.lowSample
    onlyInBaseline := sortBy (fun a b ↦ compare b.count a.count) r.onlyInBaseline
    onlyInCandidate :=
      sortBy (fun a b ↦ compare b.count a.count) (onlyInCandidate baseline candidate)
    countMismatches := r.countMismatches
    regressed := !r.regressions.isEmpty
    correctness := r.correctness.map fun c ↦ { c with
      mismatches := sortBy moreRowsApart c.mismatches
      advisory := sortBy moreRowsApart c.advisory }
    correctnessFailed := r.correctness.any fun c ↦ !c.mismatches.isEmpty
    sizeRegressions := sortBy (fun a b ↦ worseP95 a.p95 b.p95) r.sizeRegressions
    sizeBucketsChecked := r.sizeBucketsChecked
    sizeRegressed := !r.sizeRegressions.isEmpty }

/-- What makes the exit status 2. -/
def CompareReport.gateFails (r : CompareReport F) : Bool :=
  r.regressed || r.sizeRegressed || r.correctnessFailed

end Compare

end SqlReplay
