import Mathlib.Algebra.Order.Ring.Int
import SqlReplay.Bytes

/-!
# The metrics of a pass

Every event of a pass ends in one of four records, and each record counts twice: in the global
counters and in the aggregate of its fingerprint. The aggregates are kept with all they hold, a
histogram being the list of the values recorded in it.

The 64-bit counters are natural numbers where they count events, and wrap where the source says so
(the sum of digests) or adds up sizes.
-/

namespace SqlReplay

/-- A histogram, as the values recorded. -/
structure Histogram where
  recorded : List ℕ := []
  deriving DecidableEq, Repr

/-- `saturating_record`. -/
def Histogram.saturatingRecord (h : Histogram) (v : ℕ) : Histogram := ⟨h.recorded ++ [v]⟩

/-- `ResultChecksum`. -/
structure ResultChecksum where
  digest : UInt64
  rowCount : ℕ
  bytesTotal : ℕ
  columns : List Bytes
  deriving DecidableEq, Repr

/-- What executing one event produced checksum-wise. -/
inductive ChecksumOutcome where
  | off
  | noResult
  | set (cs : ResultChecksum)
  deriving DecidableEq, Repr

/-- What executing one event produced. -/
structure ExecOutcome where
  bytes : ℕ
  checksum : ChecksumOutcome
  deriving DecidableEq, Repr

/-! ## Aggregates of a fingerprint -/

/-- Running result-set byte stats. -/
structure FpBytesAgg where
  hist : Histogram := {}
  total : ℕ := 0
  min : ℕ := 2 ^ 64 - 1
  max : ℕ := 0
  deriving DecidableEq, Repr

/-- `FpBytesAgg::record`. -/
def FpBytesAgg.record (a : FpBytesAgg) (bytes : ℕ) : FpBytesAgg where
  hist := a.hist.saturatingRecord bytes
  total := (a.total + bytes) % 2 ^ 64
  min := Nat.min a.min bytes
  max := Nat.max a.max bytes

/-- Latency histogram of one result-size decade. -/
structure BucketAgg where
  hist : Histogram := {}
  bytesTotal : ℕ := 0
  deriving DecidableEq, Repr

/-- Order-insensitive aggregate of result checksums. -/
structure FpChecksumAgg where
  events : ℕ := 0
  noResult : ℕ := 0
  rowsTotal : ℕ := 0
  sum : UInt64 := 0
  xor : UInt64 := 0
  columns : List Bytes := []
  shapeVaried : Bool := false
  deriving DecidableEq, Repr

/-- `FpChecksumAgg::add`. -/
def FpChecksumAgg.add (a : FpChecksumAgg) : ChecksumOutcome → FpChecksumAgg
  | .off => a
  | .noResult => { a with noResult := a.noResult + 1 }
  | .set cs =>
    let first := a.columns.isEmpty && a.events + 1 == 1
    { a with
      events := a.events + 1
      rowsTotal := a.rowsTotal + cs.rowCount
      sum := a.sum + cs.digest
      xor := a.xor ^^^ cs.digest
      columns := if first then cs.columns else a.columns
      shapeVaried := if first then a.shapeVaried else a.shapeVaried || a.columns != cs.columns }

/-- `SIZE_BUCKET_BOUNDS`. -/
def sizeBucketBounds : List ℕ :=
  [1 * 2 ^ 10, 10 * 2 ^ 10, 100 * 2 ^ 10, 1 * 2 ^ 20, 10 * 2 ^ 20, 100 * 2 ^ 20]

/-- `size_bucket_index`. -/
def sizeBucketIndex (bytes : ℕ) : ℕ := sizeBucketBounds.findIdx (bytes < ·)

/-- The aggregate of one fingerprint. -/
structure FpAgg where
  hist : Histogram := {}
  executed : ℕ := 0
  errors : ℕ := 0
  firstError : Option Bytes := none
  skipped : ℕ := 0
  notRun : ℕ := 0
  checksum : Option FpChecksumAgg := none
  bytes : FpBytesAgg := {}
  /-- By index of the result-size decade. -/
  buckets : ℕ → Option BucketAgg := fun _ ↦ none

namespace FpAgg

/-- The closure of `record_ok`. -/
def ok (a : FpAgg) (micros : ℕ) (outcome : ExecOutcome) : FpAgg :=
  let i := sizeBucketIndex outcome.bytes
  let bucket := (a.buckets i).getD {}
  { a with
    executed := a.executed + 1
    hist := a.hist.saturatingRecord (max micros 1)
    bytes := a.bytes.record outcome.bytes
    buckets := Function.update a.buckets i (some
      ⟨bucket.hist.saturatingRecord (max micros 1),
        (bucket.bytesTotal + outcome.bytes) % 2 ^ 64⟩)
    checksum :=
      if outcome.checksum = .off then a.checksum
      else some ((a.checksum.getD {}).add outcome.checksum) }

/-- The closure of `record_err`: the first message is kept. -/
def err (a : FpAgg) (msg : Bytes) : FpAgg :=
  { a with
    errors := a.errors + 1
    firstError := some (a.firstError.getD msg) }

/-- The closure of `record_skip`. -/
def skip (a : FpAgg) : FpAgg := { a with skipped := a.skipped + 1 }

/-- The closure of `record_not_run`. -/
def miss (a : FpAgg) : FpAgg := { a with notRun := a.notRun + 1 }

/-- The events counted. -/
def total (a : FpAgg) : ℕ := a.executed + a.errors + a.skipped + a.notRun

end FpAgg

/-! ## Metrics -/

/-- `is_char_boundary` at `i`, below the length. -/
def isCharBoundary (s : Bytes) (i : ℕ) : Bool := i == 0 || s.getD i 0 &&& 0xC0 != 0x80

/-- The last character boundary at or below an index. -/
def charBoundaryBelow (s : Bytes) : ℕ → ℕ
  | 0 => 0
  | i + 1 => if isCharBoundary s (i + 1) then i + 1 else charBoundaryBelow s i

/-- `truncate`. The mark of an omission is U+2026. -/
def truncateText (s : Bytes) (max : ℕ) : Bytes :=
  if s.length ≤ max then s else s.take (charBoundaryBelow s max) ++ [0xE2, 0x80, 0xA6]

structure Metrics where
  perFp : UInt32 → Option FpAgg
  executed : ℕ
  skipped : ℕ
  errors : ℕ
  notRun : ℕ
  connectFailures : ℕ

namespace Metrics

/-- `Metrics::default`. -/
def new : Metrics := ⟨fun _ ↦ none, 0, 0, 0, 0, 0⟩

/-- `with_fp`. -/
def withFp (m : Metrics) (fp : UInt32) (f : FpAgg → FpAgg) : Metrics :=
  { m with perFp := Function.update m.perFp fp (some (f ((m.perFp fp).getD {}))) }

/-- `record_ok`. -/
def recordOk (m : Metrics) (fp : UInt32) (micros : ℕ) (outcome : ExecOutcome) : Metrics :=
  { m with executed := m.executed + 1 }.withFp fp (·.ok micros outcome)

/-- `record_err`. -/
def recordErr (m : Metrics) (fp : UInt32) (msg : Bytes) : Metrics :=
  { m with errors := m.errors + 1 }.withFp fp (·.err (truncateText msg 300))

/-- `record_skip`. -/
def recordSkip (m : Metrics) (fp : UInt32) : Metrics :=
  { m with skipped := m.skipped + 1 }.withFp fp (·.skip)

/-- `record_not_run`. -/
def recordNotRun (m : Metrics) (fp : UInt32) : Metrics :=
  { m with notRun := m.notRun + 1 }.withFp fp (·.miss)

/-- A failed connect is counted beside the events. -/
def connectFailure (m : Metrics) : Metrics :=
  { m with connectFailures := m.connectFailures + 1 }

/-- The events counted. -/
def total (m : Metrics) : ℕ := m.executed + m.skipped + m.errors + m.notRun

/-- The events counted under one fingerprint. -/
def totalOf (m : Metrics) (fp : UInt32) : ℕ := ((m.perFp fp).getD {}).total

/-! ## Every record counts once -/

variable (m : Metrics) (fp : UInt32)

theorem total_recordOk (micros : ℕ) (outcome : ExecOutcome) :
    (m.recordOk fp micros outcome).total = m.total + 1 := by
  simp only [recordOk, withFp, total]
  omega

theorem total_recordErr (msg : Bytes) : (m.recordErr fp msg).total = m.total + 1 := by
  simp only [recordErr, withFp, total]
  omega

theorem total_recordSkip : (m.recordSkip fp).total = m.total + 1 := by
  simp only [recordSkip, withFp, total]
  omega

theorem total_recordNotRun : (m.recordNotRun fp).total = m.total + 1 := by
  simp only [recordNotRun, withFp, total]
  omega

/-- An update of an aggregate that counts one event more counts it under its fingerprint only. -/
theorem totalOf_withFp {f : FpAgg → FpAgg} (hf : ∀ a, (f a).total = a.total + 1) (fp' : UInt32) :
    (m.withFp fp f).totalOf fp' = m.totalOf fp' + if fp = fp' then 1 else 0 := by
  unfold totalOf withFp
  dsimp only
  by_cases h : fp = fp'
  · rw [h, Function.update_self, if_pos rfl, Option.getD_some, hf]
  · rw [Function.update_of_ne (Ne.symm h), if_neg h, Nat.add_zero]

theorem totalOf_recordOk (micros : ℕ) (outcome : ExecOutcome) (fp' : UInt32) :
    (m.recordOk fp micros outcome).totalOf fp' = m.totalOf fp' + if fp = fp' then 1 else 0 :=
  totalOf_withFp _ _ (fun a ↦ by simp only [FpAgg.ok, FpAgg.total]; omega) fp'

theorem totalOf_recordErr (msg : Bytes) (fp' : UInt32) :
    (m.recordErr fp msg).totalOf fp' = m.totalOf fp' + if fp = fp' then 1 else 0 :=
  totalOf_withFp _ _ (fun a ↦ by simp only [FpAgg.err, FpAgg.total]; omega) fp'

theorem totalOf_recordSkip (fp' : UInt32) :
    (m.recordSkip fp).totalOf fp' = m.totalOf fp' + if fp = fp' then 1 else 0 :=
  totalOf_withFp _ _ (fun a ↦ by simp only [FpAgg.skip, FpAgg.total]; omega) fp'

theorem totalOf_recordNotRun (fp' : UInt32) :
    (m.recordNotRun fp).totalOf fp' = m.totalOf fp' + if fp = fp' then 1 else 0 :=
  totalOf_withFp _ _ (fun a ↦ by simp only [FpAgg.miss, FpAgg.total]; omega) fp'

end Metrics

end SqlReplay
