import Mathlib.Algebra.BigOperators.Group.Finset.Piecewise
import Mathlib.Algebra.Order.BigOperators.Group.List
import Mathlib.Algebra.Order.Group.Nat
import Mathlib.Order.Interval.Set.Defs
import SqlReplay.Data.Extremes
import SqlReplay.Replay.Metrics

/-!
# What the metrics count

Two views of one population. `Metrics` is updated call by call, in counters, a map, three histograms
and buckets made on first use; on the other side stands the list of the calls itself, from which the
executions of a fingerprint can be read off. The invariant `FpAgg.Holds` says that an aggregate
holds a given list of executions, field by field, and each call is one step: an execution of the
fingerprint is one more at the end of the list (`Holds.ok`), every other call leaves the list alone
(`Holds.of_eq`). So after any list of calls, whichever sessions made them, the aggregate of a
fingerprint holds the executions recorded under it (`holds_calls`), and what the report relies on is
read off the invariant.

The global counters are a sum over the aggregates for the same reason: a call adds one to a counter
and one to the counter of that kind in one aggregate (`sum_agg_withFp`).
-/

namespace SqlReplay

/-! ## Decades -/

/-- The result sizes of a decade, by its index in `SIZE_BUCKET_LABELS`: from one bound up to the
next, and the last has no upper bound. -/
def sizeDecade : ℕ → Set ℕ
  | 0 => Set.Iio (1 * 2 ^ 10)
  | 1 => Set.Ico (1 * 2 ^ 10) (10 * 2 ^ 10)
  | 2 => Set.Ico (10 * 2 ^ 10) (100 * 2 ^ 10)
  | 3 => Set.Ico (100 * 2 ^ 10) (1 * 2 ^ 20)
  | 4 => Set.Ico (1 * 2 ^ 20) (10 * 2 ^ 20)
  | 5 => Set.Ico (10 * 2 ^ 20) (100 * 2 ^ 20)
  | 6 => Set.Ici (100 * 2 ^ 20)
  | _ => ∅

/-- `SIZE_BUCKET_LABELS.len()`. -/
def sizeBuckets : ℕ := 7

theorem sizeBucketIndex_lt (bytes : ℕ) : sizeBucketIndex bytes < sizeBuckets := by
  have h : sizeBucketBounds.findIdx (bytes < ·) ≤ sizeBucketBounds.length :=
    List.findIdx_le_length
  exact Nat.lt_succ_of_le h

/-- The decade chosen for a size contains it, and no other does. -/
theorem mem_sizeDecade {bytes i : ℕ} : bytes ∈ sizeDecade i ↔ sizeBucketIndex bytes = i := by
  by_cases hi : sizeBuckets ≤ i
  · -- No such decade.
    obtain ⟨k, rfl⟩ := Nat.exists_eq_add_of_le' hi
    exact iff_of_false (Set.notMem_empty _) ((sizeBucketIndex_lt bytes).trans_le hi).ne
  · unfold sizeBucketIndex sizeBucketBounds
    simp only [List.findIdx_cons, List.findIdx_nil, Bool.cond_decide]
    unfold sizeBuckets at hi
    rcases i with _ | _ | _ | _ | _ | _ | _ | i
    case succ.succ.succ.succ.succ.succ.succ => omega
    all_goals
      simp only [sizeDecade, Set.mem_Iio, Set.mem_Ico, Set.mem_Ici]
      constructor
      · intro h
        split_ifs <;> omega
      · intro h
        split_ifs at h <;> omega

instance decidableMemSizeDecade (bytes i : ℕ) : Decidable (bytes ∈ sizeDecade i) :=
  decidable_of_iff _ mem_sizeDecade.symm

/-! ## Executions -/

/-- A statement executed: how long it took and how many bytes it returned. -/
structure Execution where
  micros : ℕ
  bytes : ℕ
  deriving DecidableEq, Repr

/-- The latency recorded. -/
def Execution.latency (e : Execution) : ℕ := max e.micros 1

/-- The bytes returned by a list of executions. -/
def bytesOf (l : List Execution) : ℕ := (l.map Execution.bytes).sum

theorem bytesOf_concat (l : List Execution) (e : Execution) :
    bytesOf (l ++ [e]) = bytesOf l + e.bytes := by
  unfold bytesOf
  rw [List.map_append, List.sum_append, List.map_singleton, List.sum_singleton]

/-- The executions whose result falls in a decade. -/
def inDecade (l : List Execution) (i : ℕ) : List Execution :=
  l.filter fun e ↦ decide (e.bytes ∈ sizeDecade i)

theorem inDecade_concat (l : List Execution) (e : Execution) (i : ℕ) :
    inDecade (l ++ [e]) i =
      if sizeBucketIndex e.bytes = i then inDecade l i ++ [e] else inDecade l i := by
  unfold inDecade
  rw [List.filter_append, List.filter_cons, List.filter_nil]
  by_cases h : sizeBucketIndex e.bytes = i
  · rw [if_pos h, if_pos (decide_eq_true (mem_sizeDecade.2 h))]
  · rw [if_neg h, if_neg (mt (fun hd ↦ mem_sizeDecade.1 (of_decide_eq_true hd)) h), List.append_nil]

/-- The decades share out the executions: a statistic that adds up over executions adds up over the
decades. -/
theorem sum_inDecade (f : Execution → ℕ) (l : List Execution) :
    ∑ i ∈ Finset.range sizeBuckets, ((inDecade l i).map f).sum = (l.map f).sum := by
  induction l using List.reverseRecOn with
  | nil => rfl
  | append_singleton l e ih =>
    have hstep (i : ℕ) : ((inDecade (l ++ [e]) i).map f).sum =
        ((inDecade l i).map f).sum + if sizeBucketIndex e.bytes = i then f e else 0 := by
      rw [inDecade_concat]
      by_cases h : sizeBucketIndex e.bytes = i
      · rw [if_pos h, if_pos h, List.map_append, List.sum_append, List.map_singleton,
          List.sum_singleton]
      · rw [if_neg h, if_neg h, Nat.add_zero]
    rw [Finset.sum_congr rfl fun i _ ↦ hstep i, Finset.sum_add_distrib, ih, Finset.sum_ite_eq,
      if_pos (Finset.mem_range.2 (sizeBucketIndex_lt _)), List.map_append, List.sum_append,
      List.map_singleton, List.sum_singleton]

theorem length_inDecade (l : List Execution) :
    ∑ i ∈ Finset.range sizeBuckets, (inDecade l i).length = l.length := by
  have h := sum_inDecade (fun _ ↦ 1) l
  simpa only [List.map_const', List.sum_replicate_nat, Nat.mul_one] using h

/-! ## What an aggregate holds -/

namespace FpAgg

/-- The bucket of a list of executions, which is there once there is one. -/
def bucketOf (l : List Execution) : Option BucketAgg :=
  if l = [] then none else some ⟨⟨l.map Execution.latency⟩, bytesOf l % 2 ^ 64⟩

/-- The aggregate holds these executions, in all that it keeps of them. -/
structure Holds (a : FpAgg) (l : List Execution) : Prop where
  executed : a.executed = l.length
  latencies : a.hist.recorded = l.map Execution.latency
  sizes : a.bytes.hist.recorded = l.map Execution.bytes
  total : a.bytes.total = bytesOf l % 2 ^ 64
  min : a.bytes.min = (l.map Execution.bytes).foldl Nat.min (2 ^ 64 - 1)
  max : a.bytes.max = (l.map Execution.bytes).foldl Nat.max 0
  buckets : ∀ i, a.buckets i = bucketOf (inDecade l i)

variable {a a' : FpAgg} {l : List Execution}

theorem holds_new : Holds {} [] where
  executed := rfl
  latencies := rfl
  sizes := rfl
  total := rfl
  min := rfl
  max := rfl
  buckets _ := rfl

/-- An aggregate with the same counts of executions holds the same. -/
theorem Holds.of_eq (h : a.Holds l) (hex : a'.executed = a.executed) (hhist : a'.hist = a.hist)
    (hbytes : a'.bytes = a.bytes) (hbuckets : a'.buckets = a.buckets) : a'.Holds l := by
  constructor
  · rw [hex, h.executed]
  · rw [hhist, h.latencies]
  · rw [hbytes, h.sizes]
  · rw [hbytes, h.total]
  · rw [hbytes, h.min]
  · rw [hbytes, h.max]
  · rw [hbuckets]
    exact h.buckets

/-- The bucket of one execution more, made if it is not there. -/
theorem bucketOf_concat (l : List Execution) (e : Execution) :
    bucketOf (l ++ [e]) = some
      ⟨((bucketOf l).getD {}).hist.saturatingRecord e.latency,
        (((bucketOf l).getD {}).bytesTotal + e.bytes) % 2 ^ 64⟩ := by
  unfold bucketOf
  rw [if_neg (List.append_ne_nil_of_right_ne_nil l (List.cons_ne_nil _ _)), bytesOf_concat,
    List.map_append]
  by_cases hl : l = []
  · subst hl
    rfl
  · rw [if_neg hl, Option.getD_some, Nat.mod_add_mod]
    rfl

/-- `record_ok` adds one execution. -/
theorem Holds.ok (h : a.Holds l) (micros : ℕ) (outcome : ExecOutcome) :
    (a.ok micros outcome).Holds (l ++ [⟨micros, outcome.bytes⟩]) where
  executed := by rw [List.length_append, ← h.executed]; rfl
  latencies := by rw [List.map_append, ← h.latencies]; rfl
  sizes := by rw [List.map_append, ← h.sizes]; rfl
  total := by
    rw [bytesOf_concat, ← Nat.mod_add_mod, ← h.total]
    rfl
  min := by
    rw [List.map_append, List.foldl_append, ← h.min]
    rfl
  max := by
    rw [List.map_append, List.foldl_append, ← h.max]
    rfl
  buckets i := by
    rw [inDecade_concat]
    dsimp only [FpAgg.ok]
    by_cases hi : sizeBucketIndex outcome.bytes = i
    · -- The execution's own decade.
      rw [if_pos hi, bucketOf_concat, ← hi, Function.update_self, h.buckets]
      rfl
    · rw [if_neg hi, Function.update_of_ne (Ne.symm hi), h.buckets]

/-! ## What the report relies on -/

/-- `Histogram::len`. -/
def histLen (h : Histogram) : ℕ := h.recorded.length

/-- The bucket of a decade, empty before its first execution. -/
def bucket (a : FpAgg) (i : ℕ) : BucketAgg := (a.buckets i).getD {}

/-- All parts of an aggregate count the same executions. -/
structure Consistent (a : FpAgg) (l : List Execution) : Prop where
  executed : a.executed = l.length
  hist : histLen a.hist = a.executed
  bytesHist : histLen a.bytes.hist = a.executed
  bucketHists : ∑ i ∈ Finset.range sizeBuckets, histLen (a.bucket i).hist = a.executed
  total : a.bytes.total = bytesOf l
  bucketBytes : ∑ i ∈ Finset.range sizeBuckets, (a.bucket i).bytesTotal = a.bytes.total
  /-- With an execution, the extremes are sizes recorded, and bound them all. -/
  min : l ≠ [] → IsLeast {b | b ∈ l.map Execution.bytes} a.bytes.min
  max : l ≠ [] → IsGreatest {b | b ∈ l.map Execution.bytes} a.bytes.max
  /-- A bucket counts the executions of its decade. -/
  decade : ∀ i, (a.bucket i).hist.recorded = (inDecade l i).map Execution.latency

theorem hist_bucketOf (l : List Execution) :
    ((bucketOf l).getD {}).hist.recorded = l.map Execution.latency := by
  unfold bucketOf
  by_cases hl : l = []
  · rw [if_pos hl, hl]
    rfl
  · rw [if_neg hl]
    rfl

theorem bytesTotal_bucketOf {l : List Execution} (h : bytesOf l < 2 ^ 64) :
    ((bucketOf l).getD {}).bytesTotal = bytesOf l := by
  unfold bucketOf
  by_cases hl : l = []
  · rw [if_pos hl, hl]
    rfl
  · rw [if_neg hl]
    exact Nat.mod_eq_of_lt h

theorem bytesOf_inDecade_le (l : List Execution) (i : ℕ) : bytesOf (inDecade l i) ≤ bytesOf l :=
  List.Sublist.sum_le_sum (List.filter_sublist.map _) fun _ _ ↦ Nat.zero_le _

/-- What an aggregate holds is consistent, as long as the sum of the sizes fits the counter. -/
theorem Holds.consistent (h : a.Holds l) (hsum : bytesOf l < 2 ^ 64) : a.Consistent l := by
  have hdecade (i : ℕ) : (a.bucket i).hist.recorded = (inDecade l i).map Execution.latency := by
    unfold bucket
    rw [h.buckets, hist_bucketOf]
  have hlen (i : ℕ) : histLen (a.bucket i).hist = (inDecade l i).length := by
    unfold histLen
    rw [hdecade, List.length_map]
  have hbytes (i : ℕ) : (a.bucket i).bytesTotal = bytesOf (inDecade l i) := by
    unfold bucket
    rw [h.buckets, bytesTotal_bucketOf ((bytesOf_inDecade_le l i).trans_lt hsum)]
  have htotal : a.bytes.total = bytesOf l := by
    rw [h.total, Nat.mod_eq_of_lt hsum]
  have hle : ∀ b ∈ l.map Execution.bytes, b ≤ 2 ^ 64 - 1 := fun b hb ↦
    Nat.le_sub_one_of_lt ((List.single_le_sum (fun _ _ ↦ Nat.zero_le _) b hb).trans_lt hsum)
  refine ⟨h.executed, ?_, ?_, ?_, htotal, ?_, fun hl ↦ ?_, fun hl ↦ ?_, hdecade⟩
  · unfold histLen
    rw [h.latencies, List.length_map, h.executed]
  · unfold histLen
    rw [h.sizes, List.length_map, h.executed]
  · rw [Finset.sum_congr rfl fun i _ ↦ hlen i, length_inDecade, h.executed]
  · rw [Finset.sum_congr rfl fun i _ ↦ hbytes i, htotal]
    exact sum_inDecade Execution.bytes l
  · rw [h.min]
    exact isLeast_foldl_min_of_le (mt List.map_eq_nil_iff.mp hl) hle
  · rw [h.max]
    exact isGreatest_foldl_max_of_le (mt List.map_eq_nil_iff.mp hl) fun _ _ ↦ Nat.zero_le _

end FpAgg

/-! ## Calls -/

/-- A call of one of the four recorders. -/
inductive RecordCall where
  | ok (fp : UInt32) (micros : ℕ) (outcome : ExecOutcome)
  | err (fp : UInt32) (msg : Bytes)
  | skip (fp : UInt32)
  | notRun (fp : UInt32)

namespace RecordCall

/-- The fingerprint recorded under. -/
def fp : RecordCall → UInt32
  | ok fp _ _ => fp
  | err fp _ => fp
  | skip fp => fp
  | notRun fp => fp

/-- What the call does to the aggregate of its fingerprint. -/
def update : RecordCall → FpAgg → FpAgg
  | ok _ micros outcome => (·.ok micros outcome)
  | err _ msg => (·.err (truncateText msg 300))
  | skip _ => (·.skip)
  | notRun _ => (·.miss)

/-- The execution recorded. -/
def execution? : RecordCall → Option Execution
  | ok _ micros outcome => some ⟨micros, outcome.bytes⟩
  | _ => none

/-- The execution recorded is all that a call adds to what an aggregate holds. -/
theorem holds_update {a : FpAgg} {l : List Execution} (h : a.Holds l) (c : RecordCall) :
    (c.update a).Holds (l ++ c.execution?.toList) := by
  have hkeep {a' : FpAgg} (ha : a'.Holds l) : a'.Holds (l ++ []) := by
    rwa [List.append_nil]
  cases c with
  | ok fp micros outcome => exact h.ok micros outcome
  | err fp msg => exact hkeep (h.of_eq rfl rfl rfl rfl)
  | skip fp => exact hkeep (h.of_eq rfl rfl rfl rfl)
  | notRun fp => exact hkeep (h.of_eq rfl rfl rfl rfl)

end RecordCall

/-- The executions recorded under a fingerprint, in the order of the calls. -/
def executionsOf (fp : UInt32) (calls : List RecordCall) : List Execution :=
  (calls.filter (·.fp == fp)).filterMap RecordCall.execution?

/-- The fingerprints recorded under. -/
def fingerprintsOf (calls : List RecordCall) : Finset UInt32 := (calls.map RecordCall.fp).toFinset

namespace Metrics

/-- One call. -/
def call (m : Metrics) : RecordCall → Metrics
  | .ok fp micros outcome => m.recordOk fp micros outcome
  | .err fp msg => m.recordErr fp msg
  | .skip fp => m.recordSkip fp
  | .notRun fp => m.recordNotRun fp

/-- The metrics after a list of calls. -/
def calls (l : List RecordCall) : Metrics := l.foldl call new

/-- The aggregate of a fingerprint, empty before its first call. -/
def agg (m : Metrics) (fp : UInt32) : FpAgg := (m.perFp fp).getD {}

theorem calls_concat (l : List RecordCall) (c : RecordCall) :
    calls (l ++ [c]) = (calls l).call c := by
  unfold calls
  rw [List.foldl_append]
  rfl

theorem perFp_call (m : Metrics) (c : RecordCall) :
    (m.call c).perFp = Function.update m.perFp c.fp (some (c.update (m.agg c.fp))) := by
  cases c <;> rfl

theorem agg_call (m : Metrics) (c : RecordCall) (fp : UInt32) :
    (m.call c).agg fp = if c.fp = fp then c.update (m.agg fp) else m.agg fp := by
  unfold agg
  rw [perFp_call]
  by_cases h : c.fp = fp
  · rw [h, Function.update_self, if_pos rfl, Option.getD_some]
    rfl
  · rw [Function.update_of_ne (Ne.symm h), if_neg h]

/-- After any calls, the aggregate of a fingerprint holds the executions recorded under it. -/
theorem holds_calls (l : List RecordCall) (fp : UInt32) :
    ((calls l).agg fp).Holds (executionsOf fp l) := by
  induction l using List.reverseRecOn with
  | nil => exact FpAgg.holds_new
  | append_singleton l c ih =>
    unfold executionsOf
    rw [calls_concat, agg_call, List.filter_append, List.filterMap_append, List.filter_cons,
      List.filter_nil]
    by_cases h : c.fp = fp
    · rw [if_pos h, if_pos (beq_iff_eq.2 h)]
      have hc := RecordCall.holds_update ih c
      cases hex : c.execution? with
      | none =>
        rw [List.filterMap_cons_none hex]
        rwa [hex] at hc
      | some e =>
        rw [List.filterMap_cons_some hex]
        rwa [hex] at hc
    · rw [if_neg h, if_neg (mt beq_iff_eq.1 h), List.filterMap_nil, List.append_nil]
      exact ih

/-- The fingerprints with an aggregate are those recorded under. -/
theorem isSome_perFp_calls (l : List RecordCall) (fp : UInt32) :
    ((calls l).perFp fp).isSome ↔ fp ∈ fingerprintsOf l := by
  unfold fingerprintsOf
  rw [List.mem_toFinset]
  induction l using List.reverseRecOn with
  | nil => exact iff_of_false Bool.false_ne_true List.not_mem_nil
  | append_singleton l c ih =>
    rw [calls_concat, perFp_call, List.map_append, List.mem_append, ← ih, List.map_singleton,
      List.mem_singleton]
    by_cases h : fp = c.fp
    · rw [h, Function.update_self]
      exact iff_of_true rfl (Or.inr rfl)
    · rw [Function.update_of_ne h]
      exact (or_iff_left h).symm

/-! ## The global counters -/

/-- The four counters kept twice. -/
inductive Counter where
  | executed
  | errors
  | skipped
  | notRun
  deriving DecidableEq

end Metrics

open Metrics

/-- The counter a call moves. -/
def RecordCall.counter : RecordCall → Counter
  | ok _ _ _ => .executed
  | err _ _ => .errors
  | skip _ => .skipped
  | notRun _ => .notRun

/-- The counters of a fingerprint. -/
def FpAgg.counter (a : FpAgg) : Counter → ℕ
  | .executed => a.executed
  | .errors => a.errors
  | .skipped => a.skipped
  | .notRun => a.notRun

theorem FpAgg.counter_update (a : FpAgg) (c : RecordCall) (k : Counter) :
    (c.update a).counter k = a.counter k + if c.counter = k then 1 else 0 := by
  cases c <;> cases k <;> rfl

namespace Metrics

/-- The global counters. -/
def counter (m : Metrics) : Counter → ℕ
  | .executed => m.executed
  | .errors => m.errors
  | .skipped => m.skipped
  | .notRun => m.notRun

theorem counter_call (m : Metrics) (c : RecordCall) (k : Counter) :
    (m.call c).counter k = m.counter k + if c.counter = k then 1 else 0 := by
  cases c <;> cases k <;> rfl

/-- A call moves the sum over the aggregates as it moves the aggregate of its fingerprint. -/
theorem sum_agg_call (m : Metrics) (c : RecordCall) (k : Counter) {s : Finset UInt32}
    (hs : c.fp ∈ s) :
    ∑ fp ∈ s, ((m.call c).agg fp).counter k =
      ∑ fp ∈ s, (m.agg fp).counter k + if c.counter = k then 1 else 0 := by
  have hstep (fp : UInt32) : ((m.call c).agg fp).counter k =
      (m.agg fp).counter k + if c.fp = fp then if c.counter = k then 1 else 0 else 0 := by
    rw [agg_call]
    by_cases h : c.fp = fp
    · rw [if_pos h, if_pos h, FpAgg.counter_update]
    · rw [if_neg h, if_neg h, Nat.add_zero]
  rw [Finset.sum_congr rfl fun fp _ ↦ hstep fp, Finset.sum_add_distrib, Finset.sum_ite_eq,
    if_pos hs]

/-- After any calls, a global counter is the sum over the fingerprints recorded under. -/
theorem counter_calls (k : Counter) {l : List RecordCall} {s : Finset UInt32}
    (hs : ∀ c ∈ l, c.fp ∈ s) :
    (calls l).counter k = ∑ fp ∈ s, ((calls l).agg fp).counter k := by
  induction l using List.reverseRecOn with
  | nil =>
    have hnew : (calls []).counter k = 0 := by cases k <;> rfl
    have hempty (fp : UInt32) : ((calls []).agg fp).counter k = 0 := by cases k <;> rfl
    rw [hnew, Finset.sum_eq_zero fun fp _ ↦ hempty fp]
  | append_singleton l c ih =>
    rw [calls_concat, counter_call, ih fun c' hc' ↦ hs c' (List.mem_append_left _ hc'),
      sum_agg_call _ _ _ (hs c (List.mem_append_right _ (List.mem_singleton_self c)))]

/-! ## One population -/

/-- Whatever is recorded, in whichever order: the global counters are the sums over the fingerprints
with an aggregate, and all parts of each aggregate count the executions recorded under it, as long
as their sizes add up to a 64-bit number. -/
theorem calls_consistent (l : List RecordCall)
    (hsum : ∀ fp, bytesOf (executionsOf fp l) < 2 ^ 64) :
    (calls l).executed = ∑ fp ∈ fingerprintsOf l, ((calls l).agg fp).executed ∧
    (calls l).errors = ∑ fp ∈ fingerprintsOf l, ((calls l).agg fp).errors ∧
    (calls l).skipped = ∑ fp ∈ fingerprintsOf l, ((calls l).agg fp).skipped ∧
    (calls l).notRun = ∑ fp ∈ fingerprintsOf l, ((calls l).agg fp).notRun ∧
    (∀ fp, ((calls l).perFp fp).isSome ↔ fp ∈ fingerprintsOf l) ∧
    (∀ fp, ((calls l).agg fp).Consistent (executionsOf fp l)) ∧
    ∀ bytes, ∃! i, bytes ∈ sizeDecade i := by
  have hs : ∀ c ∈ l, c.fp ∈ fingerprintsOf l := fun c hc ↦
    List.mem_toFinset.2 (List.mem_map_of_mem hc)
  refine ⟨counter_calls .executed hs, counter_calls .errors hs, counter_calls .skipped hs,
    counter_calls .notRun hs, isSome_perFp_calls l,
    fun fp ↦ (holds_calls l fp).consistent (hsum fp),
    fun bytes ↦ ⟨sizeBucketIndex bytes, mem_sizeDecade.2 rfl, fun i hi ↦ ?_⟩⟩
  exact (mem_sizeDecade.1 hi).symm

theorem calls_consistent_sample :
    ((calls [.ok 7 12 ⟨2048, .off⟩, .notRun 7, .ok 7 0 ⟨0, .off⟩, .err 9 [0x78]]).agg 7).Consistent
      [⟨12, 2048⟩, ⟨0, 0⟩] := by
  refine (calls_consistent [.ok 7 12 ⟨2048, .off⟩, .notRun 7, .ok 7 0 ⟨0, .off⟩, .err 9 [0x78]]
    fun fp ↦ ?_).2.2.2.2.2.1 7
  by_cases h7 : (7 : UInt32) = fp
  · subst h7
    decide
  · have hnone : executionsOf fp [.ok 7 12 ⟨2048, .off⟩, .notRun 7, .ok 7 0 ⟨0, .off⟩,
        .err 9 [0x78]] = [] := by
      simp [executionsOf, RecordCall.fp, RecordCall.execution?, List.filter_cons, h7]
    rw [hnone]
    decide

end Metrics

end SqlReplay
