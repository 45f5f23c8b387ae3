import SqlReplay.Data.FloatArithmetic
import SqlReplay.Data.Reordered
import SqlReplay.Report.Complete

/-!
# The order of two reports

A report lists its fingerprints in some order, and the tasks of a replay may leave another one
behind. A comparison does not depend on it: each entry of the baseline adds to the lists what it has
to add (`Comparison.step_eq_append`), found by its text in the candidate, and what two entries add
is the same in either order. Only entries that rank the same can change places in the result.
-/

namespace SqlReplay

theorem mem_of_lastWith {α : Type} {key : α → Bytes} {k : Bytes} {l : List α} {a : α}
    (h : lastWith key k l = some a) : a ∈ l :=
  List.mem_reverse.mp (List.mem_of_find?_eq_some h)

/-- Where keys are unique, the order does not matter for a map. -/
theorem lastWith_perm {α : Type} {key : α → Bytes} {l l' : List α} (h : l.Perm l')
    (hunique : (l.map key).Nodup) (k : Bytes) : lastWith key k l = lastWith key k l' := by
  cases hlast : lastWith key k l with
  | none =>
    rw [eq_comm, lastWith_eq_none, ← (h.map key).mem_iff]
    exact (lastWith_eq_none key).mp hlast
  | some a =>
    cases hlast' : lastWith key k l' with
    | none =>
      refine absurd ?_ ((lastWith_eq_none key).mp hlast')
      rw [← key_of_lastWith key hlast]
      exact List.mem_map_of_mem (h.mem_iff.mp (mem_of_lastWith hlast))
    | some a' =>
      have hkey : key a = key a' :=
        (key_of_lastWith key hlast).trans (key_of_lastWith key hlast').symm
      exact congrArg some (List.inj_on_of_nodup_map hunique (mem_of_lastWith hlast)
        (h.mem_iff.mpr (mem_of_lastWith hlast')) hkey)

/-! ## Ranks -/

section Rank

open Std

variable {F : Type} [Ord F]

theorem transCmp_comparePct [TransOrd F] : TransCmp (comparePct (F := F)) where
  eq_swap := by
    rintro (_ | p) (_ | q)
    · rfl
    · rfl
    · rfl
    · exact OrientedOrd.eq_swap (α := F)
  isLE_trans := by
    -- what has no percentage stands above all that have one
    rintro (_ | p) (_ | q) (_ | r) h h'
    · rfl
    · exact h'
    · rfl
    · exact h
    · rfl
    · exact absurd h' Bool.false_ne_true
    · rfl
    · exact TransOrd.isLE_trans h h'

theorem lawfulEqCmp_comparePct [LawfulEqOrd F] : LawfulEqCmp (comparePct (F := F)) where
  compare_self := by
    rintro (_ | p)
    · rfl
    · exact ReflOrd.compare_self
  eq_of_compare := by
    rintro (_ | p) (_ | q) h
    · rfl
    · exact Ordering.noConfusion h
    · exact Ordering.noConfusion h
    · exact congrArg some (LawfulEqOrd.eq_of_compare h)

end Rank

namespace F64

/-- The place of a double in the total order. -/
def totalKey (x : F64) : ℤ := if x.isNegative then -x.magnitude - 1 else x.magnitude

theorem totalKey_injective {x y : F64} (h : x.totalKey = y.totalKey) : x = y := by
  have hx := x.bits.toNat_lt
  have hy := y.bits.toNat_lt
  have hbits : x.bits.toNat = y.bits.toNat := by
    simp only [totalKey, isNegative, magnitude, decide_eq_true_eq] at h
    split_ifs at h <;> omega
  cases x
  cases y
  exact congrArg F64.mk (UInt64.toNat_inj.mp hbits)

instance instTransOrd : Std.TransOrd F64 where
  eq_swap := Std.OrientedOrd.eq_swap (α := ℤ)
  isLE_trans := Std.TransOrd.isLE_trans (α := ℤ)

instance instLawfulEqOrd : Std.LawfulEqOrd F64 where
  compare_self := Std.ReflOrd.compare_self (α := ℤ)
  eq_of_compare h := totalKey_injective (Std.LawfulEqOrd.eq_of_compare (α := ℤ) h)

end F64

/-! ## Correctness reports -/

namespace CorrectnessReport

/-- Two correctness reports as one. -/
protected def append (r s : CorrectnessReport) : CorrectnessReport where
  checked := r.checked + s.checked
  matched := r.matched + s.matched
  mismatches := r.mismatches ++ s.mismatches
  advisory := r.advisory ++ s.advisory

/-- The same up to order. -/
structure Similar (r s : CorrectnessReport) : Prop where
  checked : r.checked = s.checked
  matched : r.matched = s.matched
  mismatches : r.mismatches.Perm s.mismatches
  advisory : r.advisory.Perm s.advisory

variable {r s t : CorrectnessReport}

theorem Similar.refl (r : CorrectnessReport) : r.Similar r := ⟨rfl, rfl, .refl _, .refl _⟩

theorem Similar.trans (h : r.Similar s) (h' : s.Similar t) : r.Similar t where
  checked := h.checked.trans h'.checked
  matched := h.matched.trans h'.matched
  mismatches := h.mismatches.trans h'.mismatches
  advisory := h.advisory.trans h'.advisory

theorem Similar.append (h : r.Similar s) (t : CorrectnessReport) :
    (r.append t).Similar (s.append t) where
  checked := congrArg (· + t.checked) h.checked
  matched := congrArg (· + t.matched) h.matched
  mismatches := h.mismatches.append_right _
  advisory := h.advisory.append_right _

theorem similar_append_append (r s t : CorrectnessReport) :
    ((r.append s).append t).Similar ((r.append t).append s) where
  checked := Nat.add_right_comm _ _ _
  matched := Nat.add_right_comm _ _ _
  mismatches := by
    simp only [CorrectnessReport.append, List.append_assoc]
    exact List.perm_append_comm.append_left _
  advisory := by
    simp only [CorrectnessReport.append, List.append_assoc]
    exact List.perm_append_comm.append_left _

theorem check_eq_append {F : Type} (r : CorrectnessReport) (b c : FingerprintReport F) :
    r.check b c = r.append (CorrectnessReport.check {} b c) := by
  unfold check
  cases comparableChecksums b c with
  | none => simp [CorrectnessReport.append]
  | some p =>
    obtain ⟨bc, cc⟩ := p
    dsimp only
    split_ifs <;> simp [CorrectnessReport.append]

end CorrectnessReport

/-! ## The loop over the baseline -/

namespace Comparison

section Similar

variable {F : Type}

/-- What an entry adds to a comparison. -/
protected def append (r s : Comparison F) : Comparison F where
  regressions := r.regressions ++ s.regressions
  improvements := r.improvements ++ s.improvements
  stable := r.stable ++ s.stable
  lowSample := r.lowSample ++ s.lowSample
  onlyInBaseline := r.onlyInBaseline ++ s.onlyInBaseline
  countMismatches := r.countMismatches + s.countMismatches
  correctness := r.correctness.map fun q ↦ q.append (s.correctness.getD {})
  sizeRegressions := r.sizeRegressions ++ s.sizeRegressions
  sizeBucketsChecked := r.sizeBucketsChecked + s.sizeBucketsChecked

/-- The same up to order. -/
structure Similar (r s : Comparison F) : Prop where
  regressions : r.regressions.Perm s.regressions
  improvements : r.improvements.Perm s.improvements
  stable : r.stable.Perm s.stable
  lowSample : r.lowSample.Perm s.lowSample
  onlyInBaseline : r.onlyInBaseline.Perm s.onlyInBaseline
  countMismatches : r.countMismatches = s.countMismatches
  correctness : Option.Rel CorrectnessReport.Similar r.correctness s.correctness
  sizeRegressions : r.sizeRegressions.Perm s.sizeRegressions
  sizeBucketsChecked : r.sizeBucketsChecked = s.sizeBucketsChecked

variable {r s t : Comparison F}

theorem Similar.refl (r : Comparison F) : r.Similar r :=
  ⟨.refl _, .refl _, .refl _, .refl _, .refl _, rfl, rel_refl .refl _, .refl _, rfl⟩

theorem Similar.trans (h : r.Similar s) (h' : s.Similar t) : r.Similar t where
  regressions := h.regressions.trans h'.regressions
  improvements := h.improvements.trans h'.improvements
  stable := h.stable.trans h'.stable
  lowSample := h.lowSample.trans h'.lowSample
  onlyInBaseline := h.onlyInBaseline.trans h'.onlyInBaseline
  countMismatches := h.countMismatches.trans h'.countMismatches
  correctness := rel_trans .trans h.correctness h'.correctness
  sizeRegressions := h.sizeRegressions.trans h'.sizeRegressions
  sizeBucketsChecked := h.sizeBucketsChecked.trans h'.sizeBucketsChecked

theorem Similar.append (h : r.Similar s) (t : Comparison F) :
    (r.append t).Similar (s.append t) where
  regressions := h.regressions.append_right _
  improvements := h.improvements.append_right _
  stable := h.stable.append_right _
  lowSample := h.lowSample.append_right _
  onlyInBaseline := h.onlyInBaseline.append_right _
  countMismatches := congrArg (· + t.countMismatches) h.countMismatches
  correctness := rel_map (fun hq ↦ hq.append _) h.correctness
  sizeRegressions := h.sizeRegressions.append_right _
  sizeBucketsChecked := congrArg (· + t.sizeBucketsChecked) h.sizeBucketsChecked

theorem similar_append_append (r s t : Comparison F) :
    ((r.append s).append t).Similar ((r.append t).append s) := by
  have hlists {α : Type} (k l m : List α) : (k ++ l ++ m).Perm (k ++ m ++ l) := by
    rw [List.append_assoc, List.append_assoc]
    exact List.perm_append_comm.append_left k
  refine ⟨hlists _ _ _, hlists _ _ _, hlists _ _ _, hlists _ _ _, hlists _ _ _,
    Nat.add_right_comm _ _ _, ?_, hlists _ _ _, Nat.add_right_comm _ _ _⟩
  change Option.Rel _ ((r.correctness.map _).map _) ((r.correctness.map _).map _)
  rw [Option.map_map, Option.map_map]
  cases r.correctness with
  | none => exact .none
  | some q => exact .some (CorrectnessReport.similar_append_append q _ _)

theorem push_append (r s : Comparison F) (delta : FpDelta F) (v : Verdict) :
    (r.append s).push delta v = r.append (s.push delta v) := by
  cases v <;> simp only [push, Comparison.append, List.append_assoc]

end Similar

variable {F : Type} [NatCast F] [OfNat F 100] [Sub F] [Mul F] [Div F] [Neg F] [LE F] [LT F]
  [DecidableLE F] [DecidableLT F] (options : CompareOptions F)

theorem pushBuckets_append (r s : Comparison F) (b c : FingerprintReport F) :
    (r.append s).pushBuckets options b c = r.append (s.pushBuckets options b c) := by
  unfold pushBuckets
  split_ifs <;> simp only [Comparison.append, List.append_assoc, Nat.add_assoc]

/-- What an entry of the baseline adds. -/
def contribution (candidate : RunReport F) (b : FingerprintReport F) : Comparison F :=
  step options candidate { correctness := some {} } b

theorem step_eq_append (candidate : RunReport F) (r : Comparison F) (b : FingerprintReport F) :
    step options candidate r b = r.append (contribution options candidate b) := by
  unfold contribution step
  cases candidate.byText b.fingerprint with
  | none =>
    -- without a counterpart the correctness report stays as it is
    have hcorrectness : r.correctness = r.correctness.map fun q ↦ q.append {} := by
      cases r.correctness with
      | none => rfl
      | some q => simp [CorrectnessReport.append]
    simp only [Comparison.append, List.append_nil, Nat.add_zero, List.nil_append, Option.getD_some]
    rw [← hcorrectness]
  | some c =>
    dsimp only
    rw [← pushBuckets_append, ← push_append]
    congr 2
    simp only [Comparison.append, List.append_nil, Nat.add_zero, Option.map_some, Option.getD_some,
      ← CorrectnessReport.check_eq_append]
    split_ifs <;> rfl

end Comparison

/-! ## Any order -/

/-- What `worseP95` looks at. -/
def MetricDelta.rank {F : Type} (d : MetricDelta F) : Option F × F := (d.deltaPct, d.deltaUs)

namespace CompareReport

variable {F : Type}

/-- The same up to order: entries change places in a list, and no more. -/
structure Similar (r s : CompareReport F) : Prop where
  regressions : r.regressions.Perm s.regressions
  improvements : r.improvements.Perm s.improvements
  stable : r.stable.Perm s.stable
  lowSample : r.lowSample.Perm s.lowSample
  onlyInBaseline : r.onlyInBaseline.Perm s.onlyInBaseline
  onlyInCandidate : r.onlyInCandidate.Perm s.onlyInCandidate
  countMismatches : r.countMismatches = s.countMismatches
  regressed : r.regressed = s.regressed
  correctness : Option.Rel CorrectnessReport.Similar r.correctness s.correctness
  correctnessFailed : r.correctnessFailed = s.correctnessFailed
  sizeRegressions : r.sizeRegressions.Perm s.sizeRegressions
  sizeBucketsChecked : r.sizeBucketsChecked = s.sizeBucketsChecked
  sizeRegressed : r.sizeRegressed = s.sizeRegressed

/-- The entries of the sorted lists rank the same, one after the other. -/
structure SameRanks [NatCast F] (r s : CompareReport F) : Prop where
  regressions : r.regressions.map (·.p95.rank) = s.regressions.map (·.p95.rank)
  improvements : r.improvements.map (fun d ↦ (d.pct, d.p95.deltaUs)) =
    s.improvements.map fun d ↦ (d.pct, d.p95.deltaUs)
  lowSample : r.lowSample.map FpDelta.pct = s.lowSample.map FpDelta.pct
  onlyInBaseline : r.onlyInBaseline.map OnlyIn.count = s.onlyInBaseline.map OnlyIn.count
  onlyInCandidate : r.onlyInCandidate.map OnlyIn.count = s.onlyInCandidate.map OnlyIn.count
  sizeRegressions : r.sizeRegressions.map (·.p95.rank) = s.sizeRegressions.map (·.p95.rank)
  correctness : Option.Rel
    (fun q q' ↦ q.mismatches.map ChecksumDelta.rowsApart = q'.mismatches.map ChecksumDelta.rowsApart
      ∧ q.advisory.map ChecksumDelta.rowsApart = q'.advisory.map ChecksumDelta.rowsApart)
    r.correctness s.correctness

end CompareReport

section OrderFree

/-- The same report, with its fingerprints in another order. -/
structure RunReport.Reordered {F : Type} (r s : RunReport F) : Prop where
  checksum : r.checksum = s.checksum
  fingerprints : r.fingerprints.Perm s.fingerprints

variable {F : Type} [NatCast F] [OfNat F 100] [Sub F] [Mul F] [Div F] [Neg F] [LE F] [LT F]
  [DecidableLE F] [DecidableLT F] (options : CompareOptions F)
  {baseline baseline' candidate candidate' : RunReport F}

theorem similar_comparison (hbase : baseline.Reordered baseline') :
    (comparison options baseline candidate).Similar (comparison options baseline' candidate) := by
  unfold comparison
  rw [hbase.checksum]
  refine foldl_perm Comparison.Similar.refl Comparison.Similar.trans ?_ ?_ hbase.fingerprints _
  · intro r s b h
    rw [Comparison.step_eq_append, Comparison.step_eq_append]
    exact h.append _
  · intro r b b'
    simp only [Comparison.step_eq_append]
    exact Comparison.similar_append_append r _ _

/-- The loop looks entries of the candidate up by their text. -/
theorem comparison_eq_of_reordered (hcand : candidate.Reordered candidate')
    (hunique : (candidate.fingerprints.map FingerprintReport.fingerprint).Nodup) :
    comparison options baseline candidate = comparison options baseline candidate' := by
  have hstep : Comparison.step options candidate = Comparison.step options candidate' := by
    funext r b
    have hbyText : candidate.byText b.fingerprint = candidate'.byText b.fingerprint :=
      lastWith_perm hcand.fingerprints hunique _
    rw [Comparison.step, Comparison.step, hbyText]
  rw [comparison, comparison, hstep, hcand.checksum]

omit [NatCast F] [OfNat F 100] [Sub F] [Mul F] [Div F] [Neg F] [LE F] [LT F] [DecidableLE F]
  [DecidableLT F] in
theorem onlyInCandidate_perm (hbase : baseline.Reordered baseline')
    (hcand : candidate.Reordered candidate') :
    (onlyInCandidate baseline candidate).Perm (onlyInCandidate baseline' candidate') := by
  have hmem (text : Bytes) :
      (baseline.fingerprints.map FingerprintReport.fingerprint).elem text =
        (baseline'.fingerprints.map FingerprintReport.fingerprint).elem text := by
    rw [Bool.eq_iff_iff, List.elem_iff, List.elem_iff, (hbase.fingerprints.map _).mem_iff]
  unfold onlyInCandidate
  simp only [hmem]
  exact (hcand.fingerprints.filter _).map _

variable [Ord F]

theorem compareRuns_similar
    (hsimilar : (comparison options baseline candidate).Similar
      (comparison options baseline' candidate'))
    (honly : (onlyInCandidate baseline candidate).Perm (onlyInCandidate baseline' candidate')) :
    (compareRuns options baseline candidate).Similar
      (compareRuns options baseline' candidate') := by
  have hsort {α : Type} (cmp : α → α → Ordering) {l l' : List α} (h : l.Perm l') :
      (sortBy cmp l).Perm (sortBy cmp l') :=
    (sortBy_perm cmp l).trans (h.trans (sortBy_perm cmp l').symm)
  have hempty {α : Type} {l l' : List α} (h : l.Perm l') : (!l.isEmpty) = !l'.isEmpty := by
    rw [Bool.eq_iff_iff, Bool.not_eq_true', Bool.not_eq_true', List.isEmpty_eq_false_iff,
      List.isEmpty_eq_false_iff, ne_eq, ne_eq, ← List.length_eq_zero_iff,
      ← List.length_eq_zero_iff, h.length_eq]
  constructor
  · exact hsort _ hsimilar.regressions
  · exact hsort _ hsimilar.improvements
  · exact hsimilar.stable
  · exact hsort _ hsimilar.lowSample
  · exact hsort _ hsimilar.onlyInBaseline
  · exact hsort _ honly
  · exact hsimilar.countMismatches
  · exact hempty hsimilar.regressions
  · exact rel_map (fun hq ↦ ⟨hq.checked, hq.matched, hsort _ hq.mismatches,
      hsort _ hq.advisory⟩) hsimilar.correctness
  · exact any_eq_of_rel (fun hq ↦ hempty hq.mismatches) hsimilar.correctness
  · exact hsort _ hsimilar.sizeRegressions
  · exact hsimilar.sizeBucketsChecked
  · exact hempty hsimilar.sizeRegressions

/-- What is sorted by its ranks shows the same ones. -/
theorem compareRuns_sameRanks [Std.TransOrd F] [Std.LawfulEqOrd F]
    (hsimilar : (comparison options baseline candidate).Similar
      (comparison options baseline' candidate'))
    (honly : (onlyInCandidate baseline candidate).Perm (onlyInCandidate baseline' candidate')) :
    (compareRuns options baseline candidate).SameRanks
      (compareRuns options baseline' candidate') := by
  have hpct : Std.TransCmp (comparePct (F := F)) := transCmp_comparePct
  have hpctEq : Std.LawfulEqCmp (comparePct (F := F)) := lawfulEqCmp_comparePct
  let worse (a b : Option F × F) : Ordering := (comparePct b.1 a.1).then (compare b.2 a.2)
  have hworse : Std.TransCmp worse :=
    transCmp_pair (fun p q : Option F ↦ comparePct q p) fun p q : F ↦ compare q p
  have hworseEq : Std.LawfulEqCmp worse :=
    lawfulEqCmp_pair (fun p q : Option F ↦ comparePct q p) fun p q : F ↦ compare q p
  let better (a b : F × F) : Ordering := (compare a.1 b.1).then (compare a.2 b.2)
  have hbetter : Std.TransCmp better := transCmp_pair compare compare
  have hbetterEq : Std.LawfulEqCmp better := lawfulEqCmp_pair compare compare
  let more (m n : ℕ) : Ordering := compare n m
  constructor
  · exact map_mergeSort_perm worse (fun d : FpDelta F ↦ d.p95.rank) hsimilar.regressions
  · exact map_mergeSort_perm better (fun d : FpDelta F ↦ (d.pct, d.p95.deltaUs))
      hsimilar.improvements
  · exact map_mergeSort_perm (fun p q ↦ compare q p) FpDelta.pct hsimilar.lowSample
  · exact map_mergeSort_perm more OnlyIn.count hsimilar.onlyInBaseline
  · exact map_mergeSort_perm more OnlyIn.count honly
  · exact map_mergeSort_perm worse (fun d : BucketDelta F ↦ d.p95.rank) hsimilar.sizeRegressions
  · refine rel_map (fun hq ↦ ?_) hsimilar.correctness
    exact ⟨map_mergeSort_perm more ChecksumDelta.rowsApart hq.mismatches,
      map_mergeSort_perm more ChecksumDelta.rowsApart hq.advisory⟩

/-- **A comparison does not depend on the order of the reports.** Nor does the exit status, and
what is ranked shows the same ranks. -/
theorem compareRuns_order_free [Std.TransOrd F] [Std.LawfulEqOrd F]
    (hbase : baseline.Reordered baseline') (hcand : candidate.Reordered candidate')
    (hunique : (candidate.fingerprints.map FingerprintReport.fingerprint).Nodup) :
    (compareRuns options baseline candidate).Similar (compareRuns options baseline' candidate') ∧
      (compareRuns options baseline candidate).SameRanks
        (compareRuns options baseline' candidate') ∧
      (compareRuns options baseline candidate).gateFails =
        (compareRuns options baseline' candidate').gateFails := by
  have hsimilar : (comparison options baseline candidate).Similar
      (comparison options baseline' candidate') := by
    rw [← comparison_eq_of_reordered options hcand hunique]
    exact similar_comparison options hbase
  have hreport := compareRuns_similar options hsimilar (onlyInCandidate_perm hbase hcand)
  refine ⟨hreport, compareRuns_sameRanks options hsimilar (onlyInCandidate_perm hbase hcand), ?_⟩
  rw [CompareReport.gateFails, CompareReport.gateFails, hreport.regressed, hreport.sizeRegressed,
    hreport.correctnessFailed]

end OrderFree

/-- Two fingerprints, as the one order or the other has them. -/
def twoFingerprints (first second : Bytes) : RunReport F64 where
  checksum := false
  fingerprints := [first, second].map fun text ↦
    { fingerprint := text
      count := 3
      errors := 0
      p50Us := 50
      p95Us := 100
      p99Us := 300
      meanUs := F64.ofNat 60
      checksum := none
      resultBytes := none
      sizeBuckets := [] }

theorem reordered_twoFingerprints (first second : Bytes) :
    (twoFingerprints first second).Reordered (twoFingerprints second first) :=
  ⟨rfl, .swap _ _ _⟩

theorem compareRuns_order_free_sample :
    (compareRuns ⟨F64.ofNat 10, 1⟩ (twoFingerprints (ascii "begin") (ascii "commit"))
        (twoFingerprints (ascii "begin") (ascii "commit"))).Similar
      (compareRuns ⟨F64.ofNat 10, 1⟩ (twoFingerprints (ascii "commit") (ascii "begin"))
        (twoFingerprints (ascii "commit") (ascii "begin"))) :=
  (compareRuns_order_free _ (reordered_twoFingerprints _ _) (reordered_twoFingerprints _ _)
    (by decide)).1

end SqlReplay
