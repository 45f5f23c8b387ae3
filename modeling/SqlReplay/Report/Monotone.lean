import SqlReplay.Report.Complete
import Mathlib.Algebra.Order.Field.Rat
import Mathlib.Tactic.Linarith
import Mathlib.Tactic.Positivity

/-!
# The regression gate is monotone

A slower candidate moves entries between the lists of a comparison: once a fingerprint has regressed
as a whole, its size decades are no longer reported. The gate does not see the move. It fails iff
some pair of entries fails it (`gateFails_iff`), and in a pair the verdict on the whole and those on
the decades stand side by side.

With exact percentages a pair of latencies is too slow iff the candidate's is positive and at least
`1 + threshold / 100` times the baseline's (`slower_iff`), which raising the one and lowering the
other preserves. Without a percentage, at baseline zero, the same inequality holds of every
candidate; a positive threshold is what makes the candidate of a regression positive.
-/

namespace SqlReplay

section Gate

variable {F : Type} [NatCast F] [OfNat F 100] [Sub F] [Mul F] [Div F] [Neg F] [LE F] [LT F]
  [DecidableLE F] [DecidableLT F]

/-! ## What fails the gate -/

/-- A candidate latency that the threshold does not allow. -/
def slower (options : CompareOptions F) (baseline candidate : ℕ) : Bool :=
  match pctChange (baseline : F) (candidate : F) with
  | some p => options.thresholdPct ≤ p
  | none => ((0 : ℕ) : F) < (candidate : F)

theorem verdict_eq_regressed (options : CompareOptions F) (b c : FingerprintReport F) :
    verdict options b c = .regressed ↔
      tooFew options b.count c.count = false ∧ slower options b.p95Us c.p95Us = true := by
  rw [verdict, slower]
  cases tooFew options b.count c.count with
  | true => simp
  | false =>
    simp only [MetricDelta.new, Bool.false_eq_true, if_false, true_and]
    cases pctChange (b.p95Us : F) (c.p95Us : F) with
    | none => by_cases h : ((0 : ℕ) : F) < (c.p95Us : F) <;> simp [h]
    | some p =>
      by_cases h : options.thresholdPct ≤ p
      · simp [h]
      · by_cases h' : p ≤ -options.thresholdPct <;> simp [h, h']

omit [Neg F] in

/-- The checksum mismatch of a matched pair, if it has one that is more than advisory. -/
def mismatchOf (b c : FingerprintReport F) : Option ChecksumDelta :=
  (comparableChecksums b c).bind fun (bc, cc) ↦
    let delta := ChecksumDelta.new b.fingerprint bc cc
    if bc.digest = cc.digest ∨ (delta.nondeterministic || delta.eventsDiffer) = true then none
    else some delta

/-- A matched pair that fails the gate, on one of its three grounds. -/
def PairFails (options : CompareOptions F) (both : Bool) (b c : FingerprintReport F) : Prop :=
  verdict options b c = .regressed
    ∨ (∃ bb ∈ b.sizeBuckets, ∃ cb, comparableBucket options c bb = some cb
        ∧ bucketRegressed options bb cb = true)
    ∨ both = true ∧ (mismatchOf b c).isSome = true

variable (options : CompareOptions F) (baseline candidate : RunReport F)

theorem regressions_eq_nil :
    (comparison options baseline candidate).regressions = [] ↔
      ∀ b ∈ baseline.fingerprints, classOf options candidate b ≠ some .regressed := by
  rw [← List.map_eq_nil_iff (f := FpDelta.fingerprint)]
  rw [show (comparison options baseline candidate).regressions
    = (comparison options baseline candidate).listed .regressed from rfl, texts_listed, classTexts,
    List.flatMap_eq_nil_iff]
  refine forall₂_congr fun b _ ↦ ?_
  split_ifs with h <;> simp [h]

omit [Neg F] in
theorem bucketDeltas_eq_nil (b c : FingerprintReport F) :
    bucketDeltas options b c = [] ↔ ¬∃ bb ∈ b.sizeBuckets, ∃ cb,
      comparableBucket options c bb = some cb ∧ bucketRegressed options bb cb = true := by
  rw [bucketDeltas, List.filterMap_eq_nil_iff, not_exists]
  refine forall_congr' fun bb ↦ ?_
  cases comparableBucket options c bb with
  | none => simp
  | some cb => by_cases h : bucketRegressed options bb cb = true <;> simp [h]

theorem sizeRegressions_eq_nil :
    (comparison options baseline candidate).sizeRegressions = [] ↔
      ∀ b ∈ baseline.fingerprints, ∀ c, candidate.byText b.fingerprint = some c →
        verdict options b c = .regressed ∨ bucketDeltas options b c = [] := by
  rw [sizeRegressions_comparison, List.flatMap_eq_nil_iff]
  refine forall₂_congr fun b _ ↦ ?_
  rw [sizeRegressionsOf]
  cases candidate.byText b.fingerprint with
  | none => simp
  | some c => by_cases h : verdict options b c = .regressed <;> simp [h]

/-! ## Correctness -/

/-- One fingerprint of the baseline in the correctness report. -/
def checkStep (candidate : RunReport F) (q : CorrectnessReport) (b : FingerprintReport F) :
    CorrectnessReport :=
  match candidate.byText b.fingerprint with
  | none => q
  | some c => q.check b c

theorem correctness_foldl (l : List (FingerprintReport F)) (r : Comparison F) :
    (l.foldl (Comparison.step options candidate) r).correctness
      = r.correctness.map fun q ↦ l.foldl (checkStep candidate) q := by
  induction l generalizing r with
  | nil => simp
  | cons b l ih =>
    rw [List.foldl_cons, ih, Comparison.step]
    simp only [List.foldl_cons, checkStep]
    cases candidate.byText b.fingerprint with
    | none => rfl
    | some c =>
      simp only [Comparison.pushBuckets, Comparison.push_correctness, Option.map_map]
      rfl

omit [NatCast F] [OfNat F 100] [Sub F] [Mul F] [Div F] [Neg F] [LE F] [LT F] [DecidableLE F]
  [DecidableLT F]

theorem mismatches_check (q : CorrectnessReport) (b c : FingerprintReport F) :
    (q.check b c).mismatches = q.mismatches ++ (mismatchOf b c).toList := by
  rw [CorrectnessReport.check, mismatchOf]
  cases comparableChecksums b c with
  | none => simp
  | some p =>
    obtain ⟨bc, cc⟩ := p
    dsimp only [Option.bind_some]
    split_ifs with hd ha <;> simp_all

theorem mismatches_foldl (l : List (FingerprintReport F)) (q : CorrectnessReport) :
    (l.foldl (checkStep candidate) q).mismatches = q.mismatches ++ l.flatMap fun b ↦
      ((candidate.byText b.fingerprint).bind (mismatchOf b)).toList := by
  refine foldl_append_field _ CorrectnessReport.mismatches _ (fun q b ↦ ?_) l q
  rw [checkStep]
  cases candidate.byText b.fingerprint with
  | none => simp
  | some c => rw [mismatches_check, Option.bind_some]

end Gate

section GateIff

variable {F : Type} [NatCast F] [OfNat F 100] [Sub F] [Mul F] [Div F] [Neg F] [LE F] [LT F]
  [DecidableLE F] [DecidableLT F] [Ord F]
  (options : CompareOptions F) (baseline candidate : RunReport F)

omit [Ord F] in
theorem correctness_comparison :
    (comparison options baseline candidate).correctness.any (fun q ↦ !q.mismatches.isEmpty) = true ↔
      (baseline.checksum && candidate.checksum) = true ∧ ∃ b ∈ baseline.fingerprints, ∃ c,
        candidate.byText b.fingerprint = some c ∧ (mismatchOf b c).isSome = true := by
  rw [comparison, correctness_foldl]
  cases baseline.checksum && candidate.checksum with
  | false => simp
  | true =>
    simp only [if_true, Option.map_some, Option.any_some, mismatches_foldl, List.nil_append,
      Bool.not_eq_true', List.isEmpty_eq_false_iff, ne_eq, List.flatMap_eq_nil_iff, true_and]
    rw [not_forall₂]
    simp only [Option.toList_eq_nil_iff, Option.bind_eq_none_iff, exists_prop]
    refine exists_congr fun b ↦ and_congr_right fun _ ↦ ?_
    rw [not_forall]
    refine exists_congr fun c ↦ ?_
    rw [Classical.not_imp, Option.isSome_iff_ne_none]

/-- The gate fails iff a matched pair fails it. -/
theorem gateFails_iff : (compareRuns options baseline candidate).gateFails = true ↔
    ∃ b ∈ baseline.fingerprints, ∃ c, candidate.byText b.fingerprint = some c ∧
      PairFails options (baseline.checksum && candidate.checksum) b c := by
  have hreg : (compareRuns options baseline candidate).regressed = true ↔
      ∃ b ∈ baseline.fingerprints, ∃ c, candidate.byText b.fingerprint = some c ∧
        verdict options b c = .regressed := by
    change (!(comparison options baseline candidate).regressions.isEmpty) = true ↔ _
    rw [Bool.not_eq_true', List.isEmpty_eq_false_iff, Ne, regressions_eq_nil, not_forall₂]
    simp only [ne_eq, not_not, classOf, Option.map_eq_some_iff, exists_prop]
  have hsize : (compareRuns options baseline candidate).sizeRegressed = true ↔
      ∃ b ∈ baseline.fingerprints, ∃ c, candidate.byText b.fingerprint = some c ∧
        verdict options b c ≠ .regressed ∧ bucketDeltas options b c ≠ [] := by
    change (!(comparison options baseline candidate).sizeRegressions.isEmpty) = true ↔ _
    rw [Bool.not_eq_true', List.isEmpty_eq_false_iff, Ne, sizeRegressions_eq_nil, not_forall₂]
    simp only [not_forall, not_or, exists_prop, ne_eq]
  have hcorrect : (compareRuns options baseline candidate).correctnessFailed = true ↔ _ :=
    correctness_comparison options baseline candidate
  rw [CompareReport.gateFails, Bool.or_eq_true, Bool.or_eq_true, hreg, hsize, hcorrect]
  constructor
  · rintro ((⟨b, hb, c, hc, hv⟩ | ⟨b, hb, c, hc, -, hd⟩) | ⟨hboth, b, hb, c, hc, hm⟩)
    · exact ⟨b, hb, c, hc, .inl hv⟩
    · rw [Ne, bucketDeltas_eq_nil, not_not] at hd
      exact ⟨b, hb, c, hc, .inr (.inl hd)⟩
    · exact ⟨b, hb, c, hc, .inr (.inr ⟨hboth, hm⟩)⟩
  · rintro ⟨b, hb, c, hc, hv | hd | ⟨hboth, hm⟩⟩
    · exact .inl (.inl ⟨b, hb, c, hc, hv⟩)
    · -- a decade that is not reported is inside a fingerprint that is
      by_cases hv : verdict options b c = .regressed
      · exact .inl (.inl ⟨b, hb, c, hc, hv⟩)
      · refine .inl (.inr ⟨b, hb, c, hc, hv, ?_⟩)
        rw [Ne, bucketDeltas_eq_nil, not_not]
        exact hd
    · exact .inr ⟨hboth, b, hb, c, hc, hm⟩

end GateIff

/-! ## Raised latencies -/

section Raised

variable {F : Type}

/-- A decade with a p95 that is at least as high. -/
structure SizeBucketReport.Raised (s s' : SizeBucketReport F) : Prop where
  p95 : s.p95Us ≤ s'.p95Us
  rest : s' = { s with p95Us := s'.p95Us }

/-- An entry with p95 values that are at least as high, as a whole and in its decades. -/
structure FingerprintReport.Raised (f f' : FingerprintReport F) : Prop where
  p95 : f.p95Us ≤ f'.p95Us
  sizeBuckets : List.Forall₂ SizeBucketReport.Raised f.sizeBuckets f'.sizeBuckets
  rest : f' = { f with p95Us := f'.p95Us, sizeBuckets := f'.sizeBuckets }

/-- A report with p95 values that are at least as high. -/
structure RunReport.Raised (r r' : RunReport F) : Prop where
  fingerprints : List.Forall₂ FingerprintReport.Raised r.fingerprints r'.fingerprints
  rest : r' = { r with fingerprints := r'.fingerprints }

theorem SizeBucketReport.Raised.bucket_eq {s s' : SizeBucketReport F} (h : s.Raised s') :
    s'.bucket = s.bucket := by rw [h.rest]

theorem SizeBucketReport.Raised.count_eq {s s' : SizeBucketReport F} (h : s.Raised s') :
    s'.count = s.count := by rw [h.rest]

theorem FingerprintReport.Raised.fingerprint_eq {f f' : FingerprintReport F} (h : f.Raised f') :
    f'.fingerprint = f.fingerprint := by rw [h.rest]

theorem FingerprintReport.Raised.count_eq {f f' : FingerprintReport F} (h : f.Raised f') :
    f'.count = f.count := by rw [h.rest]

theorem FingerprintReport.Raised.checksum_eq {f f' : FingerprintReport F} (h : f.Raised f') :
    f'.checksum = f.checksum := by rw [h.rest]

theorem RunReport.Raised.checksum_eq {r r' : RunReport F} (h : r.Raised r') :
    r'.checksum = r.checksum := by rw [h.rest]

theorem exists_of_forall₂ {α β : Type} {R : α → β → Prop} {l : List α} {l' : List β}
    (h : List.Forall₂ R l l') : ∀ a ∈ l, ∃ b ∈ l', R a b := by
  induction h with
  | nil => exact fun a ha ↦ absurd ha List.not_mem_nil
  | @cons a b l l' hab _ ih =>
    intro x hx
    rcases List.mem_cons.mp hx with rfl | hx
    · exact ⟨b, List.mem_cons_self, hab⟩
    · obtain ⟨y, hy, hxy⟩ := ih x hx
      exact ⟨y, List.mem_cons_of_mem _ hy, hxy⟩

theorem find?_forall₂ {α : Type} {R : α → α → Prop} {p : α → Bool}
    (hp : ∀ a b, R a b → p a = p b) {l l' : List α} (h : List.Forall₂ R l l') {a : α}
    (ha : l.find? p = some a) : ∃ b, l'.find? p = some b ∧ R a b := by
  induction h with
  | nil => exact absurd ha (Option.some_ne_none a).symm
  | @cons x y l l' hxy _ ih =>
    rw [List.find?_cons] at ha ⊢
    rw [← hp x y hxy]
    split at ha
    · exact ⟨y, rfl, Option.some.inj ha ▸ hxy⟩
    · exact ih ha

theorem lastWith_forall₂ {α : Type} {R : α → α → Prop} {key : α → Bytes}
    (hkey : ∀ a b, R a b → key a = key b) {l l' : List α} (h : List.Forall₂ R l l') {k : Bytes}
    {a : α} (ha : lastWith key k l = some a) : ∃ b, lastWith key k l' = some b ∧ R a b :=
  find?_forall₂ (fun x y hxy ↦ by rw [hkey x y hxy]) (List.forall₂_reverse_iff.mpr h) ha

end Raised

/-! ## Exact percentages -/

section Rational

variable {options : CompareOptions ℚ}

/-- Too slow is at least `1 + threshold / 100` times as slow, and not zero. -/
theorem slower_iff (hpos : 0 < options.thresholdPct) (base cand : ℕ) :
    slower options base cand = true ↔
      0 < cand ∧ (100 + options.thresholdPct) * base ≤ 100 * (cand : ℚ) := by
  rw [slower, pctChange]
  by_cases hb : base = 0
  · subst hb
    rw [if_neg (lt_irrefl _)]
    simp
  · have hb' : (0 : ℚ) < base := Nat.cast_pos.mpr (Nat.pos_of_ne_zero hb)
    rw [if_pos (by simpa using hb')]
    rw [decide_eq_true_iff, div_mul_eq_mul_div, le_div_iff₀ hb']
    constructor
    · intro h
      have hle : (100 + options.thresholdPct) * base ≤ 100 * (cand : ℚ) := by linarith
      have hcand : (0 : ℚ) < 100 * cand := lt_of_lt_of_le (by positivity) hle
      refine ⟨?_, hle⟩
      exact_mod_cast (pos_iff_pos_of_mul_pos hcand).mp (by norm_num)
    · rintro ⟨-, h⟩
      linarith

/-- Too slow stays too slow. -/
theorem slower_mono (hpos : 0 < options.thresholdPct) {base base' cand cand' : ℕ}
    (hbase : base' ≤ base) (hcand : cand ≤ cand') (h : slower options base cand = true) :
    slower options base' cand' = true := by
  rw [slower_iff hpos] at h ⊢
  obtain ⟨hc, hle⟩ := h
  refine ⟨hc.trans_le hcand, ?_⟩
  calc (100 + options.thresholdPct) * base'
      ≤ (100 + options.thresholdPct) * base := by gcongr
    _ ≤ 100 * cand := hle
    _ ≤ 100 * cand' := by gcongr

variable {b b' c c' : FingerprintReport ℚ}

theorem verdict_mono (hpos : 0 < options.thresholdPct) (hb : b'.Raised b) (hc : c.Raised c')
    (h : verdict options b c = .regressed) : verdict options b' c' = .regressed := by
  rw [verdict_eq_regressed] at h ⊢
  rw [← hb.count_eq, hc.count_eq]
  exact ⟨h.1, slower_mono hpos hb.p95 hc.p95 h.2⟩

theorem bucket_mono (hpos : 0 < options.thresholdPct) (hb : b'.Raised b) (hc : c.Raised c')
    (h : ∃ bb ∈ b.sizeBuckets, ∃ cb, comparableBucket options c bb = some cb
      ∧ bucketRegressed options bb cb = true) :
    ∃ bb ∈ b'.sizeBuckets, ∃ cb, comparableBucket options c' bb = some cb
      ∧ bucketRegressed options bb cb = true := by
  obtain ⟨bb, hbb, cb, hcb, hslow⟩ := h
  obtain ⟨bb', hbb', hlow⟩ := exists_of_forall₂ hb.sizeBuckets.flip bb hbb
  obtain ⟨hlast, hcount⟩ := Option.filter_eq_some_iff.mp hcb
  obtain ⟨cb', hlast', hhigh⟩ := lastWith_forall₂
    (fun x y hxy ↦ hxy.bucket_eq.symm) hc.sizeBuckets hlast
  refine ⟨bb', hbb', cb', Option.filter_eq_some_iff.mpr ⟨?_, ?_⟩, ?_⟩
  · rw [← hlow.bucket_eq]
    exact hlast'
  · rw [← hlow.count_eq, hhigh.count_eq]
    exact hcount
  · exact slower_mono hpos hlow.p95 hhigh.p95 hslow

theorem mismatchOf_raised (hb : b'.Raised b) (hc : c.Raised c') :
    mismatchOf b' c' = mismatchOf b c := by
  rw [mismatchOf, mismatchOf, comparableChecksums, comparableChecksums, hb.fingerprint_eq,
    hb.checksum_eq, hc.checksum_eq]

theorem PairFails.mono (hpos : 0 < options.thresholdPct) {both : Bool} (hb : b'.Raised b)
    (hc : c.Raised c') (h : PairFails options both b c) : PairFails options both b' c' := by
  rcases h with hv | hd | ⟨hboth, hm⟩
  · exact .inl (verdict_mono hpos hb hc hv)
  · exact .inr (.inl (bucket_mono hpos hb hc hd))
  · refine .inr (.inr ⟨hboth, ?_⟩)
    rw [mismatchOf_raised hb hc]
    exact hm

/-- A gate that fails still fails when latencies of the candidate are raised and latencies of the
baseline lowered. -/
theorem gateFails_mono (options : CompareOptions ℚ) (hpos : 0 < options.thresholdPct)
    {baseline baseline' candidate candidate' : RunReport ℚ} (hbase : baseline'.Raised baseline)
    (hcand : candidate.Raised candidate')
    (h : (compareRuns options baseline candidate).gateFails = true) :
    (compareRuns options baseline' candidate').gateFails = true := by
  rw [gateFails_iff] at h ⊢
  obtain ⟨b, hb, c, hc, hfails⟩ := h
  obtain ⟨b', hb', hlow⟩ := exists_of_forall₂ hbase.fingerprints.flip b hb
  obtain ⟨c', hc', hhigh⟩ := lastWith_forall₂
    (fun x y hxy ↦ hxy.fingerprint_eq.symm) hcand.fingerprints hc
  refine ⟨b', hb', c', ?_, ?_⟩
  · rw [← hlow.fingerprint_eq]
    exact hc'
  · rw [← hbase.checksum_eq, hcand.checksum_eq]
    exact hfails.mono hpos hlow hhigh

/-- Raising the whole moves the failure from the decade to the fingerprint. -/
theorem gateFails_mono_sample :
    (compareRuns ⟨10, 1⟩ (sampleReport 100 100) (sampleReport 200 200)).gateFails = true := by
  have hbase : (sampleReport 100 100).Raised (sampleReport 100 100) :=
    ⟨.cons ⟨le_rfl, .cons ⟨le_rfl, rfl⟩ .nil, rfl⟩ .nil, rfl⟩
  have hcand : (sampleReport 100 200).Raised (sampleReport 200 200) :=
    ⟨.cons ⟨by decide, .cons ⟨le_rfl, rfl⟩ .nil, rfl⟩ .nil, rfl⟩
  exact gateFails_mono ⟨10, 1⟩ (by decide) hbase hcand (by decide +kernel)

end Rational

end SqlReplay
