import SqlReplay.Report.Compare
import Mathlib.Algebra.Order.Field.Rat
import Mathlib.Data.List.Nodup

/-!
# A comparison loses and duplicates nothing

The loop over the baseline only ever appends, so each list of a comparison is the concatenation of
what the entries of the baseline contribute to it (`List.foldl_append_field`). What an entry
contributes depends on its class alone: the verdict on it and its counterpart, or that it has none
(`classOf`). Five classes partition the baseline, and the sorts that follow permute.

A size decade is never reported inside a fingerprint that has regressed as a whole, since one class
contributes to `regressions` and the others to `sizeRegressions`. The correctness report is about
fingerprints that both runs have.
-/

namespace SqlReplay

/-- A fold whose steps append to a field appends what they do, one after the other. -/
theorem foldl_append_field {σ α β : Type} (step : σ → α → σ) (field : σ → List β)
    (g : α → List β) (h : ∀ s a, field (step s a) = field s ++ g a) (l : List α) (s : σ) :
    field (l.foldl step s) = field s ++ l.flatMap g := by
  induction l generalizing s with
  | nil => simp
  | cons a l ih => rw [List.foldl_cons, ih, h, List.flatMap_cons, List.append_assoc]

theorem sortBy_perm {α : Type} (cmp : α → α → Ordering) (l : List α) : (sortBy cmp l).Perm l :=
  List.mergeSort_perm _ _

section LastWith

variable {α : Type} (key : α → Bytes)

theorem lastWith_eq_none {k : Bytes} {l : List α} :
    lastWith key k l = none ↔ k ∉ l.map key := by
  rw [lastWith, List.find?_eq_none]
  simp only [List.mem_reverse, beq_iff_eq, List.mem_map, not_exists, not_and]

theorem key_of_lastWith {k : Bytes} {l : List α} {a : α} (h : lastWith key k l = some a) :
    key a = k := by
  rw [lastWith] at h
  exact beq_iff_eq.mp (List.find?_some (p := fun x ↦ key x == k) h)

end LastWith

section Complete

variable {F : Type} [NatCast F] [OfNat F 100] [Sub F] [Mul F] [Div F] [Neg F] [LE F] [LT F]
  [DecidableLE F] [DecidableLT F]

/-! ## What an entry contributes -/

/-- The class of an entry of the baseline: the verdict on it, or none without a counterpart. -/
def classOf (options : CompareOptions F) (candidate : RunReport F) (b : FingerprintReport F) :
    Option Verdict :=
  (candidate.byText b.fingerprint).map (verdict options b)

/-- The size decades reported for an entry of the baseline. -/
def sizeRegressionsOf (options : CompareOptions F) (candidate : RunReport F)
    (b : FingerprintReport F) : List (BucketDelta F) :=
  match candidate.byText b.fingerprint with
  | none => []
  | some c => if verdict options b c = .regressed then [] else bucketDeltas options b c

namespace Comparison

/-- The list of a verdict. -/
def listed (r : Comparison F) : Verdict → List (FpDelta F)
  | .lowSample => r.lowSample
  | .regressed => r.regressions
  | .improved => r.improvements
  | .stable => r.stable

section Push

omit [NatCast F] [OfNat F 100] [Sub F] [Mul F] [Div F] [Neg F] [LE F] [LT F] [DecidableLE F]
  [DecidableLT F]

theorem listed_push (r : Comparison F) (delta : FpDelta F) (v w : Verdict) :
    (r.push delta v).listed w = r.listed w ++ if v = w then [delta] else [] := by
  cases v <;> cases w <;> simp [push, listed]

@[simp] theorem push_onlyInBaseline (r : Comparison F) (delta : FpDelta F) (v : Verdict) :
    (r.push delta v).onlyInBaseline = r.onlyInBaseline := by cases v <;> rfl

@[simp] theorem push_sizeRegressions (r : Comparison F) (delta : FpDelta F) (v : Verdict) :
    (r.push delta v).sizeRegressions = r.sizeRegressions := by cases v <;> rfl

@[simp] theorem push_correctness (r : Comparison F) (delta : FpDelta F) (v : Verdict) :
    (r.push delta v).correctness = r.correctness := by cases v <;> rfl

end Push

variable (options : CompareOptions F) (candidate : RunReport F)

/-- The texts in the list of a verdict are those of the entries of that class. -/
theorem texts_listed_step (r : Comparison F) (b : FingerprintReport F) (v : Verdict) :
    ((step options candidate r b).listed v).map FpDelta.fingerprint
      = (r.listed v).map FpDelta.fingerprint
        ++ if classOf options candidate b = some v then [b.fingerprint] else [] := by
  rw [step, classOf]
  cases candidate.byText b.fingerprint with
  | none => cases v <;> simp [listed]
  | some c =>
    have hbuckets : ∀ r' : Comparison F,
        (r'.pushBuckets options b c).listed v = r'.listed v := fun r' ↦ by cases v <;> rfl
    simp only [hbuckets, listed_push, List.map_append, Option.map_some, Option.some.injEq]
    congr 1
    split_ifs <;> rfl

theorem texts_onlyInBaseline_step (r : Comparison F) (b : FingerprintReport F) :
    (step options candidate r b).onlyInBaseline.map OnlyIn.fingerprint
      = r.onlyInBaseline.map OnlyIn.fingerprint
        ++ if classOf options candidate b = none then [b.fingerprint] else [] := by
  rw [step, classOf]
  cases candidate.byText b.fingerprint with
  | none => simp
  | some c => simp [pushBuckets]

theorem sizeRegressions_step (r : Comparison F) (b : FingerprintReport F) :
    (step options candidate r b).sizeRegressions
      = r.sizeRegressions ++ sizeRegressionsOf options candidate b := by
  rw [step, sizeRegressionsOf]
  cases candidate.byText b.fingerprint with
  | none => simp
  | some c =>
    simp only [pushBuckets, push_sizeRegressions]
    split_ifs <;> simp

end Comparison

/-! ## The classes partition the baseline -/

variable (options : CompareOptions F) (baseline candidate : RunReport F)

/-- The texts of a class. -/
def classTexts (v : Option Verdict) : List Bytes :=
  baseline.fingerprints.flatMap fun b ↦
    if classOf options candidate b = v then [b.fingerprint] else []

theorem texts_listed (v : Verdict) :
    ((comparison options baseline candidate).listed v).map FpDelta.fingerprint
      = classTexts options baseline candidate (some v) := by
  refine (foldl_append_field _ (fun r : Comparison F ↦ (r.listed v).map FpDelta.fingerprint) _
    (fun r b ↦ Comparison.texts_listed_step options candidate r b v) _ _).trans ?_
  cases v <;> rfl

theorem texts_onlyInBaseline :
    (comparison options baseline candidate).onlyInBaseline.map OnlyIn.fingerprint
      = classTexts options baseline candidate none :=
  foldl_append_field _ (fun r : Comparison F ↦ r.onlyInBaseline.map OnlyIn.fingerprint) _
    (Comparison.texts_onlyInBaseline_step options candidate) _ _

theorem sizeRegressions_comparison :
    (comparison options baseline candidate).sizeRegressions
      = baseline.fingerprints.flatMap (sizeRegressionsOf options candidate) :=
  foldl_append_field _ Comparison.sizeRegressions _
    (Comparison.sizeRegressions_step options candidate) _ _

/-- Every entry has one class. -/
theorem classTexts_perm :
    (classTexts options baseline candidate (some .regressed)
      ++ classTexts options baseline candidate (some .improved)
      ++ classTexts options baseline candidate (some .stable)
      ++ classTexts options baseline candidate (some .lowSample)
      ++ classTexts options baseline candidate none).Perm
        (baseline.fingerprints.map FingerprintReport.fingerprint) := by
  rw [List.perm_iff_count]
  intro t
  simp only [List.count_append, classTexts]
  induction baseline.fingerprints with
  | nil => rfl
  | cons b l ih =>
    simp only [List.flatMap_cons, List.count_append, List.map_cons, List.count_cons] at ih ⊢
    rcases classOf options candidate b with _ | _ | _ | _ | _ <;>
      simp [List.count_cons] <;> omega

theorem classTexts_subset {v : Option Verdict} {t : Bytes}
    (h : t ∈ classTexts options baseline candidate v) :
    ∃ b ∈ baseline.fingerprints, b.fingerprint = t ∧ classOf options candidate b = v := by
  obtain ⟨b, hb, hin⟩ := List.mem_flatMap.mp h
  split_ifs at hin with hv
  · exact ⟨b, hb, (List.mem_singleton.mp hin).symm, hv⟩
  · exact absurd hin List.not_mem_nil

theorem mem_classTexts_none {t : Bytes} :
    t ∈ classTexts options baseline candidate none ↔
      t ∈ baseline.fingerprints.map FingerprintReport.fingerprint ∧
        t ∉ candidate.fingerprints.map FingerprintReport.fingerprint := by
  have hnone : ∀ b : FingerprintReport F, classOf options candidate b = none ↔
      b.fingerprint ∉ candidate.fingerprints.map FingerprintReport.fingerprint := by
    intro b
    rw [classOf, Option.map_eq_none_iff, RunReport.byText, lastWith_eq_none]
  constructor
  · intro h
    obtain ⟨b, hb, rfl, hv⟩ := classTexts_subset options baseline candidate h
    exact ⟨List.mem_map_of_mem hb, (hnone b).mp hv⟩
  · rintro ⟨h, hno⟩
    obtain ⟨b, hb, rfl⟩ := List.mem_map.mp h
    refine List.mem_flatMap.mpr ⟨b, hb, ?_⟩
    rw [if_pos ((hnone b).mpr hno)]
    exact List.mem_singleton_self _

/-! ## Size decades -/

omit [Neg F] in
theorem map_bucket_bucketDeltas (b c : FingerprintReport F) :
    ((bucketDeltas options b c).map BucketDelta.bucket).Sublist
      (b.sizeBuckets.map SizeBucketReport.bucket) := by
  rw [bucketDeltas, List.map_filterMap, ← List.filterMap_eq_map]
  induction b.sizeBuckets with
  | nil => exact List.Sublist.refl _
  | cons bb l ih =>
    simp only [List.filterMap_cons, Function.comp_apply]
    cases comparableBucket options c bb with
    | none => exact ih.cons _
    | some cb =>
      by_cases hr : bucketRegressed options bb cb = true
      · rw [Option.bind_some, if_pos hr]
        exact ih.cons_cons _
      · rw [Option.bind_some, if_neg hr]
        exact ih.cons _

omit [Neg F] in
theorem fingerprint_of_mem_bucketDeltas {b c : FingerprintReport F} {d : BucketDelta F}
    (h : d ∈ bucketDeltas options b c) : d.fingerprint = b.fingerprint := by
  obtain ⟨bb, -, h⟩ := List.mem_filterMap.mp h
  obtain ⟨cb, -, h⟩ := Option.bind_eq_some_iff.mp h
  split_ifs at h
  rw [← Option.some.inj h, BucketDelta.new]

variable {options baseline candidate}

/-- What is reported for an entry carries its text, and the entry has not regressed as a whole. -/
theorem of_mem_sizeRegressionsOf {b : FingerprintReport F} {d : BucketDelta F}
    (h : d ∈ sizeRegressionsOf options candidate b) :
    d.fingerprint = b.fingerprint ∧ classOf options candidate b ≠ some .regressed
      ∧ classOf options candidate b ≠ none := by
  rw [sizeRegressionsOf] at h
  rw [classOf]
  cases hc : candidate.byText b.fingerprint with
  | none =>
    rw [hc] at h
    exact absurd h List.not_mem_nil
  | some c =>
    rw [hc] at h
    dsimp only at h
    split_ifs at h with hv
    · exact absurd h List.not_mem_nil
    · exact ⟨fingerprint_of_mem_bucketDeltas options h, fun hs ↦ hv (Option.some.inj hs), nofun⟩

theorem nodup_sizeRegressionsOf {b : FingerprintReport F}
    (hb : (b.sizeBuckets.map SizeBucketReport.bucket).Nodup) :
    ((sizeRegressionsOf options candidate b).map BucketDelta.bucket).Nodup := by
  rw [sizeRegressionsOf]
  cases candidate.byText b.fingerprint with
  | none => exact List.nodup_nil
  | some c =>
    dsimp only
    split_ifs
    · exact List.nodup_nil
    · exact (map_bucket_bucketDeltas options b c).nodup hb

theorem nodup_sizeRegressions
    (hfp : (baseline.fingerprints.map FingerprintReport.fingerprint).Nodup)
    (hbuckets : ∀ b ∈ baseline.fingerprints, (b.sizeBuckets.map SizeBucketReport.bucket).Nodup) :
    ((comparison options baseline candidate).sizeRegressions.map
      fun d ↦ (d.fingerprint, d.bucket)).Nodup := by
  rw [sizeRegressions_comparison, List.map_flatMap, List.nodup_flatMap]
  constructor
  · intro b hb
    refine List.Nodup.of_map Prod.snd ?_
    rw [List.map_map]
    exact nodup_sizeRegressionsOf (hbuckets b hb)
  · -- entries with different texts contribute different pairs
    refine (List.pairwise_map.mp hfp).imp fun {b b'} hne p hp hp' ↦ hne ?_
    obtain ⟨d, hd, rfl⟩ := List.mem_map.mp hp
    obtain ⟨d', hd', heq⟩ := List.mem_map.mp hp'
    rw [← (of_mem_sizeRegressionsOf hd).1, ← (of_mem_sizeRegressionsOf hd').1]
    exact (congrArg Prod.fst heq).symm

/-- An entry of a class has no text in common with one of another class. -/
theorem class_unique (hfp : (baseline.fingerprints.map FingerprintReport.fingerprint).Nodup)
    {b : FingerprintReport F} (hb : b ∈ baseline.fingerprints) {v : Option Verdict}
    (h : b.fingerprint ∈ classTexts options baseline candidate v) :
    classOf options candidate b = v := by
  obtain ⟨b', hb', htext, hv⟩ := classTexts_subset options baseline candidate h
  rw [← List.inj_on_of_nodup_map hfp hb' hb htext]
  exact hv

end Complete

/-! ## The correctness report -/

/-- The texts that a correctness report lists. -/
def CorrectnessReport.texts (r : CorrectnessReport) : List Bytes :=
  (r.mismatches ++ r.advisory).map ChecksumDelta.fingerprint

theorem CorrectnessReport.texts_check {F : Type} (q : CorrectnessReport)
    (b c : FingerprintReport F) {t : Bytes} (ht : t ∈ (q.check b c).texts) :
    t ∈ q.texts ∨ t = b.fingerprint := by
  have hdelta (bc cc : ChecksumReport) :
      (ChecksumDelta.new b.fingerprint bc cc).fingerprint = b.fingerprint := rfl
  rw [check] at ht
  cases hcomparable : comparableChecksums b c with
  | none =>
    rw [hcomparable] at ht
    exact .inl ht
  | some p =>
    rw [hcomparable] at ht
    simp only [texts, List.map_append, List.mem_append] at ht ⊢
    split_ifs at ht
    · exact .inl ht
    all_goals
      simp only [List.map_append, List.mem_append, List.map_cons, List.map_nil,
        List.mem_singleton, hdelta] at ht
      tauto

/-- What the correctness report lists is in both runs. -/
theorem correctness_matched {F : Type} [NatCast F] [OfNat F 100] [Sub F] [Mul F] [Div F] [Neg F]
    [LE F] [LT F] [DecidableLE F] [DecidableLT F] (options : CompareOptions F)
    (baseline candidate : RunReport F) :
    ∀ q ∈ (comparison options baseline candidate).correctness, ∀ t ∈ q.texts,
      t ∈ baseline.fingerprints.map FingerprintReport.fingerprint ∧
        t ∈ candidate.fingerprints.map FingerprintReport.fingerprint := by
  rw [comparison]
  induction baseline.fingerprints using List.reverseRecOn with
  | nil =>
    intro q hq t ht
    dsimp only [List.foldl_nil] at hq
    split_ifs at hq with hchecksum
    · obtain rfl := Option.some.inj hq
      exact absurd ht List.not_mem_nil
    · cases hq
  | append_singleton fps b ih =>
    rw [List.foldl_concat]
    generalize fps.foldl (Comparison.step options candidate) _ = r at ih
    have hbefore : ∀ q ∈ r.correctness, ∀ t ∈ q.texts,
        t ∈ (fps ++ [b]).map FingerprintReport.fingerprint ∧
          t ∈ candidate.fingerprints.map FingerprintReport.fingerprint := by
      intro q hq t ht
      obtain ⟨hbase, hcand⟩ := ih q hq t ht
      rw [List.map_append]
      exact ⟨List.mem_append_left _ hbase, hcand⟩
    rw [Comparison.step]
    cases hc : candidate.byText b.fingerprint with
    | none => exact hbefore
    | some c =>
      intro q hq t ht
      dsimp only [Comparison.pushBuckets] at hq
      rw [Comparison.push_correctness] at hq
      obtain ⟨q', hq', rfl⟩ := Option.map_eq_some_iff.mp hq
      rcases q'.texts_check b c ht with ht | rfl
      · exact hbefore q' hq' t ht
      · refine ⟨List.mem_map_of_mem (List.mem_append_right _ List.mem_cons_self), ?_⟩
        by_contra hnot
        exact Option.some_ne_none c (hc.symm.trans ((lastWith_eq_none _).mpr hnot))

/-! ## The report -/

section Accounts

namespace CompareReport

variable {F : Type}

/-- The texts of the five lists that the baseline is sorted into. -/
def placed (r : CompareReport F) : List Bytes :=
  r.regressions.map FpDelta.fingerprint ++ r.improvements.map FpDelta.fingerprint
    ++ r.stable.map FpDelta.fingerprint ++ r.lowSample.map FpDelta.fingerprint
    ++ r.onlyInBaseline.map OnlyIn.fingerprint

/-- Nothing of two reports is lost in their comparison, and nothing is there twice. -/
structure Accounts (r : CompareReport F) (baseline candidate : RunReport F) : Prop where
  /-- Each fingerprint of the baseline is in exactly one list, once. -/
  placed_perm : r.placed.Perm (baseline.fingerprints.map FingerprintReport.fingerprint)
  placed_nodup : r.placed.Nodup
  mem_onlyInBaseline : ∀ t, t ∈ r.onlyInBaseline.map OnlyIn.fingerprint ↔
    t ∈ baseline.fingerprints.map FingerprintReport.fingerprint ∧
      t ∉ candidate.fingerprints.map FingerprintReport.fingerprint
  mem_onlyInCandidate : ∀ t, t ∈ r.onlyInCandidate.map OnlyIn.fingerprint ↔
    t ∈ candidate.fingerprints.map FingerprintReport.fingerprint ∧
      t ∉ baseline.fingerprints.map FingerprintReport.fingerprint
  onlyInCandidate_nodup : (r.onlyInCandidate.map OnlyIn.fingerprint).Nodup
  /-- What only the candidate has is in no other list. -/
  onlyInCandidate_apart : ∀ t ∈ r.onlyInCandidate.map OnlyIn.fingerprint,
    t ∉ r.placed ∧ t ∉ r.sizeRegressions.map BucketDelta.fingerprint ∧
      ∀ q ∈ r.correctness, t ∉ q.texts
  sizeRegressions_apart : ∀ t ∈ r.sizeRegressions.map BucketDelta.fingerprint,
    t ∉ r.regressions.map FpDelta.fingerprint
  sizeRegressions_nodup : (r.sizeRegressions.map fun d ↦ (d.fingerprint, d.bucket)).Nodup

end CompareReport

variable {F : Type} [NatCast F] [OfNat F 100] [Sub F] [Mul F] [Div F] [Neg F] [LE F] [LT F]
  [DecidableLE F] [DecidableLT F] [Ord F]
  (options : CompareOptions F) (baseline candidate : RunReport F)

theorem texts_regressions : ((compareRuns options baseline candidate).regressions.map
    FpDelta.fingerprint).Perm (classTexts options baseline candidate (some .regressed)) := by
  rw [← texts_listed]
  exact (sortBy_perm _ _).map _

theorem placed_perm_classTexts : (compareRuns options baseline candidate).placed.Perm
    (classTexts options baseline candidate (some .regressed)
      ++ classTexts options baseline candidate (some .improved)
      ++ classTexts options baseline candidate (some .stable)
      ++ classTexts options baseline candidate (some .lowSample)
      ++ classTexts options baseline candidate none) := by
  rw [← texts_onlyInBaseline, ← texts_listed, ← texts_listed, ← texts_listed, ← texts_listed]
  refine ((((List.Perm.map _ ?_).append (List.Perm.map _ ?_)).append (List.Perm.map _ ?_)).append
    (List.Perm.map _ ?_)).append (List.Perm.map _ ?_)
  · exact sortBy_perm _ _
  · exact sortBy_perm _ _
  · exact List.Perm.refl _
  · exact sortBy_perm _ _
  · exact sortBy_perm _ _

omit [OfNat F 100] [Sub F] [Mul F] [Div F] [Neg F] [LE F] [LT F] [DecidableLE F] [DecidableLT F]
  [Ord F] [NatCast F] in
theorem texts_onlyInCandidate :
    (onlyInCandidate baseline candidate).map OnlyIn.fingerprint
      = (candidate.fingerprints.map FingerprintReport.fingerprint).filter fun t ↦
        !(baseline.fingerprints.map FingerprintReport.fingerprint).elem t := by
  rw [onlyInCandidate, List.map_map, List.filter_map]
  rfl

/-- A comparison of reports with unique texts, and unique labels within each, accounts for all of
them. -/
theorem compareRuns_accounts
    (hbase : (baseline.fingerprints.map FingerprintReport.fingerprint).Nodup)
    (hcand : (candidate.fingerprints.map FingerprintReport.fingerprint).Nodup)
    (hbuckets : ∀ b ∈ baseline.fingerprints,
      (b.sizeBuckets.map SizeBucketReport.bucket).Nodup) :
    (compareRuns options baseline candidate).Accounts baseline candidate := by
  have hplaced := (placed_perm_classTexts options baseline candidate).trans
    (classTexts_perm options baseline candidate)
  have honlyB :
      ((compareRuns options baseline candidate).onlyInBaseline.map OnlyIn.fingerprint).Perm
      (classTexts options baseline candidate none) := by
    rw [← texts_onlyInBaseline]
    exact (sortBy_perm _ _).map _
  have honlyC : ((compareRuns options baseline candidate).onlyInCandidate.map
      OnlyIn.fingerprint).Perm ((onlyInCandidate baseline candidate).map OnlyIn.fingerprint) :=
    (sortBy_perm _ _).map _
  have hsize : (compareRuns options baseline candidate).sizeRegressions.Perm
      (baseline.fingerprints.flatMap (sizeRegressionsOf options candidate)) := by
    rw [← sizeRegressions_comparison]
    exact sortBy_perm _ _
  rw [texts_onlyInCandidate] at honlyC
  -- a size regression belongs to an entry of the baseline that has not regressed
  have hof : ∀ t ∈ (compareRuns options baseline candidate).sizeRegressions.map
      BucketDelta.fingerprint, ∃ b ∈ baseline.fingerprints, b.fingerprint = t
        ∧ classOf options candidate b ≠ some .regressed := by
    intro t ht
    obtain ⟨d, hd, rfl⟩ := List.mem_map.mp ht
    obtain ⟨b, hb, hdb⟩ := List.mem_flatMap.mp (hsize.mem_iff.mp hd)
    obtain ⟨htext, hv, -⟩ := of_mem_sizeRegressionsOf hdb
    exact ⟨b, hb, htext.symm, hv⟩
  have hmemC : ∀ t, t ∈ (compareRuns options baseline candidate).onlyInCandidate.map
      OnlyIn.fingerprint ↔ t ∈ candidate.fingerprints.map FingerprintReport.fingerprint ∧
        t ∉ baseline.fingerprints.map FingerprintReport.fingerprint := by
    intro t
    rw [honlyC.mem_iff, List.mem_filter, Bool.not_eq_true', ← Bool.not_eq_true, List.elem_iff]
  constructor
  · exact hplaced
  · exact hplaced.nodup_iff.mpr hbase
  · intro t
    rw [honlyB.mem_iff]
    exact mem_classTexts_none options baseline candidate
  · exact hmemC
  · exact honlyC.nodup_iff.mpr (hcand.filter _)
  · intro t ht
    have hno := ((hmemC t).mp ht).2
    refine ⟨?_, fun hs ↦ ?_, fun q hq hlisted ↦ ?_⟩
    · rw [hplaced.mem_iff]
      exact hno
    · obtain ⟨b, hb, rfl, -⟩ := hof t hs
      exact hno (List.mem_map_of_mem hb)
    · obtain ⟨q, hcorrectness, rfl⟩ := Option.map_eq_some_iff.mp hq
      have hsorted : (({ q with
          mismatches := sortBy moreRowsApart q.mismatches
          advisory := sortBy moreRowsApart q.advisory } : CorrectnessReport)).texts.Perm q.texts :=
        ((sortBy_perm _ _).append (sortBy_perm _ _)).map _
      exact hno (correctness_matched options baseline candidate q hcorrectness t
        (hsorted.mem_iff.mp hlisted)).1
  · intro t ht hr
    obtain ⟨b, hb, rfl, hv⟩ := hof t ht
    exact hv (class_unique hbase hb ((texts_regressions options baseline candidate).mem_iff.mp hr))
  · exact (hsize.map _).nodup_iff.mpr
      (sizeRegressions_comparison options baseline candidate ▸ nodup_sizeRegressions hbase hbuckets)

end Accounts

/-- A fingerprint with one decade. -/
def sampleEntry (text : Bytes) (p95Us bucketP95Us : ℕ) (checksum : Option ChecksumReport) :
    FingerprintReport ℚ where
  fingerprint := text
  count := 3
  errors := 0
  p50Us := 50
  p95Us := p95Us
  p99Us := 300
  meanUs := 60
  checksum := checksum
  resultBytes := none
  sizeBuckets := [⟨ascii "1-10", 2, 50, bucketP95Us, 60, 8⟩]

/-- A report of one fingerprint. -/
def sampleReport (p95Us bucketP95Us : ℕ) : RunReport ℚ where
  checksum := false
  fingerprints := [sampleEntry (ascii "select ?") p95Us bucketP95Us none]

/-- A report of three fingerprints, of which the first is the run's own. -/
def threeFingerprints (own : Bytes) (p95Us bucketP95Us : ℕ) (digest : Bytes) : RunReport ℚ where
  checksum := true
  fingerprints :=
    [sampleEntry own 100 100 none,
      sampleEntry (ascii "select ?") 100 bucketP95Us
        (some ⟨3, 0, 3, digest, [ascii "id"], false, false⟩),
      sampleEntry (ascii "show ?") p95Us bucketP95Us none]

/-- One fingerprint of each run alone, one with a slow decade and another digest, and one that is
slower as a whole. -/
theorem compareRuns_accounts_sample :
    (compareRuns ⟨10, 1⟩ (threeFingerprints (ascii "select old") 100 100 (ascii "0a"))
      (threeFingerprints (ascii "select new") 200 200 (ascii "0b"))).Accounts
        (threeFingerprints (ascii "select old") 100 100 (ascii "0a"))
        (threeFingerprints (ascii "select new") 200 200 (ascii "0b")) :=
  compareRuns_accounts _ _ _ (by decide) (by decide) (by decide)

end SqlReplay
