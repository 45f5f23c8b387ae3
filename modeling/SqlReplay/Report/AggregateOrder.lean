import Mathlib.Algebra.Order.Field.Basic
import Mathlib.Algebra.Order.Field.Rat
import Mathlib.Data.List.Forall2
import SqlReplay.Report.Aggregate
import SqlReplay.Report.Complete

/-!
# The numbers of an aggregate

Every number of an aggregate is a median of a field over some sample: the passes, the reports of one
fingerprint, those of them that have byte statistics, or the reports of one decade. The passes in
another order give permuted samples (`group_perm`, twice: the fingerprints by id, and inside each of
them the decades by label), so the medians are the same, and since ranking looks at two of the
numbers only, so is the order of the fingerprints (`numbers_perm`). A median lies between two
entries of its sample, field by field (`RunReport.Bounded`).

Of copies of one report each sample consists of one value. That needs what is true of every report
of a pass: a fingerprint has one entry, and its decades stand in order (`RunReport.WellFormed`).
-/

namespace SqlReplay.Aggregate

/-! ## Numbers -/

/-- The numbers of a fingerprint, under its id. -/
structure FingerprintNumbers (F : Type) where
  id : UInt32
  count : ℕ
  errors : ℕ
  skipped : ℕ
  notRun : ℕ
  p50Us : ℕ
  p95Us : ℕ
  p99Us : ℕ
  maxUs : ℕ
  meanUs : F
  resultBytes : Option (ResultBytesReport F)
  sizeBuckets : List (SizeBucketReport F)

/-- The numbers of a paced run, beside the speed asked for. -/
structure PacingNumbers (F : Type) where
  pacedEvents : ℕ
  maxLagUs : ℕ
  meanLagUs : F

/-- The numbers of a run, with its fingerprints in order. -/
structure RunNumbers (F : Type) where
  wallSecs : F
  totals : Totals F
  saturation : SaturationReport F
  pacing : Option (PacingNumbers F)
  fingerprints : List (FingerprintNumbers F)

section

variable {F : Type}

def FingerprintReport.numbers (f : FingerprintReport F) : FingerprintNumbers F where
  id := f.id
  count := f.count
  errors := f.errors
  skipped := f.skipped
  notRun := f.notRun
  p50Us := f.p50Us
  p95Us := f.p95Us
  p99Us := f.p99Us
  maxUs := f.maxUs
  meanUs := f.meanUs
  resultBytes := f.resultBytes
  sizeBuckets := f.sizeBuckets

def PacingReport.numbers (p : PacingReport F) : PacingNumbers F :=
  ⟨p.pacedEvents, p.maxLagUs, p.meanLagUs⟩

def RunReport.numbers (r : RunReport F) : RunNumbers F where
  wallSecs := r.wallSecs
  totals := r.totals
  saturation := r.saturation
  pacing := r.pacing.map PacingReport.numbers
  fingerprints := r.fingerprints.map FingerprintReport.numbers

/-- Ranking by the numbers. -/
def slowestNumbersFirst (a b : FingerprintNumbers F) : Ordering :=
  (compare b.p95Us a.p95Us).then (compare b.count a.count)

/-- Ranking looks at numbers only. -/
theorem numbers_sortBy (l : List (FingerprintReport F)) :
    (sortBy slowestFirst l).map FingerprintReport.numbers =
      sortBy slowestNumbersFirst (l.map FingerprintReport.numbers) :=
  List.map_mergeSort fun _ _ _ _ ↦ rfl

/-! ## Decades and their keys -/

/-- A key stands for a label. -/
theorem bucketKey_eq_iff {b : SizeBucketReport F} {k : ℕ ×ₗ Label} {label : Bytes}
    (hk : k = toLex (bucketOrder label, ⟨label⟩)) : bucketKey b = k ↔ b.bucket = label := by
  subst hk
  constructor
  · intro h
    exact congrArg (fun k ↦ (ofLex k).2.bytes) h
  · rintro rfl
    rfl

/-- The key of a group is the key of the label written out for it. -/
theorem key_eq_of_mem {l : List (SizeBucketReport F)}
    {e : (ℕ ×ₗ Label) × Sample (SizeBucketReport F)}
    (he : e ∈ (group bucketKey l).entries) :
    e.1 = toLex (bucketOrder (ofLex e.1).2.bytes, ⟨(ofLex e.1).2.bytes⟩) := by
  rw [← key_first bucketKey he]
  rfl

end

section Order

variable {F : Type} [Field F] [LinearOrder F]

/-! ## Passes in another order -/

variable {α β : Type}

theorem medianU64_perm {s s' : Sample α} (h : s.toList.Perm s'.toList) (f : α → ℕ) :
    medianU64 (s.map f) = medianU64 (s'.map f) :=
  median_perm _ (h.map f)

theorem medianF64_perm {s s' : Sample α} (h : s.toList.Perm s'.toList) (f : α → F) :
    medianF64 (s.map f) = medianF64 (s'.map f) :=
  median_perm _ (h.map f)

/-- Samples of permuted lists are there together, and permuted. -/
theorem ofList?_perm {l l' : List α} (h : l.Perm l') :
    Option.Rel (fun s s' : Sample α ↦ s.toList.Perm s'.toList) (Sample.ofList? l)
      (Sample.ofList? l') := by
  cases l with
  | nil =>
    rw [h.nil_eq.symm]
    exact Option.Rel.none
  | cons a l =>
    cases l' with
    | nil => exact absurd h.eq_nil (List.cons_ne_nil _ _)
    | cons b l' => exact Option.Rel.some h

/-- What is the same of related values is the same of optional ones. -/
theorem map_eq_of_rel {γ : Type} {R : α → β → Prop} {f : α → γ} {g : β → γ}
    (h : ∀ a b, R a b → f a = g b) {o : Option α} {o' : Option β} (hR : Option.Rel R o o') :
    o.map f = o'.map g := by
  cases hR with
  | none => rfl
  | some hab => exact congrArg some (h _ _ hab)

theorem map_eq_of_forall₂ {γ : Type} {R : α → β → Prop} {f : α → γ} {g : β → γ}
    (h : ∀ a b, R a b → f a = g b) {l : List α} {l' : List β} (hl : List.Forall₂ R l l') :
    l.map f = l'.map g := by
  induction hl with
  | nil => rfl
  | cons hab _ ih => rw [List.map_cons, List.map_cons, h _ _ hab, ih]

variable {fps fps' : Sample (FingerprintReport F)}

theorem aggregateResultBytes_perm (h : fps.toList.Perm fps'.toList) :
    aggregateResultBytes fps = aggregateResultBytes fps' := by
  refine map_eq_of_rel (fun s s' hs ↦ ?_) (ofList?_perm (h.filterMap _))
  rw [medianU64_perm hs, medianU64_perm hs, medianU64_perm hs, medianF64_perm hs,
    medianU64_perm hs, medianU64_perm hs]

theorem aggregateBucket_perm {bs bs' : Sample (SizeBucketReport F)}
    (h : bs.toList.Perm bs'.toList) (label : Bytes) :
    aggregateBucket label bs = aggregateBucket label bs' := by
  unfold aggregateBucket
  rw [medianU64_perm h, medianU64_perm h, medianU64_perm h, medianF64_perm h, medianU64_perm h,
    medianU64_perm h]

theorem aggregateSizeBuckets_perm (h : fps.toList.Perm fps'.toList) :
    aggregateSizeBuckets fps = aggregateSizeBuckets fps' := by
  refine map_eq_of_forall₂ (fun e e' he ↦ ?_) (group_perm bucketKey (h.flatMap_right _))
  rw [he.1, aggregateBucket_perm he.2]

theorem aggregateFingerprint_perm (h : fps.toList.Perm fps'.toList) (id : UInt32) :
    (aggregateFingerprint id fps).numbers = (aggregateFingerprint id fps').numbers := by
  unfold aggregateFingerprint FingerprintReport.numbers
  dsimp only
  rw [medianU64_perm h, medianU64_perm h, medianU64_perm h, medianU64_perm h, medianU64_perm h,
    medianU64_perm h, medianU64_perm h, medianU64_perm h, medianF64_perm h,
    aggregateResultBytes_perm h, aggregateSizeBuckets_perm h]

variable {passes passes' : Sample (RunReport F)}

theorem aggregatePacing_perm (h : passes.toList.Perm passes'.toList) :
    (aggregatePacing passes).map PacingReport.numbers =
      (aggregatePacing passes').map PacingReport.numbers := by
  unfold aggregatePacing
  have hall : (passes.toList.all fun p ↦ p.pacing.isSome) =
      passes'.toList.all fun p ↦ p.pacing.isSome := h.all_eq
  rw [hall]
  by_cases hpaced : (passes'.toList.all fun p ↦ p.pacing.isSome) = true
  · rw [if_pos hpaced, if_pos hpaced, Option.map_map, Option.map_map]
    refine map_eq_of_rel (fun s s' hs ↦ ?_) (ofList?_perm (h.filterMap _))
    dsimp only [Function.comp_apply, PacingReport.numbers]
    rw [medianU64_perm hs, medianU64_perm hs, medianF64_perm hs]
  · rw [if_neg hpaced, if_neg hpaced]

/-- The passes in another order have an aggregate with the same numbers, the fingerprints and their
decades in the same order. -/
theorem numbers_perm (h : passes.toList.Perm passes'.toList) :
    (aggregatePasses passes).numbers = (aggregatePasses passes').numbers := by
  have hfingerprints : (aggregatePasses passes).fingerprints.map FingerprintReport.numbers =
      (aggregatePasses passes').fingerprints.map FingerprintReport.numbers := by
    unfold aggregatePasses
    rw [numbers_sortBy, numbers_sortBy, List.map_map, List.map_map]
    refine congrArg _ (map_eq_of_forall₂ (fun e e' he ↦ ?_)
      (group_perm FingerprintReport.id (h.flatMap_right _)))
    rw [Function.comp_apply, Function.comp_apply, he.1, aggregateFingerprint_perm he.2]
  have htotals : aggregateTotals passes = aggregateTotals passes' := by
    unfold aggregateTotals
    rw [medianU64_perm h, medianU64_perm h, medianU64_perm h, medianU64_perm h, medianU64_perm h,
      medianU64_perm h, medianU64_perm h, medianF64_perm h, medianU64_perm h]
  have hsaturation : aggregateSaturation passes = aggregateSaturation passes' := by
    unfold aggregateSaturation
    rw [medianU64_perm h, medianU64_perm h, medianF64_perm h]
  have hwall : (aggregatePasses passes).wallSecs = (aggregatePasses passes').wallSecs :=
    medianF64_perm h _
  unfold RunReport.numbers
  rw [hfingerprints, hwall]
  change RunNumbers.mk _ (aggregateTotals passes) (aggregateSaturation passes)
    ((aggregatePacing passes).map _) _ = RunNumbers.mk _ (aggregateTotals passes')
      (aggregateSaturation passes') ((aggregatePacing passes').map _) _
  rw [htotals, hsaturation, aggregatePacing_perm h]

end Order

/-! ## Bounds -/

section Bounds

variable {F : Type} [LinearOrder F]

/-- Every number of a decade lies between those of the reports it is made from. -/
structure SizeBucketReport.Bounded (b : SizeBucketReport F) (l : List (SizeBucketReport F)) :
    Prop where
  count : Between b.count (l.map (·.count))
  p50Us : Between b.p50Us (l.map (·.p50Us))
  p95Us : Between b.p95Us (l.map (·.p95Us))
  meanUs : Between b.meanUs (l.map (·.meanUs))
  maxUs : Between b.maxUs (l.map (·.maxUs))
  bytesTotal : Between b.bytesTotal (l.map (·.bytesTotal))

structure ResultBytesReport.Bounded (b : ResultBytesReport F) (l : List (ResultBytesReport F)) :
    Prop where
  total : Between b.total (l.map (·.total))
  min : Between b.min (l.map (·.min))
  max : Between b.max (l.map (·.max))
  mean : Between b.mean (l.map (·.mean))
  p50 : Between b.p50 (l.map (·.p50))
  p95 : Between b.p95 (l.map (·.p95))

/-- Every number of a fingerprint lies between those of its reports, the byte statistics between
those that are there, and those of a decade between the ones under its label. -/
structure FingerprintReport.Bounded (f : FingerprintReport F) (l : List (FingerprintReport F)) :
    Prop where
  count : Between f.count (l.map (·.count))
  errors : Between f.errors (l.map (·.errors))
  skipped : Between f.skipped (l.map (·.skipped))
  notRun : Between f.notRun (l.map (·.notRun))
  p50Us : Between f.p50Us (l.map (·.p50Us))
  p95Us : Between f.p95Us (l.map (·.p95Us))
  p99Us : Between f.p99Us (l.map (·.p99Us))
  maxUs : Between f.maxUs (l.map (·.maxUs))
  meanUs : Between f.meanUs (l.map (·.meanUs))
  resultBytes : ∀ b ∈ f.resultBytes, b.Bounded (l.filterMap (·.resultBytes))
  sizeBuckets : ∀ b ∈ f.sizeBuckets,
    b.Bounded ((l.flatMap (·.sizeBuckets)).filter fun b' ↦ b'.bucket = b.bucket)

structure Totals.Bounded (t : Totals F) (l : List (Totals F)) : Prop where
  events : Between t.events (l.map (·.events))
  sessions : Between t.sessions (l.map (·.sessions))
  executed : Between t.executed (l.map (·.executed))
  skipped : Between t.skipped (l.map (·.skipped))
  errors : Between t.errors (l.map (·.errors))
  notRun : Between t.notRun (l.map (·.notRun))
  connectFailures : Between t.connectFailures (l.map (·.connectFailures))
  qps : Between t.qps (l.map (·.qps))
  filtered : Between t.filtered (l.map (·.filtered))

structure SaturationReport.Bounded (r : SaturationReport F) (l : List (SaturationReport F)) :
    Prop where
  samples : Between r.samples (l.map (·.samples))
  saturatedSamples : Between r.saturatedSamples (l.map (·.saturatedSamples))
  saturatedPct : Between r.saturatedPct (l.map (·.saturatedPct))

structure PacingReport.Bounded (p : PacingReport F) (l : List (PacingReport F)) : Prop where
  speed : Between p.speed (l.map (·.speed))
  pacedEvents : Between p.pacedEvents (l.map (·.pacedEvents))
  maxLagUs : Between p.maxLagUs (l.map (·.maxLagUs))
  meanLagUs : Between p.meanLagUs (l.map (·.meanLagUs))

/-- Every number of a run lies between those of its passes, those of a fingerprint between the ones
of the passes that have it. -/
structure RunReport.Bounded (r : RunReport F) (l : List (RunReport F)) : Prop where
  wallSecs : Between r.wallSecs (l.map (·.wallSecs))
  totals : r.totals.Bounded (l.map (·.totals))
  saturation : r.saturation.Bounded (l.map (·.saturation))
  pacing : ∀ p ∈ r.pacing, p.Bounded (l.filterMap (·.pacing))
  fingerprints : ∀ f ∈ r.fingerprints,
    f.Bounded ((l.flatMap (·.fingerprints)).filter fun f' ↦ f'.id = f.id)

variable [Field F] [IsStrictOrderedRing F] {α : Type}

theorem isMid_mean : IsMid fun a b : F ↦ (a + b) / 2 := by
  intro a b h
  constructor
  · exact (le_div_iff₀ two_pos).mpr ((mul_two a).trans_le (add_le_add_right h a))
  · exact (div_le_iff₀ two_pos).mpr ((add_le_add_left h b).trans_eq (mul_two b).symm)

theorem between_medianU64 (s : Sample α) (f : α → ℕ) :
    Between (medianU64 (s.map f)) (s.toList.map f) :=
  between_median isMid_nat (s.map f)

theorem between_medianF64 (s : Sample α) (f : α → F) :
    Between (medianF64 (s.map f)) (s.toList.map f) :=
  between_median isMid_mean (s.map f)

theorem bounded_aggregateBucket (label : Bytes) (bs : Sample (SizeBucketReport F)) :
    (aggregateBucket label bs).Bounded bs.toList where
  count := between_medianU64 bs _
  p50Us := between_medianU64 bs _
  p95Us := between_medianU64 bs _
  meanUs := between_medianF64 bs _
  maxUs := between_medianU64 bs _
  bytesTotal := between_medianU64 bs _

theorem bounded_aggregateResultBytes {fps : Sample (FingerprintReport F)} :
    ∀ b ∈ aggregateResultBytes fps, b.Bounded (fps.toList.filterMap (·.resultBytes)) := by
  intro b hb
  obtain ⟨s, hs, rfl⟩ := Option.map_eq_some_iff.mp hb
  rw [← Sample.ofList?_eq_some.mp hs]
  exact ⟨between_medianU64 s _, between_medianU64 s _, between_medianU64 s _,
    between_medianF64 s _, between_medianU64 s _, between_medianU64 s _⟩

theorem bounded_aggregateSizeBuckets {fps : Sample (FingerprintReport F)} :
    ∀ b ∈ aggregateSizeBuckets fps,
      b.Bounded ((fps.toList.flatMap (·.sizeBuckets)).filter fun b' ↦ b'.bucket = b.bucket) := by
  intro b hb
  obtain ⟨e, he, rfl⟩ := List.mem_map.mp hb
  have hlist := (mem_group bucketKey).mp he
  have hfilter : e.2.toList = (fps.toList.flatMap FingerprintReport.sizeBuckets).filter fun b' ↦
      b'.bucket = (ofLex e.1).2.bytes := by
    rw [hlist]
    exact List.filter_congr fun b' _ ↦
      decide_eq_decide.mpr (bucketKey_eq_iff (key_eq_of_mem he))
  exact hfilter ▸ bounded_aggregateBucket _ e.2

theorem bounded_aggregateFingerprint (id : UInt32) (fps : Sample (FingerprintReport F)) :
    (aggregateFingerprint id fps).Bounded fps.toList where
  count := between_medianU64 fps _
  errors := between_medianU64 fps _
  skipped := between_medianU64 fps _
  notRun := between_medianU64 fps _
  p50Us := between_medianU64 fps _
  p95Us := between_medianU64 fps _
  p99Us := between_medianU64 fps _
  maxUs := between_medianU64 fps _
  meanUs := between_medianF64 fps _
  resultBytes := bounded_aggregateResultBytes
  sizeBuckets := bounded_aggregateSizeBuckets

theorem bounded_aggregatePacing {passes : Sample (RunReport F)} :
    ∀ p ∈ aggregatePacing passes, p.Bounded (passes.toList.filterMap (·.pacing)) := by
  intro p hp
  unfold aggregatePacing at hp
  split_ifs at hp
  · obtain ⟨s, hs, rfl⟩ := Option.map_eq_some_iff.mp hp
    rw [← Sample.ofList?_eq_some.mp hs]
    have hspeed : s.first.speed ∈ s.toList.map (·.speed) := List.mem_map_of_mem s.first_mem
    exact ⟨Between.of_mem hspeed, between_medianU64 s _, between_medianU64 s _,
      between_medianF64 s _⟩
  · exact absurd hp (Option.not_mem_none p)

theorem bounded_aggregateTotals (passes : Sample (RunReport F)) :
    (aggregateTotals passes).Bounded (passes.toList.map (·.totals)) := by
  have hu (f : Totals F → ℕ) :
      Between (medianU64 (passes.map fun p ↦ f p.totals))
        ((passes.toList.map (·.totals)).map f) := by
    rw [List.map_map]
    exact between_medianU64 passes _
  refine ⟨hu _, hu _, hu _, hu _, hu _, hu _, hu _, ?_, hu _⟩
  rw [List.map_map]
  exact between_medianF64 passes _

theorem bounded_aggregateSaturation (passes : Sample (RunReport F)) :
    (aggregateSaturation passes).Bounded (passes.toList.map (·.saturation)) := by
  constructor
  · rw [List.map_map]
    exact between_medianU64 passes _
  · rw [List.map_map]
    exact between_medianU64 passes _
  · rw [List.map_map]
    exact between_medianF64 passes _

/-- The numbers of an aggregate lie between those of the passes. -/
theorem bounded_aggregatePasses (passes : Sample (RunReport F)) :
    (aggregatePasses passes).Bounded passes.toList where
  wallSecs := between_medianF64 passes _
  totals := bounded_aggregateTotals passes
  saturation := bounded_aggregateSaturation passes
  pacing := bounded_aggregatePacing
  fingerprints := by
    intro f hf
    rw [aggregatePasses, (sortBy_perm slowestFirst _).mem_iff] at hf
    obtain ⟨e, he, rfl⟩ := List.mem_map.mp hf
    have hlist : e.2.toList = (passes.toList.flatMap RunReport.fingerprints).filter fun f' ↦
        f'.id = e.1 := (mem_group FingerprintReport.id).mp he
    exact hlist ▸ bounded_aggregateFingerprint e.1 e.2

end Bounds

/-! ## Copies of one report -/

/-- What a pass reports: one entry for a fingerprint, its decades in order. -/
structure RunReport.WellFormed {F : Type} (r : RunReport F) : Prop where
  ids : (r.fingerprints.map (·.id)).Nodup
  decades : ∀ f ∈ r.fingerprints, f.sizeBuckets.Pairwise fun a b ↦ bucketKey a < bucketKey b

/-- The numbers of two runs agree, up to the order of the fingerprints. -/
structure RunReport.SameNumbers {F : Type} (r r' : RunReport F) : Prop where
  wallSecs : r.wallSecs = r'.wallSecs
  totals : r.totals = r'.totals
  saturation : r.saturation = r'.saturation
  pacing : r.pacing = r'.pacing
  fingerprints :
    (r.fingerprints.map (·.numbers)).Perm (r'.fingerprints.map (·.numbers))

section Copies

variable {F : Type} [LinearOrder F] [Field F] [IsStrictOrderedRing F] {α : Type}

theorem medianU64_copies {s : Sample α} {a : α} (h : ∀ b ∈ s.toList, b = a) (f : α → ℕ) :
    medianU64 (s.map f) = f a := by
  refine median_eq_of_forall isMid_nat fun x hx ↦ ?_
  obtain ⟨b, hb, rfl⟩ := Sample.mem_map.mp hx
  rw [h b hb]

theorem medianF64_copies {s : Sample α} {a : α} (h : ∀ b ∈ s.toList, b = a) (f : α → F) :
    medianF64 (s.map f) = f a := by
  refine median_eq_of_forall isMid_mean fun x hx ↦ ?_
  obtain ⟨b, hb, rfl⟩ := Sample.mem_map.mp hx
  rw [h b hb]

theorem aggregateBucket_copies {bs : Sample (SizeBucketReport F)} {b : SizeBucketReport F}
    (h : ∀ b' ∈ bs.toList, b' = b) : aggregateBucket b.bucket bs = b := by
  unfold aggregateBucket
  rw [medianU64_copies h, medianU64_copies h, medianU64_copies h, medianF64_copies h,
    medianU64_copies h, medianU64_copies h]

variable {fps : Sample (FingerprintReport F)} {f : FingerprintReport F}

/-- An optional field of copies is that field, copied. -/
theorem ofList?_filterMap_copies {β : Type} {s : Sample α} {a : α} (h : ∀ b ∈ s.toList, b = a)
    (g : α → Option β) :
    (g a = none ∧ Sample.ofList? (s.toList.filterMap g) = none) ∨
      ∃ c t, g a = some c ∧ Sample.ofList? (s.toList.filterMap g) = some t ∧
        ∀ c' ∈ t.toList, c' = c := by
  cases hg : g a with
  | none =>
    refine Or.inl ⟨rfl, Sample.ofList?_eq_none.mpr (List.filterMap_eq_nil_iff.mpr fun b hb ↦ ?_)⟩
    rw [h b hb, hg]
  | some c =>
    refine Or.inr ⟨c, ?_⟩
    have hmem : c ∈ s.toList.filterMap g :=
      List.mem_filterMap.mpr ⟨s.first, s.first_mem, (h _ s.first_mem).symm ▸ hg⟩
    cases ht : Sample.ofList? (s.toList.filterMap g) with
    | none =>
      rw [Sample.ofList?_eq_none.mp ht] at hmem
      exact absurd hmem List.not_mem_nil
    | some t =>
      refine ⟨t, rfl, rfl, fun c' hc' ↦ ?_⟩
      rw [Sample.ofList?_eq_some.mp ht] at hc'
      obtain ⟨b, hb, hbc⟩ := List.mem_filterMap.mp hc'
      rw [h b hb, hg] at hbc
      exact (Option.some.inj hbc).symm

theorem aggregateResultBytes_copies (h : ∀ f' ∈ fps.toList, f' = f) :
    aggregateResultBytes fps = f.resultBytes := by
  unfold aggregateResultBytes
  rcases ofList?_filterMap_copies h FingerprintReport.resultBytes with
    ⟨hnone, hs⟩ | ⟨b, s, hsome, hs, hb⟩
  · rw [hnone, hs]
    rfl
  · rw [hsome, hs, Option.map_some, medianU64_copies hb, medianU64_copies hb, medianU64_copies hb,
      medianF64_copies hb, medianU64_copies hb, medianU64_copies hb]

theorem mem_flatMap_copies {β : Type} {s : Sample α} {a : α} (h : ∀ b ∈ s.toList, b = a)
    (g : α → List β) (c : β) : c ∈ s.toList.flatMap g ↔ c ∈ g a := by
  rw [List.mem_flatMap]
  constructor
  · rintro ⟨b, hb, hc⟩
    exact h b hb ▸ hc
  · intro hc
    exact ⟨s.first, s.first_mem, (h _ s.first_mem).symm ▸ hc⟩

theorem aggregateSizeBuckets_copies (h : ∀ f' ∈ fps.toList, f' = f)
    (hdecades : f.sizeBuckets.Pairwise fun a b ↦ bucketKey a < bucketKey b) :
    aggregateSizeBuckets fps = f.sizeBuckets := by
  have hmem := mem_flatMap_copies h FingerprintReport.sizeBuckets
  have hnodup : (f.sizeBuckets.map bucketKey).Nodup :=
    (List.pairwise_map.mpr hdecades).imp ne_of_lt
  have hfirsts : firsts bucketKey (fps.toList.flatMap FingerprintReport.sizeBuckets) =
      f.sizeBuckets := firsts_eq bucketKey hmem hdecades
  rw [← hfirsts]
  refine List.map_congr_left fun e he ↦ ?_
  have hlabel : (ofLex e.1).2.bytes = e.2.first.bucket := by
    rw [← key_first bucketKey he]
    rfl
  rw [hlabel]
  exact aggregateBucket_copies fun b hb ↦
    eq_first_of_mem bucketKey (fun b hb ↦ (hmem b).mp hb) hnodup he hb

theorem aggregateFingerprint_copies (h : ∀ f' ∈ fps.toList, f' = f)
    (hdecades : f.sizeBuckets.Pairwise fun a b ↦ bucketKey a < bucketKey b) :
    (aggregateFingerprint f.id fps).numbers = f.numbers := by
  unfold aggregateFingerprint FingerprintReport.numbers
  dsimp only
  rw [medianU64_copies h, medianU64_copies h, medianU64_copies h, medianU64_copies h,
    medianU64_copies h, medianU64_copies h, medianU64_copies h, medianU64_copies h,
    medianF64_copies h, aggregateResultBytes_copies h, aggregateSizeBuckets_copies h hdecades]

variable {passes : Sample (RunReport F)} {r : RunReport F}

theorem aggregatePacing_copies (h : ∀ p ∈ passes.toList, p = r) :
    aggregatePacing passes = r.pacing := by
  unfold aggregatePacing
  rcases ofList?_filterMap_copies h RunReport.pacing with ⟨hnone, -⟩ | ⟨p, s, hsome, hs, hp⟩
  · rw [if_neg, hnone]
    intro hall
    have hfirst := List.all_eq_true.mp hall _ passes.first_mem
    rw [h _ passes.first_mem, hnone] at hfirst
    exact Bool.false_ne_true hfirst
  · rw [if_pos, hs, hsome, Option.map_some, hp _ s.first_mem, medianU64_copies hp,
      medianU64_copies hp, medianF64_copies hp]
    refine List.all_eq_true.mpr fun p' hp' ↦ ?_
    rw [h _ hp', hsome]
    rfl

/-- Copies of the report of a pass have an aggregate with the numbers of that report. -/
theorem sameNumbers_copies (h : ∀ p ∈ passes.toList, p = r) (hr : r.WellFormed) :
    (aggregatePasses passes).SameNumbers r := by
  refine ⟨medianF64_copies h _, ?_, ?_, aggregatePacing_copies h, ?_⟩
  · change aggregateTotals passes = r.totals
    unfold aggregateTotals
    rw [medianU64_copies h, medianU64_copies h, medianU64_copies h, medianU64_copies h,
      medianU64_copies h, medianU64_copies h, medianU64_copies h, medianF64_copies h,
      medianU64_copies h]
  · change aggregateSaturation passes = r.saturation
    unfold aggregateSaturation
    rw [medianU64_copies h, medianU64_copies h, medianF64_copies h]
  · -- One group for each fingerprint, and ranking permutes.
    have hmem := mem_flatMap_copies h RunReport.fingerprints
    have hfirsts := firsts_perm FingerprintReport.id hmem hr.ids
    refine ((sortBy_perm slowestFirst _).map _).trans ?_
    rw [List.map_map]
    refine List.Perm.trans (List.Perm.of_eq ?_) (hfirsts.map FingerprintReport.numbers)
    unfold firsts
    rw [List.map_map]
    refine List.map_congr_left fun e he ↦ ?_
    have hfirst : e.2.first ∈ r.fingerprints :=
      hfirsts.mem_iff.mp (List.mem_map.mpr ⟨e, he, rfl⟩)
    rw [Function.comp_apply, Function.comp_apply, ← key_first FingerprintReport.id he]
    exact aggregateFingerprint_copies
      (fun f hf ↦ eq_first_of_mem FingerprintReport.id (fun f hf ↦ (hmem f).mp hf) hr.ids he hf)
      (hr.decades _ hfirst)

/-! ## The aggregate of a run -/

/-- Of at least one pass there is an aggregate; its numbers, and its order of fingerprints and of
decades, do not depend on the order of the passes; each number lies between those of the passes that
have it; and copies of the report of one pass give its numbers back. -/
theorem aggregateMedian_numbers (passes : List (RunReport F)) (hne : passes ≠ []) :
    ∃ a, aggregateMedian passes = some a ∧
      (∀ passes', passes'.Perm passes →
        (aggregateMedian passes').map RunReport.numbers = some a.numbers) ∧
      a.Bounded passes ∧
      ∀ r n, r.WellFormed → passes = List.replicate n r → a.SameNumbers r := by
  cases passes with
  | nil => exact absurd rfl hne
  | cons p passes =>
    refine ⟨aggregatePasses ⟨p, passes⟩, rfl, fun passes' h ↦ ?_,
      bounded_aggregatePasses ⟨p, passes⟩,
      fun r n hr hcopies ↦ sameNumbers_copies (fun p' hp' ↦ ?_) hr⟩
    · cases passes' with
      | nil => exact absurd h.nil_eq.symm (List.cons_ne_nil _ _)
      | cons p' passes' =>
        have hsame : (aggregatePasses ⟨p', passes'⟩).numbers =
            (aggregatePasses ⟨p, passes⟩).numbers := numbers_perm h
        exact congrArg some hsame
    · have hmem : p' ∈ p :: passes := hp'
      rw [hcopies] at hmem
      exact List.eq_of_mem_replicate hmem

/-- A report with one fingerprint, and results in two decades. -/
def sampleRun : RunReport ℚ where
  tool := ascii "sql-replay"
  toolVersion := []
  captureFile := []
  captureDialect := []
  latencySource := ascii "replayed"
  targetUrl := []
  targetServerVersion := []
  startedAt := []
  endedAt := []
  wallSecs := 3
  aborted := false
  aggregation := none
  flags := ⟨50, false, false, none, ascii "max", false, none, false, none, none, none⟩
  totals := ⟨3, 1, 3, 0, 0, 0, 0, 1, 0⟩
  saturation := ⟨10, 0, 0⟩
  pacing := none
  targetSettings := SortedMap.empty
  fingerprints :=
    [⟨7, ascii "select ?", 3, 0, none, 0, 0, 10, 30, 30, 30, 50 / 3, none,
      some ⟨2100, 10, 2048, 700, 42, 2048⟩,
      [⟨ascii "<1KB", 2, 10, 10, 10, 10, 52⟩, ⟨ascii "1KB-10KB", 1, 30, 30, 30, 30, 2048⟩]⟩]

theorem sampleRun_wellFormed : sampleRun.WellFormed where
  ids := List.nodup_singleton _
  decades f hf := by
    rw [List.mem_singleton.mp hf]
    exact List.pairwise_pair.mpr (Prod.Lex.toLex_lt_toLex.mpr (Or.inl (by decide)))

theorem aggregateMedian_numbers_sample :
    ∃ a, aggregateMedian [sampleRun, sampleRun] = some a ∧ a.SameNumbers sampleRun := by
  obtain ⟨a, ha, -, -, hcopies⟩ :=
    aggregateMedian_numbers [sampleRun, sampleRun] (List.cons_ne_nil _ _)
  exact ⟨a, ha, hcopies sampleRun 2 sampleRun_wellFormed rfl⟩

end Copies

end SqlReplay.Aggregate
