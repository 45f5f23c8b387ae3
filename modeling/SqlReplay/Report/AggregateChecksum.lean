import SqlReplay.Report.AggregateOrder

/-!
# The checksum of an aggregate

Two ways to say what checksum an aggregated fingerprint should have. The law (`Lawful`) asks the
checksums recorded in any pass: there is one if there is one among them, it is marked if one of them
is or two have different digests, and of equal digests it has that digest. None of this has an
order. The aggregate takes the checksum of the first pass and asks the others only whether they
disagree.

For one order of the passes the two agree exactly when no pass recorded a checksum, or the first did
and carries the marks of the others (`lawful_iff`). Over all orders each pass has its turn to be the
first, which gives the condition for the law not to depend on the order (`lawful_perm_iff`).
-/

namespace SqlReplay.Aggregate

variable {F : Type}

/-- The reports of a fingerprint in the passes. -/
def entriesOf (id : UInt32) (passes : List (RunReport F)) : List (FingerprintReport F) :=
  (passes.flatMap (·.fingerprints)).filter fun f ↦ f.id = id

/-- The checksums recorded for a fingerprint. -/
def recordedOf (id : UInt32) (passes : List (RunReport F)) : List ChecksumReport :=
  (entriesOf id passes).filterMap (·.checksum)

/-- What the checksums recorded ask of the checksum of the aggregate. -/
structure Lawful (recorded : List ChecksumReport) (c : Option ChecksumReport) : Prop where
  isSome : recorded ≠ [] → c.isSome
  nondeterministic : ∀ c' ∈ c, c'.nondeterministic = true ↔
    (∃ r ∈ recorded, r.nondeterministic = true) ∨
      ∃ r ∈ recorded, ∃ r' ∈ recorded, r.digest ≠ r'.digest
  digest : ∀ d, (∀ r ∈ recorded, r.digest = d) → ∀ c' ∈ c, c'.digest = d

/-- Where nothing was recorded there need not be a checksum. -/
theorem lawful_nil : Lawful [] none :=
  ⟨fun h ↦ absurd rfl h, fun c hc ↦ absurd hc (Option.not_mem_none c),
    fun _ _ c hc ↦ absurd hc (Option.not_mem_none c)⟩

/-- A checksum that carries the mark of any other: with all digests equal, it is marked if one
is. -/
def Carries (c : ChecksumReport) (recorded : List ChecksumReport) : Prop :=
  (∃ r ∈ recorded, r.nondeterministic = true) →
    c.nondeterministic = true ∨ ∃ r ∈ recorded, r.digest ≠ c.digest

/-- Two digests differ exactly if one differs from a given one of them. -/
theorem exists_digest_ne {recorded : List ChecksumReport} {c : ChecksumReport} (hc : c ∈ recorded) :
    (∃ r ∈ recorded, ∃ r' ∈ recorded, r.digest ≠ r'.digest) ↔
      ∃ r ∈ recorded, r.digest ≠ c.digest := by
  constructor
  · rintro ⟨r, hr, r', hr', hne⟩
    by_cases h : r.digest = c.digest
    · exact ⟨r', hr', fun h' ↦ hne (h.trans h'.symm)⟩
    · exact ⟨r, hr, h⟩
  · rintro ⟨r, hr, hne⟩
    exact ⟨r, hr, c, hc, hne⟩

/-- The first report of a fingerprint is the first of the first pass that has one. -/
theorem head?_entriesOf (id : UInt32) (passes : List (RunReport F)) :
    (entriesOf id passes).head? =
      passes.findSome? fun p ↦ p.fingerprints.find? fun f ↦ f.id = id := by
  unfold entriesOf
  induction passes with
  | nil => rfl
  | cons p passes ih =>
    rw [List.flatMap_cons, List.filter_append, List.head?_append, ih, List.head?_filter,
      List.findSome?_cons]
    cases p.fingerprints.find? fun f ↦ f.id = id <;> rfl

theorem recordedOf_perm {id : UInt32} {passes passes' : List (RunReport F)}
    (h : passes.Perm passes') : (recordedOf id passes).Perm (recordedOf id passes') :=
  ((h.flatMap_right _).filter _).filterMap _

theorem Carries.of_perm {c : ChecksumReport} {l l' : List ChecksumReport} (h : Carries c l)
    (hperm : l.Perm l') : Carries c l' := by
  rintro ⟨r, hr, hmark⟩
  rcases h ⟨r, hperm.mem_iff.mpr hr, hmark⟩ with hc | ⟨r', hr', hne⟩
  · exact Or.inl hc
  · exact Or.inr ⟨r', hperm.mem_iff.mp hr', hne⟩

section

variable [Field F] [LinearOrder F]

/-- The checksum of a fingerprint in the aggregate of passes, if it is there. -/
def aggregatedChecksum (id : UInt32) (passes : List (RunReport F)) : Option ChecksumReport :=
  ((aggregateMedian passes).bind fun a ↦ a.fingerprints.find? fun f ↦ f.id = id).bind (·.checksum)

/-- It is the checksum made of the reports of the fingerprint. -/
theorem aggregatedChecksum_eq (id : UInt32) (passes : List (RunReport F)) :
    aggregatedChecksum id passes =
      (Sample.ofList? (entriesOf id passes)).bind aggregateChecksum := by
  cases passes with
  | nil => rfl
  | cons p passes =>
    have hperm := sortBy_perm slowestFirst
      ((fingerprintsById ⟨p, passes⟩).entries.map fun e ↦ aggregateFingerprint e.1 e.2)
    have hget : (fingerprintsById ⟨p, passes⟩).get? id =
        Sample.ofList? (entriesOf id (p :: passes)) := get?_group FingerprintReport.id _ id
    have hfound : aggregatedChecksum id (p :: passes) =
        ((aggregatePasses ⟨p, passes⟩).fingerprints.find? fun f ↦ f.id = id).bind
          (·.checksum) := rfl
    rw [hfound, ← hget]
    cases hf : (aggregatePasses ⟨p, passes⟩).fingerprints.find? fun f ↦ f.id = id with
    | none =>
      -- A group would have left its aggregate in the list.
      cases hs : (fingerprintsById ⟨p, passes⟩).get? id with
      | none => rfl
      | some s =>
        have hmem : aggregateFingerprint id s ∈ (aggregatePasses ⟨p, passes⟩).fingerprints :=
          hperm.mem_iff.mpr (List.mem_map.mpr ⟨(id, s), SortedMap.mem_iff_get?.mpr hs, rfl⟩)
        exact absurd (decide_eq_true rfl) (List.find?_eq_none.mp hf _ hmem)
    | some f =>
      have hid : f.id = id :=
        of_decide_eq_true
          (List.find?_some (p := fun f : FingerprintReport F ↦ decide (f.id = id)) hf)
      obtain ⟨e, he, rfl⟩ := List.mem_map.mp (hperm.mem_iff.mp (List.mem_of_find?_eq_some hf))
      obtain ⟨k, s⟩ := e
      have hk : k = id := hid
      subst hk
      rw [SortedMap.mem_iff_get?.mp he]
      rfl

/-- In one order of the passes: the law holds if nothing was recorded, or if the first report
recorded a checksum that carries the marks of the others, and only then. -/
theorem lawful_iff (id : UInt32) (passes : List (RunReport F)) :
    Lawful (recordedOf id passes) (aggregatedChecksum id passes) ↔
      recordedOf id passes = [] ∨
        ∃ c, (entriesOf id passes).head?.bind (·.checksum) = some c ∧
          Carries c (recordedOf id passes) := by
  rw [aggregatedChecksum_eq]
  unfold recordedOf
  generalize entriesOf id passes = entries
  cases entries with
  | nil => exact iff_of_true lawful_nil (Or.inl rfl)
  | cons f entries =>
    have hagg : (Sample.ofList? (f :: entries)).bind aggregateChecksum =
        f.checksum.map fun c ↦ { c with
          nondeterministic := c.nondeterministic ||
            ((f :: entries).filterMap FingerprintReport.checksum).any fun other ↦
              other.digest != c.digest } := rfl
    rw [hagg, List.head?_cons, Option.bind_some]
    cases hc : f.checksum with
    | none =>
      constructor
      · intro h
        by_contra hne
        exact Bool.false_ne_true (h.isSome fun hnil ↦ hne (Or.inl hnil))
      · rintro (hnil | ⟨c, hsome, -⟩)
        · rw [hnil]
          exact lawful_nil
        · exact absurd hsome.symm (Option.some_ne_none c)
    | some c =>
      have hmem : c ∈ (f :: entries).filterMap FingerprintReport.checksum :=
        List.mem_filterMap.mpr ⟨f, List.mem_cons_self, hc⟩
      generalize (f :: entries).filterMap FingerprintReport.checksum = recorded at hmem ⊢
      -- The mark of the aggregate, as a statement about the checksums recorded.
      have hmark :
          (c.nondeterministic || recorded.any fun other ↦ other.digest != c.digest) = true ↔
          c.nondeterministic = true ∨ ∃ r ∈ recorded, r.digest ≠ c.digest := by
        rw [Bool.or_eq_true, List.any_eq_true]
        simp only [bne_iff_ne]
      constructor
      · intro h
        refine Or.inr ⟨c, rfl, fun hflag ↦ ?_⟩
        exact hmark.mp ((h.nondeterministic _ rfl).mpr (Or.inl hflag))
      · rintro (hnil | ⟨c', hsome, hcarries⟩)
        · rw [hnil] at hmem
          exact absurd hmem List.not_mem_nil
        · cases hsome
          refine ⟨fun _ ↦ rfl, ?_, ?_⟩
          · rintro _ ⟨⟩
            rw [hmark, exists_digest_ne hmem]
            constructor
            · rintro (hflag | hne)
              · exact Or.inl ⟨c, hmem, hflag⟩
              · exact Or.inr hne
            · rintro (hflag | hne)
              · exact hcarries hflag
              · exact Or.inr hne
          · rintro d hd _ ⟨⟩
            exact hd c hmem

/-- In every order of the passes: the law holds if nothing was recorded, or if each pass that has
the fingerprint recorded a checksum that carries the marks of the others, and only then. -/
theorem lawful_perm_iff (id : UInt32) (passes : List (RunReport F)) :
    (∀ passes', passes'.Perm passes →
        Lawful (recordedOf id passes') (aggregatedChecksum id passes')) ↔
      recordedOf id passes = [] ∨
        ∀ p ∈ passes, ∀ f, (p.fingerprints.find? fun f ↦ f.id = id) = some f →
          ∃ c, f.checksum = some c ∧ Carries c (recordedOf id passes) := by
  constructor
  · intro h
    by_cases hnil : recordedOf id passes = []
    · exact Or.inl hnil
    · refine Or.inr fun p hp f hf ↦ ?_
      -- The pass in front.
      obtain ⟨before, after, rfl⟩ := List.append_of_mem hp
      have hperm : (p :: (before ++ after)).Perm (before ++ p :: after) :=
        List.perm_middle.symm
      have hhead : (entriesOf id (p :: (before ++ after))).head? = some f := by
        rw [head?_entriesOf, List.findSome?_cons, hf]
      rcases (lawful_iff id _).mp (h _ hperm) with hnil' | ⟨c, hc, hcarries⟩
      · exact absurd (List.nil_perm.mp (hnil' ▸ recordedOf_perm hperm)) hnil
      · rw [hhead, Option.bind_some] at hc
        exact ⟨c, hc, hcarries.of_perm (recordedOf_perm hperm)⟩
  · intro h passes' hperm
    refine (lawful_iff id passes').mpr ?_
    by_cases hnil : recordedOf id passes' = []
    · exact Or.inl hnil
    · refine Or.inr ?_
      rcases h with hnil' | hall
      · exact absurd (hnil' ▸ recordedOf_perm hperm).eq_nil hnil
      · -- Some pass is in front of those that have the fingerprint.
        cases hhead : (entriesOf id passes').head? with
        | none =>
          unfold recordedOf at hnil
          rw [List.head?_eq_none_iff.mp hhead] at hnil
          exact absurd rfl hnil
        | some f =>
          rw [head?_entriesOf] at hhead
          obtain ⟨p, hp, hf⟩ := List.exists_of_findSome?_eq_some hhead
          obtain ⟨c, hc, hcarries⟩ := hall p (hperm.mem_iff.mp hp) f hf
          exact ⟨c, hc, hcarries.of_perm (recordedOf_perm hperm.symm)⟩

end

/-- A pass in which the statements of the fingerprint failed, so that there is no checksum. -/
def failedRun : RunReport ℚ :=
  { sampleRun with fingerprints := sampleRun.fingerprints.map fun f ↦
      { f with count := 0, errors := 3 } }

/-- A pass in which they ran. -/
def checkedRun : RunReport ℚ :=
  { sampleRun with fingerprints := sampleRun.fingerprints.map fun f ↦
      { f with checksum := some ⟨3, 0, 3, hex16 7, [ascii "id"], false, false⟩ } }

/-- Behind a pass that has none, a recorded checksum is lost. -/
theorem lawful_failedRun :
    ¬ ∀ passes : List (RunReport ℚ), passes ≠ [] →
      Lawful (recordedOf 7 passes) (aggregatedChecksum 7 passes) := by
  intro h
  have hlost : aggregatedChecksum 7 [failedRun, checkedRun] = none := by
    rw [aggregatedChecksum_eq]
    rfl
  have hsome := (h [failedRun, checkedRun] (List.cons_ne_nil _ _)).isSome (List.cons_ne_nil _ _)
  rw [hlost] at hsome
  exact Bool.false_ne_true hsome

end SqlReplay.Aggregate
