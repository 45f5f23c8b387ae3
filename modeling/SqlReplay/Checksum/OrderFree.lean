import SqlReplay.Checksum.Digest
import Mathlib.Data.List.Perm.Basic
import Mathlib.Logic.OpClass

/-!
# Checksums and order

Rows come back in any order, and sessions interleave in any way, so neither may show in a checksum.
Both folds are sums of commuting contributions, and there the order of a fold is no matter
(`List.Perm.foldl_eq`).

The exception is `shapeVaried`, which is set against the columns of whichever execution came first.
It comes out the same all the same, because it says something that has no order: that two of the
executions have different columns (`foldl_add_shape`).
-/

namespace SqlReplay

/-! ## The rows of a result set -/

namespace ChecksumBuilder

/-- Rows may be folded in in any order. -/
theorem addRow_comm (b : ChecksumBuilder) (h₁ h₂ : UInt64) (n₁ n₂ : ℕ) :
    (b.addRow h₁ n₁).addRow h₂ n₂ = (b.addRow h₂ n₂).addRow h₁ n₁ := by
  simp only [addRow, mk.injEq, true_and]
  refine ⟨?_, ?_, ?_⟩
  · rw [UInt64.add_assoc, UInt64.add_comm h₁, UInt64.add_assoc]
  · rw [UInt64.xor_assoc, UInt64.xor_comm h₁, UInt64.xor_assoc]
  · rw [Nat.mod_add_mod, Nat.mod_add_mod, Nat.add_right_comm]

instance (xxh3 : Bytes → UInt64) : RightCommutative (addValues xxh3) where
  right_comm b _ _ := b.addRow_comm _ _ _ _

end ChecksumBuilder

/-- The same result set with its rows in another order. -/
structure SameRows (a b : ResultSet) : Prop where
  columns_eq : a.columns = b.columns
  rows_perm : a.rows.Perm b.rows

theorem addSet_sameRows (xxh3 : Bytes → UInt64) (r : ChecksumBuilder × Bool) {a b : ResultSet}
    (h : SameRows a b) : addSet xxh3 r a = addSet xxh3 r b := by
  rw [addSet, addSet, h.columns_eq]
  exact Prod.ext (h.rows_perm.foldl_eq _) rfl

/-- The order of the rows of a result set does not show in its checksum. -/
theorem queryChecksum_sameRows (xxh3 : Bytes → UInt64) {sets sets' : List ResultSet}
    (h : List.Forall₂ SameRows sets sets') :
    queryChecksum xxh3 sets = queryChecksum xxh3 sets' := by
  have hfold (r : ChecksumBuilder × Bool) :
      sets.foldl (addSet xxh3) r = sets'.foldl (addSet xxh3) r := by
    induction h generalizing r with
    | nil => rfl
    | cons hab _ ih => rw [List.foldl_cons, List.foldl_cons, addSet_sameRows xxh3 r hab, ih]
  rw [queryChecksum, queryChecksum, hfold]

/-! ## The executions of a fingerprint -/

namespace ChecksumOutcome

/-- The checksum of an execution that returned a result set. -/
def checksum? : ChecksumOutcome → Option ResultChecksum
  | set cs => some cs
  | _ => none

/-- The checksums among the outcomes. -/
def sets (outcomes : List ChecksumOutcome) : List ResultChecksum := outcomes.filterMap checksum?

end ChecksumOutcome

namespace FpChecksumAgg

/-- The fields of an aggregate that are sums of contributions. -/
structure Sums where
  events : ℕ
  noResult : ℕ
  rowsTotal : ℕ
  sum : UInt64
  xor : UInt64

/-- These fields of an aggregate. -/
def sums (a : FpChecksumAgg) : Sums := ⟨a.events, a.noResult, a.rowsTotal, a.sum, a.xor⟩

/-- What an outcome contributes to them. -/
def Sums.add (s : Sums) : ChecksumOutcome → Sums
  | .off => s
  | .noResult => { s with noResult := s.noResult + 1 }
  | .set cs =>
    ⟨s.events + 1, s.noResult, s.rowsTotal + cs.rowCount, s.sum + cs.digest, s.xor ^^^ cs.digest⟩

instance : RightCommutative Sums.add where
  right_comm s o₁ o₂ := by
    cases o₁ with
    | off => rfl
    | noResult => cases o₂ <;> rfl
    | set cs₁ =>
      cases o₂ with
      | off => rfl
      | noResult => rfl
      | set cs₂ =>
        simp only [Sums.add, Sums.mk.injEq, true_and]
        refine ⟨Nat.add_right_comm _ _ _, ?_, ?_⟩
        · rw [UInt64.add_assoc, UInt64.add_comm cs₁.digest, UInt64.add_assoc]
        · rw [UInt64.xor_assoc, UInt64.xor_comm cs₁.digest, UInt64.xor_assoc]

theorem sums_add (a : FpChecksumAgg) (o : ChecksumOutcome) : (a.add o).sums = a.sums.add o := by
  cases o <;> rfl

theorem sums_foldl_add (a : FpChecksumAgg) (outcomes : List ChecksumOutcome) :
    (outcomes.foldl add a).sums = outcomes.foldl Sums.add a.sums := by
  induction outcomes generalizing a with
  | nil => rfl
  | cons o outcomes ih => rw [List.foldl_cons, List.foldl_cons, ih, sums_add]

/-- An aggregate that has seen these checksums and in this order: the columns are those of the
first, and the flag says that a later one has others. -/
structure Seen (a : FpChecksumAgg) (css : List ResultChecksum) : Prop where
  events_eq : a.events = css.length
  columns_eq : a.columns = (css.head?.map ResultChecksum.columns).getD []
  shape_iff : a.shapeVaried = true ↔ ∃ cs ∈ css, cs.columns ≠ a.columns

theorem seen_default : Seen {} [] where
  events_eq := rfl
  columns_eq := rfl
  shape_iff := by simp

/-- The first checksum sets the columns. -/
theorem Seen.add_first {a : FpChecksumAgg} (h : Seen a []) (cs : ResultChecksum) :
    Seen (a.add (.set cs)) [cs] := by
  have hevents : a.events = 0 := h.events_eq
  have hcolumns : a.columns = [] := h.columns_eq
  have hshape : a.shapeVaried = false := by simpa using h.shape_iff
  refine ⟨?_, ?_, ?_⟩
  · simp [FpChecksumAgg.add, hevents]
  · simp [FpChecksumAgg.add, hevents, hcolumns]
  · simp [FpChecksumAgg.add, hevents, hcolumns, hshape]

/-- A later one is set against them. -/
theorem Seen.add_later {a : FpChecksumAgg} {css : List ResultChecksum} (h : Seen a css)
    (hne : css ≠ []) (cs : ResultChecksum) : Seen (a.add (.set cs)) (css ++ [cs]) := by
  have hevents : a.events ≠ 0 := by
    rw [h.events_eq]
    exact fun hnil ↦ hne (List.length_eq_zero_iff.mp hnil)
  have hcolumns : (a.add (.set cs)).columns = a.columns := by simp [FpChecksumAgg.add, hevents]
  have hshape : (a.add (.set cs)).shapeVaried = (a.shapeVaried || a.columns != cs.columns) := by
    simp [FpChecksumAgg.add, hevents]
  refine ⟨?_, ?_, ?_⟩
  · simp [FpChecksumAgg.add, h.events_eq]
  · rw [hcolumns, h.columns_eq, List.head?_append_of_ne_nil _ hne]
  · rw [hcolumns, hshape, Bool.or_eq_true, h.shape_iff, bne_iff_ne]
    constructor
    · rintro (⟨c, hc, hne⟩ | hne)
      · exact ⟨c, List.mem_append_left _ hc, hne⟩
      · exact ⟨cs, List.mem_append_right _ List.mem_cons_self, hne.symm⟩
    · rintro ⟨c, hc, hne⟩
      rcases List.mem_append.mp hc with hc | hc
      · exact Or.inl ⟨c, hc, hne⟩
      · rw [List.mem_singleton.mp hc] at hne
        exact Or.inr hne.symm

theorem seen_foldl_add {a : FpChecksumAgg} {css : List ResultChecksum} (h : Seen a css)
    (outcomes : List ChecksumOutcome) :
    Seen (outcomes.foldl add a) (css ++ ChecksumOutcome.sets outcomes) := by
  induction outcomes generalizing a css with
  | nil => rwa [ChecksumOutcome.sets, List.filterMap_nil, List.append_nil]
  | cons o outcomes ih =>
    cases o with
    | off => exact ih h
    | noResult => exact ih ⟨h.events_eq, h.columns_eq, h.shape_iff⟩
    | set cs =>
      have hnext : Seen (a.add (.set cs)) (css ++ [cs]) := by
        by_cases hnil : css = []
        · subst hnil
          exact h.add_first cs
        · exact h.add_later hnil cs
      rw [List.foldl_cons, show ChecksumOutcome.sets (.set cs :: outcomes) =
        [cs] ++ ChecksumOutcome.sets outcomes from rfl, ← List.append_assoc]
      exact ih hnext

/-- The shape has varied exactly when two executions have different columns. -/
theorem foldl_add_shape (outcomes : List ChecksumOutcome) :
    (outcomes.foldl add {}).shapeVaried = true ↔
      ∃ x ∈ ChecksumOutcome.sets outcomes, ∃ y ∈ ChecksumOutcome.sets outcomes,
        x.columns ≠ y.columns := by
  have h := seen_foldl_add seen_default outcomes
  rw [List.nil_append] at h
  rw [h.shape_iff, h.columns_eq]
  cases hsets : ChecksumOutcome.sets outcomes with
  | nil => simp
  | cons first css =>
    constructor
    · rintro ⟨x, hx, hne⟩
      exact ⟨x, hx, first, List.mem_cons_self, hne⟩
    · rintro ⟨x, hx, y, hy, hne⟩
      by_cases hfirst : x.columns = first.columns
      · exact ⟨y, hy, fun hy' ↦ hne (hfirst.trans hy'.symm)⟩
      · exact ⟨x, hx, hfirst⟩

end FpChecksumAgg

/-! ## The report -/

/-- One lower-case hexadecimal digit. -/
def lowerHexDigit (n : ℕ) : UInt8 := if n < 10 then (48 + n).toUInt8 else (87 + n).toUInt8

/-- The format `{:016x}`. -/
def hex16 (v : UInt64) : Bytes :=
  (List.range 16).map fun i ↦ lowerHexDigit (v.toNat / 16 ^ (15 - i) % 16)

/-- `ChecksumReport`. -/
structure ChecksumReport where
  events : ℕ
  noResult : ℕ
  rowsTotal : ℕ
  digest : Bytes
  columns : List Bytes
  shapeVaried : Bool
  nondeterministic : Bool
  deriving DecidableEq, Repr

/-- `FpChecksumAgg::report`. -/
def FpChecksumAgg.report (xxh3 : Bytes → UInt64) (a : FpChecksumAgg) (nondeterministic : Bool) :
    ChecksumReport where
  events := a.events
  noResult := a.noResult
  rowsTotal := a.rowsTotal
  digest := hex16 (xxh3 (leU64 a.sum ++ leU64 a.xor ++ leU64 a.events.toUInt64))
  columns := a.columns
  shapeVaried := a.shapeVaried
  nondeterministic := nondeterministic

/-- Two reports that agree in everything but the columns. -/
structure ChecksumReport.Agrees (r r' : ChecksumReport) : Prop where
  events_eq : r.events = r'.events
  noResult_eq : r.noResult = r'.noResult
  rowsTotal_eq : r.rowsTotal = r'.rowsTotal
  digest_eq : r.digest = r'.digest
  shapeVaried_eq : r.shapeVaried = r'.shapeVaried
  nondeterministic_eq : r.nondeterministic = r'.nondeterministic

namespace FpAgg

/-- The aggregate of a fingerprint after executions, with their latencies. -/
def executions (runs : List (ℕ × ExecOutcome)) : FpAgg :=
  runs.foldl (fun a run ↦ a.ok run.1 run.2) {}

/-- The checksum entry of the fingerprint's report. -/
def checksumReport (xxh3 : Bytes → UInt64) (a : FpAgg) (nondeterministic : Bool) :
    Option ChecksumReport := a.checksum.map (·.report xxh3 nondeterministic)

/-- The outcomes of executions, checksum-wise. -/
def outcomes (runs : List (ℕ × ExecOutcome)) : List ChecksumOutcome := runs.map (·.2.checksum)

theorem executions_concat (runs : List (ℕ × ExecOutcome)) (run : ℕ × ExecOutcome) :
    (executions (runs ++ [run])).checksum =
      if run.2.checksum = .off then (executions runs).checksum
      else some (((executions runs).checksum.getD {}).add run.2.checksum) := by
  rw [executions, List.foldl_append]
  rfl

/-- What is aggregated is the fold over all outcomes. -/
theorem executions_checksum_getD (runs : List (ℕ × ExecOutcome)) :
    (executions runs).checksum.getD {} = (outcomes runs).foldl FpChecksumAgg.add {} := by
  induction runs using List.reverseRecOn with
  | nil => rfl
  | append_singleton runs run ih =>
    rw [outcomes, List.map_append, List.foldl_append, ← outcomes, ← ih, executions_concat]
    by_cases hoff : run.2.checksum = .off
    · rw [if_pos hoff, List.map_singleton, hoff]
      rfl
    · rw [if_neg hoff]
      rfl

/-- The aggregate exists as soon as one execution was checksummed. -/
theorem executions_checksum_isSome (runs : List (ℕ × ExecOutcome)) :
    (executions runs).checksum.isSome ↔ ∃ o ∈ outcomes runs, o ≠ .off := by
  induction runs using List.reverseRecOn with
  | nil => simp [executions, outcomes]
  | append_singleton runs run ih =>
    rw [executions_concat, outcomes, List.map_append, ← outcomes]
    by_cases hoff : run.2.checksum = .off
    · rw [if_pos hoff, ih]
      simp [hoff]
    · rw [if_neg hoff]
      exact iff_of_true rfl ⟨run.2.checksum, by simp, hoff⟩

/-- Aggregates of the same outcomes in another order are reported alike. -/
theorem report_perm (xxh3 : Bytes → UInt64) {os os' : List ChecksumOutcome} (h : os.Perm os')
    (nondeterministic : Bool) : ChecksumReport.Agrees
      ((os.foldl FpChecksumAgg.add {}).report xxh3 nondeterministic)
      ((os'.foldl FpChecksumAgg.add {}).report xxh3 nondeterministic) := by
  have hsums : (os.foldl FpChecksumAgg.add {}).sums = (os'.foldl FpChecksumAgg.add {}).sums := by
    rw [FpChecksumAgg.sums_foldl_add, FpChecksumAgg.sums_foldl_add]
    exact h.foldl_eq _
  have hshape : (os.foldl FpChecksumAgg.add {}).shapeVaried =
      (os'.foldl FpChecksumAgg.add {}).shapeVaried := by
    have hsets : (ChecksumOutcome.sets os).Perm (ChecksumOutcome.sets os') := h.filterMap _
    rw [Bool.eq_iff_iff, FpChecksumAgg.foldl_add_shape, FpChecksumAgg.foldl_add_shape]
    simp only [hsets.mem_iff]
  generalize os.foldl FpChecksumAgg.add {} = a at hsums hshape ⊢
  generalize os'.foldl FpChecksumAgg.add {} = b at hsums hshape ⊢
  rw [FpChecksumAgg.sums, FpChecksumAgg.sums, FpChecksumAgg.Sums.mk.injEq] at hsums
  obtain ⟨hevents, hnoResult, hrows, hsum, hxor⟩ := hsums
  refine ⟨hevents, hnoResult, hrows, ?_, hshape, rfl⟩
  simp only [FpChecksumAgg.report, hsum, hxor, hevents]

/-- The order of the executions shows in the columns only. -/
theorem checksumReport_perm (xxh3 : Bytes → UInt64) {runs runs' : List (ℕ × ExecOutcome)}
    (h : runs.Perm runs') (nondeterministic : Bool) :
    Option.Rel ChecksumReport.Agrees
      ((executions runs).checksumReport xxh3 nondeterministic)
      ((executions runs').checksumReport xxh3 nondeterministic) := by
  have hperm : (outcomes runs).Perm (outcomes runs') := h.map _
  have hreport := report_perm xxh3 hperm nondeterministic
  have hsome : (executions runs).checksum.isSome ↔ (executions runs').checksum.isSome := by
    rw [executions_checksum_isSome, executions_checksum_isSome]
    simp only [hperm.mem_iff]
  rw [← executions_checksum_getD, ← executions_checksum_getD] at hreport
  rw [checksumReport, checksumReport]
  cases hruns : (executions runs).checksum with
  | none =>
    cases hruns' : (executions runs').checksum with
    | none => exact Option.Rel.none
    | some b => simp [hruns, hruns'] at hsome
  | some a =>
    cases hruns' : (executions runs').checksum with
    | none => simp [hruns, hruns'] at hsome
    | some b =>
      rw [hruns, hruns'] at hreport
      exact Option.Rel.some hreport

end FpAgg

/-- Result checksums do not depend on order: not on the order of the rows of a result set, and not
on the order of the executions of a fingerprint. -/
theorem checksums_order_free (xxh3 : Bytes → UInt64) :
    (∀ sets sets' : List ResultSet, List.Forall₂ SameRows sets sets' →
      queryChecksum xxh3 sets = queryChecksum xxh3 sets') ∧
    ∀ runs runs' : List (ℕ × ExecOutcome), runs.Perm runs' → ∀ nondeterministic,
      Option.Rel ChecksumReport.Agrees
        ((FpAgg.executions runs).checksumReport xxh3 nondeterministic)
        ((FpAgg.executions runs').checksumReport xxh3 nondeterministic) :=
  ⟨fun _ _ h ↦ queryChecksum_sameRows xxh3 h,
    fun _ _ h nondeterministic ↦ FpAgg.checksumReport_perm xxh3 h nondeterministic⟩

/-- An execution with a result set. -/
def sampleRun : ℕ × ExecOutcome := (7, ⟨2, .set ⟨0x1A4E21F3B2394B84, 2, 2, [ascii "v"]⟩⟩)

theorem checksums_order_free_sample :
    queryChecksum sampleXxh3 [sampleSet [ascii "1", ascii "2"]] =
      queryChecksum sampleXxh3 [sampleSet [ascii "2", ascii "1"]] ∧
    Option.Rel ChecksumReport.Agrees
      ((FpAgg.executions [sampleRun, (9, ⟨0, .noResult⟩)]).checksumReport sampleXxh3 false)
      ((FpAgg.executions [(9, ⟨0, .noResult⟩), sampleRun]).checksumReport sampleXxh3 false) :=
  ⟨(checksums_order_free sampleXxh3).1 _ _ (.cons ⟨rfl, List.Perm.swap _ _ _⟩ .nil),
    (checksums_order_free sampleXxh3).2 _ _ (List.Perm.swap _ _ _) false⟩

end SqlReplay
