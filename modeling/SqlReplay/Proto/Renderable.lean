import SqlReplay.Proto.CheckedValues

/-!
# What cannot be rendered

A value of a payload can be rendered when it is all there and of a known type and length
(`WireValue.Complete`), when the hours of a TIME value fit, and when a float is finite. Values that
are not complete make the decoder give the statement up. The other two kinds are what it gets wrong:
the hours are added up in 32 bits, and an infinity is rendered as NULL.

So a statement with a float that is not finite is given up only for another reason. There are two:
a value that is not complete, and for an execute also a text that its values do not fill
(`Statements.Fills`).
-/

namespace SqlReplay

namespace WireValue

/-- The value is all there, and its type and length have a rendering. -/
def Complete (v : WireValue) : Prop := (skipValue v.ftype v.bytes).isSome

instance : DecidablePred Complete := fun v ↦
  inferInstanceAs (Decidable ((skipValue v.ftype v.bytes).isSome = true))

/-- The bits of the exponent are not all set, as they are for an infinity or a NaN. -/
def Finite (v : WireValue) : Prop :=
  (v.ftype = FieldType.FLOAT → 4 ≤ v.bytes.length →
      leNat (v.bytes.take 4) / 2 ^ 23 % 2 ^ 8 ≠ 2 ^ 8 - 1) ∧
    (v.ftype = FieldType.DOUBLE → 8 ≤ v.bytes.length →
      leNat (v.bytes.take 8) / 2 ^ 52 % 2 ^ 11 ≠ 2 ^ 11 - 1)

instance : DecidablePred Finite := fun v ↦
  inferInstanceAs (Decidable ((v.ftype = FieldType.FLOAT → 4 ≤ v.bytes.length →
      leNat (v.bytes.take 4) / 2 ^ 23 % 2 ^ 8 ≠ 2 ^ 8 - 1) ∧
    (v.ftype = FieldType.DOUBLE → 8 ≤ v.bytes.length →
      leNat (v.bytes.take 8) / 2 ^ 52 % 2 ^ 11 ≠ 2 ^ 11 - 1)))

instance : DecidablePred HoursFit := fun v ↦
  inferInstanceAs (Decidable (∀ h ∈ v.hours?, h < 2 ^ 32))

/-- The value has a literal that stands for it. -/
structure Renderable (v : WireValue) : Prop where
  complete : v.Complete
  hoursFit : v.HoursFit
  finite : v.Finite

theorem complete_iff (v : WireValue) (flags : UInt8) :
    v.Complete ↔ (decodeBinaryValue v.ftype flags v.bytes).isSome := by
  rw [Complete, ← skipValue_eq v.ftype flags, dropped, Reader.bind_apply]
  cases decodeBinaryValue v.ftype flags v.bytes <;> rfl

/-- Where a float is not all there, nothing is asked of its bits. -/
theorem finite_of_not_complete {v : WireValue} (h : ¬v.Complete) : v.Finite := by
  obtain ⟨t, b⟩ := v
  have hlength (n : ℕ) (hle : n ≤ b.length) : (passOver n b).isSome := by
    rw [passOver, Reader.bind_apply, Reader.take_apply, if_neg (not_lt.mpr hle)]
    rfl
  constructor
  · rintro rfl hle
    exact absurd (hlength 4 hle) h
  · rintro rfl hle
    exact absurd (hlength 8 hle) h

end WireValue

/-- Decoding goes through, and there is no statement if one of its values cannot be rendered. -/
def DecodesSafely {α : Type} (vs : List WireValue) (out : Option (Option α)) : Prop :=
  ∃ o, out = some o ∧ ((∃ v ∈ vs, ¬v.Renderable) → o = none)

/-- The hours fit, and where a float is not finite there is another value to give up on, or another
reason to. -/
def Decodable (vs : List WireValue) (reason : Prop) : Prop :=
  (∀ v ∈ vs, v.HoursFit) ∧ ((∀ v ∈ vs, v.Finite) ∨ (∃ v ∈ vs, ¬v.Complete) ∨ reason)

/-- A decoder that panics on hours and gives up on incomplete values, or for a reason of its own. -/
theorem decodesSafely_iff {α : Type} {vs : List WireValue} {out : Option (Option α)}
    {plain : Option α} {reason : Prop} (h : PanicsUnless (∀ v ∈ vs, v.HoursFit) out plain)
    (hnone : vs ≠ [] → (plain = none ↔ (∃ v ∈ vs, ¬v.Complete) ∨ reason)) :
    DecodesSafely vs out ↔ Decodable vs reason := by
  constructor
  · rintro ⟨o, hout, hgives⟩
    have hhours : ∀ v ∈ vs, v.HoursFit := by
      by_contra hnot
      rw [h.2 hnot] at hout
      cases hout
    rw [h.1 hhours] at hout
    obtain rfl := Option.some.inj hout
    refine ⟨hhours, or_iff_not_imp_left.mpr fun hinfinite ↦ ?_⟩
    simp only [not_forall] at hinfinite
    obtain ⟨v, hv, hinfinite⟩ := hinfinite
    exact (hnone (List.ne_nil_of_mem hv)).mp
      (hgives ⟨v, hv, fun hrenderable ↦ hinfinite hrenderable.finite⟩)
  · rintro ⟨hhours, hrest⟩
    refine ⟨plain, h.1 hhours, ?_⟩
    rintro ⟨v, hv, hnot⟩
    rw [hnone (List.ne_nil_of_mem hv)]
    rcases hrest with hfinite | hrest
    · by_cases hcomplete : v.Complete
      · exact absurd ⟨hcomplete, hhours v hv, hfinite v hv⟩ hnot
      · exact .inl ⟨v, hv, hcomplete⟩
    · exact hrest

/-! ## Sections of values -/

theorem exists_of_behind_ne_nil {α : Type} {y : Reader α} {values : α → Bytes → List WireValue}
    {b : Bytes} (h : behind y values b ≠ []) :
    ∃ a rest, y b = some (a, rest) ∧ behind y values b = values a rest := by
  cases hy : y b with
  | none => exact absurd (behind_of_none hy) h
  | some p => exact ⟨p.1, p.2, rfl, behind_of_some hy⟩

/-- The loop over the values fails on one that is not complete. -/
theorem paramValues_eq_none_iff (bitmap : Bytes) (sent : ℕ → Option Bytes)
    (types : List ParamType) (i : ℕ) (b : Bytes) :
    paramValues bitmap sent i types b = none ↔
      ∃ v ∈ valuesFrom bitmap sent i types b, ¬v.Complete := by
  induction types generalizing i b with
  | nil =>
    refine iff_of_false (Option.some_ne_none _) ?_
    rintro ⟨v, hv, -⟩
    exact List.not_mem_nil hv
  | cons type types ih =>
    obtain ⟨t, f⟩ := type
    have hpassed (x : Bytes) : (do
        return x :: (← paramValues bitmap sent (i + 1) types) : Reader (List Bytes)) b = none ↔
          ∃ v ∈ valuesFrom bitmap sent (i + 1) types b, ¬v.Complete := by
      rw [← ih, Reader.bind_apply, Option.bind_eq_none_iff]
      cases paramValues bitmap sent (i + 1) types b with
      | none => exact iff_of_true (fun a h ↦ nomatch h) rfl
      | some p => exact iff_of_false (fun h ↦ nomatch h p rfl) (Option.some_ne_none _)
    rw [paramValues, valuesFrom]
    cases hnull : isNullParam bitmap i with
    | true =>
      rw [if_pos rfl, Bool.true_or, if_pos rfl]
      exact hpassed _
    | false =>
      rw [if_neg Bool.false_ne_true, Bool.false_or]
      cases hsent : sent i with
      | some text =>
        rw [Option.isSome_some, if_pos rfl]
        exact hpassed _
      | none =>
        rw [Option.isSome_none, if_neg Bool.false_ne_true, List.exists_mem_cons_iff]
        dsimp only
        rw [Reader.bind_apply, WireValue.complete_iff ⟨t, b⟩ f]
        have hskip : skipValue t b = (decodeBinaryValue t f b).map fun p ↦ ((), p.2) := by
          rw [← skipValue_eq t f, dropped, Reader.bind_apply]
          cases decodeBinaryValue t f b <;> rfl
        cases hvalue : decodeBinaryValue t f b with
        | none => exact iff_of_true rfl (.inl Bool.false_ne_true)
        | some p =>
          rw [hvalue] at hskip
          rw [behind_of_some hskip, Option.bind_some, ← ih, Reader.bind_apply]
          cases paramValues bitmap sent (i + 1) types p.2 with
          | none => exact iff_of_true rfl (.inr rfl)
          | some q =>
            refine iff_of_false (Option.some_ne_none _) ?_
            rintro (hnot | hnone)
            · exact hnot rfl
            · cases hnone

/-- A text is found behind the attributes of a query unless one of them is not complete. -/
theorem comQueryText_eq_none_iff {queryAttrs : Bool} {p : Bytes}
    (h : queryValues queryAttrs p ≠ []) :
    comQueryText queryAttrs p = none ↔ ∃ v ∈ queryValues queryAttrs p, ¬v.Complete := by
  cases queryAttrs with
  | false => exact absurd rfl h
  | true =>
    have hvalues : queryValues true p =
        behind Reader.lenencInt (fun n ↦ behind Reader.lenencInt fun _ ↦ attributeValues n) p := rfl
    rw [hvalues] at h
    obtain ⟨n, b₁, hn, heq⟩ := exists_of_behind_ne_nil h
    rw [heq] at h
    rw [heq] at hvalues
    obtain ⟨m, b₂, hm, heq⟩ := exists_of_behind_ne_nil h
    rw [heq, attributeValues] at h hvalues
    by_cases hpos : 0 < n
    · rw [if_pos hpos] at h hvalues
      obtain ⟨bitmap, b₃, hbitmap, heq⟩ := exists_of_behind_ne_nil h
      rw [heq] at h hvalues
      obtain ⟨flag, b₄, hflag, heq⟩ := exists_of_behind_ne_nil h
      rw [heq] at h hvalues
      by_cases hone : flag = 1
      · rw [if_pos hone] at h hvalues
        obtain ⟨types, b₅, htypes, heq⟩ := exists_of_behind_ne_nil h
        rw [heq] at hvalues
        have htext : attributesThenText p =
            (paramValues bitmap (fun _ ↦ none) 0 types b₅).bind fun x ↦ Reader.rest x.2 := by
          rw [attributesThenText, Reader.bind_apply, hn, Option.bind_some, Reader.bind_apply, hm,
            Option.bind_some, if_pos hpos, Reader.bind_apply, hbitmap, Option.bind_some,
            Reader.bind_apply, hflag, Option.bind_some, if_pos hone, Reader.bind_apply, htypes,
            Option.bind_some, Reader.bind_apply]
        rw [hvalues, ← paramValues_eq_none_iff, comQueryText, if_pos rfl, htext]
        cases paramValues bitmap (fun _ ↦ none) 0 types b₅ with
        | none => exact iff_of_true rfl rfl
        | some x => exact iff_of_false (Option.some_ne_none _) (Option.some_ne_none _)
      · rw [if_neg hone] at h
        exact absurd rfl h
    · rw [if_neg hpos] at h
      exact absurd rfl h

/-! ## Filling the text of a statement -/

/-- The placeholders of a text, outside of its strings and comments. -/
def placeholders : Bytes → ℕ
  | [] => 0
  | c :: rest => if c = ch '?' then placeholders rest + 1 else placeholders (skipCopied c rest)
  termination_by b => b.length
  decreasing_by
    · exact Nat.lt_succ_self _
    · exact Nat.lt_succ_of_le (skipCopied_suffix c rest).length_le

theorem interpolateFrom_snd (values : List Bytes) (sql : Bytes) :
    (interpolateFrom values sql).map Prod.snd =
      if placeholders sql ≤ values.length then some (placeholders sql) else none := by
  fun_induction interpolateFrom values sql with
  | case1 values => rw [placeholders, if_pos (Nat.zero_le _)]; rfl
  | case2 rest => rw [placeholders, if_pos rfl]; rfl
  | case3 rest v values ih =>
    rw [placeholders, if_pos rfl, Option.map_map, List.length_cons]
    have hmap : (Prod.snd ∘ fun r : Bytes × ℕ ↦ (v ++ r.1, r.2 + 1)) = (· + 1) ∘ Prod.snd := rfl
    rw [hmap, ← Option.map_map, ih]
    by_cases hle : placeholders rest ≤ values.length
    · rw [if_pos hle, if_pos (Nat.succ_le_succ hle), Option.map_some]
    · rw [if_neg hle, if_neg fun h ↦ hle (Nat.le_of_succ_le_succ h), Option.map_none]
  | case4 values c rest hc ih =>
    rw [placeholders, if_neg hc, Option.map_map, ← ih]
    rfl

/-- A text is filled when it has as many placeholders as expected, and a value for each. -/
theorem interpolate_eq_none_iff (sql : Bytes) (values : List Bytes) (expected : ℕ) :
    interpolate sql values expected = none ↔
      ¬(placeholders sql = expected ∧ expected ≤ values.length) := by
  have hsnd := interpolateFrom_snd values sql
  rw [interpolate]
  cases hfill : interpolateFrom values sql with
  | none =>
    rw [hfill, Option.map_none] at hsnd
    refine iff_of_true rfl ?_
    rintro ⟨rfl, hle⟩
    rw [if_pos hle] at hsnd
    cases hsnd
  | some r =>
    rw [hfill, Option.map_some] at hsnd
    split_ifs at hsnd with hle
    have hused : r.2 = placeholders sql := Option.some.inj hsnd
    obtain ⟨out, used⟩ := r
    dsimp only at hused ⊢
    rw [hused]
    by_cases heq : placeholders sql = expected
    · rw [if_pos heq]
      exact iff_of_false (Option.some_ne_none _) fun h ↦ h ⟨heq, heq ▸ hle⟩
    · rw [if_neg heq]
      exact iff_of_true rfl fun h ↦ heq h.1

namespace Statements

/-- The statement of an execute and the number of values it is executed with. -/
def executeStmt (s : Statements) (queryAttrs : Bool) (p : Bytes) : Option (PreparedStmt × ℕ) := do
  let ((id, flags), r) ← (do
    let id ← Reader.le 4
    let flags ← Reader.u8
    let _ ← Reader.take 4
    pure (id.toUInt32, flags) : Reader (UInt32 × UInt8)) p
  let stmt ← s.stmts id
  let named := queryAttrs && flags &&& PARAMETER_COUNT_AVAILABLE != 0
  let (paramCount, _) ← (if named then Reader.lenencInt else pure stmt.numParams) r
  pure (stmt, paramCount)

/-- The text has a placeholder for each parameter, and there are values for all of them. -/
def Fills (s : Statements) (queryAttrs : Bool) (p : Bytes) : Prop :=
  ∃ x ∈ s.executeStmt queryAttrs p,
    placeholders x.1.sql = x.1.numParams ∧ x.1.numParams ≤ x.2

variable {s : Statements} {id : UInt32} {stmt : PreparedStmt}

theorem executeTypes_of_typesOf (s : Statements) (id : UInt32) {flag : UInt8} {named : Bool}
    {n : ℕ} {b rest : Bytes} {types : List ParamType}
    (h : typesOf stmt flag named n b = some (types, rest)) :
    (s.executeTypes id stmt flag named n b).1.longData = s.longData ∧
      (s.executeTypes id stmt flag named n b).2 = some (types, rest) := by
  rw [executeTypes]
  rw [typesOf] at h
  split_ifs at h with hflag
  · rw [if_pos hflag, h]
    exact ⟨rfl, rfl⟩
  · rw [if_neg hflag]
    cases htypes : stmt.paramTypes with
    | none =>
      rw [htypes] at h
      cases h
    | some types' =>
      rw [htypes] at h
      obtain ⟨rfl, rfl⟩ := Prod.mk.inj (Option.some.inj h)
      exact ⟨rfl, rfl⟩

theorem length_of_paramValues {bitmap : Bytes} {sent : ℕ → Option Bytes} {types : List ParamType}
    {i : ℕ} {b rest : Bytes} {values : List Bytes}
    (h : paramValues bitmap sent i types b = some (values, rest)) :
    values.length = types.length := by
  induction types generalizing i b values rest with
  | nil =>
    obtain ⟨rfl, -⟩ := Prod.mk.inj (Option.some.inj h)
    rfl
  | cons type types ih =>
    obtain ⟨t, f⟩ := type
    have hpassed {x b : Bytes} (hread : (do
        return x :: (← paramValues bitmap sent (i + 1) types) : Reader (List Bytes)) b =
          some (values, rest)) : values.length = types.length + 1 := by
      obtain ⟨tail, b', htail, hpure⟩ := Reader.bind_eq_some hread
      obtain ⟨rfl, -⟩ := Prod.mk.inj (Option.some.inj hpure)
      rw [List.length_cons, ih htail]
    rw [List.length_cons]
    rw [paramValues] at h
    split_ifs at h
    · exact hpassed h
    · cases hsent : sent i with
      | some text =>
        rw [hsent] at h
        exact hpassed h
      | none =>
        rw [hsent] at h
        obtain ⟨v, b', -, htail⟩ := Reader.bind_eq_some h
        exact hpassed htail

/-- The values of an execute that has any in its payload. -/
theorem executeValues_outcome {named : Bool} {n : ℕ} {b : Bytes}
    (h : s.valuesOf id stmt named n b ≠ []) :
    ((s.executeValues id stmt named n b).2 = none ↔
      ∃ v ∈ s.valuesOf id stmt named n b, ¬v.Complete) ∧
    ∀ values ∈ (s.executeValues id stmt named n b).2, values.length = n := by
  unfold valuesOf executeValues at *
  by_cases hzero : n = 0
  · rw [if_pos hzero] at h
    exact absurd rfl h
  · simp only [if_neg hzero] at h ⊢
    obtain ⟨⟨bitmap, flag⟩, b₁, hbitmap, heq⟩ := exists_of_behind_ne_nil h
    rw [heq] at h ⊢
    rw [hbitmap]
    obtain ⟨types, b₂, htypes, heq⟩ := exists_of_behind_ne_nil h
    rw [heq] at h ⊢
    by_cases hfew : types.length < n
    · rw [if_pos hfew] at h
      exact absurd rfl h
    · rw [if_neg hfew] at h ⊢
      obtain ⟨hlong, hread⟩ := executeTypes_of_typesOf s id htypes
      dsimp only at hlong hread ⊢
      generalize s.executeTypes id stmt flag named n b₁ = out at hlong hread ⊢
      obtain ⟨s', types'⟩ := out
      dsimp only at hlong hread
      rw [hread]
      dsimp only
      rw [if_neg hfew, hlong, ← paramValues_eq_none_iff, Option.map_eq_none_iff]
      refine ⟨Iff.rfl, fun values hvalues ↦ ?_⟩
      obtain ⟨⟨values', rest⟩, hread', rfl⟩ := Option.map_eq_some_iff.mp hvalues
      rw [length_of_paramValues hread', List.length_take]
      omega

/-- An execute is given up on a value that is not complete, or where its text is not filled. -/
theorem decodeExecute_eq_none_iff {queryAttrs : Bool} {p : Bytes}
    (h : s.executeValuesIn queryAttrs p ≠ []) :
    (s.decodeExecute queryAttrs p).2 = none ↔
      (∃ v ∈ s.executeValuesIn queryAttrs p, ¬v.Complete) ∨ ¬s.Fills queryAttrs p := by
  unfold executeValuesIn at *
  obtain ⟨⟨id, flags⟩, b₁, hheader, heq⟩ := exists_of_behind_ne_nil h
  rw [heq] at h ⊢
  cases hstmt : s.stmts id with
  | none =>
    rw [hstmt] at h
    exact absurd rfl h
  | some stmt =>
    rw [hstmt] at h
    obtain ⟨n, b₂, hcount, heq⟩ := exists_of_behind_ne_nil h
    dsimp only at h ⊢
    rw [heq] at h ⊢
    obtain ⟨hnone, hlength⟩ := executeValues_outcome h
    have hfills : s.Fills queryAttrs p ↔
        placeholders stmt.sql = stmt.numParams ∧ stmt.numParams ≤ n := by
      have hfront : s.executeStmt queryAttrs p = some (stmt, n) := by
        rw [executeStmt, hheader]
        show (s.stmts id).bind _ = _
        rw [hstmt, Option.bind_some]
        show Option.bind _ _ = _
        rw [hcount]
        rfl
      rw [Fills, hfront]
      simp
    rw [decodeExecute, hheader]
    dsimp only
    rw [hstmt]
    dsimp only
    rw [hcount]
    dsimp only
    rw [← hnone, hfills]
    generalize s.executeValues id stmt _ n b₂ = out at hnone hlength ⊢
    obtain ⟨s', _ | values⟩ := out
    · exact iff_of_true rfl (.inl rfl)
    · have hlen : values.length = n := hlength values rfl
      show interpolate _ _ _ = none ↔ _
      rw [interpolate_eq_none_iff, List.length_take, hlen, or_iff_right (Option.some_ne_none _)]
      refine not_congr (and_congr_right fun _ ↦ ?_)
      omega

end Statements

end SqlReplay
