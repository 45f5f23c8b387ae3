import SqlReplay.Data.Checked
import SqlReplay.Data.Loop
import SqlReplay.Sql.Characters

/-!
# Slices of a statement

`interpolate` walks over the bytes of a statement with an index and copies what it does not replace
as `&sql[start..i]`. Such a slice of a `str` ends the program unless both bounds stand between
characters. `str::is_char_boundary` decides that by one byte, and for a valid text it is right: the
text is cut into two valid ones there (`isCharBoundary_iff`).

The loop once more, with its index and with that test at every slice. It has one invariant: what
stands from the index on is valid, and expanding it gives what is missing of the result. A string or
comment ends behind ASCII or with the text, however a backslash led through it, and the branch that
copies a single character ends where the bytes that continue it do, so the index is at a boundary
again (`isUtf8_skipCopied`). Hence no slice panics (`interpolateChecked_eq`).
-/

namespace SqlReplay

open Fingerprint

/-! ## Boundaries -/

namespace Str

/-- A byte `10xxxxxx`: it continues a character. -/
def isContinuation (c : UInt8) : Bool := c &&& 0xC0 == 0x80

/-- `str::is_char_boundary`. -/
def isCharBoundary (s : Bytes) (i : ℕ) : Bool :=
  i == 0 || s[i]?.elim (i == s.length) fun c ↦ !isContinuation c

/-- `&s[i..j]` of a `str`: a panic unless both bounds stand between characters. -/
def slice (s : Bytes) (i j : ℕ) : Option Bytes :=
  if isCharBoundary s i = true ∧ isCharBoundary s j = true then Checked.slice s i j else none

theorem isContinuation_iff (c : UInt8) : isContinuation c = true ↔ 0x80 ≤ c ∧ c ≤ 0xBF :=
  forall_byte (p := fun c ↦ isContinuation c = true ↔ 0x80 ≤ c ∧ c ≤ 0xBF) (by decide) c

/-- The owed bytes of a well-formed character continue it. -/
theorem isContinuation_of_utf8Tail {owed : ℕ} {low high : UInt8} {b : Bytes} (hlow : 0x80 ≤ low)
    (hhigh : high ≤ 0xBF) (h : (utf8Tail owed low high b).1 = true) :
    ∀ d ∈ b.take (utf8Tail owed low high b).2, isContinuation d = true := by
  induction owed generalizing low high b with
  | zero => exact fun d hd ↦ absurd hd List.not_mem_nil
  | succ owed ih =>
    cases b with
    | nil => exact absurd h Bool.false_ne_true
    | cons c b =>
      rw [utf8Tail] at h ⊢
      split_ifs at h ⊢ with hc
      rw [List.take_succ_cons]
      refine List.forall_mem_cons.mpr ⟨?_, ih (by decide) (by decide) h⟩
      exact (isContinuation_iff c).mpr ⟨UInt8.le_trans hlow hc.1, UInt8.le_trans hc.2 hhigh⟩

theorem isContinuation_of_utf8Char {c : UInt8} {b : Bytes} (h : (utf8Char c b).1 = true) :
    ∀ d ∈ b.take (utf8Char c b).2, isContinuation d = true := by
  unfold utf8Char at h ⊢
  split_ifs at h ⊢
  · exact fun d hd ↦ absurd hd List.not_mem_nil
  all_goals exact isContinuation_of_utf8Tail (by decide) (by decide) h

/-- No character begins with such a byte. -/
theorem not_isContinuation_of_utf8Char {c : UInt8} {b : Bytes} (h : (utf8Char c b).1 = true) :
    isContinuation c = false := by
  have hbyte := forall_byte (p := fun c ↦ isContinuation c = true →
    ¬c < 0x80 ∧ ¬(0xC2 ≤ c ∧ c ≤ 0xDF) ∧ ¬(0xE0 ≤ c ∧ c ≤ 0xEF) ∧ ¬(0xF0 ≤ c ∧ c ≤ 0xF4))
    (by decide) c
  by_contra hc
  obtain ⟨hone, htwo, hthree, hfour⟩ := hbyte (Bool.not_eq_false _ ▸ hc)
  rw [utf8Char, if_neg hone, if_neg htwo, if_neg hthree, if_neg hfour] at h
  exact Bool.false_ne_true h

/-- A valid text splits into a first character, a byte and what continues it, and a rest. -/
theorem exists_character {c : UInt8} {b : Bytes} (h : isUtf8 (c :: b) = true) :
    ∃ k m, b = k ++ m ∧ isContinuation c = false ∧ (∀ d ∈ k, isContinuation d = true) ∧
      isUtf8 (c :: k) = true ∧ isUtf8 m = true := by
  obtain ⟨hone, -, hfirst, hrest⟩ := isUtf8_cons h
  exact ⟨_, _, (List.take_append_drop _ b).symm, not_isContinuation_of_utf8Char hone,
    isContinuation_of_utf8Char hone, hfirst, hrest⟩

/-- A place from which on a text is valid is a boundary. -/
theorem isCharBoundary_of_isUtf8 {p q : Bytes} (h : isUtf8 q = true) :
    isCharBoundary (p ++ q) p.length = true := by
  rw [isCharBoundary, List.getElem?_append_right le_rfl, Nat.sub_self]
  cases q with
  | nil => simp
  | cons c q =>
    obtain ⟨-, -, -, hc, -⟩ := exists_character h
    simp [hc]

/-- **The test is right**: at a boundary, and nowhere else, a valid text is cut into valid texts. -/
theorem isCharBoundary_iff {s : Bytes} (h : isUtf8 s = true) (i : ℕ) :
    isCharBoundary s i = true ↔
      ∃ p q, s = p ++ q ∧ p.length = i ∧ isUtf8 p = true ∧ isUtf8 q = true := by
  constructor
  · intro hi
    induction hn : s.length using Nat.strong_induction_on generalizing s i with
    | _ n ih =>
    subst hn
    cases i with
    | zero => exact ⟨[], s, rfl, rfl, isUtf8_nil, h⟩
    | succ i =>
      cases s with
      | nil => simp [isCharBoundary] at hi
      | cons c b =>
        obtain ⟨k, m, rfl, -, hk, hfirst, hrest⟩ := exists_character h
        rw [isCharBoundary, List.getElem?_cons_succ] at hi
        by_cases hlt : i < k.length
        · -- inside the first character
          rw [List.getElem?_append_left hlt, List.getElem?_eq_getElem hlt] at hi
          simp [hk _ (List.getElem_mem hlt)] at hi
        · -- behind it, at a boundary of the rest
          obtain ⟨j, rfl⟩ := Nat.exists_eq_add_of_le (Nat.not_lt.mp hlt)
          have hj : isCharBoundary m j = true := by
            rw [List.getElem?_append_right (Nat.le_add_right _ _), Nat.add_sub_cancel_left] at hi
            rw [isCharBoundary, Bool.or_eq_true]
            right
            cases hm : m[j]? with
            | none =>
              rw [hm] at hi
              simp only [List.length_cons, List.length_append] at hi
              simpa using hi
            | some d =>
              rw [hm] at hi
              simpa using hi
          obtain ⟨p, q, rfl, rfl, hp, hq⟩ := ih m.length
            (by rw [List.length_cons, List.length_append]; omega) hrest j hj rfl
          refine ⟨c :: k ++ p, q, ?_, ?_, isUtf8_append hfirst hp, hq⟩
          · rw [List.cons_append, List.cons_append, List.append_assoc]
          · rw [List.length_append, List.length_cons]
            omega
  · rintro ⟨p, q, rfl, rfl, -, hq⟩
    exact isCharBoundary_of_isUtf8 hq

/-- A piece in front of a valid text and behind another place of the kind. -/
theorem slice_eq {p k q : Bytes} (hk : isUtf8 (k ++ q) = true) (hq : isUtf8 q = true) :
    slice (p ++ (k ++ q)) p.length (p.length + k.length) = some k := by
  have hstop := isCharBoundary_of_isUtf8 (p := p ++ k) hq
  rw [List.length_append, List.append_assoc] at hstop
  rw [slice, if_pos ⟨isCharBoundary_of_isUtf8 hk, hstop⟩,
    Checked.slice_of_le (Nat.le_add_right _ _), ← List.append_assoc, ← List.length_append,
    List.take_left, List.drop_left]
  simp only [List.length_append]
  omega

end Str

/-! ## The loop of `interpolate` -/

/-- The variables of the loop. -/
structure InterpolateState where
  i : ℕ
  used : ℕ
  out : Bytes

/-- An iteration: a placeholder takes the next value, or leaves the loop with nothing where there is
none; anything else is copied up to where it ends. -/
def interpolateStep (sql : Bytes) (values : List Bytes) (s : InterpolateState) :
    Option (Iteration InterpolateState (Option InterpolateState)) :=
  match sql.drop s.i with
  | [] => some (.done (some s))
  | c :: rest =>
    if c = ch '?' then
      match values[s.used]? with
      | none => some (.done none)
      | some v => some (.next ⟨s.i + 1, s.used + 1, s.out ++ v⟩)
    else do
      let i := sql.length - (skipCopied c rest).length
      let copied ← Str.slice sql s.i i
      some (.next ⟨i, s.used, s.out ++ copied⟩)

/-- `interpolate`, its slices checked, its loop given `fuel` iterations. -/
def interpolateChecked (fuel : ℕ) (sql : Bytes) (values : List Bytes) (expected : ℕ) :
    Option (Option Bytes) := do
  match ← Loop.run (interpolateStep sql values) fuel ⟨0, 0, []⟩ with
  | none => some none
  | some s => some (if s.used = expected then some s.out else none)

/-- What is copied as a whole ends where a character does. -/
theorem isUtf8_skipCopied {c : UInt8} {rest : Bytes} (h : isUtf8 (c :: rest) = true) :
    isUtf8 (skipCopied c rest) = true := by
  rw [skipCopied]
  split_ifs with hquote hline hblock
  · have hc : c < 0x80 := forall_byte (p := fun c ↦ isQuote c = true → c < 0x80)
      (by decide) c hquote
    exact isUtf8_skipQuoted hc (isUtf8_tail_of_ascii hc h)
  · have hc := opensLineComment_ascii hline
    exact isUtf8_skipLineComment (isUtf8_tail_of_ascii hc h)
  · obtain ⟨hc, hstar⟩ := opensBlockComment_ascii hblock
    obtain ⟨rest, rfl⟩ := List.head?_eq_some_iff.mp hstar
    rw [List.tail_cons]
    exact isUtf8_skipBlockComment (isUtf8_tail_of_ascii (by decide) (isUtf8_tail_of_ascii hc h))
  · -- the bytes that continue the character, and no more
    obtain ⟨k, m, rfl, -, hk, -, hm⟩ := Str.exists_character h
    have hstop : m.dropWhile Str.isContinuation = m := by
      cases m with
      | nil => rfl
      | cons d m =>
        obtain ⟨-, -, -, hd, -⟩ := Str.exists_character hm
        exact List.dropWhile_cons_of_neg (by rw [hd]; exact Bool.false_ne_true)
    have hdrop : (k ++ m).dropWhile Str.isContinuation = m := by
      rw [List.dropWhile_append_of_pos hk, hstop]
    rw [← hdrop] at hm
    exact hm

/-- The invariant: the index is at a boundary, and what is to come completes the result. -/
structure Expanding (sql : Bytes) (values : List Bytes) (s : InterpolateState) : Prop where
  le : s.i ≤ sql.length
  utf8 : isUtf8 (sql.drop s.i) = true
  result : (interpolateFrom (values.drop s.used) (sql.drop s.i)).map
    (fun r ↦ (s.out ++ r.1, s.used + r.2)) = interpolateFrom values sql

/-- A result is what the plain function returns. -/
def Expanded (sql : Bytes) (values : List Bytes) (r : Option InterpolateState) : Prop :=
  r.map (fun s ↦ (s.out, s.used)) = interpolateFrom values sql

section Expand

variable {sql : Bytes} {values : List Bytes} {s : InterpolateState}

theorem interpolateFrom_copy {c : UInt8} (hc : c ≠ ch '?') (values : List Bytes) (rest : Bytes) :
    interpolateFrom values (c :: rest) =
      (interpolateFrom values (skipCopied c rest)).map fun r ↦
        (c :: consumed rest (skipCopied c rest) ++ r.1, r.2) := by
  rw [interpolateFrom.eq_def]
  exact if_neg hc

/-- No iteration panics. -/
theorem interpolateStep_progress (h : Expanding sql values s) :
    Loop.Progress (Expanding sql values) (fun s ↦ sql.length - s.i) (Expanded sql values) s
      (interpolateStep sql values s) := by
  obtain ⟨hle, hutf8, hresult⟩ := h
  rw [interpolateStep]
  cases hdrop : sql.drop s.i with
  | nil =>
    refine .done ?_
    rw [hdrop, interpolateFrom] at hresult
    rw [Expanded, ← hresult]
    simp
  | cons c rest =>
    rw [hdrop] at hutf8 hresult
    have hlen : sql.length - s.i = rest.length + 1 := by
      rw [← List.length_drop, hdrop, List.length_cons]
    dsimp only
    by_cases hc : c = ch '?'
    · -- a placeholder: the index moves over it, and the next value is used
      rw [if_pos hc]
      subst hc
      have hrest : sql.drop (s.i + 1) = rest := by
        rw [← List.drop_drop, hdrop, List.drop_succ_cons, List.drop_zero]
      cases hvalue : values[s.used]? with
      | none =>
        refine .done ?_
        have hshort : interpolateFrom [] (ch '?' :: rest) = none := by simp [interpolateFrom]
        rw [List.drop_eq_nil_of_le (List.getElem?_eq_none_iff.mp hvalue), hshort] at hresult
        exact hresult
      | some v =>
        obtain ⟨hused, hget⟩ := List.getElem?_eq_some_iff.mp hvalue
        refine .next ⟨?_, ?_, ?_⟩ ?_
        · dsimp only
          omega
        · rw [hrest]
          exact isUtf8_tail_of_ascii (by decide) hutf8
        · rw [List.drop_eq_getElem_cons hused, hget, interpolateFrom, if_pos rfl] at hresult
          rw [hrest, ← hresult, Option.map_map]
          congr 1
          funext r
          simp [Nat.add_assoc, Nat.add_comm 1]
        · dsimp only
          omega
    · -- the slice that is copied ends where the rest of the text is valid
      rw [if_neg hc]
      obtain ⟨k, hk⟩ := skipCopied_suffix c rest
      have hafter := isUtf8_skipCopied hutf8
      rw [interpolateFrom_copy hc] at hresult
      generalize skipCopied c rest = after at hk hafter hresult ⊢
      subst hk
      have hsql : sql = sql.take s.i ++ (c :: k ++ after) := by
        rw [List.cons_append, ← hdrop, List.take_append_drop]
      have hi : (sql.take s.i).length = s.i := List.length_take_of_le hle
      have hstop : sql.length - after.length = s.i + (c :: k).length := by
        rw [List.length_append] at hlen
        rw [List.length_cons]
        omega
      have hrest : sql.drop (s.i + (c :: k).length) = after := by
        rw [← List.drop_drop, hdrop, ← List.cons_append, List.drop_left]
      have hslice : Str.slice sql s.i (s.i + (c :: k).length) = some (c :: k) := by
        have heq := Str.slice_eq (p := sql.take s.i) (k := c :: k) hutf8 hafter
        rwa [← hsql, hi] at heq
      rw [hstop, hslice]
      refine .next ⟨?_, ?_, ?_⟩ ?_
      · dsimp only
        rw [← hstop]
        exact Nat.sub_le _ _
      · rwa [hrest]
      · rw [hrest, ← hresult, Option.map_map, consumed_append_left]
        congr 1
        funext r
        simp
      · dsimp only
        rw [List.length_cons]
        omega

/-- **No slice panics.** -/
theorem interpolateChecked_eq (h : isUtf8 sql = true) (values : List Bytes) (expected : ℕ)
    {fuel : ℕ} (hfuel : sql.length < fuel) :
    interpolateChecked fuel sql values expected = some (interpolate sql values expected) := by
  have hstart : Expanding sql values ⟨0, 0, []⟩ := by
    refine ⟨Nat.zero_le _, h, ?_⟩
    simp
  obtain ⟨r, hrun, hr⟩ :=
    Loop.run_of_invariant (fun _ hs ↦ interpolateStep_progress hs) fuel hstart hfuel
  rw [Expanded] at hr
  rw [interpolateChecked, interpolate, hrun, ← hr]
  cases r with
  | none => rfl
  | some s => rfl

end Expand

/-! ## All scanners -/

/-- **Scanning by bytes respects characters**: on a valid statement no `expect` and no slice panics,
and no U+FFFD is written that was not read outside strings and comments. -/
theorem sqlScanning_respects_utf8 {sql : Bytes} (h : isUtf8 sql = true) :
    isUtf8 (collapseInLists sql) = true ∧ isUtf8 (collapseValuesLists sql) = true ∧
      fingerprintChecked sql = some (fingerprint sql) ∧
      (replacementCharacter ∈ chars (fingerprint sql) →
        replacementCharacter ∈ chars (outsideText sql)) ∧
      ∀ (values : List Bytes) (expected fuel : ℕ), sql.length < fuel →
        interpolateChecked fuel sql values expected = some (interpolate sql values expected) := by
  refine ⟨(collapseInLists_writes h).1, (collapseValuesLists_writes h).1, (fingerprint_writes h).1,
    replacementCharacter_of_fingerprint h, ?_⟩
  intro values expected fuel hfuel
  exact interpolateChecked_eq h values expected hfuel

/-- A string that is not closed, with a backslash in front of a character of two bytes. -/
theorem sqlScanning_respects_utf8_sample :
    let sql := ascii "? " ++ [singleQuote, backslash, 0xC3, 0xA9]
    isUtf8 (collapseInLists sql) = true ∧ isUtf8 (collapseValuesLists sql) = true ∧
      fingerprintChecked sql = some (fingerprint sql) ∧
      (replacementCharacter ∈ chars (fingerprint sql) →
        replacementCharacter ∈ chars (outsideText sql)) ∧
      ∀ (values : List Bytes) (expected fuel : ℕ), sql.length < fuel →
        interpolateChecked fuel sql values expected = some (interpolate sql values expected) :=
  sqlScanning_respects_utf8 (by decide +kernel)

end SqlReplay
