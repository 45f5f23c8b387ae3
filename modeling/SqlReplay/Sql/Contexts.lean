import SqlReplay.Sql.Lexer
import SqlReplay.Data.Scanner

/-!
# The context of every byte

The reference lexer cuts a text into lexemes; read byte by byte, it says in which context each byte
stands. A delimiter belongs to the construct it opens or closes. The tool has five scanners that
keep such a context in mind, in four places, and this is the labelling they are compared with.

The scanners cut the text differently. One that skips a whole construct moves over exactly what the
lexer takes (`contexts_quoted` and its likes), and one that copies words, numbers or characters
moves over bytes that open nothing (`CodeRun`).

An opener of an executable comment is a comment to three of the scanners and code to the other two,
so texts with one are left out (`NoExecutable`).
-/

namespace SqlReplay

/-- Where a byte stands. -/
inductive Context
  | code
  /-- Inside a string or, between backticks, a quoted identifier. -/
  | quoted (quote : UInt8)
  | blockComment
  | lineComment
  deriving DecidableEq, Repr

/-- The context of a lexeme that starts with the byte `first`. -/
def Lexeme.context (first : UInt8) : Lexeme → Context
  | opener _ | byte _ => .code
  | block _ => .blockComment
  | line _ => .lineComment
  | quoted _ => .quoted first

/-- The contexts of the bytes of a text. -/
def contexts : Bytes → List Context
  | [] => []
  | c :: rest =>
    span (c :: rest) (lexStep c rest).2 ((lexStep c rest).1.context c) ++
      contexts (lexStep c rest).2
termination_by b => b.length
decreasing_by exact lexStep_length c rest

/-- The text has no opener of an executable comment. -/
def NoExecutable (b : Bytes) : Prop := ¬ascii "/*!" <:+: b

instance : DecidablePred NoExecutable := fun b ↦
  inferInstanceAs (Decidable (¬ascii "/*!" <:+: b))

@[simp] theorem contexts_nil : contexts [] = [] := by rw [contexts]

theorem contexts_cons (c : UInt8) (rest : Bytes) :
    contexts (c :: rest) = span (c :: rest) (lexStep c rest).2 ((lexStep c rest).1.context c) ++
      contexts (lexStep c rest).2 := by rw [contexts]

@[simp] theorem length_contexts (b : Bytes) : (contexts b).length = b.length := by
  fun_induction contexts b with
  | case1 => rfl
  | case2 c rest ih =>
    have hsuffix := (lexStep_suffix c rest).trans (List.suffix_cons c rest)
    rw [List.length_append, ih, length_span hsuffix]

theorem NoExecutable.of_suffix {b after : Bytes} (h : NoExecutable b) (hafter : after <:+ b) :
    NoExecutable after := fun hmem ↦ h (hmem.trans hafter.isInfix)

theorem NoExecutable.not_opens {c : UInt8} {rest : Bytes} (h : NoExecutable (c :: rest))
    (hopens : opensBlockComment c rest) : ¬opensExecutable rest := by
  intro hexec
  simp only [opensBlockComment, Bool.and_eq_true, beq_iff_eq] at hopens
  obtain ⟨rfl, hstar⟩ := hopens
  obtain ⟨rest, rfl⟩ := List.head?_eq_some_iff.mp hstar
  obtain ⟨rest, rfl⟩ := List.head?_eq_some_iff.mp (beq_iff_eq.mp hexec)
  exact h ⟨[], rest, rfl⟩

/-! ## Whole constructs -/

section Constructs

variable {c : UInt8} {rest : Bytes}

theorem contexts_quoted (h : isQuote c) :
    contexts (c :: rest) =
      span (c :: rest) (skipQuoted c rest) (.quoted c) ++ contexts (skipQuoted c rest) := by
  have hstep : lexStep c rest =
      (.quoted (consumed (c :: rest) (skipQuoted c rest)), skipQuoted c rest) := by
    rw [lexStep, if_neg fun hb ↦ opensBlockComment_not_isQuote hb h,
      if_neg fun hl ↦ opensLineComment_not_isQuote hl h, if_pos h]
  rw [contexts_cons, hstep]
  rfl

theorem contexts_block (h : opensBlockComment c rest) (hexec : ¬opensExecutable rest) :
    contexts (c :: rest) = span (c :: rest) (skipBlockComment (rest.drop 1)) .blockComment ++
      contexts (skipBlockComment (rest.drop 1)) := by
  have hstep : lexStep c rest =
      (.block (consumed (c :: rest) (skipBlockComment (rest.drop 1))),
        skipBlockComment (rest.drop 1)) := by rw [lexStep, if_pos h, if_neg hexec]
  rw [contexts_cons, hstep]
  rfl

theorem contexts_line (h : opensLineComment c rest) :
    contexts (c :: rest) = span (c :: rest) (skipLineComment rest) .lineComment ++
      contexts (skipLineComment rest) := by
  have hb : ¬opensBlockComment c rest := by
    intro hopens
    simp only [opensBlockComment, Bool.and_eq_true, beq_iff_eq] at hopens
    rw [hopens.1] at h
    simp [opensLineComment, ch] at h
  have hstep : lexStep c rest =
      (.line (consumed (c :: rest) (skipLineComment rest)), skipLineComment rest) := by
    rw [lexStep, if_neg hb, if_pos h]
  rw [contexts_cons, hstep]
  rfl

/-- The byte at the head opens nothing. -/
def OpensNothing (c : UInt8) (rest : Bytes) : Prop :=
  ¬opensBlockComment c rest ∧ ¬opensLineComment c rest ∧ ¬isQuote c

theorem contexts_code (h : OpensNothing c rest) :
    contexts (c :: rest) = .code :: contexts rest := by
  have hstep : lexStep c rest = (.byte c, rest) := by
    rw [lexStep, if_neg h.1, if_neg h.2.1, if_neg h.2.2]
  rw [contexts_cons, hstep, span_cons (List.suffix_refl rest), span_self]
  rfl

end Constructs

/-! ## Code -/

/-- Everything from `b` up to its suffix `after` stands at code level. -/
inductive CodeRun : Bytes → Bytes → Prop
  | refl (b : Bytes) : CodeRun b b
  | cons {c : UInt8} {b after : Bytes} (hc : OpensNothing c b) (h : CodeRun b after) :
    CodeRun (c :: b) after

namespace CodeRun

variable {b mid after : Bytes}

theorem suffix (h : CodeRun b after) : after <:+ b := by
  induction h with
  | refl b => exact List.suffix_refl b
  | cons _ _ ih => exact ih.trans (List.suffix_cons _ _)

theorem trans (h : CodeRun b mid) (h' : CodeRun mid after) : CodeRun b after := by
  induction h with
  | refl b => exact h'
  | cons hc _ ih => exact .cons hc (ih h')

theorem contexts_eq (h : CodeRun b after) :
    contexts b = span b after .code ++ contexts after := by
  induction h with
  | refl b => rw [span_self, List.nil_append]
  | cons hc h ih => rw [contexts_code hc, ih, span_cons h.suffix, List.cons_append]

end CodeRun

/-- The bytes that can open something. -/
def openers : Bytes := [singleQuote, doubleQuote, backtick, ch '/', ch '#', ch '-']

/-- A byte that opens nothing, whatever follows it. -/
def isPlain (c : UInt8) : Bool := !openers.elem c

theorem opensNothing_of_isPlain {c : UInt8} (h : isPlain c = true) (rest : Bytes) :
    OpensNothing c rest := by
  have hne : ∀ d ∈ openers, c ≠ d := by
    rintro d hd rfl
    rw [isPlain, List.elem_eq_true_of_mem hd] at h
    exact Bool.false_ne_true h
  refine ⟨fun hb ↦ ?_, fun hl ↦ ?_, fun hq ↦ ?_⟩
  · simp only [opensBlockComment, Bool.and_eq_true, beq_iff_eq] at hb
    exact hne (ch '/') (by decide) hb.1
  · simp only [opensLineComment, Bool.or_eq_true, Bool.and_eq_true, beq_iff_eq] at hl
    rcases hl with hhash | ⟨⟨hdash, -⟩, -⟩
    · exact hne (ch '#') (by decide) hhash
    · exact hne (ch '-') (by decide) hdash
  · simp only [isQuote, Bool.or_eq_true, beq_iff_eq] at hq
    rcases hq with (hq | hq) | hq
    all_goals exact hne _ (by decide) hq

/-- A class of bytes that has none of them. -/
theorem isPlain_of {p : UInt8 → Bool} (hp : (openers.all fun d ↦ !p d) = true) {c : UInt8}
    (hc : p c = true) : isPlain c = true := by
  rw [isPlain, Bool.not_eq_true', List.elem_eq_mem, decide_eq_false_iff_not]
  intro hmem
  have hnot := List.all_eq_true.mp hp c hmem
  rw [hc] at hnot
  exact Bool.false_ne_true hnot

theorem CodeRun.of_plain {p : Bytes} (hp : ∀ c ∈ p, isPlain c = true) (t : Bytes) :
    CodeRun (p ++ t) t := by
  induction p with
  | nil => exact .refl t
  | cons c p ih =>
    obtain ⟨hc, hrest⟩ := List.forall_mem_cons.mp hp
    exact .cons (opensNothing_of_isPlain hc _) (ih hrest)

theorem CodeRun.dropWhile {p : UInt8 → Bool} (hp : ∀ c, p c = true → isPlain c = true) (b : Bytes) :
    CodeRun b (b.dropWhile p) := by
  have hplain := CodeRun.of_plain (p := b.takeWhile p)
    (fun c hc ↦ hp c (List.mem_takeWhile_imp hc)) (b.dropWhile p)
  rwa [List.takeWhile_append_dropWhile] at hplain

/-! ## What a byte hides

What stands behind a byte is out of sight for what stands in front of it, if nothing goes on with
that byte.
-/

/-- The head of a text with a byte behind it. -/
theorem head?_anchor (pre : Bytes) (x : UInt8) (t : Bytes) :
    (pre ++ x :: t).head? = (pre ++ [x]).head? := by
  cases pre <;> rfl

theorem opensBlockComment_anchor (c : UInt8) (pre : Bytes) (x : UInt8) (t : Bytes) :
    opensBlockComment c (pre ++ x :: t) = opensBlockComment c (pre ++ [x]) := by
  rw [opensBlockComment, head?_anchor, opensBlockComment]

theorem opensLineComment_anchor (c : UInt8) (pre : Bytes) {x : UInt8} (hx : x ≠ ch '-')
    (t : Bytes) : opensLineComment c (pre ++ x :: t) = opensLineComment c (pre ++ [x]) := by
  cases pre with
  | nil =>
    have hdash : (some x == some (ch '-')) = false := beq_eq_false_iff_ne.mpr fun h ↦
      hx (Option.some.inj h)
    simp [opensLineComment, hdash]
  | cons d pre =>
    rw [opensLineComment, List.cons_append, List.tail_cons, head?_anchor, List.head?_cons,
      opensLineComment, List.cons_append, List.tail_cons, List.head?_cons]

theorem opensNothing_anchor {c : UInt8} {pre : Bytes} {x : UInt8} (hx : x ≠ ch '-')
    (h : OpensNothing c (pre ++ [x])) (t : Bytes) : OpensNothing c (pre ++ x :: t) := by
  refine ⟨?_, ?_, h.2.2⟩
  · rw [opensBlockComment_anchor]
    exact h.1
  · rw [opensLineComment_anchor c pre hx]
    exact h.2.1

end SqlReplay
