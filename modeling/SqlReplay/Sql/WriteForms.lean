import SqlReplay.Sql.Classify

/-!
# The forms of a write

What `classify` calls a write, said of the statement instead of the order in which the scanners come
to its parts. A statement is a write if something stands behind a semicolon at code level
(`HasSecondStatement`), or if its words have one of a few forms (`WriteForm`): it starts with a verb
that is no read verb, it selects into a file, it sets more than its own session, or what stands
behind its `WITH` or `EXPLAIN ANALYZE` does.

`classify_eq_write_iff` shows that these are all. The lexemes of a statement decide the class, so
`IsWriteCode` is said of lexemes and can be asked of a list of them that is no text.
-/

namespace SqlReplay

/-! ## A second statement -/

/-- A lexeme that is no content behind a semicolon. -/
def Lexeme.isTrivia : Lexeme → Bool
  | .opener _ | .block _ | .line _ => true
  | .quoted _ => false
  | .byte c => isAsciiWhitespace c || c = ch ';'

/-- Content stands behind a semicolon. -/
def SecondStatement (ls : List Lexeme) : Prop :=
  ∃ pre post, ls = pre ++ .byte (ch ';') :: post ∧ ∃ l ∈ post, l.isTrivia = false

/-- A further statement stands behind a semicolon at code level. -/
def HasSecondStatement (q : Bytes) : Prop := SecondStatement (lex q)

theorem trailingLexemes_true {ls : List Lexeme} (h : ∃ l ∈ ls, l.isTrivia = false) :
    trailingLexemes true ls = true := by
  induction ls with
  | nil => simp at h
  | cons l ls ih =>
    rw [List.exists_mem_cons_iff] at h
    match l with
    | .opener _ | .block _ | .line _ => exact ih (h.resolve_left (by simp [Lexeme.isTrivia]))
    | .quoted _ => rfl
    | .byte c =>
      rw [Lexeme.isTrivia, Bool.or_eq_false_iff, decide_eq_false_iff_not] at h
      rw [trailingLexemes]
      split_ifs with hw hs
      · exact ih (h.resolve_left fun hc ↦ by simp [hw] at hc)
      · exact ih (h.resolve_left fun hc ↦ hc.2 hs)
      · rfl

theorem trailingLexemes_append (a : Bool) (pre : List Lexeme) {ls : List Lexeme}
    (h : ∀ a, trailingLexemes a ls = true) : trailingLexemes a (pre ++ ls) = true := by
  induction pre generalizing a with
  | nil => exact h a
  | cons l pre ih =>
    rw [List.cons_append]
    match l with
    | .opener _ | .block _ | .line _ => exact ih a
    | .quoted _ => rw [trailingLexemes, ih, Bool.or_true]
    | .byte c =>
      rw [trailingLexemes, ih, ih, Bool.or_true]
      split_ifs <;> rfl

theorem exists_of_trailingLexemes {ls : List Lexeme} {a : Bool}
    (h : trailingLexemes a ls = true) :
    (a = true ∧ ∃ l ∈ ls, l.isTrivia = false) ∨ SecondStatement ls := by
  have hcons (l : Lexeme) {ls : List Lexeme} {a : Bool}
      (h : (a = true ∧ ∃ l ∈ ls, l.isTrivia = false) ∨ SecondStatement ls) :
      (a = true ∧ ∃ l' ∈ l :: ls, l'.isTrivia = false) ∨ SecondStatement (l :: ls) := by
    rcases h with ⟨ha, l', hl', hcontent⟩ | ⟨pre, post, rfl, hpost⟩
    · exact .inl ⟨ha, l', List.mem_cons_of_mem l hl', hcontent⟩
    · exact .inr ⟨l :: pre, post, rfl, hpost⟩
  have hhere {l : Lexeme} {ls : List Lexeme} (hl : l.isTrivia = false) :
      ∃ l' ∈ l :: ls, l'.isTrivia = false := ⟨l, List.mem_cons_self, hl⟩
  fun_induction trailingLexemes a ls with
  | case1 => cases h
  | case2 a ls t ih | case3 a ls t ih | case4 a ls t ih => exact hcons _ (ih h)
  | case5 a ls t ih =>
    rcases Bool.or_eq_true_iff.mp h with ha | h
    · exact .inl ⟨ha, hhere rfl⟩
    · exact hcons _ (ih h)
  | case6 a c ls hc ih => exact hcons _ (ih h)
  | case7 a ls hc ih =>
    rcases ih h with ⟨-, hpost⟩ | ⟨pre, post, rfl, hpost⟩
    · exact .inr ⟨[], ls, rfl, hpost⟩
    · exact .inr ⟨_ :: pre, post, rfl, hpost⟩
  | case8 a c ls hc hs ih =>
    rcases Bool.or_eq_true_iff.mp h with ha | h
    · refine .inl ⟨ha, hhere ?_⟩
      rw [Lexeme.isTrivia, Bool.eq_false_iff.mpr hc, Bool.false_or, decide_eq_false hs]
    · exact hcons _ (ih h)

/-- **The multi-statement check is exact**: it finds what stands behind a semicolon. -/
theorem trailingLexemes_eq_true_iff {ls : List Lexeme} :
    trailingLexemes false ls = true ↔ SecondStatement ls := by
  constructor
  · intro h
    exact (exists_of_trailingLexemes h).resolve_left fun h ↦ Bool.false_ne_true h.1
  · rintro ⟨pre, post, rfl, hpost⟩
    refine trailingLexemes_append false pre fun a ↦ ?_
    rw [trailingLexemes, if_neg (by decide), if_pos rfl]
    exact trailingLexemes_true hpost

theorem trailingLexemes_iff (q : Bytes) :
    trailingLexemes false (lex q) = true ↔ HasSecondStatement q := trailingLexemes_eq_true_iff

/-! ## The words of a write -/

/-- The verbs that `classify` looks into; any other is a write. -/
def readVerbs : List Bytes :=
  [ascii "select", ascii "show", ascii "use", ascii "help", ascii "explain", ascii "describe",
    ascii "desc", ascii "set", ascii "with"]

/-- The words that `SET` is a write with. -/
def setWriteWords : List Bytes :=
  [ascii "global", ascii "persist", ascii "persist_only", ascii "password", ascii "default"]

/-- The verbs of data manipulation. -/
def writeVerbs : List Bytes := [ascii "insert", ascii "update", ascii "delete", ascii "replace"]

/-- The verbs that `classify_with_tail` looks for. -/
def mainVerbs : List Bytes := ascii "select" :: writeVerbs

/-- The words that may stand between `ANALYZE` and its statement. -/
def analyzeOptions : List Bytes := [ascii "format", ascii "tree", ascii "json"]

/-- The words `OUTFILE` and `DUMPFILE`. -/
def fileWords : List Bytes := [ascii "outfile", ascii "dumpfile"]

/-- `INTO OUTFILE` or `INTO DUMPFILE` is among the words. -/
def IntoFile (ws : List (Bytes × ℤ)) : Prop :=
  ∃ file ∈ fileWords, [ascii "into", file] <:+: ws.map Prod.fst

/-- None of the words is a main verb outside parentheses. -/
def NoMainVerb (ws : List (Bytes × ℤ)) : Prop := ∀ x ∈ ws, x.2 = 0 → x.1 ∉ mainVerbs

/-- What stands behind `WITH` is a write: the first verb outside parentheses is one, or selects into
a file, or there is none. -/
inductive WithWrites (ws : List (Bytes × ℤ)) : Prop
  | noVerb (hws : NoMainVerb ws)
  | verb {pre post : List (Bytes × ℤ)} {verb : Bytes} (hws : ws = pre ++ (verb, 0) :: post)
    (hpre : NoMainVerb pre) (hverb : verb ∈ writeVerbs)
  | intoFile {pre post : List (Bytes × ℤ)} (hws : ws = pre ++ (ascii "select", 0) :: post)
    (hpre : NoMainVerb pre) (hfile : IntoFile post)

/-- What stands behind `EXPLAIN ANALYZE` is a write: behind the options there is another verb than
`SELECT`, `TABLE` and `WITH`, or one of these that writes, or none. -/
inductive AnalyzeWrites (ws : List (Bytes × ℤ)) : Prop
  | noVerb (hws : ∀ w ∈ ws, w.1 ∈ analyzeOptions)
  | verb {pre post : List (Bytes × ℤ)} {verb : Bytes × ℤ} (hws : ws = pre ++ verb :: post)
    (hpre : ∀ w ∈ pre, w.1 ∈ analyzeOptions) (hoption : verb.1 ∉ analyzeOptions)
    (hverb : verb.1 ∉ [ascii "select", ascii "table", ascii "with"])
  | intoFile {pre post : List (Bytes × ℤ)} {verb : Bytes × ℤ} (hws : ws = pre ++ verb :: post)
    (hpre : ∀ w ∈ pre, w.1 ∈ analyzeOptions) (hverb : verb.1 ∈ [ascii "select", ascii "table"])
    (hfile : IntoFile post)
  | withClause {pre post : List (Bytes × ℤ)} {verb : Bytes × ℤ} (hws : ws = pre ++ verb :: post)
    (hpre : ∀ w ∈ pre, w.1 ∈ analyzeOptions) (hverb : verb.1 = ascii "with")
    (hwith : WithWrites post)

/-- The words are those of a write. -/
inductive WriteForm : List (Bytes × ℤ) → Prop
  | empty : WriteForm []
  | verb {w : Bytes × ℤ} {ws : List (Bytes × ℤ)} (hverb : w.1 ∉ readVerbs) : WriteForm (w :: ws)
  | intoFile {w : Bytes × ℤ} {ws : List (Bytes × ℤ)} (hverb : w.1 = ascii "select")
    (hfile : IntoFile ws) : WriteForm (w :: ws)
  | set {w scope : Bytes × ℤ} {ws : List (Bytes × ℤ)} (hverb : w.1 = ascii "set")
    (hscope : scope.1 ∈ setWriteWords) : WriteForm (w :: scope :: ws)
  | withClause {w : Bytes × ℤ} {ws : List (Bytes × ℤ)} (hverb : w.1 = ascii "with")
    (hwith : WithWrites ws) : WriteForm (w :: ws)
  | explainAnalyze {w analyze : Bytes × ℤ} {ws : List (Bytes × ℤ)}
    (hverb : w.1 ∈ [ascii "explain", ascii "describe", ascii "desc"])
    (hanalyze : analyze.1 = ascii "analyze") (h : AnalyzeWrites ws) : WriteForm (w :: analyze :: ws)

/-! ## The classifier finds them -/

section Forms

variable {ws : List (Bytes × ℤ)}

/-- `OUTFILE` or `DUMPFILE` is the first of the words. -/
def FileFirst (ws : List (Bytes × ℤ)) : Prop := ∃ w ∈ ws.head?, w.1 ∈ fileWords

theorem intoFile_cons (w : Bytes × ℤ) (ws : List (Bytes × ℤ)) :
    IntoFile (w :: ws) ↔ (w.1 = ascii "into" ∧ FileFirst ws) ∨ IntoFile ws := by
  have hfirst (file : Bytes) : [file] <+: ws.map Prod.fst ↔ ∃ w ∈ ws.head?, w.1 = file := by
    cases ws with
    | nil => simp
    | cons w ws => simp [List.cons_prefix_cons, eq_comm]
  simp only [IntoFile, FileFirst, List.map_cons, List.infix_cons_iff, List.cons_prefix_cons, hfirst]
  constructor
  · rintro ⟨file, hfile, ⟨hw, w', hw', rfl⟩ | h⟩
    · exact .inl ⟨hw.symm, w', hw', hfile⟩
    · exact .inr ⟨file, hfile, h⟩
  · rintro (⟨hw, w', hw', hfile⟩ | ⟨file, hfile, h⟩)
    · exact ⟨w'.1, hfile, .inl ⟨hw.symm, w', hw', rfl⟩⟩
    · exact ⟨file, hfile, .inr h⟩

theorem classifySelectTail_eq_write_iff (afterInto : Bool) (ws : List (Bytes × ℤ)) :
    classifySelectTail afterInto ws = .write ↔
      (afterInto = true ∧ FileFirst ws) ∨ IntoFile ws := by
  induction ws generalizing afterInto with
  | nil => simp [classifySelectTail, FileFirst, IntoFile]
  | cons w ws ih =>
    obtain ⟨w, d⟩ := w
    have hhead : FileFirst ((w, d) :: ws) ↔ w = ascii "outfile" ∨ w = ascii "dumpfile" := by
      simp [FileFirst, fileWords]
    rw [classifySelectTail, intoFile_cons, hhead]
    split_ifs with h
    · exact ⟨fun _ ↦ .inl ⟨h.2, h.1⟩, fun _ ↦ rfl⟩
    · rw [ih, decide_eq_true_iff]
      exact ⟨.inr, fun hr ↦ hr.resolve_left fun hl ↦ h ⟨hl.2, hl.1⟩⟩

theorem classifySelectTail_false_iff : classifySelectTail false ws = .write ↔ IntoFile ws := by
  rw [classifySelectTail_eq_write_iff]
  simp

theorem classifyWithTail_append (h : NoMainVerb ws) (ws' : List (Bytes × ℤ)) :
    classifyWithTail (ws ++ ws') = classifyWithTail ws' := by
  induction ws with
  | nil => rfl
  | cons x ws ih =>
    obtain ⟨hx, hws⟩ := List.forall_mem_cons.mp h
    rw [List.cons_append, classifyWithTail, ih hws]
    split_ifs with hdepth hselect hwrite
    · exact absurd (hselect ▸ List.mem_cons_self) (hx hdepth)
    · exact absurd (List.mem_cons_of_mem _ hwrite) (hx hdepth)
    · rfl
    · rfl

theorem classifyWithTail_eq_write_iff : classifyWithTail ws = .write ↔ WithWrites ws := by
  constructor
  · intro h
    cases hfind : ws.find? fun x ↦ decide (x.2 = 0 ∧ x.1 ∈ mainVerbs) with
    | none =>
      have hnone := List.find?_eq_none.mp hfind
      exact .noVerb fun x hx hdepth hverb ↦ hnone x hx (decide_eq_true ⟨hdepth, hverb⟩)
    | some x =>
      obtain ⟨htop, pre, post, rfl, hpre⟩ := List.find?_eq_some_iff_append.mp hfind
      have hpre : NoMainVerb pre := fun y hy hdepth hverb ↦ by
        have hnot := hpre y hy
        rw [decide_eq_true (And.intro hdepth hverb)] at hnot
        cases hnot
      obtain ⟨verb, depth⟩ := x
      obtain ⟨rfl, hverb⟩ : depth = 0 ∧ verb ∈ mainVerbs := of_decide_eq_true htop
      rcases List.mem_cons.mp hverb with rfl | hverb
      · rw [classifyWithTail_append hpre, classifyWithTail, if_pos rfl, if_pos rfl,
          classifySelectTail_false_iff] at h
        exact .intoFile rfl hpre h
      · exact .verb rfl hpre hverb
  · rintro (hws | @⟨pre, post, verb, rfl, hpre, hverb⟩ | @⟨pre, post, rfl, hpre, hfile⟩)
    · rw [← List.append_nil ws, classifyWithTail_append hws, classifyWithTail]
    · have hne : verb ≠ ascii "select" := by
        rintro rfl
        exact absurd hverb (by decide)
      rw [classifyWithTail_append hpre, classifyWithTail, if_pos rfl, if_neg hne]
      exact if_pos hverb
    · rw [classifyWithTail_append hpre, classifyWithTail, if_pos rfl, if_pos rfl]
      exact classifySelectTail_false_iff.mpr hfile

theorem classifyExplainAnalyzeTail_append {pre : List (Bytes × ℤ)}
    (h : ∀ w ∈ pre, w.1 ∈ analyzeOptions) (ws : List (Bytes × ℤ)) :
    classifyExplainAnalyzeTail (pre ++ ws) = classifyExplainAnalyzeTail ws := by
  induction pre with
  | nil => rfl
  | cons w pre ih =>
    obtain ⟨hw, hpre⟩ := List.forall_mem_cons.mp h
    rw [List.cons_append, classifyExplainAnalyzeTail]
    exact (if_pos hw).trans (ih hpre)

theorem classifyExplainAnalyzeTail_eq_write_iff :
    classifyExplainAnalyzeTail ws = .write ↔ AnalyzeWrites ws := by
  -- behind the options, the verb decides
  have hverb {verb : Bytes × ℤ} (hoption : verb.1 ∉ analyzeOptions) (post : List (Bytes × ℤ)) :
      classifyExplainAnalyzeTail (verb :: post) =
        if verb.1 ∈ [ascii "select", ascii "table"] then classifySelectTail false post
        else if verb.1 = ascii "with" then classifyWithTail post else .write := by
    rw [classifyExplainAnalyzeTail]
    exact if_neg hoption
  have hnot {verb : Bytes} (h : verb ∈ [ascii "select", ascii "table", ascii "with"]) :
      verb ∉ analyzeOptions := by
    simp only [List.mem_cons, List.not_mem_nil, or_false] at h
    rcases h with rfl | rfl | rfl <;> decide
  constructor
  · intro h
    cases hfind : ws.find? fun w ↦ decide (w.1 ∉ analyzeOptions) with
    | none =>
      refine .noVerb fun w hw ↦ ?_
      simpa using List.find?_eq_none.mp hfind w hw
    | some w =>
      obtain ⟨hoption, pre, post, rfl, hpre⟩ := List.find?_eq_some_iff_append.mp hfind
      have hpre (w : Bytes × ℤ) (hw : w ∈ pre) : w.1 ∈ analyzeOptions := by
        simpa using hpre w hw
      have hoption : w.1 ∉ analyzeOptions := of_decide_eq_true hoption
      rw [classifyExplainAnalyzeTail_append hpre, hverb hoption] at h
      split_ifs at h with hselect hwith
      · exact .intoFile rfl hpre hselect (classifySelectTail_false_iff.mp h)
      · exact .withClause rfl hpre hwith (classifyWithTail_eq_write_iff.mp h)
      · refine .verb rfl hpre hoption fun hmem ↦ ?_
        simp only [List.mem_cons, List.not_mem_nil, or_false] at hmem hselect
        rcases hmem with hmem | hmem | hmem
        · exact hselect (.inl hmem)
        · exact hselect (.inr hmem)
        · exact hwith hmem
  · rintro (hws | @⟨pre, post, verb, rfl, hpre, hoption, hother⟩ |
      @⟨pre, post, verb, rfl, hpre, hselect, hfile⟩ | @⟨pre, post, verb, rfl, hpre, hwith, hwrites⟩)
    · rw [← List.append_nil ws, classifyExplainAnalyzeTail_append hws, classifyExplainAnalyzeTail]
    · rw [classifyExplainAnalyzeTail_append hpre, hverb hoption, if_neg, if_neg]
      · exact fun h ↦ hother (by simp [h])
      · intro h
        simp only [List.mem_cons, List.not_mem_nil, or_false] at h
        exact hother (by rcases h with h | h <;> simp [h])
    · have hmem : verb.1 ∈ [ascii "select", ascii "table", ascii "with"] := by
        simp only [List.mem_cons, List.not_mem_nil, or_false] at hselect ⊢
        exact hselect.imp_right .inl
      rw [classifyExplainAnalyzeTail_append hpre, hverb (hnot hmem), if_pos hselect]
      exact classifySelectTail_false_iff.mpr hfile
    · have hmem : verb.1 ∈ [ascii "select", ascii "table", ascii "with"] := by simp [hwith]
      have hselect : verb.1 ∉ [ascii "select", ascii "table"] := by rw [hwith]; decide
      rw [classifyExplainAnalyzeTail_append hpre, hverb (hnot hmem), if_neg hselect, if_pos hwith]
      exact classifyWithTail_eq_write_iff.mpr hwrites

/-- **The words of a write.** -/
theorem classifyWords_eq_write_iff : classifyWords ws = .write ↔ WriteForm ws := by
  constructor
  · -- the branches of the classifier, in its order
    intro h
    rcases ws with _ | ⟨w, ws⟩
    · exact .empty
    rw [classifyWords.eq_def] at h
    dsimp only at h
    split_ifs at h with hselect hread hexplain hset hwith
    · exact .intoFile hselect (classifySelectTail_false_iff.mp h)
    · rcases ws with _ | ⟨analyze, ws⟩
      · cases h
      dsimp only at h
      split_ifs at h with hanalyze
      exact .explainAnalyze hexplain hanalyze (classifyExplainAnalyzeTail_eq_write_iff.mp h)
    · rcases ws with _ | ⟨scope, ws⟩
      · cases h
      dsimp only at h
      split_ifs at h with hscope
      exact .set hset hscope
    · exact .withClause hwith (classifyWithTail_eq_write_iff.mp h)
    · refine .verb fun hmem ↦ ?_
      simp only [readVerbs, List.mem_cons, List.not_mem_nil, or_false] at hmem hread hexplain
      tauto
  · intro h
    cases h with
    | empty => rfl
    | @verb w ws hverb =>
      simp only [readVerbs, List.mem_cons, List.not_mem_nil, or_false, not_or] at hverb
      simp [classifyWords.eq_def, hverb]
    | @intoFile w ws hverb hfile =>
      rw [classifyWords.eq_def]
      exact (if_pos hverb).trans (classifySelectTail_false_iff.mpr hfile)
    | @set w scope ws hverb hscope =>
      rw [classifyWords.eq_def]
      dsimp only
      rw [hverb, if_neg (by decide), if_neg (by decide), if_neg (by decide), if_pos rfl]
      exact if_pos hscope
    | @withClause w ws hverb hwith =>
      rw [classifyWords.eq_def]
      dsimp only
      rw [hverb, if_neg (by decide), if_neg (by decide), if_neg (by decide), if_neg (by decide),
        if_pos rfl]
      exact classifyWithTail_eq_write_iff.mpr hwith
    | @explainAnalyze w analyze ws hverb hanalyze h =>
      have hselect : w.1 ≠ ascii "select" := fun heq ↦ by rw [heq] at hverb; revert hverb; decide
      have hread : w.1 ∉ [ascii "show", ascii "use", ascii "help"] := by
        simp only [List.mem_cons, List.not_mem_nil, or_false] at hverb
        rcases hverb with hverb | hverb | hverb <;> rw [hverb] <;> decide
      rw [classifyWords.eq_def]
      dsimp only
      rw [if_neg hselect, if_neg hread, if_pos hverb, if_pos hanalyze]
      exact classifyExplainAnalyzeTail_eq_write_iff.mpr h

end Forms

/-! ## The class of a statement -/

/-- The lexemes are those of a write. -/
def IsWriteCode (ls : List Lexeme) : Prop := SecondStatement ls ∨ WriteForm (wordsOfLexemes 0 ls)

/-- The statement is a write. -/
def IsWrite (q : Bytes) : Prop := IsWriteCode (lex q)

/-- **What `classify` calls a write.** -/
theorem classify_eq_write_iff (q : Bytes) : classify q = .write ↔ IsWrite q := by
  rw [classify, hasTrailingStatement, hasTrailingFrom_eq, words_eq]
  change (if trailingLexemes false (lex q) then QueryClass.write
    else classifyWords (wordsOfLexemes 0 (lex q))) = .write ↔ _
  rw [IsWrite, IsWriteCode, ← trailingLexemes_eq_true_iff, ← classifyWords_eq_write_iff]
  split_ifs with h
  · simp [h]
  · simp [h]

theorem classify_of_hasSecondStatement {q : Bytes} (h : HasSecondStatement q) :
    classify q = .write := (classify_eq_write_iff q).mpr (.inl h)

end SqlReplay
