import SqlReplay.Sql.Delimited

/-!
# WITH statements

What a `WITH` statement does is decided by the verb behind its common table expressions. The gate
looks for it with the word scanner: the first of five verbs outside parentheses. The columns and the
bodies are in parentheses, so whatever they hold is out of the way, in strings, in comments or in
the open (`Enclosed.adds`). What is left outside is `RECURSIVE`, `AS` and the names.

A name is not one of the verbs, but it is more than one word to the scanner if it does not start
like a word: the words of `2select` and of `éselect` are `select`. Then the name decides, and the
verb does not. `WithClause.decides_iff` says that these names are all that goes wrong: in front of
every statement the main verb decides just when no name has a verb among its words.
-/

namespace SqlReplay

/-! ## The grammar -/

/-- The name of a common table expression: an unquoted identifier that is no verb, or a quoted one.
-/
inductive IsName : Bytes → Prop
  | plain {name : Bytes} (hne : name ≠ []) (hident : ∀ c ∈ name, isUnquotedByte c = true)
    (hverb : name.map toAsciiLowercase ∉ mainVerbs) : IsName name
  | quoted {r : Bytes} (hclose : closeQuoted backtick r = some []) : IsName (backtick :: r)

/-- `name [(columns)] AS (body)`, with the trivia around its tokens. -/
structure CommonTable where
  lead : Bytes
  name : Bytes
  nameGap : Bytes
  /-- The columns, and what stands behind them. -/
  columns : Option (Enclosed × Bytes)
  keyword : Bytes
  bodyGap : Bytes
  body : Enclosed
  trail : Bytes
  leadTrivia : Trivia lead
  isName : IsName name
  nameTrivia : Trivia nameGap
  columnsTrivia : ∀ c ∈ columns, Trivia c.2
  isAs : keyword.map toAsciiLowercase = ascii "as"
  bodyTrivia : Trivia bodyGap
  trailTrivia : Trivia trail
  /-- Only a quoted name may be followed by the keyword directly. -/
  separate : name.head? ≠ some backtick → nameGap ≠ [] ∨ columns ≠ none

namespace CommonTable

variable (t : CommonTable)

def columnsText : Bytes := t.columns.elim [] fun c ↦ c.1.text ++ c.2

def text : Bytes :=
  t.lead ++ (t.name ++ (t.nameGap ++ (t.columnsText ++
    (t.keyword ++ (t.bodyGap ++ (t.body.text ++ t.trail))))))

/-- The words of the name, as the scanner cuts it. -/
def nameWords : List (Bytes × ℤ) := wordsFrom 0 t.name

def columnsWords : List (Bytes × ℤ) := t.columns.elim [] fun c ↦ c.1.words

def words : List (Bytes × ℤ) :=
  t.nameWords ++ (t.columnsWords ++ ((ascii "as", 0) :: t.body.words))

end CommonTable

/-- `EXPLAIN ANALYZE`, or one of the synonyms of `EXPLAIN`. -/
structure ExplainAnalyze where
  explain : Bytes
  gap : Bytes
  analyze : Bytes
  trail : Bytes
  isExplain : explain.map toAsciiLowercase ∈
    [ascii "explain", ascii "describe", ascii "desc"]
  gapTrivia : Trivia gap
  gap_ne_nil : gap ≠ []
  isAnalyze : analyze.map toAsciiLowercase = ascii "analyze"
  trailTrivia : Trivia trail
  trail_ne_nil : trail ≠ []

def ExplainAnalyze.text (e : ExplainAnalyze) : Bytes :=
  e.explain ++ (e.gap ++ (e.analyze ++ e.trail))

/-- A statement with common table expressions, up to its main verb. -/
structure WithClause where
  lead : Bytes
  explain : Option ExplainAnalyze
  keyword : Bytes
  /-- The trivia in front of `RECURSIVE`, and that keyword. -/
  recursive : Option (Bytes × Bytes)
  first : CommonTable
  others : List CommonTable
  leadTrivia : Trivia lead
  isWith : keyword.map toAsciiLowercase = ascii "with"
  isRecursive : ∀ r ∈ recursive,
    Trivia r.1 ∧ r.1 ≠ [] ∧ r.2.map toAsciiLowercase = ascii "recursive"
  ends : ∀ c ∈ first.text.head?, isUnquotedByte c = false

namespace WithClause

variable (w : WithClause)

/-- What stands in front of `WITH`. -/
def front : Bytes := w.lead ++ w.explain.elim [] ExplainAnalyze.text

def recursiveText : Bytes := w.recursive.elim [] fun r ↦ r.1 ++ r.2

/-- The common table expressions behind the first one, each with the comma in front of it. -/
def othersText : List CommonTable → Bytes
  | [] => []
  | t :: ts => [ch ','] ++ (t.text ++ othersText ts)

def tables : Bytes := w.recursiveText ++ (w.first.text ++ othersText w.others)

/-- The whole statement, with its main verb and the rest of it. -/
def text (verb rest : Bytes) : Bytes := w.front ++ (w.keyword ++ (w.tables ++ (verb ++ rest)))

/-- The words between `WITH` and the main verb. -/
def words : List (Bytes × ℤ) :=
  w.recursive.elim [] (fun _ ↦ [(ascii "recursive", 0)]) ++
    (w.first.words ++ w.others.flatMap CommonTable.words)

/-- **The main verb decides**: a verb of data manipulation makes the statement a write, and a query
is classified as it is without the common table expressions, with `EXPLAIN ANALYZE` or without. -/
def Decides : Prop :=
  ∀ verb rest : Bytes, (∀ c ∈ rest.head?, isUnquotedByte c = false) →
    (verb.map toAsciiLowercase ∈ writeVerbs → classify (w.text verb rest) = .write) ∧
    (verb.map toAsciiLowercase = ascii "select" →
      classify (w.text verb rest) = classify (w.front ++ (verb ++ rest)) ∧
        classify (w.text verb rest) = classify (verb ++ rest))

/-- No name has a verb among its words. -/
def NamesClean : Prop :=
  ∀ t ∈ w.first :: w.others, ∀ x ∈ t.nameWords, x.1 ∉ mainVerbs

end WithClause

/-! ## What the parts add -/

theorem isUnquotedByte_spec {c : UInt8} (hc : isUnquotedByte c = true) :
    isPlain c = true ∧ c ≠ backtick ∧ c ≠ ch ';' ∧ (Lexeme.byte c).paren = 0 :=
  forall_byte (p := fun c ↦ isUnquotedByte c = true →
    isPlain c = true ∧ c ≠ backtick ∧ c ≠ ch ';' ∧ (Lexeme.byte c).paren = 0)
    (by decide) c hc

section Name

variable {name r q : Bytes}

theorem lex_identifier (hident : ∀ c ∈ name, isUnquotedByte c = true) (q : Bytes) :
    lex (name ++ q) = name.map Lexeme.byte ++ lex q :=
  lex_plainBytes (fun d hd ↦ (isUnquotedByte_spec (hident d hd)).1) q

theorem paren_identifier (hident : ∀ c ∈ name, isUnquotedByte c = true) :
    ∀ l ∈ name.map Lexeme.byte, l.paren = 0 := by
  intro l hl
  obtain ⟨d, hd, rfl⟩ := List.mem_map.mp hl
  exact (isUnquotedByte_spec (hident d hd)).2.2.2

theorem lex_quotedName (hclose : closeQuoted backtick r = some [])
    (hq : ∀ d ∈ q.head?, d ≠ backtick) :
    lex (backtick :: r ++ q) = .quoted (backtick :: r) :: lex q := by
  obtain ⟨p, hp, -, hskip⟩ := closeQuoted_eq_some hclose
  rw [List.append_nil] at hp
  subst hp
  have hq' : q.head? ≠ some backtick := fun hhead ↦ hq _ hhead rfl
  rw [List.cons_append, lex_cons, lexStep_of_isQuote (by decide) (hskip q hq')]

/-- The words of an unquoted name; a quoted one has none. -/
theorem wordsFrom_name (h : IsName name) :
    wordsFrom 0 name =
      if name.head? = some backtick then [] else wordsOfLexemes 0 (name.map Lexeme.byte) := by
  cases h with
  | plain hne hident hverb =>
    have hstart : name.head? ≠ some backtick := fun hhead ↦
      (isUnquotedByte_spec (hident _ (List.mem_of_head? hhead))).2.1 rfl
    have hlex := lex_identifier hident []
    rw [List.append_nil, lex_nil, List.append_nil] at hlex
    rw [if_neg hstart, wordsFrom, hlex]
  | quoted hclose =>
    have hlex := lex_quotedName (q := []) hclose fun d hd ↦ by cases hd
    rw [List.append_nil, lex_nil] at hlex
    rw [wordsFrom, hlex, wordsOfLexemes, wordsOfLexemes]
    rfl

/-- A name adds its own words, whatever follows it. -/
theorem IsName.adds (h : IsName name) (hquote : ∀ d ∈ q.head?, d ≠ backtick)
    (hends : name.head? ≠ some backtick → ∀ d ∈ q.head?, isUnquotedByte d = false) :
    Adds name q (wordsFrom 0 name) := by
  rw [wordsFrom_name h]
  cases h with
  | plain hne hident hverb =>
    have hstart : name.head? ≠ some backtick := fun hhead ↦
      (isUnquotedByte_spec (hident _ (List.mem_of_head? hhead))).2.1 rfl
    rw [if_neg hstart]
    refine Adds.of_lex (lex_identifier hident q) (isWord_head?_lex fun d hd ↦
      isWordByte_of_isUnquotedByte_eq_false (hends hstart d hd))
      (depthOf_eq_zero (paren_identifier hident)) ?_
    intro hmem
    obtain ⟨d, hd, heq⟩ := List.mem_map.mp hmem
    exact (isUnquotedByte_spec (hident d hd)).2.2.1 (Lexeme.byte.inj heq)
  | quoted hclose =>
    rw [List.head?_cons, if_pos rfl]
    constructor
    · rw [wordsFrom, lex_quotedName hclose hquote, wordsOfLexemes, List.nil_append, wordsFrom]
    · rw [lex_quotedName hclose hquote, trailingLexemes, Bool.false_or]

/-- The words of a name are at the depth of the statement. -/
theorem depth_of_mem_wordsFrom (h : IsName name) {x : Bytes × ℤ} (hx : x ∈ wordsFrom 0 name) :
    x.2 = 0 := by
  rw [wordsFrom_name h] at hx
  split_ifs at hx with hquoted
  · exact absurd hx List.not_mem_nil
  · obtain ⟨pre, hpre, heq⟩ := exists_of_mem_wordsOfLexemes hx
    rw [heq, zero_add]
    refine depthOf_eq_zero fun l hl ↦ ?_
    cases h with
    | plain hne hident hverb => exact paren_identifier hident l (hpre.subset hl)
    | quoted hclose => exact absurd rfl hquoted

end Name

namespace CommonTable

variable (t : CommonTable)

theorem adds_columns (q : Bytes) : Adds t.columnsText q t.columnsWords := by
  have htrivia := t.columnsTrivia
  rw [columnsText, columnsWords]
  cases hcols : t.columns with
  | none => exact .nil q
  | some c =>
    have hadd := (c.1.adds (c.2 ++ q)).append ((htrivia c hcols).adds q)
    rwa [List.append_nil] at hadd

/-- No backtick doubles the one at the end of a quoted name. -/
theorem head?_ne_backtick (q : Bytes) :
    ∀ d ∈ (t.nameGap ++ (t.columnsText ++ (t.keyword ++ q))).head?, d ≠ backtick := by
  have htrivia (c : UInt8) (hc : startsTrivia c = true) : c ≠ backtick := by
    rintro rfl
    exact absurd hc (by decide)
  refine t.nameTrivia.forall_head?_append htrivia ?_
  rw [columnsText]
  cases t.columns with
  | none =>
    obtain ⟨c, w, hk, hc, -, -⟩ := keyword_bytes (by decide) t.isAs
    intro d hd
    rw [hk] at hd
    obtain rfl : c = d := Option.some.inj hd
    rintro rfl
    exact absurd hc (by decide)
  | some c =>
    intro d hd
    rw [← Option.some.inj hd]
    decide

/-- An unquoted name ends where the part behind it starts. -/
theorem head?_separate (hname : t.name.head? ≠ some backtick) (q : Bytes) :
    ∀ d ∈ (t.nameGap ++ (t.columnsText ++ q)).head?, isUnquotedByte d = false := by
  rcases t.separate hname with hgap | hcols
  · exact t.nameTrivia.head?_append_of_ne_nil hgap _
  · refine t.nameTrivia.head?_append fun d hd ↦ ?_
    obtain ⟨c, hc⟩ := Option.ne_none_iff_exists'.mp hcols
    rw [columnsText, hc] at hd
    rw [← Option.some.inj hd]
    decide

/-- A common table expression adds its words, whatever follows it. -/
theorem adds (q : Bytes) : Adds t.text q t.words := by
  have hbody : Adds (t.bodyGap ++ (t.body.text ++ t.trail)) q t.body.words := by
    have hadd := (t.bodyTrivia.adds _).append ((t.body.adds _).append (t.trailTrivia.adds q))
    rwa [List.append_nil, List.nil_append] at hadd
  have has : Adds (t.keyword ++ (t.bodyGap ++ (t.body.text ++ t.trail))) q
      ((ascii "as", 0) :: t.body.words) := by
    refine (adds_keyword (by decide) t.isAs ?_).append hbody
    rw [List.append_assoc]
    refine t.bodyTrivia.head?_append fun d hd ↦ ?_
    rw [← Option.some.inj hd]
    decide
  have hname : Adds t.name
      ((t.nameGap ++
        (t.columnsText ++ (t.keyword ++ (t.bodyGap ++ (t.body.text ++ t.trail))))) ++ q)
      t.nameWords := by
    refine t.isName.adds ?_ fun hhead ↦ ?_
    · simp only [List.append_assoc]
      exact t.head?_ne_backtick _
    · simp only [List.append_assoc]
      exact t.head?_separate hhead _
  have hbehind := (t.nameTrivia.adds _).append ((t.adds_columns _).append has)
  have hall := (t.leadTrivia.adds _).append (hname.append hbehind)
  rwa [List.nil_append, List.nil_append] at hall

/-- What is at the depth of the statement is a word of the name, or `AS`. -/
theorem mem_words {x : Bytes × ℤ} (hx : x ∈ t.words) (hdepth : x.2 = 0) :
    x ∈ t.nameWords ∨ x = (ascii "as", 0) := by
  rw [words, List.mem_append, List.mem_append, List.mem_cons] at hx
  rcases hx with hname | hcols | has | hbody
  · exact .inl hname
  · rw [columnsWords] at hcols
    cases hc : t.columns with
    | none => rw [hc] at hcols; exact absurd hcols List.not_mem_nil
    | some c =>
      rw [hc] at hcols
      exact absurd hdepth (c.1.words_depth hcols).ne'
  · exact .inr has
  · exact absurd hdepth (t.body.words_depth hbody).ne'

theorem text_ne_nil : t.text ≠ [] := by
  have hkeyword : t.keyword ≠ [] := by
    intro h
    have has := t.isAs
    rw [h] at has
    cases has
  simp only [text, ne_eq, List.append_eq_nil_iff, not_and]
  exact fun _ _ _ _ h ↦ absurd h hkeyword

end CommonTable

namespace WithClause

variable (w : WithClause)

theorem adds_others (ts : List CommonTable) (q : Bytes) :
    Adds (othersText ts) q (ts.flatMap CommonTable.words) := by
  induction ts with
  | nil => exact .nil q
  | cons t ts ih =>
    have hadd := (adds_comma _).append ((t.adds _).append ih)
    rwa [List.nil_append] at hadd

/-- The first name, or the trivia in front of it, ends the keyword in front of it. -/
theorem head?_first (q : Bytes) : ∀ d ∈ (w.first.text ++ q).head?, isUnquotedByte d = false := by
  rw [List.head?_append_of_ne_nil _ w.first.text_ne_nil]
  exact w.ends

theorem adds_tables (q : Bytes) : Adds w.tables q w.words := by
  have hfirst := (w.first.adds _).append (adds_others w.others q)
  have hrec := w.isRecursive
  rw [tables, words, recursiveText]
  cases hr : w.recursive with
  | none => exact hfirst
  | some r =>
    obtain ⟨htrivia, -, hkeyword⟩ := hrec r hr
    have hends := w.head?_first (othersText w.others ++ q)
    rw [← List.append_assoc] at hends
    have hadd := (htrivia.adds _).append ((adds_keyword (by decide) hkeyword hends).append
      hfirst)
    rwa [List.nil_append, ← List.append_assoc] at hadd

/-- The statement without what stands in front of `WITH`. -/
theorem head?_tables (q : Bytes) : ∀ d ∈ (w.tables ++ q).head?, isUnquotedByte d = false := by
  have hrec := w.isRecursive
  rw [tables, recursiveText]
  cases hr : w.recursive with
  | none =>
    rw [Option.elim_none, List.nil_append, List.append_assoc]
    exact w.head?_first _
  | some r =>
    obtain ⟨htrivia, hne, -⟩ := hrec r hr
    rw [Option.elim_some, List.append_assoc, List.append_assoc]
    exact htrivia.head?_append_of_ne_nil hne _

/-- What is at the depth of the statement in front of the main verb. -/
theorem mem_words {x : Bytes × ℤ} (hx : x ∈ w.words) (hdepth : x.2 = 0) :
    (∃ t ∈ w.first :: w.others, x ∈ t.nameWords) ∨ x.1 = ascii "recursive" ∨ x.1 = ascii "as" := by
  have htable : ∀ t ∈ w.first :: w.others, x ∈ t.words →
      (∃ t ∈ w.first :: w.others, x ∈ t.nameWords) ∨ x.1 = ascii "recursive" ∨
        x.1 = ascii "as" := by
    intro t ht hmem
    rcases t.mem_words hmem hdepth with hname | rfl
    · exact .inl ⟨t, ht, hname⟩
    · exact .inr (.inr rfl)
  rw [words, List.mem_append, List.mem_append, List.mem_flatMap] at hx
  rcases hx with hrec | hfirst | ⟨t, ht, hmem⟩
  · cases hr : w.recursive with
    | none => rw [hr] at hrec; exact absurd hrec List.not_mem_nil
    | some r =>
      rw [hr] at hrec
      rw [List.mem_singleton.mp hrec]
      exact .inr (.inl rfl)
  · exact htable _ List.mem_cons_self hfirst
  · exact htable t (List.mem_cons_of_mem _ ht) hmem

theorem mem_words_of_nameWords {t : CommonTable} (ht : t ∈ w.first :: w.others) {x : Bytes × ℤ}
    (hx : x ∈ t.nameWords) : x ∈ w.words := by
  have hmem : x ∈ t.words := List.mem_append_left _ hx
  rw [words, List.mem_append, List.mem_append, List.mem_flatMap]
  rcases List.mem_cons.mp ht with rfl | ht
  · exact .inr (.inl hmem)
  · exact .inr (.inr ⟨t, ht, hmem⟩)

/-- With clean names there is no verb in front of the main verb. -/
theorem NamesClean.words {w : WithClause} (h : w.NamesClean) :
    ∀ x ∈ w.words, x.2 = 0 → x.1 ∉ mainVerbs := by
  intro x hx hdepth
  rcases w.mem_words hx hdepth with ⟨t, ht, hname⟩ | hword | hword
  · exact h t ht x hname
  · rw [hword]
    decide
  · rw [hword]
    decide

/-- A name that is not clean puts a verb in front of the main verb. -/
theorem exists_verb_of_not_namesClean (h : ¬w.NamesClean) :
    ∃ x ∈ w.words, x.2 = 0 ∧ x.1 ∈ mainVerbs := by
  simp only [NamesClean, not_forall, not_not] at h
  obtain ⟨t, ht, x, hx, hverb⟩ := h
  exact ⟨x, w.mem_words_of_nameWords ht hx, depth_of_mem_wordsFrom t.isName hx, hverb⟩

end WithClause

/-! ## The search for the main verb -/

section Search

variable {ws ws' : List (Bytes × ℤ)}

/-- A last word is of no account to the search for `INTO OUTFILE`, unless it is a kind of file. -/
theorem classifySelectTail_concat {x : Bytes × ℤ} (hx : x.1 ≠ ascii "outfile")
    (hx' : x.1 ≠ ascii "dumpfile") (a : Bool) :
    classifySelectTail a (ws ++ [x]) = classifySelectTail a ws := by
  induction ws generalizing a with
  | nil =>
    obtain ⟨w, depth⟩ := x
    rw [List.nil_append, classifySelectTail, classifySelectTail,
      if_neg fun h ↦ h.1.elim hx hx', classifySelectTail]
  | cons y ws ih => rw [List.cons_append, classifySelectTail, classifySelectTail, ih]

/-- Where a verb stands in front of the main verb, the main verb is of no account. -/
theorem classifyWithTail_concat (h : ∃ x ∈ ws, x.2 = 0 ∧ x.1 ∈ mainVerbs) :
    classifyWithTail (ws ++ [(ascii "select", 0)]) =
      classifyWithTail (ws ++ [(ascii "delete", 0)]) := by
  induction ws with
  | nil =>
    obtain ⟨x, hx, -⟩ := h
    exact absurd hx List.not_mem_nil
  | cons x ws ih =>
    rw [List.exists_mem_cons_iff] at h
    rw [List.cons_append, List.cons_append, classifyWithTail, classifyWithTail]
    split_ifs with hdepth hselect hwrite
    · rw [classifySelectTail_concat (by decide) (by decide),
        classifySelectTail_concat (by decide) (by decide)]
    · rfl
    · refine ih (h.resolve_left fun hx ↦ ?_)
      rcases List.mem_cons.mp hx.2 with heq | hmem
      · exact hselect heq
      · exact hwrite hmem
    · exact ih (h.resolve_left fun hx ↦ hdepth hx.1)

end Search

/-! ## The main verb -/

/-- Behind `EXPLAIN ANALYZE` the gate goes on with the statement that is explained. -/
theorem classifyWords_explain {explain kw : Bytes} {ws : List (Bytes × ℤ)}
    (hexplain : explain ∈ [ascii "explain", ascii "describe", ascii "desc"])
    (hkw : kw ∈ [ascii "select", ascii "with"]) :
    classifyWords ((explain, 0) :: (ascii "analyze", 0) :: (kw, 0) :: ws) =
      classifyWords ((kw, 0) :: ws) := by
  have hnot : explain ≠ ascii "select" ∧
      explain ∉ [ascii "show", ascii "use", ascii "help"] := by
    revert explain
    decide
  have hkw' : kw ∉ [ascii "format", ascii "tree", ascii "json"] := by
    revert kw
    decide
  have htail : classifyWords ((explain, 0) :: (ascii "analyze", 0) :: (kw, 0) :: ws) =
      classifyExplainAnalyzeTail ((kw, 0) :: ws) := by
    rw [classifyWords.eq_def]
    dsimp only
    rw [if_neg hnot.1, if_neg hnot.2, if_pos hexplain, if_pos rfl]
  rw [htail, classifyExplainAnalyzeTail, if_neg hkw', classifyWords.eq_def]
  dsimp only
  rcases List.mem_cons.mp hkw with rfl | hkw
  · rw [if_pos (by decide), if_pos rfl]
  · obtain rfl := List.mem_singleton.mp hkw
    rw [if_neg (by decide), if_pos rfl, if_neg (by decide),
      if_neg (by decide), if_neg (by decide), if_neg (by decide)]

namespace WithClause

variable (w : WithClause)

/-- What stands in front of `WITH` may stand in front of a query alone: it makes no difference. -/
theorem classify_front {q kw : Bytes} {ws : List (Bytes × ℤ)} (hq : wordsFrom 0 q = (kw, 0) :: ws)
    (hkw : kw ∈ [ascii "select", ascii "with"]) : classify (w.front ++ q) = classify q := by
  rw [front, List.append_assoc, w.leadTrivia.classify_append]
  cases w.explain with
  | none => rfl
  | some e =>
    obtain ⟨explain, hword, hexplain⟩ : ∃ explain, e.explain.map toAsciiLowercase = explain ∧
      explain ∈ [ascii "explain", ascii "describe", ascii "desc"] := ⟨_, rfl, e.isExplain⟩
    have hkeyword : isKeyword explain = true := by
      revert hexplain
      clear hword
      revert explain
      decide
    have hanalyze : Adds (e.gap ++ (e.analyze ++ e.trail)) q [(ascii "analyze", 0)] := by
      have hword := adds_keyword (by decide) e.isAnalyze
        (e.trailTrivia.head?_append_of_ne_nil e.trail_ne_nil q)
      exact (e.gapTrivia.adds _).append (hword.append (e.trailTrivia.adds q))
    have hadd : Adds e.text q ((explain, 0) :: [(ascii "analyze", 0)]) := by
      refine (adds_keyword hkeyword hword ?_).append hanalyze
      rw [List.append_assoc]
      exact e.gapTrivia.head?_append_of_ne_nil e.gap_ne_nil _
    rw [Option.elim_some, classify_eq, classify_eq, hadd.single, hadd.words, hq]
    exact if_congr Iff.rfl rfl (classifyWords_explain hexplain hkw)

theorem isKeyword_mainVerb {kw : Bytes} (hkw : kw ∈ mainVerbs) : isKeyword kw = true := by
  revert kw
  decide

theorem classify_text {verb kw rest : Bytes} (hkw : kw ∈ mainVerbs)
    (hverb : verb.map toAsciiLowercase = kw) (hrest : ∀ c ∈ rest.head?, isUnquotedByte c = false) :
    classify (w.text verb rest) =
      if trailingLexemes false (lex rest) then .write
      else classifyWithTail (w.words ++ (kw, 0) :: wordsFrom 0 rest) := by
  have hmain := (w.adds_tables _).append (adds_keyword (isKeyword_mainVerb hkw) hverb hrest)
  have hadd : Adds (w.keyword ++ (w.tables ++ verb)) rest
      ((ascii "with", 0) :: (w.words ++ [(kw, 0)])) := by
    refine (adds_keyword (by decide) w.isWith ?_).append hmain
    rw [List.append_assoc]
    exact w.head?_tables _
  have htext : w.text verb rest = w.front ++ (w.keyword ++ (w.tables ++ verb) ++ rest) := by
    rw [text, List.append_assoc, List.append_assoc]
  rw [htext, w.classify_front hadd.words (List.mem_cons_of_mem _ List.mem_cons_self), classify_eq,
    hadd.single, hadd.words, List.cons_append, List.append_assoc, List.singleton_append]
  refine if_congr Iff.rfl rfl ?_
  rw [classifyWords.eq_def]
  dsimp only
  rw [if_neg (by decide), if_neg (by decide), if_neg (by decide),
    if_neg (by decide), if_pos rfl]

theorem classify_select {verb rest : Bytes} (hverb : verb.map toAsciiLowercase = ascii "select")
    (hrest : ∀ c ∈ rest.head?, isUnquotedByte c = false) :
    classify (verb ++ rest) =
      if trailingLexemes false (lex rest) then .write
      else classifySelectTail false (wordsFrom 0 rest) := by
  have hadd := adds_keyword (by decide) hverb hrest
  rw [classify_eq, hadd.single, hadd.words, List.singleton_append, classifyWords.eq_def]
  exact if_congr Iff.rfl rfl (if_pos rfl)

/-- With clean names the scanner comes to the main verb. -/
theorem NamesClean.decides {w : WithClause} (h : w.NamesClean) : w.Decides := by
  intro verb rest hrest
  refine ⟨fun hverb ↦ ?_, fun hverb ↦ ?_⟩
  · obtain ⟨kw, hkw, hmem⟩ : ∃ kw, verb.map toAsciiLowercase = kw ∧ kw ∈ writeVerbs :=
      ⟨_, rfl, hverb⟩
    have hselect : kw ≠ ascii "select" := by
      rintro rfl
      exact absurd hmem (by decide)
    have hwrite : classifyWithTail ((kw, 0) :: wordsFrom 0 rest) = .write := by
      rw [classifyWithTail, if_pos rfl, if_neg hselect]
      exact if_pos hmem
    rw [w.classify_text (List.mem_cons_of_mem _ hmem) hkw hrest, classifyWithTail_append h.words,
      hwrite, ite_self]
  · have hwords := (adds_keyword (by decide) hverb hrest).words
    have hall : classify (w.text verb rest) = classify (verb ++ rest) := by
      rw [w.classify_text List.mem_cons_self hverb hrest, classifyWithTail_append h.words,
        classifyWithTail, if_pos rfl, if_pos rfl, classify_select hverb hrest]
    exact ⟨hall.trans (w.classify_front hwords List.mem_cons_self).symm, hall⟩

/-- **Where the main verb decides**: just where no name has a verb among its words. Where one has,
the gate takes the name for the verb, and treats a query and a deletion alike. -/
theorem decides_iff (w : WithClause) : w.Decides ↔ w.NamesClean := by
  refine ⟨fun h ↦ ?_, NamesClean.decides⟩
  by_contra hclean
  have hend : ∀ c ∈ ([] : Bytes).head?, isUnquotedByte c = false := fun c hc ↦ by cases hc
  have htext (verb kw : Bytes) (hkw : kw ∈ mainVerbs) (hverb : verb.map toAsciiLowercase = kw) :
      classify (w.text verb []) = classifyWithTail (w.words ++ [(kw, 0)]) := by
    rw [w.classify_text hkw hverb hend, wordsFrom, lex_nil, trailingLexemes, wordsOfLexemes]
    exact if_neg Bool.false_ne_true
  have hquery := htext (ascii "SELECT") (ascii "select") (by decide) (by decide)
  have hdelete := htext (ascii "DELETE") (ascii "delete") (by decide) (by decide)
  have hread := ((h (ascii "SELECT") [] hend).2 (by decide)).2
  have hwrite := (h (ascii "DELETE") [] hend).1 (by decide)
  rw [hquery, classifyWithTail_concat (w.exists_verb_of_not_namesClean hclean), ← hdelete,
    hwrite] at hread
  exact absurd hread (by decide +kernel)

/-- `2select AS (SELECT 1)` -/
def digitTable : CommonTable where
  lead := ascii " "
  name := ascii "2select"
  nameGap := ascii " "
  columns := none
  keyword := ascii "AS"
  bodyGap := ascii " "
  body :=
    { inner := ascii "SELECT 1"
      lexemes := (ascii "SELECT 1").map Lexeme.byte
      closed := by decide +kernel
      nested := by decide
      single := by decide }
  trail := ascii " "
  leadTrivia := .oneSpace
  isName := .plain (by decide) (by decide +kernel) (by decide)
  nameTrivia := .oneSpace
  columnsTrivia := fun c hc ↦ by cases hc
  isAs := by decide
  bodyTrivia := .oneSpace
  trailTrivia := .oneSpace
  separate := fun _ ↦ .inl (by decide)

/-- `WITH 2select AS (SELECT 1)` -/
def digitClause : WithClause where
  lead := []
  explain := none
  keyword := ascii "WITH"
  recursive := none
  first := digitTable
  others := []
  leadTrivia := .nil
  isWith := by decide
  isRecursive := fun r hr ↦ by cases hr
  ends := by decide +kernel

theorem not_decides :
    digitClause.text (ascii "DELETE") (ascii " FROM t") =
        ascii "WITH 2select AS (SELECT 1) DELETE FROM t" ∧
      classify (ascii "WITH 2select AS (SELECT 1) DELETE FROM t") = .read ∧
      ¬digitClause.Decides := by
  have htext : digitClause.text (ascii "DELETE") (ascii " FROM t") =
      ascii "WITH 2select AS (SELECT 1) DELETE FROM t" := by decide
  have hread : classify (ascii "WITH 2select AS (SELECT 1) DELETE FROM t") = .read := by
    decide +kernel
  refine ⟨htext, hread, fun h ↦ ?_⟩
  have hwrite := (h (ascii "DELETE") (ascii " FROM t") (by decide +kernel)).1 (by decide)
  rw [htext, hread] at hwrite
  cases hwrite

end WithClause

end SqlReplay
