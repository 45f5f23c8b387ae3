import SqlReplay.Sql.Delimited

/-!
# SET statements

`SET` changes the session, and it is needed for a faithful replay. But an assignment may also change
the server: behind `GLOBAL`, `PERSIST` and `PERSIST_ONLY`, and behind `@@global.` and its like. The
scope belongs to one assignment of a list, and it may be any of them.

The gate looks at one word, the first behind `SET`. So it sees the scope of the first assignment, in
both spellings (`SetStatement.seen_of_head?`), since the scanner passes over `@@`. It does not see
the scope of any other one, unless that first word happens to be one that it takes for a write: the
first word of `SET @persist = 1` is. Nor does it see the statement behind `SET STATEMENT .. FOR`,
where the first word is `statement`. What is left is the multi-statement check. The two together are
all there is to it: `classify_setStatement_iff` says exactly which statements that change the server
are writes to the gate.
-/

namespace SqlReplay

/-! ## Assignments -/

/-- The list of a text cut at the commas at code level outside parentheses. -/
def splitCommas (depth : ℤ) : List Lexeme → List (List Lexeme)
  | [] => [[]]
  | l :: ls =>
    if depth = 0 ∧ l = .byte (ch ',') then [] :: splitCommas depth ls
    else (splitCommas (depth + l.paren) ls).modifyHead (l :: ·)

/-- The scopes of variables that belong to the server. -/
def serverScopes : List Bytes := [ascii "global", ascii "persist", ascii "persist_only"]

/-- A byte of an unquoted identifier at code level. -/
def Lexeme.isIdent : Lexeme → Bool
  | .byte c => isUnquotedByte c
  | _ => false

/-- The keyword or identifier at the head of a text, in lower case. -/
def identOf (ls : List Lexeme) : Bytes :=
  ((ls.takeWhile Lexeme.isIdent).map Lexeme.wordByte).map toAsciiLowercase

/-- What may stand in front of an assignment. -/
def Lexeme.isGap : Lexeme → Bool
  | .opener _ => true
  | l => l.isBlank

/-- The assignment is scoped to the server: by a keyword in front of the variable, or by
`@@global.`, `@@persist.` or `@@persist_only.`. -/
def ServerScoped (assignment : List Lexeme) : Prop :=
  let a := assignment.dropWhile Lexeme.isGap
  identOf a ∈ serverScopes ∨
    ∃ var, a = .byte (ch '@') :: .byte (ch '@') :: var ∧ identOf var ∈ serverScopes ∧
      (var.dropWhile Lexeme.isIdent).head? = some (.byte (ch '.'))

/-! ## Statements -/

/-- `SET`, and whatever stands behind it. -/
structure SetStatement where
  lead : Bytes
  keyword : Bytes
  tail : Bytes
  leadTrivia : Trivia lead
  isSet : keyword.map toAsciiLowercase = ascii "set"
  ends : ∀ c ∈ tail.head?, isUnquotedByte c = false

/-- The tail of `SET STATEMENT assignments FOR body`. -/
structure ForStatement where
  gap : Bytes
  statement : Bytes
  assignments : Bytes
  keyword : Bytes
  forGap : Bytes
  body : Bytes
  /-- What the assignments are lexed to. -/
  lexemes : List Lexeme
  gapTrivia : Trivia gap
  gap_ne_nil : gap ≠ []
  isStatement : statement.map toAsciiLowercase = ascii "statement"
  assignments_ne_nil : assignments ≠ []
  starts : ∀ c ∈ assignments.head?, isUnquotedByte c = false
  /-- The keyword `FOR` is at code level, and at the depth of the statement. -/
  closed : ∀ c ∈ keyword.head?, LexesBefore c assignments lexemes
  nested : Nested lexemes
  single : .byte (ch ';') ∉ lexemes
  isFor : keyword.map toAsciiLowercase = ascii "for"
  separate : ∀ c ∈ assignments.getLast?, isUnquotedByte c = false
  /-- It is the first one. -/
  first : (ascii "for", 0) ∉ wordsOfLexemes 0 lexemes
  forGapTrivia : Trivia forGap
  ends : ∀ c ∈ (forGap ++ body).head?, isUnquotedByte c = false

namespace ForStatement

variable (f : ForStatement)

def text : Bytes :=
  f.gap ++ (f.statement ++ (f.assignments ++ (f.keyword ++ (f.forGap ++ f.body))))

end ForStatement

namespace SetStatement

variable (σ : SetStatement)

def text : Bytes := σ.lead ++ (σ.keyword ++ σ.tail)

/-- The assignments, one a piece. -/
def assignments : List (List Lexeme) := splitCommas 0 (lex σ.tail)

/-- The statement changes the state of the server, by an assignment or by the statement it embeds.
-/
def ChangesServer : Prop :=
  (∃ a ∈ σ.assignments, ServerScoped a) ∨
    ∃ f : ForStatement, f.text = σ.tail ∧ classify f.body = .write

/-- The first word behind `SET`, outside strings and comments. -/
def firstWord : Option Bytes := (wordsFrom 0 σ.tail).head?.map Prod.fst

/-- What the gate sees: the first word is one of five, or there is a second statement. -/
def Seen : Prop :=
  (∃ w ∈ serverScopes ++ [ascii "password", ascii "default"], σ.firstWord = some w) ∨
    HasSecondStatement σ.text

/-- A statement that changes the server does not pass as a read. -/
def Guarded : Prop := σ.ChangesServer → classify σ.text = .write

end SetStatement

/-! ## What the gate makes of it -/

section Gate

variable (σ : SetStatement)

theorem SetStatement.wordsFrom_text :
    wordsFrom 0 σ.text = (ascii "set", 0) :: wordsFrom 0 σ.tail := by
  rw [SetStatement.text, σ.leadTrivia.wordsFrom_append,
    wordsFrom_keyword (by decide) σ.isSet σ.ends]

theorem SetStatement.hasSecondStatement_text :
    HasSecondStatement σ.text ↔ HasSecondStatement σ.tail := by
  rw [← trailingLexemes_iff, ← trailingLexemes_iff, SetStatement.text,
    σ.leadTrivia.trailingLexemes_append, trailingLexemes_keyword (by decide) σ.isSet]

/-- The branch of `classify` for `SET`. -/
theorem classifyWords_set (ws : List (Bytes × ℤ)) :
    classifyWords ((ascii "set", 0) :: ws) = .write ↔
      ∃ w ∈ serverScopes ++ [ascii "password", ascii "default"],
        ws.head?.map Prod.fst = some w := by
  rw [classifyWords.eq_def]
  dsimp only
  rw [if_neg (by decide), if_neg (by decide), if_neg (by decide), if_pos rfl]
  cases ws with
  | nil => simp
  | cons w ws =>
    dsimp only
    split_ifs with hmem
    · exact ⟨fun _ ↦ ⟨w.1, hmem, rfl⟩, fun _ ↦ rfl⟩
    · constructor
      · intro h
        cases h
      · rintro ⟨w', hw', heq⟩
        exact absurd (Option.some.inj heq ▸ hw') hmem

/-- **What the gate sees is all that it sees**, whatever the statement changes. -/
theorem SetStatement.classify_iff : classify σ.text = .write ↔ σ.Seen := by
  rw [classify_eq, SetStatement.Seen, ← trailingLexemes_iff]
  split_ifs with htrailing
  · exact ⟨fun _ ↦ .inr htrailing, fun _ ↦ rfl⟩
  · rw [σ.wordsFrom_text, classifyWords_set, SetStatement.firstWord]
    exact ⟨.inl, fun h ↦ h.resolve_right htrailing⟩

end Gate

/-! ## The first assignment -/

section First

variable {depth : ℤ} {ls rest : List Lexeme}

theorem splitCommas_ne_nil (depth : ℤ) (ls : List Lexeme) : splitCommas depth ls ≠ [] := by
  fun_induction splitCommas depth ls with
  | case1 => exact List.cons_ne_nil _ _
  | case2 => exact List.cons_ne_nil _ _
  | case3 depth l ls hcomma ih => rwa [ne_eq, List.modifyHead_eq_nil_iff]

/-- The pieces with the commas between them are the text. -/
theorem intercalate_splitCommas (depth : ℤ) (ls : List Lexeme) :
    List.intercalate [.byte (ch ',')] (splitCommas depth ls) = ls := by
  fun_induction splitCommas depth ls with
  | case1 => rfl
  | case2 depth l ls hcomma ih =>
    obtain ⟨a, as, hsplit⟩ := List.exists_cons_of_ne_nil (splitCommas_ne_nil depth ls)
    rw [hsplit] at ih ⊢
    rw [List.intercalate_cons_cons, ih, hcomma.2]
    rfl
  | case3 depth l ls hcomma ih =>
    obtain ⟨a, as, hsplit⟩ := List.exists_cons_of_ne_nil (splitCommas_ne_nil (depth + l.paren) ls)
    rw [hsplit] at ih ⊢
    rw [List.modifyHead_cons]
    cases as with
    | nil => rw [List.intercalate_singleton] at ih ⊢; rw [ih]
    | cons a' as =>
      rw [List.intercalate_cons_cons] at ih ⊢
      rw [List.cons_append, List.cons_append, ih]

/-- The first assignment is what the text starts with, up to its end or a comma. -/
theorem eq_append_of_head?_splitCommas {a : List Lexeme}
    (h : (splitCommas depth ls).head? = some a) :
    ∃ rest, ls = a ++ rest ∧ ∀ l ∈ rest.head?, l = .byte (ch ',') := by
  fun_induction splitCommas depth ls generalizing a with
  | case1 =>
    obtain rfl := Option.some.inj h
    exact ⟨[], rfl, fun l hl ↦ by cases hl⟩
  | case2 depth l ls hcomma ih =>
    obtain rfl := Option.some.inj h
    exact ⟨l :: ls, rfl, fun l' hl' ↦ (Option.some.inj hl').symm.trans hcomma.2⟩
  | case3 depth l ls hcomma ih =>
    rw [List.head?_modifyHead, Option.map_eq_some_iff] at h
    obtain ⟨a, ha, rfl⟩ := h
    obtain ⟨rest, rfl, hrest⟩ := ih ha
    exact ⟨rest, rfl, hrest⟩

theorem wordsOfLexemes_gap (h : ∀ l ∈ ls, l.isGap = true) :
    wordsOfLexemes depth (ls ++ rest) = wordsOfLexemes depth rest := by
  induction ls with
  | nil => rfl
  | cons l ls ih =>
    obtain ⟨hl, hls⟩ := List.forall_mem_cons.mp h
    rw [List.cons_append, ← ih hls]
    cases l with
    | opener t => rw [wordsOfLexemes]
    | block t | line t => rw [wordsOfLexemes]
    | quoted t => cases hl
    | byte c =>
      have hblank : ∀ l ∈ [Lexeme.byte c], l.isBlank = true := List.forall_mem_singleton.mpr hl
      exact wordsOfLexemes_blank hblank depth (ls ++ rest)

theorem head?_dropWhile_isIdent (ls : List Lexeme) (hrest : ∀ l ∈ rest.head?, l.isIdent = false) :
    ∀ l ∈ (ls.dropWhile Lexeme.isIdent ++ rest).head?, l.isIdent = false := by
  intro l hl
  cases hdrop : ls.dropWhile Lexeme.isIdent with
  | nil => exact hrest l (by rwa [hdrop] at hl)
  | cons l' ls' =>
    rw [hdrop] at hl
    obtain rfl : l' = l := Option.some.inj hl
    have hnot := List.head_dropWhile_not (p := Lexeme.isIdent) (l := ls) (by rw [hdrop]; simp)
    simpa only [hdrop, List.head_cons] using hnot

/-- A keyword at the head of a text is its first word. -/
theorem head?_wordsOfLexemes {kw : Bytes} (hkw : isKeyword kw = true) (h : identOf ls = kw)
    (hrest : ∀ l ∈ rest.head?, l.isIdent = false) :
    (wordsOfLexemes depth (ls ++ rest)).head? = some (kw, depth) := by
  obtain ⟨c, w, hword, hc, -, hw⟩ := keyword_bytes hkw h
  have hbytes : ls.takeWhile Lexeme.isIdent = (c :: w).map Lexeme.byte := by
    rw [← hword, List.map_map]
    refine (List.map_congr_left fun l hl ↦ ?_).trans (List.map_id _) |>.symm
    have hident := List.mem_takeWhile_imp hl
    cases l with
    | byte d => rfl
    | _ => cases hident
  have hls : ls ++ rest =
      .byte c :: (w.map Lexeme.byte ++ (ls.dropWhile Lexeme.isIdent ++ rest)) := by
    conv_lhs => rw [← List.takeWhile_append_dropWhile (p := Lexeme.isIdent) (l := ls), hbytes]
    rw [List.append_assoc, List.map_cons, List.cons_append]
  -- behind the keyword no byte of a name follows, so the word ends with it
  have hstop := head?_dropWhile_isIdent ls hrest
  have htake : (w.map Lexeme.byte ++ (ls.dropWhile Lexeme.isIdent ++ rest)).takeWhile
      Lexeme.isWord = w.map Lexeme.byte := by
    have hbyte : ∀ l ∈ w.map Lexeme.byte, l.isWord = true := List.forall_mem_map.mpr hw
    rw [List.takeWhile_append_of_pos hbyte]
    cases htail : ls.dropWhile Lexeme.isIdent ++ rest with
    | nil => exact List.append_nil _
    | cons l tail =>
      have hl : ¬l.isWord = true := by
        intro hl
        have hident := hstop l (by rw [htail]; rfl)
        cases l with
        | byte d =>
          have hd : isWordByte d = true := hl
          rw [Lexeme.isIdent, isUnquotedByte, hd, Bool.true_or] at hident
          cases hident
        | _ => cases hl
      rw [List.takeWhile_cons_of_neg hl, List.append_nil]
  obtain ⟨-, hopen, hclose⟩ := isWordStart_spec hc
  have hmap : (w.map Lexeme.byte).map Lexeme.wordByte = w := by
    rw [List.map_map]
    exact List.map_id w
  rw [hls, wordsOfLexemes, if_neg hopen, if_neg hclose, if_pos hc, htake, hmap, List.head?_cons,
    ← hword, ← h, identOf]

/-- The scope of the first assignment is the first word. -/
theorem head?_wordsOfLexemes_of_serverScoped {a : List Lexeme} (ha : ServerScoped a)
    (hrest : ∀ l ∈ rest.head?, l.isIdent = false) :
    ∃ w ∈ serverScopes, (wordsOfLexemes depth (a ++ rest)).head? = some (w, depth) := by
  have hkeyword : ∀ w ∈ serverScopes, isKeyword w = true := by decide
  have hgap : wordsOfLexemes depth (a.takeWhile Lexeme.isGap ++
      (a.dropWhile Lexeme.isGap ++ rest)) =
        wordsOfLexemes depth (a.dropWhile Lexeme.isGap ++ rest) :=
    wordsOfLexemes_gap fun l hl ↦ List.mem_takeWhile_imp hl
  rw [← List.append_assoc, List.takeWhile_append_dropWhile] at hgap
  rw [hgap]
  rcases ha with hscope | ⟨var, hvar, hscope, -⟩
  · exact ⟨_, hscope, head?_wordsOfLexemes (hkeyword _ hscope) rfl hrest⟩
  · refine ⟨_, hscope, ?_⟩
    rw [hvar, List.cons_append, List.cons_append, wordsOfLexemes, if_neg (by decide),
      if_neg (by decide), if_neg (by decide), wordsOfLexemes, if_neg (by decide),
      if_neg (by decide), if_neg (by decide)]
    exact head?_wordsOfLexemes (hkeyword _ hscope) rfl hrest

end First

/-- The gate sees the scope of the first assignment. -/
theorem SetStatement.seen_of_head? (σ : SetStatement) {a : List Lexeme}
    (hfirst : σ.assignments.head? = some a) (ha : ServerScoped a) : σ.Seen := by
  obtain ⟨rest, hlex, hrest⟩ := eq_append_of_head?_splitCommas hfirst
  have hcomma : ∀ l ∈ rest.head?, l.isIdent = false := by
    intro l hl
    rw [hrest l hl]
    decide
  obtain ⟨w, hw, hhead⟩ : ∃ w ∈ serverScopes,
      (wordsOfLexemes 0 (a ++ rest)).head? = some (w, 0) :=
    head?_wordsOfLexemes_of_serverScoped ha hcomma
  refine .inl ⟨w, List.mem_append_left _ hw, ?_⟩
  rw [SetStatement.firstWord, wordsFrom, hlex, hhead, Option.map_some]

/-! ## The embedded statement -/

/-- A second statement of `SET STATEMENT .. FOR` can only stand in what follows `FOR`. -/
theorem ForStatement.hasSecondStatement_text (f : ForStatement) :
    HasSecondStatement f.text ↔ HasSecondStatement f.body := by
  have hfor : isKeyword (ascii "for") = true := by decide
  obtain ⟨c, w, hk, -, hsep, -⟩ := keyword_bytes hfor f.isFor
  have hassignments (q : Bytes) : trailingLexemes false (lex (f.assignments ++ (f.keyword ++ q))) =
      trailingLexemes false (lex (f.keyword ++ q)) := by
    have hbefore := f.closed c (by rw [hk]; rfl)
    rw [hk, List.cons_append, hbefore.append hsep, trailingLexemes_of_not_mem f.single,
      lex_plain (isSeparator_spec hsep).1]
  rw [← trailingLexemes_iff, ← trailingLexemes_iff, ForStatement.text,
    f.gapTrivia.trailingLexemes_append, trailingLexemes_keyword (by decide) f.isStatement,
    hassignments, trailingLexemes_keyword hfor f.isFor, f.forGapTrivia.trailingLexemes_append]

/-- The gate sees a second statement behind `SET STATEMENT .. FOR`, and nothing else. -/
theorem SetStatement.seen_iff_of_for (σ : SetStatement) {f : ForStatement}
    (hf : f.text = σ.tail) : σ.Seen ↔ HasSecondStatement f.body := by
  have hword : σ.firstWord = some (ascii "statement") := by
    have hends : ∀ c ∈ (f.assignments ++ (f.keyword ++ (f.forGap ++ f.body))).head?,
        isUnquotedByte c = false := by
      rw [List.head?_append_of_ne_nil _ f.assignments_ne_nil]
      exact f.starts
    rw [SetStatement.firstWord, ← hf, ForStatement.text, f.gapTrivia.wordsFrom_append,
      wordsFrom_keyword (by decide) f.isStatement hends]
    rfl
  rw [SetStatement.Seen, σ.hasSecondStatement_text, ← hf, f.hasSecondStatement_text]
  refine or_iff_right ?_
  rintro ⟨w, hw, heq⟩
  rw [hword] at heq
  rw [← Option.some.inj heq] at hw
  exact absurd hw (by decide)

/-! ## The statements that are guarded -/

/-- **Which SET statements are guarded**: those that the gate sees, among all that change the
server. It sees the scope of the first assignment; of an embedded statement it sees no more than a
second statement behind that. -/
theorem SetStatement.guarded_iff (σ : SetStatement) :
    (σ.Guarded ↔ (σ.ChangesServer → σ.Seen)) ∧
      (∀ a, σ.assignments.head? = some a → ServerScoped a → σ.Seen) ∧
      ∀ f : ForStatement, f.text = σ.tail → (σ.Seen ↔ HasSecondStatement f.body) := by
  refine ⟨?_, fun a hfirst ha ↦ σ.seen_of_head? hfirst ha, fun f hf ↦ σ.seen_iff_of_for hf⟩
  rw [SetStatement.Guarded, σ.classify_iff]

/-- `SET a = 1, GLOBAL b = 2` -/
def secondScoped : SetStatement where
  lead := []
  keyword := ascii "SET"
  tail := ascii " a = 1, GLOBAL b = 2"
  leadTrivia := .nil
  isSet := by decide
  ends := by decide +kernel

/-- `STATEMENT v = 1 FOR DELETE FROM t` -/
def embeddedDelete : ForStatement where
  gap := ascii " "
  statement := ascii "STATEMENT"
  assignments := ascii " v = 1 "
  keyword := ascii "FOR"
  forGap := ascii " "
  body := ascii "DELETE FROM t"
  lexemes := (ascii " v = 1 ").map Lexeme.byte
  gapTrivia := .oneSpace
  gap_ne_nil := by decide
  isStatement := by decide
  assignments_ne_nil := by decide
  starts := by decide +kernel
  closed := by decide +kernel
  nested := by decide
  single := by decide
  isFor := by decide
  separate := by decide +kernel
  first := by decide +kernel
  forGapTrivia := .oneSpace
  ends := by decide +kernel

/-- `SET STATEMENT v = 1 FOR DELETE FROM t` -/
def embedsDelete : SetStatement where
  lead := []
  keyword := ascii "SET"
  tail := embeddedDelete.text
  leadTrivia := .nil
  isSet := by decide
  ends := by decide +kernel

theorem SetStatement.not_guarded :
    (secondScoped.text = ascii "SET a = 1, GLOBAL b = 2" ∧ ¬secondScoped.Guarded) ∧
      (embedsDelete.text = ascii "SET STATEMENT v = 1 FOR DELETE FROM t" ∧
        ¬embedsDelete.Guarded) := by
  refine ⟨⟨by decide, fun h ↦ ?_⟩, ⟨by decide, fun h ↦ ?_⟩⟩
  · have hscoped : ∃ a ∈ secondScoped.assignments, ServerScoped a :=
      ⟨(ascii " GLOBAL b = 2").map Lexeme.byte, by decide +kernel, .inl (by decide)⟩
    exact absurd (h (.inl hscoped)) (by decide +kernel)
  · have hwrite : classify embeddedDelete.body = .write := by decide +kernel
    exact absurd (h (.inr ⟨embeddedDelete, rfl, hwrite⟩)) (by decide +kernel)

end SqlReplay
