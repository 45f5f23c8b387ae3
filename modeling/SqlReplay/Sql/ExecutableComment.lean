import SqlReplay.Sql.Delimited

/-!
# Executable comments and the write gate

MySQL runs the interior of `/*! ... */`, so to the server a statement with executable comments is
the statement in which their delimiters are blanks. Here that statement is built by cutting the
text into pieces and putting a blank in the place of each delimiter, and the classifier is compared
on the two.

The blank is one space, with one exception: a space right behind two dashes would open a line
comment, and the interior would not be kept. There the blank is an empty comment; what follows from
a space is said too.

The cut keeps the number of executable comments that are open, since only inside one is `*/` a
delimiter. The scanners of the classifier keep no such number and pass over `*/` as two bytes of
code. `firstMisreading` finds the first place where they go wrong with that.

* Behind a semicolon the `*/` is taken for a second statement.
* Before a `*` its slash is taken for the start of a comment, which hides what follows.

`gate_inlineExecutableComments` says of every statement whether its class is that of the inlined
statement: it is if nothing is misread, and otherwise under the condition `DelimitersRead`.
-/

namespace SqlReplay

/-! ## Pieces -/

/-- A lexeme, or the `*/` that closes an executable comment. -/
inductive Piece where
  | lexeme (l : Lexeme)
  | closer
  deriving DecidableEq, Repr

namespace Piece

/-- The bytes of a piece. -/
def text : Piece → Bytes
  | lexeme l => l.text
  | closer => [ch '*', ch '/']

/-- The delimiters of executable comments. -/
def isDelimiter : Piece → Bool
  | lexeme (.opener _) | closer => true
  | lexeme _ => false

/-- How many dashes of code stand right in front of what follows a piece. -/
def dashesAfter (dashes : ℕ) : Piece → ℕ
  | lexeme (.byte c) => if c = ch '-' then dashes + 1 else 0
  | _ => 0

end Piece

/-- The number of open executable comments behind a lexeme. -/
def depthAfter (depth : ℕ) : Lexeme → ℕ
  | .opener _ => depth + 1
  | _ => depth

/-- The pieces of a text that starts inside `depth` executable comments. -/
def pieces (depth : ℕ) : Bytes → List Piece
  | [] => []
  | c :: rest =>
    if 0 < depth ∧ c = ch '*' ∧ rest.head? = some (ch '/') then
      .closer :: pieces (depth - 1) (rest.drop 1)
    else
      .lexeme (lexStep c rest).1 ::
        pieces (depthAfter depth (lexStep c rest).1) (lexStep c rest).2
termination_by b => b.length
decreasing_by
  · simp only [List.length_drop, List.length_cons]
    omega
  · exact lexStep_length c rest

@[simp] theorem pieces_nil (depth : ℕ) : pieces depth [] = [] := by rw [pieces]

theorem pieces_closer {depth : ℕ} {rest : Bytes} (h : 0 < depth) :
    pieces depth (ch '*' :: ch '/' :: rest) = .closer :: pieces (depth - 1) rest := by
  rw [pieces, if_pos ⟨h, rfl, rfl⟩, List.drop_succ_cons, List.drop_zero]

theorem pieces_lexeme {depth : ℕ} {c : UInt8} {rest : Bytes}
    (h : ¬ (0 < depth ∧ c = ch '*' ∧ rest.head? = some (ch '/'))) :
    pieces depth (c :: rest) =
      .lexeme (lexStep c rest).1 ::
        pieces (depthAfter depth (lexStep c rest).1) (lexStep c rest).2 := by
  rw [pieces, if_neg h]

/-- The induction along the pieces of a text. -/
theorem pieces_induction {motive : ℕ → Bytes → Prop} (nil : ∀ depth, motive depth [])
    (closer : ∀ depth rest, 0 < depth → motive (depth - 1) rest →
      motive depth (ch '*' :: ch '/' :: rest))
    (lexeme : ∀ depth c rest, ¬ (0 < depth ∧ c = ch '*' ∧ rest.head? = some (ch '/')) →
      motive (depthAfter depth (lexStep c rest).1) (lexStep c rest).2 → motive depth (c :: rest))
    (depth : ℕ) (b : Bytes) : motive depth b := by
  fun_induction pieces depth b with
  | case1 depth => exact nil depth
  | case2 depth c rest h ih =>
    obtain ⟨hdepth, rfl, hslash⟩ := h
    obtain ⟨r, rfl⟩ := List.head?_eq_some_iff.mp hslash
    exact closer depth r hdepth ih
  | case3 depth c rest h ih => exact lexeme depth c rest h ih

/-- Cutting loses nothing. -/
theorem flatMap_text_pieces (depth : ℕ) (b : Bytes) :
    (pieces depth b).flatMap Piece.text = b := by
  induction depth, b using pieces_induction with
  | nil depth => rw [pieces_nil, List.flatMap_nil]
  | closer depth rest h ih => rw [pieces_closer h, List.flatMap_cons, ih]; rfl
  | lexeme depth c rest h ih =>
    rw [pieces_lexeme h, List.flatMap_cons, ih]
    exact lexStep_text c rest

/-! ## The inlined statement -/

/-- The blank in the place of a delimiter: a space, or an empty comment if the space would open a
line comment with the dashes in front of it. -/
def blankAt (dashes : ℕ) : Lexeme :=
  if 2 ≤ dashes then .block (ascii "/**/") else .byte (ch ' ')

/-- The lexeme that stands for a piece in the inlined statement. -/
def Piece.inlineAt (dashes : ℕ) : Piece → Lexeme
  | lexeme (.opener _) | closer => blankAt dashes
  | lexeme l => l

/-- The lexemes of the inlined statement, behind some dashes. -/
def inlineLexemes (dashes : ℕ) : List Piece → List Lexeme
  | [] => []
  | p :: ps => p.inlineAt dashes :: inlineLexemes (p.dashesAfter dashes) ps

/-- A statement with its executable comments inlined. -/
def inlineExecutableComments (q : Bytes) : Bytes :=
  (inlineLexemes 0 (pieces 0 q)).flatMap Lexeme.text

/-- A statement with one space for each delimiter, wherever it stands. -/
def spaceDelimiters (q : Bytes) : Bytes :=
  (pieces 0 q).flatMap fun p ↦ if p.isDelimiter then [ch ' '] else p.text

/-- A delimiter stands right behind two dashes of code. -/
def delimiterBehindDashes (dashes : ℕ) : List Piece → Bool
  | [] => false
  | p :: ps =>
    (p.isDelimiter && decide (2 ≤ dashes)) || delimiterBehindDashes (p.dashesAfter dashes) ps

theorem inlineAt_of_isDelimiter {p : Piece} (h : p.isDelimiter = true) (dashes : ℕ) :
    p.inlineAt dashes = blankAt dashes := by
  match p with
  | .lexeme (.opener _) | .closer => rfl

theorem eq_lexeme_of_not_isDelimiter {p : Piece} (h : p.isDelimiter = false) (dashes : ℕ) :
    p = .lexeme (p.inlineAt dashes) := by
  match p with
  | .lexeme (.block _) | .lexeme (.line _) | .lexeme (.quoted _) | .lexeme (.byte _) => rfl

/-- Wherever a space keeps the interior, each delimiter is replaced by one space. -/
theorem inlineExecutableComments_eq_space {q : Bytes}
    (h : delimiterBehindDashes 0 (pieces 0 q) = false) :
    inlineExecutableComments q = spaceDelimiters q := by
  rw [inlineExecutableComments, spaceDelimiters]
  revert h
  generalize pieces 0 q = ps
  generalize (0 : ℕ) = dashes
  induction ps generalizing dashes with
  | nil => exact fun _ ↦ rfl
  | cons p ps ih =>
    intro h
    rw [delimiterBehindDashes, Bool.or_eq_false_iff] at h
    rw [inlineLexemes, List.flatMap_cons, List.flatMap_cons, ih _ h.2]
    congr 1
    split_ifs with hp
    · rw [hp, Bool.true_and, decide_eq_false_iff_not] at h
      rw [inlineAt_of_isDelimiter hp, blankAt, if_neg h.1]
      rfl
    · conv_rhs => rw [eq_lexeme_of_not_isDelimiter (Bool.eq_false_iff.mpr hp) dashes]
      rfl

/-! ## What the scanners see of the inlined statement -/

/-- The text of the inlined statement, behind some dashes. -/
def inlineText (dashes depth : ℕ) (b : Bytes) : Bytes :=
  (inlineLexemes dashes (pieces depth b)).flatMap Lexeme.text

@[simp] theorem inlineText_nil (dashes depth : ℕ) : inlineText dashes depth [] = [] := by
  rw [inlineText, pieces_nil, inlineLexemes, List.flatMap_nil]

theorem text_lexStep (c : UInt8) (rest : Bytes) : (lexStep c rest).1.text.head? = some c := by
  have htext := lexStep_text c rest
  cases h : (lexStep c rest).1.text with
  | nil =>
    rw [h, List.nil_append] at htext
    have hlen := lexStep_length c rest
    rw [htext] at hlen
    exact absurd hlen (lt_irrefl _)
  | cons d p =>
    rw [h] at htext
    exact congrArg some (List.cons.inj htext).1

/-- The first piece of a text starts with the first byte of the text, and a delimiter starts with a
slash or a star. -/
theorem exists_pieces_cons (depth : ℕ) (c : UInt8) (rest : Bytes) :
    ∃ p ps, pieces depth (c :: rest) = p :: ps ∧ p.text.head? = some c ∧
      (p.isDelimiter = true → c = ch '/' ∨ c = ch '*') := by
  rw [pieces]
  split_ifs with h
  · exact ⟨_, _, rfl, by rw [h.2.1]; rfl, fun _ ↦ .inr h.2.1⟩
  · refine ⟨_, _, rfl, text_lexStep c rest, fun hd ↦ .inl ?_⟩
    revert hd
    rw [lexStep]
    split_ifs with hb <;> simp only [Piece.isDelimiter, Bool.false_eq_true, false_imp_iff]
    simp only [opensBlockComment, Bool.and_eq_true, beq_iff_eq] at hb
    exact fun _ ↦ hb.1

theorem blankAt_text_head (dashes : ℕ) :
    (blankAt dashes).text.head? = some (if 2 ≤ dashes then ch '/' else ch ' ') := by
  rw [blankAt]
  split_ifs
  · rfl
  · rfl

/-- Inlining changes the first byte of a text only at a delimiter. -/
theorem head?_inlineText (dashes depth : ℕ) (c : UInt8) (rest : Bytes) :
    (inlineText dashes depth (c :: rest)).head? = some c ∨
      ((c = ch '/' ∨ c = ch '*') ∧ (inlineText dashes depth (c :: rest)).head? =
        some (if 2 ≤ dashes then ch '/' else ch ' ')) := by
  obtain ⟨p, ps, hps, hp, hdelimiter⟩ := exists_pieces_cons depth c rest
  rw [inlineText, hps, inlineLexemes, List.flatMap_cons]
  cases hd : p.isDelimiter with
  | true =>
    refine .inr ⟨hdelimiter hd, ?_⟩
    have hhead := blankAt_text_head dashes
    rw [inlineAt_of_isDelimiter hd, List.head?_append, hhead]
    rfl
  | false =>
    rw [eq_lexeme_of_not_isDelimiter hd dashes] at hp
    change (p.inlineAt dashes).text.head? = _ at hp
    rw [List.head?_append, hp]
    exact .inl rfl

theorem continues_inlineText {dashes : ℕ} (h : dashes < 2) (depth : ℕ) (b : Bytes) :
    Continues b (inlineText dashes depth b) where
  nil := by rintro rfl; exact inlineText_nil dashes depth
  head x hx := by
    obtain ⟨rest, rfl⟩ := List.head?_eq_some_iff.mp hx
    rcases head?_inlineText dashes depth x rest with hhead | ⟨hx, hhead⟩
    · exact .inl hhead
    · rw [if_neg (Nat.not_le.mpr h)] at hhead
      exact .inr ⟨hhead, hx⟩

/-- A dash of code stays one: two dashes never come to stand before a blank. -/
theorem lexStep_dash_inlineText {rest : Bytes}
    (hstep : lexStep (ch '-') rest = (.byte (ch '-'), rest)) (dashes depth : ℕ) :
    lexStep (ch '-') (inlineText (dashes + 1) depth rest) =
      (.byte (ch '-'), inlineText (dashes + 1) depth rest) := by
  have hcode (t : Bytes) : ¬opensBlockComment (ch '-') t := by simp [opensBlockComment, ch]
  have hopens : ¬opensLineComment (ch '-') rest := by
    intro hl
    rw [lexStep, if_neg (hcode rest), if_pos hl] at hstep
    cases congrArg Prod.fst hstep
  rw [lexStep, if_neg (hcode _), if_neg _, if_neg (by decide)]
  intro hl
  have hsecond : (inlineText (dashes + 1) depth rest).head? = some (ch '-') ∧
      (inlineText (dashes + 1) depth rest).tail.head?.all isAsciiWhitespace = true := by
    simpa [opensLineComment, ch] using hl
  -- the second dash stood in the text, and it is followed by what followed it there
  cases rest with
  | nil => rw [inlineText_nil] at hsecond; cases hsecond.1
  | cons c rest =>
    obtain rfl : c = ch '-' := by
      rcases head?_inlineText (dashes + 1) depth c rest with hhead | ⟨-, hhead⟩
      · rw [hhead] at hsecond
        exact Option.some.inj hsecond.1
      · rw [hhead] at hsecond
        split_ifs at hsecond <;> exact absurd (Option.some.inj hsecond.1) (by decide)
    have hpieces := @pieces_lexeme depth (ch '-') rest fun hc ↦ absurd hc.2.1 (by decide)
    by_cases hl' : opensLineComment (ch '-') rest
    · -- the second dash opens a line comment, which is kept whole
      have hstep' : lexStep (ch '-') rest =
          (.line (consumed (ch '-' :: rest) (skipLineComment rest)), skipLineComment rest) := by
        rw [lexStep, if_neg (hcode rest), if_pos hl']
      have hdash : rest.head? = some (ch '-') := by
        simp only [opensLineComment, Bool.or_eq_true, Bool.and_eq_true, beq_iff_eq] at hl'
        rcases hl' with hl' | hl'
        · exact absurd hl' (by decide)
        · exact hl'.1.2
      obtain ⟨r, rfl⟩ := List.head?_eq_some_iff.mp hdash
      have hskip : skipLineComment (ch '-' :: r) = skipLineComment r := by
        rw [skipLineComment, List.dropWhile_cons_of_pos (by decide), skipLineComment]
      have htail : (inlineText (dashes + 1) depth (ch '-' :: ch '-' :: r)).tail.head? =
          (ch '-' :: r).head? := by
        rw [inlineText, hpieces, hstep', inlineLexemes, List.flatMap_cons]
        refine tail_head?_append (a := ch '-') (v := skipLineComment (ch '-' :: r)) (w := r) ?_ ?_ _
        · exact consumed_append ((skipLineComment_suffix _).trans (List.suffix_cons _ _))
        · rw [hskip]
          exact (skipLineComment_suffix r).length_le
      rw [htail] at hsecond
      have hspace : isAsciiWhitespace (ch '-') = true := hsecond.2
      exact absurd hspace (by decide)
    · have hstep' : lexStep (ch '-') rest = (.byte (ch '-'), rest) := by
        rw [lexStep, if_neg (hcode rest), if_neg hl', if_neg (by decide)]
      rw [hstep'] at hpieces
      have htail : (inlineText (dashes + 1) depth (ch '-' :: rest)).tail =
          inlineText (dashes + 2) depth rest := by
        rw [inlineText, hpieces]
        rfl
      rw [htail] at hsecond
      cases rest with
      | nil => exact hopens (by decide)
      | cons d rest =>
        rcases head?_inlineText (dashes + 2) depth d rest with hhead | ⟨-, hhead⟩
        · rw [hhead] at hsecond
          refine hopens ?_
          simpa [opensLineComment, ch] using hsecond.2
        · rw [hhead, if_pos (Nat.le_add_left 2 dashes)] at hsecond
          exact absurd hsecond.2 (by decide)

theorem lex_blankAt (dashes : ℕ) (t : Bytes) :
    lex ((blankAt dashes).text ++ t) = blankAt dashes :: lex t := by
  rw [blankAt]
  split_ifs
  · exact @lex_blockComment [] (by decide) (by decide) t
  · exact lex_plain (by decide) t

/-- **The inlined statement as the scanners see it.** -/
theorem lex_inlineText (dashes depth : ℕ) (b : Bytes) :
    lex (inlineText dashes depth b) = inlineLexemes dashes (pieces depth b) := by
  induction depth, b using pieces_induction generalizing dashes with
  | nil depth => rw [inlineText_nil, pieces_nil, lex_nil, inlineLexemes]
  | closer depth rest hdepth ih =>
    rw [inlineText, pieces_closer hdepth, inlineLexemes, List.flatMap_cons]
    exact (lex_blankAt dashes _).trans (congrArg _ (ih 0))
  | lexeme depth c rest hc ih =>
    rw [inlineText, pieces_lexeme hc, inlineLexemes, List.flatMap_cons]
    generalize hdashes : (Piece.lexeme (lexStep c rest).1).dashesAfter dashes = dashes'
    refine Eq.trans ?_ (congrArg _ (ih dashes'))
    change lex (_ ++ inlineText dashes' _ _) = _
    by_cases hd : (Piece.lexeme (lexStep c rest).1).isDelimiter
    · rw [inlineAt_of_isDelimiter hd]
      exact lex_blankAt dashes _
    · have hinl := eq_lexeme_of_not_isDelimiter (Bool.eq_false_iff.mpr hd) dashes
      rw [← Piece.lexeme.inj hinl]
      by_cases hbyte : ∃ d, (lexStep c rest).1 = .byte d
      · obtain ⟨d, hbyte⟩ := hbyte
        have hstep := lexStep_eq_byte hbyte
        rw [hstep] at hdashes ⊢
        rw [Lexeme.text, List.singleton_append, lex_cons]
        by_cases hdash : c = ch '-'
        · -- the only byte of code whose lexeme depends on more than the byte behind it
          rw [hdash] at hstep hdashes ⊢
          obtain rfl : dashes + 1 = dashes' := hdashes
          rw [lexStep_dash_inlineText hstep]
        · obtain rfl : 0 = dashes' := by
            rw [← hdashes, Piece.dashesAfter, if_neg hdash]
          rw [lexStep_byte_append hstep (continues_inlineText Nat.two_pos _ _)
            fun hc ↦ absurd hc hdash]
      · obtain rfl : 0 = dashes' := by
          rw [← hdashes]
          cases hl : (lexStep c rest).1 with
          | byte d => exact absurd ⟨d, hl⟩ hbyte
          | _ => rfl
        refine lex_text_append (fun x hx ↦ hd ?_) (fun d hd ↦ hbyte ⟨d, hd⟩)
          (continues_inlineText Nat.two_pos _ _)
        rw [hx]
        rfl

/-! ## Lexemes with the same words -/

/-- A lexeme that starts no word and is no parenthesis. -/
def Lexeme.isSilent : Lexeme → Bool
  | .byte c => c != ch '(' && c != ch ')' && !isWordStart c
  | _ => true

/-- What can stand between two words: it ends the first, and the word scanner passes over it. -/
structure IsGap (g : List Lexeme) : Prop where
  ends : ∃ l ∈ g.head?, l.isWord = false
  silent : ∀ l ∈ g, l.isSilent = true

/-- The lexemes differ only in what stands between the words. -/
inductive SameWords : List Lexeme → List Lexeme → Prop
  | nil : SameWords [] []
  | cons (l : Lexeme) {ls ls' : List Lexeme} (h : SameWords ls ls') : SameWords (l :: ls) (l :: ls')
  | gap {g g' ls ls' : List Lexeme} (hg : IsGap g) (hg' : IsGap g') (h : SameWords ls ls') :
    SameWords (g ++ ls) (g' ++ ls')

section SameWords

variable {g ls ls' : List Lexeme}

theorem SameWords.refl (ls : List Lexeme) : SameWords ls ls := by
  induction ls with
  | nil => exact .nil
  | cons l ls ih => exact .cons l ih

theorem wordsOfLexemes_silent (h : ∀ l ∈ g, l.isSilent = true) (depth : ℤ) (ls : List Lexeme) :
    wordsOfLexemes depth (g ++ ls) = wordsOfLexemes depth ls := by
  induction g with
  | nil => rfl
  | cons l g ih =>
    obtain ⟨hl, hg⟩ := List.forall_mem_cons.mp h
    rw [List.cons_append]
    cases l with
    | byte c =>
      simp only [Lexeme.isSilent, Bool.and_eq_true, bne_iff_ne, Bool.not_eq_true'] at hl
      rw [wordsOfLexemes, if_neg hl.1.1, if_neg hl.1.2,
        if_neg (by rw [hl.2]; exact Bool.false_ne_true), ih hg]
    | _ => rw [wordsOfLexemes, ih hg]

/-- A gap ends a word where it begins. -/
theorem IsGap.run (h : IsGap g) (ls : List Lexeme) :
    (g ++ ls).takeWhile Lexeme.isWord = [] ∧ (g ++ ls).dropWhile Lexeme.isWord = g ++ ls := by
  obtain ⟨l, hl, hword⟩ := h.ends
  obtain ⟨g, rfl⟩ := List.head?_eq_some_iff.mp hl
  have hstop : ¬l.isWord = true := by rw [hword]; exact Bool.false_ne_true
  exact ⟨List.takeWhile_cons_of_neg hstop, List.dropWhile_cons_of_neg hstop⟩

theorem SameWords.run (h : SameWords ls ls') :
    ls.takeWhile Lexeme.isWord = ls'.takeWhile Lexeme.isWord ∧
      SameWords (ls.dropWhile Lexeme.isWord) (ls'.dropWhile Lexeme.isWord) := by
  induction h with
  | nil => exact ⟨rfl, .nil⟩
  | @cons l ls ls' h ih =>
    by_cases hword : l.isWord = true
    · rw [List.takeWhile_cons_of_pos hword, List.takeWhile_cons_of_pos hword,
        List.dropWhile_cons_of_pos hword, List.dropWhile_cons_of_pos hword, ih.1]
      exact ⟨rfl, ih.2⟩
    · rw [List.takeWhile_cons_of_neg hword, List.takeWhile_cons_of_neg hword,
        List.dropWhile_cons_of_neg hword, List.dropWhile_cons_of_neg hword]
      exact ⟨rfl, .cons l h⟩
  | @gap g g' ls ls' hg hg' h _ =>
    rw [(hg.run ls).1, (hg'.run ls').1, (hg.run ls).2, (hg'.run ls').2]
    exact ⟨rfl, .gap hg hg' h⟩

theorem SameWords.words (h : SameWords ls ls') (depth : ℤ) :
    wordsOfLexemes depth ls = wordsOfLexemes depth ls' := by
  -- strong induction: a word removes any number of lexemes at once
  induction hn : ls.length using Nat.strong_induction_on generalizing depth ls ls' with
  | _ n ih =>
  subst hn
  cases h with
  | nil => rfl
  | @gap g g' ls ls' hg hg' h =>
    obtain ⟨l, hl, -⟩ := hg.ends
    obtain ⟨g, rfl⟩ := List.head?_eq_some_iff.mp hl
    rw [wordsOfLexemes_silent hg.silent, wordsOfLexemes_silent hg'.silent]
    refine ih ls.length ?_ h depth rfl
    rw [List.length_append, List.length_cons]
    omega
  | @cons l ls ls' h =>
    have htail (depth : ℤ) := ih ls.length (Nat.lt_succ_self _) h depth rfl
    cases l with
    | byte c =>
      obtain ⟨htake, hdrop⟩ := h.run
      rw [wordsOfLexemes, wordsOfLexemes, htake, htail, htail, htail,
        ih _ (Nat.lt_succ_of_le (List.dropWhile_suffix _).length_le) hdrop depth rfl]
    | _ => rw [wordsOfLexemes, wordsOfLexemes, htail]

end SameWords

/-! ## Misread delimiters -/

/-- A slash in front of the text opens an ordinary comment. -/
def opensHidden (after : Bytes) : Bool := opensBlockComment (ch '/') after && !opensExecutable after

/-- What the scanners take the `*/` of an executable comment for. -/
inductive Misreading where
  /-- A second statement. -/
  | statement
  /-- The start of a comment, behind some pieces. -/
  | comment (front : List Piece)
  deriving DecidableEq, Repr

/-- The misreading comes behind a piece. -/
def Misreading.behind (p : Piece) : Misreading → Misreading
  | statement => statement
  | comment front => comment (p :: front)

/-- The multi-statement check behind a lexeme, unless the lexeme is a second statement. -/
def afterLexeme (afterSemicolon : Bool) : Lexeme → Option Bool
  | .opener _ | .block _ | .line _ => some afterSemicolon
  | .quoted _ => if afterSemicolon then none else some false
  | .byte c =>
    if isAsciiWhitespace c then some afterSemicolon
    else if c = ch ';' then some true
    else if afterSemicolon then none else some false

/-- The first `*/` that is misread, unless a second statement is found in front of it. -/
def firstMisreading (afterSemicolon : Bool) : List Piece → Option Misreading
  | [] => none
  | .closer :: ps =>
    if afterSemicolon then some .statement
    else if opensHidden (ps.flatMap Piece.text) then some (.comment [])
    else (firstMisreading false ps).map (.behind .closer)
  | .lexeme l :: ps =>
    (afterLexeme afterSemicolon l).bind fun a ↦
      (firstMisreading a ps).map (.behind (.lexeme l))

/-- The inlined statement up to the first `*/` that starts a comment to the scanners, and what they
find behind that comment. -/
def cutLexemes (dashes : ℕ) : List Piece → List Lexeme
  | [] => []
  | .closer :: ps =>
    if opensHidden (ps.flatMap Piece.text) then
      .byte (ch ' ') :: lex (skipBlockComment ((ps.flatMap Piece.text).drop 1))
    else blankAt dashes :: cutLexemes 0 ps
  | .lexeme l :: ps =>
    (Piece.lexeme l).inlineAt dashes :: cutLexemes ((Piece.lexeme l).dashesAfter dashes) ps

/-! ## What the scanners see of a statement -/

section Closer

variable {depth : ℕ} {rest : Bytes}

theorem lex_star_slash (rest : Bytes) :
    lex (ch '*' :: ch '/' :: rest) = .byte (ch '*') :: lex (ch '/' :: rest) := by
  rw [lex_cons, lexStep, if_neg (by simp [opensBlockComment, ch]),
    if_neg (by simp [opensLineComment, ch]), if_neg (by decide)]

theorem lex_closer (h : opensBlockComment (ch '/') rest = false) :
    lex (ch '*' :: ch '/' :: rest) = .byte (ch '*') :: .byte (ch '/') :: lex rest := by
  rw [lex_star_slash, lex_cons, lexStep, if_neg (by rw [h]; exact Bool.false_ne_true),
    if_neg (by simp [opensLineComment, ch]), if_neg (by decide)]

theorem lex_closer_opener (r : Bytes) : ∃ t,
    lex (ch '*' :: ch '/' :: ch '*' :: ch '!' :: r) =
      .byte (ch '*') :: .opener t :: lex (skipVersionDigits r) := by
  have hopens : opensBlockComment (ch '/') (ch '*' :: ch '!' :: r) = true := rfl
  have hexec : opensExecutable (ch '*' :: ch '!' :: r) = true := rfl
  rw [lex_star_slash, lex_cons, lexStep, if_pos hopens, if_pos hexec]
  exact ⟨_, rfl⟩

theorem lex_closer_hidden (h : opensHidden rest = true) : ∃ t,
    lex (ch '*' :: ch '/' :: rest) =
      .byte (ch '*') :: .block t :: lex (skipBlockComment (rest.drop 1)) := by
  rw [opensHidden, Bool.and_eq_true, Bool.not_eq_true'] at h
  rw [lex_star_slash, lex_cons, lexStep, if_pos h.1,
    if_neg (by rw [h.2]; exact Bool.false_ne_true)]
  exact ⟨_, rfl⟩

/-- The induction along the pieces of a text, by what the scanners make of a `*/`. -/
theorem scan_induction {motive : ℕ → Bytes → Prop} (nil : ∀ depth, motive depth [])
    (hidden : ∀ depth rest, 0 < depth → opensHidden rest = true →
      motive depth (ch '*' :: ch '/' :: rest))
    (opener : ∀ depth r, 0 < depth → motive (depth - 1) (skipVersionDigits r) →
      motive depth (ch '*' :: ch '/' :: ch '*' :: ch '!' :: r))
    (closer : ∀ depth rest, 0 < depth → opensBlockComment (ch '/') rest = false →
      motive (depth - 1) rest → motive depth (ch '*' :: ch '/' :: rest))
    (lexeme : ∀ depth c rest, ¬ (0 < depth ∧ c = ch '*' ∧ rest.head? = some (ch '/')) →
      motive (depthAfter depth (lexStep c rest).1) (lexStep c rest).2 → motive depth (c :: rest))
    (depth : ℕ) (b : Bytes) : motive depth b := by
  induction hn : b.length using Nat.strong_induction_on generalizing depth b with
  | _ n ih =>
  subst hn
  cases b with
  | nil => exact nil depth
  | cons c rest =>
    by_cases hc : 0 < depth ∧ c = ch '*' ∧ rest.head? = some (ch '/')
    · obtain ⟨hdepth, rfl, hslash⟩ := hc
      obtain ⟨rest, rfl⟩ := List.head?_eq_some_iff.mp hslash
      cases hopens : opensBlockComment (ch '/') rest with
      | false =>
        exact closer depth rest hdepth hopens
          (ih rest.length ((Nat.lt_succ_self _).trans (Nat.lt_succ_self _)) _ _ rfl)
      | true =>
        cases hexec : opensExecutable rest with
        | false => exact hidden depth rest hdepth (by rw [opensHidden, hopens, hexec]; rfl)
        | true =>
          obtain ⟨r, rfl⟩ : ∃ r, rest = ch '*' :: ch '!' :: r := by
            obtain ⟨r, rfl⟩ := List.head?_eq_some_iff.mp
              (beq_iff_eq.mp (Bool.and_eq_true_iff.mp hopens).2)
            obtain ⟨r, rfl⟩ := List.head?_eq_some_iff.mp (beq_iff_eq.mp hexec)
            exact ⟨r, rfl⟩
          refine opener depth r hdepth (ih _ ?_ _ _ rfl)
          have hle := (skipVersionDigits_suffix r).length_le
          simp only [List.length_cons]
          omega
    · exact lexeme depth c rest hc (ih _ (lexStep_length c rest) _ _ rfl)

/-- A byte of code that is no dash and that no scanner takes notice of. -/
def isNeutral (c : UInt8) : Bool :=
  (Lexeme.byte c).isSilent && !isAsciiWhitespace c && c != ch ';' && c != ch '-'

/-- The piece of a byte of code. -/
def bytePiece (c : UInt8) : Piece := .lexeme (.byte c)

theorem isNeutral_starBang (r : Bytes) :
    ∀ c ∈ ch '*' :: ch '!' :: r.takeWhile isAsciiDigit, isNeutral c = true := by
  have hdigit := forall_byte (p := fun c ↦ isAsciiDigit c = true → isNeutral c = true) (by decide)
  refine List.forall_mem_cons.mpr ⟨by decide, List.forall_mem_cons.mpr ⟨by decide, fun c hc ↦ ?_⟩⟩
  exact hdigit c (List.mem_takeWhile_imp hc)

/-- A star in front of an exclamation mark closes nothing, and neither do the digits behind. -/
theorem pieces_starBang (depth : ℕ) (r : Bytes) :
    pieces depth (ch '*' :: ch '!' :: r) =
      (ch '*' :: ch '!' :: r.takeWhile isAsciiDigit).map bytePiece ++
        pieces depth (skipVersionDigits r) := by
  have hcode {c : UInt8} (hc : isPlain c = true ∧ c ≠ ch '*') (r : Bytes) :
      pieces depth (c :: r) = bytePiece c :: pieces depth r := by
    obtain ⟨hblock, hline, hquote⟩ := opensNothing_of_isPlain hc.1 r
    rw [pieces_lexeme fun h ↦ hc.2 h.2.1, lexStep, if_neg hblock, if_neg hline, if_neg hquote]
    rfl
  have hdigit := forall_byte
    (p := fun c ↦ isAsciiDigit c = true → isPlain c = true ∧ c ≠ ch '*') (by decide)
  have hdigits (r : Bytes) : pieces depth r =
      (r.takeWhile isAsciiDigit).map bytePiece ++ pieces depth (skipVersionDigits r) := by
    induction r with
    | nil => rfl
    | cons c r ih =>
      rw [skipVersionDigits]
      by_cases hc : isAsciiDigit c = true
      · rw [List.takeWhile_cons_of_pos hc, List.dropWhile_cons_of_pos hc, hcode (hdigit c hc), ih]
        rfl
      · rw [List.takeWhile_cons_of_neg hc, List.dropWhile_cons_of_neg hc]
        rfl
  have hstar : lexStep (ch '*') (ch '!' :: r) = (.byte (ch '*'), ch '!' :: r) := by
    rw [lexStep, if_neg (by simp [opensBlockComment, ch]),
      if_neg (by simp [opensLineComment, ch]), if_neg (by decide)]
  have hbang : (ch '!' :: r).head? ≠ some (ch '/') := by simp [ch]
  rw [pieces_lexeme fun h ↦ hbang h.2.2, hstar]
  change bytePiece (ch '*') :: pieces depth (ch '!' :: r) = _
  rw [hcode ⟨by decide, by decide⟩, hdigits r]
  rfl

end Closer

section Cut

variable {w : Bytes} {ps : List Piece}

theorem dashesAfter_bytePiece {c : UInt8} (hc : isNeutral c = true) (dashes : ℕ) :
    (bytePiece c).dashesAfter dashes = 0 := by
  simp only [isNeutral, Bool.and_eq_true, bne_iff_ne] at hc
  exact if_neg hc.2

theorem cutLexemes_bytes (hw : ∀ c ∈ w, isNeutral c = true) (ps : List Piece) :
    cutLexemes 0 (w.map bytePiece ++ ps) = w.map Lexeme.byte ++ cutLexemes 0 ps := by
  induction w with
  | nil => rfl
  | cons c w ih =>
    obtain ⟨hc, hrest⟩ := List.forall_mem_cons.mp hw
    rw [List.map_cons, List.cons_append]
    change _ :: cutLexemes ((bytePiece c).dashesAfter 0) _ = _
    rw [dashesAfter_bytePiece hc, ih hrest]
    rfl

theorem isSilent_blankAt (dashes : ℕ) : (blankAt dashes).isSilent = true ∧
    (blankAt dashes).isWord = false := by
  rw [blankAt]
  split_ifs
  · exact ⟨rfl, rfl⟩
  · exact ⟨rfl, rfl⟩

theorem isGap_blankAt (dashes : ℕ) {g : List Lexeme} (hg : ∀ l ∈ g, l.isSilent = true) :
    IsGap (blankAt dashes :: g) :=
  ⟨⟨_, rfl, (isSilent_blankAt dashes).2⟩,
    List.forall_mem_cons.mpr ⟨(isSilent_blankAt dashes).1, hg⟩⟩

theorem isGap_star {g : List Lexeme} (hg : ∀ l ∈ g, l.isSilent = true) :
    IsGap (.byte (ch '*') :: g) :=
  ⟨⟨_, rfl, rfl⟩, List.forall_mem_cons.mpr ⟨rfl, hg⟩⟩

theorem isGap_singleton {l : Lexeme} (hword : l.isWord = false) (hsilent : l.isSilent = true) :
    IsGap [l] :=
  ⟨⟨l, rfl, hword⟩, List.forall_mem_singleton.mpr hsilent⟩

/-- **The words that the scanner finds** are those of the inlined statement as far as it is not
hidden from it. -/
theorem sameWords_cutLexemes (dashes depth : ℕ) (b : Bytes) :
    SameWords (lex b) (cutLexemes dashes (pieces depth b)) := by
  induction depth, b using scan_induction generalizing dashes with
  | nil depth => rw [pieces_nil, lex_nil, cutLexemes]; exact .nil
  | hidden depth rest hdepth hhidden =>
    obtain ⟨t, hlex⟩ := lex_closer_hidden hhidden
    rw [hlex, pieces_closer hdepth, cutLexemes, flatMap_text_pieces, if_pos hhidden]
    exact .gap (isGap_star (List.forall_mem_singleton.mpr rfl))
      (@isGap_singleton (.byte (ch ' ')) rfl rfl) (.refl _)
  | opener depth r hdepth ih =>
    obtain ⟨t, hlex⟩ := lex_closer_opener r
    have hneutral := isNeutral_starBang r
    rw [hlex, pieces_closer hdepth, cutLexemes, flatMap_text_pieces,
      if_neg (by simp [opensHidden, opensExecutable]), pieces_starBang,
      cutLexemes_bytes hneutral]
    have hsilent : ∀ l ∈ (ch '*' :: ch '!' :: r.takeWhile isAsciiDigit).map Lexeme.byte,
        l.isSilent = true := List.forall_mem_map.mpr fun c hc ↦ by
      have hc := hneutral c hc
      simp only [isNeutral, Bool.and_eq_true] at hc
      exact hc.1.1.1
    exact .gap (isGap_star (List.forall_mem_singleton.mpr rfl)) (isGap_blankAt dashes hsilent)
      (ih 0)
  | closer depth rest hdepth hopens ih =>
    have hhidden : ¬opensHidden rest = true := by simp [opensHidden, hopens]
    rw [lex_closer hopens, pieces_closer hdepth, cutLexemes, flatMap_text_pieces, if_neg hhidden]
    exact .gap (isGap_star (List.forall_mem_singleton.mpr rfl))
      (isGap_blankAt dashes (List.forall_mem_nil _)) (ih 0)
  | lexeme depth c rest hc ih =>
    rw [lex_cons, pieces_lexeme hc, cutLexemes]
    have ih := ih ((Piece.lexeme (lexStep c rest).1).dashesAfter dashes)
    cases hl : (lexStep c rest).1 with
    | opener t =>
      rw [hl] at ih
      exact .gap (@isGap_singleton (.opener t) rfl rfl)
        (isGap_blankAt dashes (List.forall_mem_nil _)) ih
    | _ => rw [hl] at ih; exact .cons _ ih

end Cut

section CheckReads

variable {a : Bool} {dashes : ℕ} {ls : List Lexeme} {ps : List Piece}

theorem trailingLexemes_cons (a : Bool) (l : Lexeme) (ls : List Lexeme) :
    trailingLexemes a (l :: ls) = (afterLexeme a l).elim true fun a' ↦ trailingLexemes a' ls := by
  cases l with
  | quoted t => cases a <;> rfl
  | byte c =>
    rw [trailingLexemes, afterLexeme]
    split_ifs with hspace hsemicolon ha
    · rfl
    · rfl
    · rw [ha, Bool.true_or]; rfl
    · rw [Bool.eq_false_iff.mpr ha, Bool.false_or]; rfl
  | _ => rfl

theorem trailingLexemes_blankAt (a : Bool) (dashes : ℕ) (ls : List Lexeme) :
    trailingLexemes a (blankAt dashes :: ls) = trailingLexemes a ls := by
  rw [blankAt]
  split_ifs
  · rfl
  · rfl

theorem trailingLexemes_inlineAt (a : Bool) (dashes : ℕ) (l : Lexeme) (ls : List Lexeme) :
    trailingLexemes a ((Piece.lexeme l).inlineAt dashes :: ls) = trailingLexemes a (l :: ls) := by
  cases l with
  | opener t => exact trailingLexemes_blankAt a dashes ls
  | _ => rfl

/-- The multi-statement check reads the lexemes `ls` of a text with the pieces `ps` as
`firstMisreading` says. -/
def CheckReads (a : Bool) (dashes : ℕ) (ls : List Lexeme) (ps : List Piece) : Prop :=
  match firstMisreading a ps with
  | none =>
    trailingLexemes a ls = trailingLexemes a (inlineLexemes dashes ps) ∧
      (trailingLexemes a ls = false → cutLexemes dashes ps = inlineLexemes dashes ps)
  | some .statement => trailingLexemes a ls = true
  | some (.comment front) =>
    trailingLexemes a ls = trailingLexemes a (cutLexemes dashes ps) ∧
      ∃ post post' blank, cutLexemes dashes ps =
          inlineLexemes dashes front ++ .byte (ch ' ') :: post ∧
        inlineLexemes dashes ps = inlineLexemes dashes front ++ blankAt blank :: post'

/-- What is said of a text holds behind a piece that the check passes. -/
theorem CheckReads.behind {a' : Bool} {ls' : List Lexeme} {p : Piece}
    (h : CheckReads a' (p.dashesAfter dashes) ls ps)
    (hmisreading : firstMisreading a (p :: ps) = (firstMisreading a' ps).map (.behind p))
    (htrailing : trailingLexemes a ls' = trailingLexemes a' ls)
    (hinline : ∀ ls, trailingLexemes a (p.inlineAt dashes :: ls) = trailingLexemes a' ls)
    (hcut : cutLexemes dashes (p :: ps) =
      p.inlineAt dashes :: cutLexemes (p.dashesAfter dashes) ps) :
    CheckReads a dashes ls' (p :: ps) := by
  rw [CheckReads] at h ⊢
  rw [hmisreading, htrailing, hcut, inlineLexemes, hinline, hinline]
  cases hfirst : firstMisreading a' ps with
  | none =>
    rw [hfirst] at h
    exact ⟨h.1, fun hnone ↦ congrArg _ (h.2 hnone)⟩
  | some m =>
    rw [hfirst] at h
    cases m with
    | statement => exact h
    | comment front =>
      obtain ⟨htrailing, post, post', blank, hcut, hinline⟩ := h
      refine ⟨htrailing, post, post', blank, ?_, ?_⟩
      · rw [hcut, inlineLexemes, List.cons_append]
      · rw [hinline, inlineLexemes, List.cons_append]

theorem CheckReads.bytes {w : Bytes} (hw : ∀ c ∈ w, isNeutral c = true)
    (h : CheckReads false 0 ls ps) : CheckReads false 0 ls (w.map bytePiece ++ ps) := by
  induction w with
  | nil => exact h
  | cons c w ih =>
    obtain ⟨hc, hrest⟩ := List.forall_mem_cons.mp hw
    have ih := ih hrest
    rw [← dashesAfter_bytePiece hc 0] at ih
    simp only [isNeutral, Bool.and_eq_true, Bool.not_eq_true', bne_iff_ne] at hc
    have hafter : afterLexeme false (.byte c) = some false := by
      rw [afterLexeme, if_neg (by rw [hc.1.1.2]; exact Bool.false_ne_true), if_neg hc.1.2]
      rfl
    rw [List.map_cons, List.cons_append]
    refine ih.behind ?_ rfl (fun ls ↦ ?_) rfl
    · rw [bytePiece, firstMisreading, hafter]
      rfl
    · change trailingLexemes false (.byte c :: ls) = _
      rw [trailingLexemes_cons, hafter]
      rfl

theorem reads_closer_true (hls : trailingLexemes true ls = true) :
    CheckReads true dashes ls (.closer :: ps) := by
  rw [CheckReads, firstMisreading, if_pos rfl]
  exact hls

/-- **What the check for a second statement finds**, by what it misreads. -/
theorem reads_pieces (a : Bool) (dashes depth : ℕ) (b : Bytes) :
    CheckReads a dashes (lex b) (pieces depth b) := by
  have hstar (ls : List Lexeme) : trailingLexemes true (.byte (ch '*') :: ls) = true := rfl
  induction depth, b using scan_induction generalizing a dashes with
  | nil depth =>
    rw [pieces_nil, lex_nil]
    exact ⟨rfl, fun _ ↦ rfl⟩
  | hidden depth rest hdepth hhidden =>
    obtain ⟨t, hlex⟩ := lex_closer_hidden hhidden
    rw [hlex, pieces_closer hdepth]
    cases a with
    | true => exact reads_closer_true (hstar _)
    | false =>
      rw [CheckReads, firstMisreading, if_neg Bool.false_ne_true, flatMap_text_pieces,
        if_pos hhidden]
      dsimp only
      rw [cutLexemes, flatMap_text_pieces, if_pos hhidden]
      exact ⟨rfl, _, _, dashes, rfl, rfl⟩
  | opener depth r hdepth ih =>
    obtain ⟨t, hlex⟩ := lex_closer_opener r
    rw [hlex, pieces_closer hdepth]
    cases a with
    | true => exact reads_closer_true (hstar _)
    | false =>
      have hhidden : ¬opensHidden ((pieces (depth - 1) (ch '*' :: ch '!' :: r)).flatMap
          Piece.text) = true := by
        rw [flatMap_text_pieces]
        simp [opensHidden, opensExecutable]
      have hbehind : CheckReads false 0 (lex (skipVersionDigits r))
          (pieces (depth - 1) (ch '*' :: ch '!' :: r)) := by
        rw [pieces_starBang]
        exact (ih false 0).bytes (isNeutral_starBang r)
      refine @CheckReads.behind _ _ _ _ false _ .closer hbehind ?_ rfl
        (trailingLexemes_blankAt false dashes) ?_
      · rw [firstMisreading, if_neg Bool.false_ne_true, if_neg hhidden]
      · rw [cutLexemes, if_neg hhidden]
        rfl
  | closer depth rest hdepth hopens ih =>
    rw [lex_closer hopens, pieces_closer hdepth]
    cases a with
    | true => exact reads_closer_true (hstar _)
    | false =>
      have hhidden : ¬opensHidden ((pieces (depth - 1) rest).flatMap Piece.text) = true := by
        rw [flatMap_text_pieces]
        simp [opensHidden, hopens]
      refine @CheckReads.behind _ _ _ _ false _ .closer (ih false 0) ?_ rfl
        (trailingLexemes_blankAt false dashes) ?_
      · rw [firstMisreading, if_neg Bool.false_ne_true, if_neg hhidden]
      · rw [cutLexemes, if_neg hhidden]
        rfl
  | lexeme depth c rest hc ih =>
    rw [lex_cons, pieces_lexeme hc]
    generalize (lexStep c rest).1 = l at ih ⊢
    cases hafter : afterLexeme a l with
    | some a' =>
      refine (ih a' _).behind ?_ ?_ (fun ls ↦ ?_) rfl
      · rw [firstMisreading, hafter]
        rfl
      · rw [trailingLexemes_cons, hafter]
        rfl
      · rw [trailingLexemes_inlineAt, trailingLexemes_cons, hafter]
        rfl
    | none =>
      -- the lexeme is a second statement, in both texts
      have hfound (ls : List Lexeme) : trailingLexemes a (l :: ls) = true := by
        rw [trailingLexemes_cons, hafter]
        rfl
      rw [CheckReads, firstMisreading, hafter]
      refine ⟨?_, fun hnone ↦ ?_⟩
      · rw [hfound, inlineLexemes, trailingLexemes_inlineAt, hfound]
      · rw [hfound] at hnone
        cases hnone

end CheckReads

/-! ## The write gate -/

/-- The class of a statement is that of its inlined form `q'`, so a write in that does not pass the
gate. -/
def GateTransparent (q q' : Bytes) : Prop :=
  classify q = classify q' ∧ (IsWrite q' → classify q = .write ∧ shouldExecute q false = false)

/-- What the scanners make of a statement, by what they misread: the inlined statement if nothing, a
write if a `*/` is taken for a second statement, and if one is taken for the start of a comment,
the statement without what that hides. -/
def SeenAsWrite (q : Bytes) : Prop :=
  match firstMisreading false (pieces 0 q) with
  | none => IsWrite (inlineExecutableComments q)
  | some .statement => True
  | some (.comment _) => IsWriteCode (cutLexemes 0 (pieces 0 q))

/-- What is misread makes no difference. A `*/` that is taken for a second statement stands in a
statement that is a write without it, and a comment that is none hides nothing that decides: without
what it hides, the statement is a write just when it is one with it. -/
def DelimitersRead (q : Bytes) : Prop :=
  match firstMisreading false (pieces 0 q) with
  | none => True
  | some .statement => IsWrite (inlineExecutableComments q)
  | some (.comment _) =>
    IsWriteCode (cutLexemes 0 (pieces 0 q)) ↔ IsWrite (inlineExecutableComments q)

theorem isWriteCode_iff {ls : List Lexeme} : IsWriteCode ls ↔
    trailingLexemes false ls = true ∨ WriteForm (wordsOfLexemes 0 ls) := by
  rw [IsWriteCode, trailingLexemes_eq_true_iff]

theorem isWriteCode_congr {ls ls' : List Lexeme}
    (htrailing : trailingLexemes false ls = trailingLexemes false ls')
    (hwords : wordsOfLexemes 0 ls = wordsOfLexemes 0 ls') : IsWriteCode ls ↔ IsWriteCode ls' := by
  rw [isWriteCode_iff, isWriteCode_iff, htrailing, hwords]

theorem isWrite_inline (q : Bytes) :
    IsWrite (inlineExecutableComments q) ↔ IsWriteCode (inlineLexemes 0 (pieces 0 q)) := by
  have hlex : lex (inlineExecutableComments q) = inlineLexemes 0 (pieces 0 q) :=
    lex_inlineText 0 0 q
  rw [IsWrite, hlex]

theorem gateTransparent_iff (q q' : Bytes) : GateTransparent q q' ↔ (IsWrite q ↔ IsWrite q') := by
  rw [← classify_eq_write_iff, ← classify_eq_write_iff, GateTransparent, ← classify_eq_write_iff]
  constructor
  · rintro ⟨hsame, -⟩
    rw [hsame]
  · intro h
    refine ⟨?_, fun hwrite ↦ ⟨h.mpr hwrite, shouldExecute_false (h.mpr hwrite)⟩⟩
    cases hq : classify q with
    | write => exact (h.mp hq).symm
    | read =>
      cases hq' : classify q' with
      | read => rfl
      | write => exact hq.symm.trans (h.mpr hq')

/-- The two scanners find a write in a statement exactly as `SeenAsWrite` says. -/
theorem isWrite_iff_seenAsWrite (q : Bytes) : IsWrite q ↔ SeenAsWrite q := by
  have hreads := reads_pieces false 0 0 q
  have hwords := (sameWords_cutLexemes 0 0 q).words 0
  rw [SeenAsWrite]
  rw [CheckReads] at hreads
  cases hfirst : firstMisreading false (pieces 0 q) with
  | none =>
    rw [hfirst] at hreads
    obtain ⟨htrailing, hcut⟩ := hreads
    dsimp only
    rw [isWrite_inline, IsWrite]
    cases hsecond : trailingLexemes false (lex q) with
    | true =>
      rw [isWriteCode_iff, isWriteCode_iff, ← htrailing, hsecond]
      exact ⟨fun _ ↦ .inl rfl, fun _ ↦ .inl rfl⟩
    | false =>
      rw [hcut hsecond] at hwords
      exact isWriteCode_congr htrailing hwords
  | some m =>
    rw [hfirst] at hreads
    cases m with
    | statement => exact iff_true_intro (isWriteCode_iff.mpr (.inl hreads))
    | comment front => exact isWriteCode_congr hreads.1 hwords

theorem seenAsWrite_iff_iff_delimitersRead (q : Bytes) :
    (SeenAsWrite q ↔ IsWrite (inlineExecutableComments q)) ↔ DelimitersRead q := by
  rw [SeenAsWrite, DelimitersRead]
  cases firstMisreading false (pieces 0 q) with
  | none => exact iff_true_intro Iff.rfl
  | some m =>
    cases m with
    | statement => exact iff_of_eq (true_iff _)
    | comment front => exact Iff.rfl

theorem gateTransparent_iff_delimitersRead (q : Bytes) :
    GateTransparent q (inlineExecutableComments q) ↔ DelimitersRead q := by
  rw [gateTransparent_iff, isWrite_iff_seenAsWrite, seenAsWrite_iff_iff_delimitersRead]

/-- If the words in front of what is misread already make a write, nothing behind it matters. -/
theorem delimitersRead_of_front {q : Bytes} {front : List Piece}
    (hfirst : firstMisreading false (pieces 0 q) = some (.comment front))
    (hfront : ∀ ws, WriteForm (wordsOfLexemes 0 (inlineLexemes 0 front) ++ ws)) :
    DelimitersRead q := by
  have hreads := reads_pieces false 0 0 q
  rw [CheckReads, hfirst] at hreads
  obtain ⟨-, post, post', blank, hcut, hinline⟩ := hreads
  have hwrite {l : Lexeme} (hl : l.isWord = false) (post : List Lexeme) :
      IsWriteCode (inlineLexemes 0 front ++ l :: post) := by
    rw [IsWriteCode, wordsOfLexemes_append hl]
    exact .inr (hfront _)
  rw [DelimitersRead, hfirst]
  dsimp only
  rw [isWrite_inline, hcut, hinline]
  exact iff_of_true (hwrite rfl post) (hwrite (isSilent_blankAt blank).2 post')

/-- **Executable comments and the write gate.** They are transparent to it exactly when what is
misread makes no difference; it makes none if the words in front of it decide. The inlined statement
has one space in the place of each delimiter, unless one stands right behind two dashes; where a
space is put there all the same, the rest of the line becomes a comment, and what the scanners see
must be a write just when the statement without it is. -/
theorem gate_inlineExecutableComments (q : Bytes) :
    (GateTransparent q (inlineExecutableComments q) ↔ DelimitersRead q) ∧
      (∀ front, firstMisreading false (pieces 0 q) = some (.comment front) →
        (∀ ws, WriteForm (wordsOfLexemes 0 (inlineLexemes 0 front) ++ ws)) →
        GateTransparent q (inlineExecutableComments q)) ∧
      (delimiterBehindDashes 0 (pieces 0 q) = false →
        inlineExecutableComments q = spaceDelimiters q) ∧
      (GateTransparent q (spaceDelimiters q) ↔
        (SeenAsWrite q ↔ IsWrite (spaceDelimiters q))) := by
  refine ⟨gateTransparent_iff_delimitersRead q, fun front hfirst hfront ↦ ?_,
    inlineExecutableComments_eq_space, ?_⟩
  · exact (gateTransparent_iff_delimitersRead q).mpr (delimitersRead_of_front hfirst hfront)
  · rw [gateTransparent_iff, isWrite_iff_seenAsWrite]

/-- A second statement in front of the delimiter, and a verb in front of it that decides. -/
theorem gate_inlineExecutableComments_drop :
    GateTransparent (ascii "SELECT 1; DROP TABLE t /*! x */*2")
        (inlineExecutableComments (ascii "SELECT 1; DROP TABLE t /*! x */*2")) ∧
      GateTransparent (ascii "DROP TABLE t /*! x */*2")
        (inlineExecutableComments (ascii "DROP TABLE t /*! x */*2")) := by
  constructor
  · refine (gate_inlineExecutableComments _).1.mpr ?_
    have hfirst : firstMisreading false (pieces 0 (ascii "SELECT 1; DROP TABLE t /*! x */*2")) =
        none := by decide +kernel
    rw [DelimitersRead, hfirst]
    trivial
  · have hfirst : firstMisreading false (pieces 0 (ascii "DROP TABLE t /*! x */*2")) =
        some (.comment (pieces 0 (ascii "DROP TABLE t /*! x "))) := by decide +kernel
    have hfront : (wordsOfLexemes 0 (inlineLexemes 0 (pieces 0 (ascii "DROP TABLE t /*! x ")))).map
        Prod.fst = [ascii "drop", ascii "table", ascii "t", ascii "x"] := by decide +kernel
    refine (gate_inlineExecutableComments _).2.1 _ hfirst fun ws ↦ ?_
    obtain ⟨w, words, hwords, hdrop, -⟩ := List.map_eq_cons_iff.mp hfront
    rw [hwords]
    exact .verb (by rw [hdrop]; decide)

/-- The slash of a closing `*/` before a `*` opens a comment that hides a second statement from
both scanners: the text passes the gate, its inlined form does not. -/
theorem gate_starred_closer :
    shouldExecute (ascii "SELECT 1 /*! + 1 */*2; DROP TABLE t") false = true ∧
      inlineExecutableComments (ascii "SELECT 1 /*! + 1 */*2; DROP TABLE t") =
        ascii "SELECT 1   + 1  *2; DROP TABLE t" ∧
      classify (ascii "SELECT 1 /*! + 1 */*2; DROP TABLE t") ≠
        classify (inlineExecutableComments (ascii "SELECT 1 /*! + 1 */*2; DROP TABLE t")) := by
  decide +kernel

end SqlReplay
