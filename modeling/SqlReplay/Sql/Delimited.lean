import SqlReplay.Sql.Trivia

/-!
# The parts of a statement

An expression, a list of columns, a query in parentheses: a part of a statement stands in front of a
delimiter, and is lexically closed if the delimiter is at code level there. One delimiter is enough
to see that. If the lexer comes to it as a byte of code when it is the last byte of the text, it
does so whatever follows (`LexesBefore.append`), because no skipping function looks further than one
byte behind the part.

What the word scanner makes of a text is then what it makes of its parts. A part that nests its
parentheses leaves the depth as it was, and the words in it are no shallower than the text around it
(`Nested.le_depth`).
-/

namespace SqlReplay

/-! ## A part in front of a delimiter -/

/-- A byte that opens nothing and that does not change what stands in front of it: it is neither the
second byte of a comment delimiter nor a version digit. -/
def isSeparator (d : UInt8) : Bool :=
  isPlain d && d != ch '*' && d != ch '!' && !isAsciiDigit d

section Separator

variable {c d : UInt8} {rest after : Bytes}

theorem isSeparator_spec (hd : isSeparator d = true) :
    isPlain d = true ∧ d ≠ ch '*' ∧ d ≠ ch '!' ∧ isAsciiDigit d = false := by
  rw [isSeparator, Bool.and_eq_true, Bool.and_eq_true, Bool.and_eq_true, bne_iff_ne, bne_iff_ne,
    Bool.not_eq_true'] at hd
  exact ⟨hd.1.1.1, hd.1.1.2, hd.1.2, hd.2⟩

theorem ne_of_isPlain {e : UInt8} (hd : isPlain d = true) (he : isPlain e = false) : d ≠ e := by
  rintro rfl
  rw [hd] at he
  cases he

theorem opensExecutable_separator (hd : d ≠ ch '*') (h : opensBlockComment c (rest ++ [d]) = true)
    (q : Bytes) : opensExecutable (rest ++ d :: q) = opensExecutable (rest ++ [d]) := by
  rcases rest with _ | ⟨e, rest⟩
  · simp only [opensBlockComment, Bool.and_eq_true, beq_iff_eq] at h
    exact absurd (Option.some.inj h.2) hd
  · rw [opensExecutable, opensExecutable, List.cons_append, List.cons_append, List.tail_cons,
      List.tail_cons, head?_anchor]

theorem dropWhile_separator {p : UInt8 → Bool} {b : Bytes} (h : (b ++ [d]).dropWhile p ≠ []) :
    ∃ after, after <:+ b ∧ ∀ q, (b ++ d :: q).dropWhile p = after ++ d :: q := by
  induction b with
  | nil =>
    have hd : ¬p d = true := by
      intro hd
      rw [List.nil_append, List.dropWhile_cons_of_pos hd] at h
      exact h rfl
    exact ⟨[], List.suffix_refl _, fun q ↦ List.dropWhile_cons_of_neg hd⟩
  | cons c b ih =>
    by_cases hc : p c = true
    · rw [List.cons_append, List.dropWhile_cons_of_pos hc] at h
      obtain ⟨after, hafter, hdrop⟩ := ih h
      refine ⟨after, hafter.trans (List.suffix_cons c b), fun q ↦ ?_⟩
      rw [List.cons_append, List.dropWhile_cons_of_pos hc, hdrop]
    · exact ⟨c :: b, List.suffix_refl _, fun q ↦ List.dropWhile_cons_of_neg hc⟩

/-- What is skipped in front of the separator is skipped again, whatever stands behind it. -/
theorem suffix_of_append_eq {b p : Bytes} {t : Bytes} (h : b ++ [d] = p ++ t) (ht : t ≠ []) :
    ∃ t', t = t' ++ [d] ∧ b = p ++ t' := by
  obtain ⟨t', e, rfl⟩ := (List.eq_nil_or_concat' t).resolve_left ht
  rw [← List.append_assoc] at h
  obtain ⟨hb, he⟩ := List.append_inj' h rfl
  obtain ⟨rfl, -⟩ := List.cons.inj he
  exact ⟨t', rfl, hb⟩

theorem skipBlockComment_separator {b : Bytes} (h : skipBlockComment (b ++ [d]) ≠ []) :
    ∃ after, after <:+ b ∧ ∀ q, skipBlockComment (b ++ d :: q) = after ++ d :: q := by
  obtain ⟨e, p, hp, hskip⟩ := skipBlockComment_split h
  obtain ⟨after, -, rfl⟩ := suffix_of_append_eq hp h
  refine ⟨after, List.suffix_append _ _, fun q ↦ ?_⟩
  rw [List.append_assoc, hskip]

theorem skipQuoted_separator {b : Bytes} (h : skipQuoted c (b ++ [d]) ≠ []) :
    ∃ after, after <:+ b ∧ ∀ q, skipQuoted c (b ++ d :: q) = after ++ d :: q := by
  obtain ⟨p, hp, hhead, hskip⟩ := skipQuoted_split h
  obtain ⟨after, hafter, rfl⟩ := suffix_of_append_eq hp h
  refine ⟨after, List.suffix_append _ _, fun q ↦ ?_⟩
  rw [List.append_assoc, hskip]
  rwa [head?_anchor, ← hafter]

/-- A lexeme that leaves something in front of the separator, or the separator itself, is the same
whatever stands behind that. -/
theorem lexStep_separator (hd : isSeparator d = true) (h : (lexStep c (rest ++ [d])).2 ≠ []) :
    ∃ l after, after <:+ rest ∧ ∀ q, lexStep c (rest ++ d :: q) = (l, after ++ d :: q) := by
  obtain ⟨hplain, hstar, hbang, hdigit⟩ := isSeparator_spec hd
  have hdash : d ≠ ch '-' := ne_of_isPlain hplain rfl
  rw [lexStep] at h
  split_ifs at h with hb he hl hq
  · -- the opener of an executable comment and its digits stand in front of the separator
    obtain ⟨rest, rfl⟩ : ∃ rest', rest = ch '*' :: ch '!' :: rest' := by
      rcases rest with _ | ⟨e, _ | ⟨e', rest⟩⟩
      · exact absurd (Option.some.inj (beq_iff_eq.mp (Bool.and_eq_true_iff.mp hb).2)) hstar
      · exact absurd (Option.some.inj (beq_iff_eq.mp he)) hbang
      · obtain rfl := Option.some.inj (beq_iff_eq.mp (Bool.and_eq_true_iff.mp hb).2)
        obtain rfl := Option.some.inj (beq_iff_eq.mp he)
        exact ⟨rest, rfl⟩
    obtain ⟨after, hafter, hdrop⟩ := dropWhile_separator (b := rest) h
    refine ⟨.opener (consumed (c :: ch '*' :: ch '!' :: rest) after), after,
      (hafter.trans (List.suffix_cons _ _)).trans (List.suffix_cons _ _), fun q ↦ ?_⟩
    have hskip : skipVersionDigits ((ch '*' :: ch '!' :: rest ++ d :: q).drop 2) =
      after ++ d :: q := hdrop q
    rw [lexStep, opensBlockComment_anchor, if_pos hb, opensExecutable_separator hstar hb,
      if_pos he, hskip]
    exact congrArg (fun t ↦ (Lexeme.opener t, after ++ d :: q)) (consumed_append_right _ _ _ _)
  · -- a comment
    obtain ⟨rest, rfl⟩ : ∃ rest', rest = ch '*' :: rest' := by
      rcases rest with _ | ⟨e, rest⟩
      · exact absurd (Option.some.inj (beq_iff_eq.mp (Bool.and_eq_true_iff.mp hb).2)) hstar
      · obtain rfl := Option.some.inj (beq_iff_eq.mp (Bool.and_eq_true_iff.mp hb).2)
        exact ⟨rest, rfl⟩
    obtain ⟨after, hafter, hdrop⟩ := skipBlockComment_separator (b := rest) h
    refine ⟨.block (consumed (c :: ch '*' :: rest) after), after,
      hafter.trans (List.suffix_cons _ _), fun q ↦ ?_⟩
    have hskip : skipBlockComment ((ch '*' :: rest ++ d :: q).drop 1) = after ++ d :: q := hdrop q
    rw [lexStep, opensBlockComment_anchor, if_pos hb, opensExecutable_separator hstar hb,
      if_neg he, hskip]
    exact congrArg (fun t ↦ (Lexeme.block t, after ++ d :: q)) (consumed_append_right _ _ _ _)
  · -- a comment up to the end of its line
    obtain ⟨after, hafter, hdrop⟩ := dropWhile_separator h
    refine ⟨.line (consumed (c :: rest) after), after, hafter, fun q ↦ ?_⟩
    have hskip : skipLineComment (rest ++ d :: q) = after ++ d :: q := hdrop q
    rw [lexStep, opensBlockComment_anchor, if_neg hb, opensLineComment_anchor c rest hdash,
      if_pos hl, hskip, consumed_append_right]
  · obtain ⟨after, hafter, hskip⟩ := skipQuoted_separator h
    refine ⟨.quoted (consumed (c :: rest) after), after, hafter, fun q ↦ ?_⟩
    rw [lexStep, opensBlockComment_anchor, if_neg hb, opensLineComment_anchor c rest hdash,
      if_neg hl, if_pos hq, hskip, consumed_append_right]
  · refine ⟨.byte c, rest, List.suffix_refl _, fun q ↦ ?_⟩
    rw [lexStep, opensBlockComment_anchor, if_neg hb, opensLineComment_anchor c rest hdash,
      if_neg hl, if_neg hq]

end Separator

/-- In front of the byte `d`, the part is lexed to `ls`, and `d` is at code level. -/
def LexesBefore (d : UInt8) (b : Bytes) (ls : List Lexeme) : Prop :=
  lex (b ++ [d]) = ls ++ [.byte d]

instance {d : UInt8} {b : Bytes} {ls : List Lexeme} : Decidable (LexesBefore d b ls) :=
  inferInstanceAs (Decidable (_ = _))

/-- **A part that is closed in front of a delimiter is closed whatever follows.** -/
theorem LexesBefore.append {d : UInt8} {b : Bytes} {ls : List Lexeme} (h : LexesBefore d b ls)
    (hd : isSeparator d = true) (q : Bytes) :
    lex (b ++ d :: q) = ls ++ .byte d :: lex q := by
  have hplain := (isSeparator_spec hd).1
  induction hn : b.length using Nat.strong_induction_on generalizing b ls with
  | _ n ih =>
  subst hn
  rw [LexesBefore] at h
  cases b with
  | nil =>
    rw [List.nil_append, lex_plain hplain, lex_nil] at h
    obtain rfl : ls = [] := List.append_cancel_right (h.symm.trans (List.nil_append _).symm)
    exact lex_plain hplain q
  | cons c b =>
    rw [List.cons_append, lex_cons] at h
    cases ls with
    | nil =>
      -- the separator is the last byte of the part with the separator, not the first
      obtain ⟨hbyte, hlex⟩ := List.cons.inj h
      rw [lexStep_eq_byte hbyte] at hlex
      cases b with
      | nil => rw [List.nil_append, lex_cons] at hlex; cases hlex
      | cons c' b => rw [List.cons_append, lex_cons] at hlex; cases hlex
    | cons l' ls =>
      rw [List.cons_append] at h
      obtain ⟨rfl, hlex⟩ := List.cons.inj h
      have hrest : (lexStep c (b ++ [d])).2 ≠ [] := by
        intro hnil
        rw [hnil, lex_nil] at hlex
        exact List.append_ne_nil_of_right_ne_nil _ (List.cons_ne_nil _ _) hlex.symm
      obtain ⟨l, after, hafter, hstep⟩ := lexStep_separator hd hrest
      rw [hstep []] at hlex
      rw [List.cons_append, lex_cons, hstep q, hstep [],
        ih after.length (Nat.lt_succ_of_le hafter.length_le) hlex rfl, List.cons_append]

/-! ## Depth -/

/-- What a lexeme adds to the parenthesis depth. -/
def Lexeme.paren : Lexeme → ℤ
  | .opener _ | .block _ | .line _ | .quoted _ => 0
  | .byte c => if c = ch '(' then 1 else if c = ch ')' then -1 else 0

/-- What a text adds to the parenthesis depth. -/
def depthOf (ls : List Lexeme) : ℤ := (ls.map Lexeme.paren).sum

/-- The parentheses at code level are properly nested. -/
structure Nested (ls : List Lexeme) : Prop where
  nonneg : ∀ pre, pre <+: ls → 0 ≤ depthOf pre
  closed : depthOf ls = 0

instance : DecidablePred Nested := fun ls ↦
  decidable_of_iff ((∀ pre ∈ ls.inits, 0 ≤ depthOf pre) ∧ depthOf ls = 0)
    ⟨fun h ↦ ⟨fun pre hpre ↦ h.1 pre ((List.mem_inits pre ls).mpr hpre), h.2⟩,
      fun h ↦ ⟨fun pre hpre ↦ h.nonneg pre ((List.mem_inits pre ls).mp hpre), h.closed⟩⟩

section Depth

variable {l : Lexeme} {ls ls' : List Lexeme}

@[simp] theorem depthOf_nil : depthOf [] = 0 := rfl

@[simp] theorem depthOf_cons (l : Lexeme) (ls : List Lexeme) :
    depthOf (l :: ls) = l.paren + depthOf ls := by
  rw [depthOf, List.map_cons, List.sum_cons, depthOf]

@[simp] theorem depthOf_append (ls ls' : List Lexeme) :
    depthOf (ls ++ ls') = depthOf ls + depthOf ls' := by
  rw [depthOf, List.map_append, List.sum_append, depthOf, depthOf]

theorem paren_of_isWordByte {c : UInt8} (hc : isWordByte c = true) : (Lexeme.byte c).paren = 0 :=
  forall_byte (p := fun c ↦ isWordByte c = true → (Lexeme.byte c).paren = 0) (by decide)
    c hc

theorem depthOf_eq_zero (h : ∀ l ∈ ls, l.paren = 0) : depthOf ls = 0 := by
  induction ls with
  | nil => rfl
  | cons l ls ih =>
    obtain ⟨hl, hls⟩ := List.forall_mem_cons.mp h
    rw [depthOf_cons, hl, ih hls, add_zero]

theorem depthOf_of_isWord (h : ∀ l ∈ ls, l.isWord = true) : depthOf ls = 0 := by
  refine depthOf_eq_zero fun l hl ↦ ?_
  have hword := h l hl
  cases l with
  | byte c => exact paren_of_isWordByte hword
  | _ => rfl

theorem depthOf_dropWhile (ls : List Lexeme) :
    depthOf (ls.dropWhile Lexeme.isWord) = depthOf ls := by
  have hword := depthOf_of_isWord fun l hl ↦
    List.mem_takeWhile_imp (p := Lexeme.isWord) (l := ls) hl
  conv_rhs => rw [← List.takeWhile_append_dropWhile (p := Lexeme.isWord) (l := ls)]
  rw [depthOf_append, hword, zero_add]

/-- The word scanner over two parts of which the second does not continue a word of the first. -/
theorem wordsOfLexemes_append (hl : l.isWord = false) (depth : ℤ) (ls ls' : List Lexeme) :
    wordsOfLexemes depth (ls ++ l :: ls') =
      wordsOfLexemes depth ls ++ wordsOfLexemes (depth + depthOf ls) (l :: ls') := by
  fun_induction wordsOfLexemes depth ls with
  | case1 => rw [depthOf_nil, add_zero, List.nil_append, List.nil_append]
  | case2 depth ls _ ih | case3 depth ls _ ih | case4 depth ls _ ih | case5 depth ls _ ih =>
    rw [List.cons_append, wordsOfLexemes, ih, depthOf_cons, Lexeme.paren, zero_add]
  | case6 depth ls ih =>
    rw [List.cons_append, wordsOfLexemes, if_pos rfl, ih, depthOf_cons, Lexeme.paren, if_pos rfl,
      add_assoc]
  | case7 depth ls hopen ih =>
    rw [List.cons_append, wordsOfLexemes, if_neg hopen, if_pos rfl, ih, depthOf_cons, Lexeme.paren,
      if_neg hopen, if_pos rfl, sub_eq_add_neg, add_assoc]
  | case8 depth c ls hopen hclose hword ih =>
    have hstop : ¬l.isWord = true := by rw [hl]; exact Bool.false_ne_true
    have htake : (ls ++ l :: ls').takeWhile Lexeme.isWord = ls.takeWhile Lexeme.isWord := by
      rw [List.takeWhile_append]
      split_ifs with hall
      · rw [List.takeWhile_cons_of_neg hstop, List.append_nil]
        exact ((List.takeWhile_prefix _).eq_of_length hall).symm
      · rfl
    have hdrop : (ls ++ l :: ls').dropWhile Lexeme.isWord =
        ls.dropWhile Lexeme.isWord ++ l :: ls' := by
      rw [List.dropWhile_append]
      split_ifs with hempty
      · rw [List.dropWhile_cons_of_neg hstop, List.isEmpty_iff.mp hempty, List.nil_append]
      · rfl
    rw [List.cons_append, wordsOfLexemes, if_neg hopen, if_neg hclose, if_pos hword, htake, hdrop,
      ih, depthOf_dropWhile, depthOf_cons, Lexeme.paren, if_neg hopen, if_neg hclose, zero_add,
      List.cons_append]
  | case9 depth c ls hopen hclose hword ih =>
    rw [List.cons_append, wordsOfLexemes, if_neg hopen, if_neg hclose, if_neg hword, ih,
      depthOf_cons, Lexeme.paren, if_neg hopen, if_neg hclose, zero_add]

/-- The depth of a word is that of the text in front of it. -/
theorem exists_of_mem_wordsOfLexemes {depth : ℤ} {w : Bytes × ℤ}
    (hw : w ∈ wordsOfLexemes depth ls) : ∃ pre, pre <+: ls ∧ w.2 = depth + depthOf pre := by
  fun_induction wordsOfLexemes depth ls with
  | case1 => exact absurd hw List.not_mem_nil
  | case2 depth ls t ih | case3 depth ls t ih | case4 depth ls t ih | case5 depth ls t ih =>
    obtain ⟨pre, hpre, heq⟩ := ih hw
    refine ⟨_ :: pre, (List.prefix_cons_inj _).mpr hpre, heq.trans ?_⟩
    rw [depthOf_cons, Lexeme.paren, zero_add]
  | case6 depth ls ih =>
    obtain ⟨pre, hpre, heq⟩ := ih hw
    refine ⟨_ :: pre, (List.prefix_cons_inj _).mpr hpre, heq.trans ?_⟩
    rw [depthOf_cons, Lexeme.paren, if_pos rfl, add_assoc]
  | case7 depth ls hopen ih =>
    obtain ⟨pre, hpre, heq⟩ := ih hw
    refine ⟨_ :: pre, (List.prefix_cons_inj _).mpr hpre, heq.trans ?_⟩
    rw [depthOf_cons, Lexeme.paren, if_neg hopen, if_pos rfl, sub_eq_add_neg, add_assoc]
  | case8 depth c ls hopen hclose hword ih =>
    rcases List.mem_cons.mp hw with rfl | hw
    · exact ⟨[], List.nil_prefix, (add_zero depth).symm⟩
    · obtain ⟨pre, hpre, heq⟩ := ih hw
      refine ⟨.byte c :: (ls.takeWhile Lexeme.isWord ++ pre), ?_, heq.trans ?_⟩
      · conv_rhs => rw [← List.takeWhile_append_dropWhile (p := Lexeme.isWord) (l := ls)]
        exact (List.prefix_cons_inj _).mpr ((List.prefix_append_right_inj _).mpr hpre)
      · have hrun := depthOf_of_isWord fun l hl ↦
          List.mem_takeWhile_imp (p := Lexeme.isWord) (l := ls) hl
        rw [depthOf_cons, depthOf_append, hrun, Lexeme.paren, if_neg hopen, if_neg hclose, zero_add,
          zero_add]
  | case9 depth c ls hopen hclose hword ih =>
    obtain ⟨pre, hpre, heq⟩ := ih hw
    refine ⟨_ :: pre, (List.prefix_cons_inj _).mpr hpre, heq.trans ?_⟩
    rw [depthOf_cons, Lexeme.paren, if_neg hopen, if_neg hclose, zero_add]

/-- The words of a part with nested parentheses are no shallower than the text around it. -/
theorem Nested.le_depth (h : Nested ls) {depth : ℤ} {w : Bytes × ℤ}
    (hw : w ∈ wordsOfLexemes depth ls) : depth ≤ w.2 := by
  obtain ⟨pre, hpre, heq⟩ := exists_of_mem_wordsOfLexemes hw
  rw [heq]
  exact le_add_of_nonneg_right (h.nonneg pre hpre)

end Depth

section Enclosed

variable {b : Bytes} {ls : List Lexeme}

theorem wordsFrom_open (depth : ℤ) (q : Bytes) :
    wordsFrom depth (ch '(' :: q) = wordsFrom (depth + 1) q := by
  rw [wordsFrom, lex_plain (by decide), wordsOfLexemes, if_pos rfl, wordsFrom]

/-- **A part in parentheses**: behind it the depth is what it was in front of it. -/
theorem wordsFrom_enclosed (h : LexesBefore (ch ')') b ls) (hnested : Nested ls) (depth : ℤ)
    (q : Bytes) :
    wordsFrom depth (ch '(' :: (b ++ ch ')' :: q)) =
      wordsOfLexemes (depth + 1) ls ++ wordsFrom depth q := by
  have hclose : wordsOfLexemes (depth + 1) (.byte (ch ')') :: lex q) = wordsFrom depth q := by
    rw [wordsOfLexemes, if_neg (by decide), if_pos rfl, add_sub_cancel_right, wordsFrom]
  rw [wordsFrom_open, wordsFrom, h.append (by decide), wordsOfLexemes_append (by decide),
    hnested.closed, add_zero, hclose]

end Enclosed

/-! ## Semicolons -/

/-- A part without semicolons does not matter to the multi-statement check. -/
theorem trailingLexemes_of_not_mem {ls : List Lexeme} (h : .byte (ch ';') ∉ ls)
    (ls' : List Lexeme) : trailingLexemes false (ls ++ ls') = trailingLexemes false ls' := by
  induction ls with
  | nil => rfl
  | cons l ls ih =>
    obtain ⟨hl, hls⟩ := not_or.mp (mt List.mem_cons.mpr h)
    rw [List.cons_append]
    cases l with
    | byte c =>
      have hc : c ≠ ch ';' := fun heq ↦ hl (congrArg Lexeme.byte heq.symm)
      rw [trailingLexemes, if_neg hc, Bool.false_or, ih hls, ite_self]
    | quoted _ => rw [trailingLexemes, Bool.false_or, ih hls]
    | _ => rw [trailingLexemes, ih hls]

/-! ## Keywords -/

/-- A byte of an unquoted identifier. -/
def isUnquotedByte (c : UInt8) : Bool := isWordByte c || 0x80 ≤ c

/-- The keywords of the grammar are spelled with letters, and with underscores between them. -/
def isKeyword : Bytes → Bool
  | [] => false
  | c :: kw => isAsciiAlphabetic c && (c :: kw).all fun d ↦ isAsciiAlphabetic d || d == ch '_'

section Keyword

variable {k kw rest : Bytes}

theorem isWordByte_of_isUnquotedByte_eq_false {c : UInt8} (h : isUnquotedByte c = false) :
    isWordByte c = false := (Bool.or_eq_false_iff.mp h).1

/-- A keyword in any case is a run of word bytes, and the first of them starts a word. -/
theorem keyword_bytes (hkw : isKeyword kw = true) (hk : k.map toAsciiLowercase = kw) :
    ∃ c w, k = c :: w ∧ isWordStart c = true ∧ isSeparator c = true ∧
      ∀ d ∈ w, isWordByte d = true := by
  cases k with
  | nil => rw [← hk] at hkw; cases hkw
  | cons c w =>
    rw [← hk, List.map_cons, isKeyword, Bool.and_eq_true, ← List.map_cons, List.all_map,
      List.all_eq_true] at hkw
    obtain ⟨hc, hw⟩ := hkw
    have hstart : isWordStart c = true ∧ isSeparator c = true :=
      forall_byte (p := fun c ↦ isAsciiAlphabetic (toAsciiLowercase c) = true →
        isWordStart c = true ∧ isSeparator c = true) (by decide) c hc
    refine ⟨c, w, rfl, hstart.1, hstart.2, fun d hd ↦ ?_⟩
    exact forall_byte (p := fun c ↦ (isAsciiAlphabetic (toAsciiLowercase c) ||
      toAsciiLowercase c == ch '_') = true → isWordByte c = true) (by decide) d
      (hw d (List.mem_cons_of_mem c hd))

theorem wordsFrom_keyword (hkw : isKeyword kw = true) (hk : k.map toAsciiLowercase = kw)
    (hrest : ∀ d ∈ rest.head?, isUnquotedByte d = false) (depth : ℤ) :
    wordsFrom depth (k ++ rest) = (kw, depth) :: wordsFrom depth rest := by
  obtain ⟨c, w, rfl, hc, -, hw⟩ := keyword_bytes hkw hk
  rw [List.cons_append, wordsFrom_word depth hc hw
    fun d hd ↦ isWordByte_of_isUnquotedByte_eq_false (hrest d hd), hk]

theorem lex_plainBytes {w : Bytes} (hw : ∀ d ∈ w, isPlain d = true) (q : Bytes) :
    lex (w ++ q) = w.map Lexeme.byte ++ lex q := by
  induction w with
  | nil => rfl
  | cons c w ih =>
    obtain ⟨hc, hrest⟩ := List.forall_mem_cons.mp hw
    rw [List.cons_append, lex_plain hc, ih hrest, List.map_cons, List.cons_append]

theorem trailingLexemes_keyword (hkw : isKeyword kw = true) (hk : k.map toAsciiLowercase = kw)
    (q : Bytes) : trailingLexemes false (lex (k ++ q)) = trailingLexemes false (lex q) := by
  obtain ⟨c, w, rfl, hc, -, hw⟩ := keyword_bytes hkw hk
  have hall : ∀ d ∈ c :: w, isWordByte d = true :=
    List.forall_mem_cons.mpr ⟨forall_byte (p := fun c ↦ isWordStart c = true → isWordByte c = true)
      (by decide) c hc, hw⟩
  rw [lex_plainBytes fun d hd ↦ isPlain_of (by decide) (hall d hd), trailingLexemes_of_not_mem]
  intro hmem
  obtain ⟨d, hd, heq⟩ := List.mem_map.mp hmem
  have hword := hall d hd
  rw [Lexeme.byte.inj heq] at hword
  exact absurd hword (by decide)

end Keyword

/-! ## What a part adds -/

/-- In front of `q`, the part adds the words `ws` and no semicolon. -/
structure Adds (b q : Bytes) (ws : List (Bytes × ℤ)) : Prop where
  words : wordsFrom 0 (b ++ q) = ws ++ wordsFrom 0 q
  single : trailingLexemes false (lex (b ++ q)) = trailingLexemes false (lex q)

section Adds

variable {b b' q : Bytes} {ws ws' : List (Bytes × ℤ)}

theorem Adds.append (h : Adds b (b' ++ q) ws) (h' : Adds b' q ws') :
    Adds (b ++ b') q (ws ++ ws') where
  words := by rw [List.append_assoc, h.words, h'.words, List.append_assoc]
  single := by rw [List.append_assoc, h.single, h'.single]

theorem Adds.nil (q : Bytes) : Adds [] q [] := ⟨rfl, rfl⟩

theorem Trivia.adds (h : Trivia b) (q : Bytes) : Adds b q [] :=
  ⟨h.wordsFrom_append 0 q, h.trailingLexemes_append false q⟩

theorem adds_keyword {k kw : Bytes} (hkw : isKeyword kw = true) (hk : k.map toAsciiLowercase = kw)
    (hq : ∀ d ∈ q.head?, isUnquotedByte d = false) : Adds k q [(kw, 0)] :=
  ⟨wordsFrom_keyword hkw hk hq 0, trailingLexemes_keyword hkw hk q⟩

/-- A part whose lexemes are known wherever it stands in front of `q`. -/
theorem Adds.of_lex {ls : List Lexeme} (h : lex (b ++ q) = ls ++ lex q)
    (hq : ∀ l ∈ (lex q).head?, l.isWord = false) (hdepth : depthOf ls = 0)
    (hsingle : .byte (ch ';') ∉ ls) : Adds b q (wordsOfLexemes 0 ls) where
  words := by
    rw [wordsFrom, wordsFrom, h]
    cases hlex : lex q with
    | nil => rw [List.append_nil, wordsOfLexemes, List.append_nil]
    | cons l ls' =>
      rw [hlex] at hq
      rw [wordsOfLexemes_append (hq l rfl), hdepth, add_zero]
  single := by rw [h, trailingLexemes_of_not_mem hsingle]

/-- What stands behind a part that is no byte of a word. -/
theorem isWord_head?_lex (hq : ∀ d ∈ q.head?, isWordByte d = false) :
    ∀ l ∈ (lex q).head?, l.isWord = false := by
  intro l hl
  cases q with
  | nil => rw [lex_nil] at hl; cases hl
  | cons c q =>
    rw [lex_cons] at hl
    obtain rfl := Option.some.inj hl
    rw [Bool.eq_false_iff]
    intro hword
    have hc := isWordByte_of_lexStep hword
    rw [hq c rfl] at hc
    cases hc

theorem adds_comma (q : Bytes) : Adds [ch ','] q [] where
  words := by
    rw [List.singleton_append, wordsFrom, lex_plain (by decide), wordsOfLexemes,
      if_neg (by decide), if_neg (by decide), if_neg (by decide), List.nil_append, wordsFrom]
  single := by
    rw [List.singleton_append, lex_plain (by decide), trailingLexemes, if_neg (by decide),
      if_neg (by decide), Bool.false_or]

/-- The bytes that trivia starts with. -/
def startsTrivia (c : UInt8) : Bool :=
  isAsciiWhitespace c || c == ch '/' || c == ch '#' || c == ch '-'

/-- What is known of the bytes that trivia starts with, and of what follows it. -/
theorem Trivia.forall_head?_append {P : UInt8 → Prop} (hP : ∀ c, startsTrivia c = true → P c)
    (h : Trivia b) (hq : ∀ d ∈ q.head?, P d) : ∀ d ∈ (b ++ q).head?, P d := by
  cases h with
  | nil => exact hq
  | @space c t hc ht =>
    intro d hd
    obtain rfl : c = d := Option.some.inj hd
    exact hP c (by rw [startsTrivia, hc, Bool.true_or, Bool.true_or, Bool.true_or])
  | block | hash | dashes =>
    intro d hd
    rw [← Option.some.inj hd]
    exact hP _ (by decide)

theorem isUnquotedByte_of_startsTrivia (c : UInt8) (hc : startsTrivia c = true) :
    isUnquotedByte c = false :=
  forall_byte (p := fun c ↦ startsTrivia c = true → isUnquotedByte c = false) (by decide) c hc

/-- Behind trivia stands no byte of an identifier if none follows it. -/
theorem Trivia.head?_append (h : Trivia b) (hq : ∀ d ∈ q.head?, isUnquotedByte d = false) :
    ∀ d ∈ (b ++ q).head?, isUnquotedByte d = false :=
  h.forall_head?_append isUnquotedByte_of_startsTrivia hq

/-- Trivia that is not empty ends an identifier whatever follows it. -/
theorem Trivia.head?_append_of_ne_nil (h : Trivia b) (hb : b ≠ []) (q : Bytes) :
    ∀ d ∈ (b ++ q).head?, isUnquotedByte d = false := by
  rw [List.head?_append_of_ne_nil b hb]
  have hhead := h.head?_append (q := []) fun d hd ↦ by cases hd
  rwa [List.append_nil] at hhead

end Adds

/-- A text that may stand in parentheses: lexically closed there, with nested parentheses and
without semicolons, and arbitrary otherwise. -/
structure Enclosed where
  inner : Bytes
  lexemes : List Lexeme
  closed : LexesBefore (ch ')') inner lexemes
  nested : Nested lexemes
  single : .byte (ch ';') ∉ lexemes

namespace Enclosed

variable (e : Enclosed)

def text : Bytes := ch '(' :: (e.inner ++ [ch ')'])

def words : List (Bytes × ℤ) := wordsOfLexemes 1 e.lexemes

theorem adds (q : Bytes) : Adds e.text q e.words where
  words := by
    rw [text, List.cons_append, List.append_assoc, List.singleton_append]
    exact wordsFrom_enclosed e.closed e.nested 0 q
  single := by
    rw [text, List.cons_append, List.append_assoc, List.singleton_append, lex_plain (by decide),
      e.closed.append (by decide), trailingLexemes, if_neg (by decide), if_neg (by decide),
      Bool.false_or, trailingLexemes_of_not_mem e.single, trailingLexemes, if_neg (by decide),
      if_neg (by decide), Bool.false_or]

theorem words_depth {w : Bytes × ℤ} (hw : w ∈ e.words) : 0 < w.2 := e.nested.le_depth hw

end Enclosed

end SqlReplay
