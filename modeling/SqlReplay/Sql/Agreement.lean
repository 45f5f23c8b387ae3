import SqlReplay.Sql.Scanners

/-!
# The scanners agree

The four loops that see a whole text run under the labelling `contexts`: a turn of each moves over
bytes that have the context its branch stands for. The slow-log parser's loop is run line by line,
and its labelling depends on the state it is in (`contextsFrom`). The newlines between the lines it
never sees, but none of them changes the state: a newline that a backslash escapes would not have
closed the string either, and two dashes before the end of a line are two dashes before white space.

So every scanner gives every byte that it visits the context that the reference lexer gives it, and
any two of them agree where both have been (`scanners_agree`).
-/

namespace SqlReplay

open Fingerprint

/-! ## Under the labelling -/

section Labels

variable {c : UInt8} {rest after : Bytes} {k : Context}

theorem trailingScanner_labels {s s' : Bool} (hno : NoExecutable (c :: rest))
    (h : trailingScanner.step s c rest = (k, some (s', after))) :
    contexts (c :: rest) = span (c :: rest) after k ++ contexts after := by
  rw [trailingScanner] at h
  dsimp only at h
  split_ifs at h with hb he hl hw hs ha hq <;> cases h
  · exact absurd he (hno.not_opens hb)
  · exact contexts_block hb he
  · exact contexts_line hl
  · exact (CodeRun.cons ⟨hb, hl, not_isQuote_of_isAsciiWhitespace hw⟩ (.refl rest)).contexts_eq
  · rw [hs]
    exact (CodeRun.cons (opensNothing_of_isPlain (by decide) rest) (.refl rest)).contexts_eq
  · exact contexts_quoted hq
  · exact (CodeRun.cons ⟨hb, hl, hq⟩ (.refl rest)).contexts_eq

theorem tokenScanner_labels {s s' : ℤ × List (Bytes × ℤ)} (hno : NoExecutable (c :: rest))
    (h : tokenScanner.step s c rest = (k, some (s', after))) :
    contexts (c :: rest) = span (c :: rest) after k ++ contexts after := by
  rw [tokenScanner] at h
  dsimp only at h
  split_ifs at h with ho hc hq hb he hl hw <;> cases h
  · rw [ho]
    exact (CodeRun.cons (opensNothing_of_isPlain (by decide) rest) (.refl rest)).contexts_eq
  · rw [hc]
    exact (CodeRun.cons (opensNothing_of_isPlain (by decide) rest) (.refl rest)).contexts_eq
  · exact contexts_quoted hq
  · exact absurd he (hno.not_opens hb)
  · exact contexts_block hb he
  · exact contexts_line hl
  · have hword : CodeRun rest (rest.dropWhile isWordByte) :=
      CodeRun.dropWhile (fun _ ↦ isPlain_of (by decide)) rest
    exact (CodeRun.cons ⟨hb, hl, hq⟩ hword).contexts_eq
  · exact (CodeRun.cons ⟨hb, hl, hq⟩ (.refl rest)).contexts_eq

theorem placeholderScanner_labels {s s' : List Bytes × Bytes × ℕ} (hno : NoExecutable (c :: rest))
    (h : placeholderScanner.step s c rest = (k, some (s', after))) :
    contexts (c :: rest) = span (c :: rest) after k ++ contexts after := by
  rw [placeholderScanner] at h
  dsimp only at h
  by_cases hplaceholder : c = ch '?'
  · rw [if_pos hplaceholder] at h
    subst hplaceholder
    split at h <;> cases h
    exact (CodeRun.cons (opensNothing_of_isPlain (by decide) rest) (.refl rest)).contexts_eq
  rw [if_neg hplaceholder] at h
  obtain ⟨rfl, hnext⟩ := Prod.mk.inj h
  obtain ⟨-, rfl⟩ := Prod.mk.inj (Option.some.inj hnext)
  rw [skipCopied]
  split_ifs with hq hl hb
  · exact contexts_quoted hq
  · exact contexts_line hl
  · rw [← List.drop_one]
    exact contexts_block hb (hno.not_opens hb)
  · have hchar : CodeRun rest (rest.dropWhile fun d ↦ d &&& 0xC0 == 0x80) :=
      CodeRun.dropWhile (fun d hd ↦ isPlain_of (p := fun d ↦ d &&& 0xC0 == 0x80) (by decide) hd)
        rest
    exact (CodeRun.cons ⟨hb, hl, hq⟩ hchar).contexts_eq

theorem fingerprintScanner_labels {out out' : Bytes} (hno : NoExecutable (c :: rest))
    (h : fingerprintScanner.step out c rest = (k, some (out', after))) :
    contexts (c :: rest) = span (c :: rest) after k ++ contexts after := by
  have hsnd {x : Bytes × Bytes} {k' : Context} (hx : (k', some x) = (k, some (out', after))) :
      k' = k ∧ x.2 = after :=
    ⟨(Prod.mk.inj hx).1, congrArg Prod.snd (Option.some.inj (Prod.mk.inj hx).2)⟩
  rw [fingerprintScanner] at h
  dsimp only at h
  split_ifs at h with hq hi hb hl hw hn hident <;> obtain ⟨rfl, rfl⟩ := hsnd h
  · have hquote : isQuote c = true ∧ c ≠ backtick := by rcases hq with rfl | rfl <;> decide
    rw [skipString_eq hquote.2]
    exact contexts_quoted hquote.1
  · rw [copyIdent_eq, hi]
    exact contexts_quoted (by decide)
  · exact contexts_block hb (hno.not_opens hb)
  · exact contexts_line hl
  · exact (CodeRun.cons ⟨hb, hl, not_isQuote_of_isAsciiWhitespace hw⟩ (.refl rest)).contexts_eq
  · have hplain : isPlain c = true := by
      rcases hn with hdigit | ⟨rfl, -⟩
      · exact isPlain_of (by decide) hdigit
      · decide
    exact (CodeRun.cons (opensNothing_of_isPlain hplain rest) (.refl rest)).contexts_eq
  · exact (codeRun_skipNumber (hn.imp_right And.left)).contexts_eq
  · have hquote : ¬isQuote c := by
      simp only [isQuote, Bool.or_eq_true, beq_iff_eq]
      rintro ((h | h) | h)
      · exact hq (Or.inl h)
      · exact hq (Or.inr h)
      · exact hi h
    exact (CodeRun.cons ⟨hb, hl, hquote⟩ (codeRun_pushLossyLower out c rest)).contexts_eq

end Labels

/-! ## Line by line -/

/-- The contexts of the bytes of a text that starts in a state of the parser. -/
def contextsFrom : SqlState → Bytes → List Context
  | .normal, b => contexts b
  | .inString q, b => span b (skipQuoted q b) (.quoted q) ++ contexts (skipQuoted q b)
  | .inComment, b => span b (skipBlockComment b) .blockComment ++ contexts (skipBlockComment b)

theorem contextsFrom_inString {q : UInt8} {b after : Bytes} (hafter : after <:+ b)
    (h : skipQuoted q b = skipQuoted q after) :
    contextsFrom (.inString q) b =
      span b after (.quoted q) ++ contextsFrom (.inString q) after := by
  rw [contextsFrom, contextsFrom, h, span_trans hafter (skipQuoted_suffix q after),
    List.append_assoc]

theorem contextsFrom_inComment {b after : Bytes} (hafter : after <:+ b)
    (h : skipBlockComment b = skipBlockComment after) :
    contextsFrom .inComment b = span b after .blockComment ++ contextsFrom .inComment after := by
  rw [contextsFrom, contextsFrom, h, span_trans hafter (skipBlockComment_suffix after),
    List.append_assoc]

/-- The end of a line is white space to the line, and so is the newline there. -/
theorem opensLineComment_append_newline {t : Bytes} (ht : ∀ d, t.head? = some d → d = newline)
    (c : UInt8) (rest : Bytes) :
    opensLineComment c (rest ++ t) = opensLineComment c rest := by
  match rest with
  | [] =>
    cases t with
    | nil => rfl
    | cons d t =>
      obtain rfl := ht d rfl
      show (c == ch '#' || c == ch '-' && some newline == some (ch '-') && _) =
        (c == ch '#' || c == ch '-' && none == some (ch '-') && _)
      rw [show (some newline == some (ch '-')) = false by decide,
        show ((none : Option UInt8) == some (ch '-')) = false from rfl, Bool.and_false,
        Bool.false_and, Bool.false_and]
  | [d] =>
    cases t with
    | nil => rfl
    | cons e t =>
      obtain rfl := ht e rfl
      rfl
  | d :: e :: rest => rfl

/-- A turn of the parser's loop moves over positions that bear its context, in a text that ends
behind the line or goes on there with a newline. -/
theorem lineScanner_labels {s s' : SqlState} {c : UInt8} {rest after t : Bytes} {k : Context}
    (ht : ∀ d, t.head? = some d → d = newline) (hline : newline ∉ c :: rest)
    (hs : s ≠ .inString newline) (hno : NoExecutable (c :: rest ++ t))
    (h : lineScanner.step s c rest = (k, some (s', after))) :
    contextsFrom s (c :: rest ++ t) =
      span (c :: rest) after k ++ contextsFrom s' (after ++ t) := by
  have hafter : after ++ t <:+ c :: (rest ++ t) := by
    obtain ⟨p, hp⟩ := (lineScanner.step_suffix h).trans (List.suffix_cons c rest)
    exact ⟨p, by rw [← List.append_assoc, hp]; rfl⟩
  rw [← span_append_right (c :: rest) after t]
  obtain ⟨hc, hrest⟩ := not_or.mp (mt List.mem_cons.mpr hline)
  -- the byte behind the line, and a byte of the line, are told apart
  have hhead (d : UInt8) (hd : d ≠ newline) : (rest ++ t).head? = some d ↔ rest.head? = some d := by
    cases rest with
    | nil =>
      refine ⟨fun h ↦ absurd (ht d h) hd, fun h ↦ ?_⟩
      cases h
    | cons e rest => rfl
  cases s with
  | inString q =>
    have hq : q ≠ newline := fun hq ↦ hs (congrArg _ hq)
    rw [lineScanner] at h
    dsimp only at h
    split_ifs at h with hesc hclose hdouble <;> cases h
    · refine contextsFrom_inString hafter ?_
      rw [List.cons_append, skipQuoted_cons, if_pos hesc]
      cases rest with
      | cons d rest => rfl
      | nil =>
        -- the escaped byte is the newline: it would not have closed the string anyway
        cases t with
        | nil => rfl
        | cons d t =>
          obtain rfl := ht d rfl
          show skipQuoted q t = skipQuoted q (newline :: t)
          rw [skipQuoted_cons, if_neg fun h ↦ absurd h.1 (by decide), if_neg hq.symm]
    · refine contextsFrom_inString hafter ?_
      obtain ⟨rest, rfl⟩ := List.head?_eq_some_iff.mp hdouble
      rw [List.cons_append, skipQuoted_cons, if_neg hesc, if_pos hclose]
      exact if_pos List.head?_cons
    · have hskip : skipQuoted q (c :: (rest ++ t)) = rest ++ t := by
        rw [skipQuoted_cons, if_neg hesc, if_pos hclose, if_neg fun h ↦ hdouble ((hhead q hq).mp h)]
      rw [contextsFrom.eq_2, List.cons_append, hskip]
      rfl
    · refine contextsFrom_inString hafter ?_
      rw [List.cons_append, skipQuoted_cons, if_neg hesc, if_neg hclose]
  | inComment =>
    rw [lineScanner] at h
    dsimp only at h
    split_ifs at h with hclose <;> cases h
    · obtain ⟨rest, rfl⟩ := List.head?_eq_some_iff.mp hclose.2
      have hskip : skipBlockComment (c :: (ch '/' :: rest ++ t)) = rest ++ t := by
        rw [skipBlockComment_cons, if_pos ⟨hclose.1, rfl⟩]
        rfl
      rw [contextsFrom.eq_3, List.cons_append, hskip]
      rfl
    · refine contextsFrom_inComment hafter ?_
      rw [List.cons_append, skipBlockComment_cons,
        if_neg fun h ↦ hclose ⟨h.1, (hhead (ch '/') (by decide)).mp h.2⟩]
  | normal =>
    have hopens : opensBlockComment c (rest ++ t) = opensBlockComment c rest := by
      rw [opensBlockComment, opensBlockComment, Bool.eq_iff_iff]
      simp only [Bool.and_eq_true, beq_iff_eq, hhead (ch '*') (by decide)]
    have hopensLine := opensLineComment_append_newline ht c rest
    rw [lineScanner] at h
    dsimp only at h
    rw [contextsFrom, List.cons_append]
    split_ifs at h with hq hb hl <;> cases h
    · rw [contexts_quoted hq, contextsFrom,
        span_trans (List.suffix_cons c (rest ++ t)) (skipQuoted_suffix c _), List.append_assoc]
    · obtain ⟨rest, rfl⟩ : ∃ r, rest = ch '*' :: r := by
        simp only [opensBlockComment, Bool.and_eq_true, beq_iff_eq] at hb
        exact List.head?_eq_some_iff.mp hb.2
      have hno' : NoExecutable (c :: (ch '*' :: rest ++ t)) := hno
      rw [← hopens] at hb
      rw [contexts_block hb (hno'.not_opens hb), contextsFrom, List.tail_cons]
      show span _ (skipBlockComment (rest ++ t)) _ ++ _ = _
      rw [span_trans hafter (skipBlockComment_suffix (rest ++ t)), List.append_assoc]
      rfl
    · have hskip : skipLineComment (rest ++ t) = t := by
        have hall : ∀ d ∈ rest, decide (d ≠ newline) = true := fun d hd ↦
          decide_eq_true fun heq ↦ hrest (heq ▸ hd)
        rw [skipLineComment, List.dropWhile_append_of_pos hall]
        cases t with
        | nil => rfl
        | cons d t =>
          obtain rfl := ht d rfl
          rfl
      rw [← hopensLine] at hl
      rw [contexts_line hl, hskip]
      rfl
    · rw [← hopens] at hb
      rw [← hopensLine] at hl
      exact (CodeRun.cons ⟨hb, hl, hq⟩ (.refl (rest ++ t))).contexts_eq

/-- The state behind a line is no string that a newline would close. -/
theorem lineScanner_state {s s' : SqlState} {c : UInt8} {rest after : Bytes} {k : Context}
    (hs : s ≠ .inString newline) (h : lineScanner.step s c rest = (k, some (s', after))) :
    s' ≠ .inString newline := by
  cases s with
  | inString q =>
    rw [lineScanner] at h
    dsimp only at h
    split_ifs at h <;> cases h
    · exact hs
    · exact hs
    · rintro ⟨⟩
    · exact hs
  | inComment =>
    rw [lineScanner] at h
    dsimp only at h
    split_ifs at h <;> cases h <;> rintro ⟨⟩
  | normal =>
    rw [lineScanner] at h
    dsimp only at h
    split_ifs at h with hq <;> cases h
    · rintro ⟨⟩
      exact absurd hq (by decide)
    all_goals rintro ⟨⟩

/-- One line: the contexts of the text are those that the parser gives to the line, and behind them
those of the rest of the text in the state behind the line. -/
theorem contextsFrom_line {s : SqlState} {line t : Bytes}
    (ht : ∀ d, t.head? = some d → d = newline) (hline : newline ∉ line)
    (hs : s ≠ .inString newline) (hno : NoExecutable (line ++ t)) :
    contextsFrom s (line ++ t) =
      lineScanner.visits s line ++ contextsFrom (scanSqlState s line) t := by
  have hfinal := final_lineScanner s line
  generalize scanSqlState s line = s₁ at hfinal ⊢
  induction s, line using lineScanner.induction with
  | nil s =>
    rw [Scanner.final_nil] at hfinal
    rw [Scanner.visits_nil, Option.some.inj hfinal]
    rfl
  | returns s c rest k h =>
    rw [Scanner.final_of_return h] at hfinal
    cases hfinal
  | step s c rest k s' after h ih =>
    have hsuffix := (lineScanner.step_suffix h).trans (List.suffix_cons c rest)
    have hafter : NoExecutable (after ++ t) := by
      obtain ⟨p, hp⟩ := hsuffix
      exact hno.of_suffix ⟨p, by rw [← List.append_assoc, hp]⟩
    rw [Scanner.final_of_step h] at hfinal
    rw [lineScanner_labels ht hline hs hno h, Scanner.visits_of_step h, List.append_assoc,
      ih (fun hmem ↦ hline (hsuffix.mem hmem)) (lineScanner_state hs h) hafter hfinal]

/-- A newline changes no state. -/
theorem contextsFrom_newline {s : SqlState} (hs : s ≠ .inString newline) (t : Bytes) :
    ∃ k, contextsFrom s (newline :: t) = k :: contextsFrom s t := by
  cases s with
  | normal =>
    exact ⟨.code, contexts_code (opensNothing_of_isPlain (by decide) t)⟩
  | inString q =>
    refine ⟨.quoted q, ?_⟩
    have hskip : skipQuoted q (newline :: t) = skipQuoted q t := by
      rw [skipQuoted_cons, if_neg fun h ↦ absurd h.1 (by decide), if_neg fun h ↦ hs (by rw [h])]
    rw [contextsFrom_inString (List.suffix_cons newline t) hskip,
      span_cons (List.suffix_refl t), span_self]
    rfl
  | inComment =>
    refine ⟨.blockComment, ?_⟩
    have hskip : skipBlockComment (newline :: t) = skipBlockComment t := by
      rw [skipBlockComment_cons, if_neg fun h ↦ absurd h.1 (by decide)]
    rw [contextsFrom_inComment (List.suffix_cons newline t) hskip,
      span_cons (List.suffix_refl t), span_self]
    rfl

/-- What the parser's loop gives to the bytes of a text that it is fed line by line. The newlines
between the lines are not visited. -/
def lineVisits : SqlState → List Bytes → List (Option Context)
  | _, [] => []
  | s, [line] => (lineScanner.visits s line).map some
  | s, line :: lines =>
    (lineScanner.visits s line).map some ++ none :: lineVisits (scanSqlState s line) lines

/-- The contexts of a text, its newlines left out. -/
def hideNewlines (b : Bytes) (ks : List Context) : List (Option Context) :=
  List.zipWith (fun c k ↦ if c = newline then none else some k) b ks

theorem hideNewlines_line {line : Bytes} (hline : newline ∉ line) {ks : List Context}
    (hlength : line.length = ks.length) : hideNewlines line ks = ks.map some := by
  induction line generalizing ks with
  | nil => rw [List.eq_nil_of_length_eq_zero hlength.symm]; rfl
  | cons c line ih =>
    obtain ⟨hc, hline⟩ := not_or.mp (mt List.mem_cons.mpr hline)
    cases ks with
    | nil => cases hlength
    | cons k ks =>
      have htail := ih hline (Nat.succ.inj hlength)
      rw [hideNewlines] at htail ⊢
      rw [List.zipWith_cons_cons, if_neg (Ne.symm hc), htail, List.map_cons]

theorem scanSqlState_ne {s : SqlState} (hs : s ≠ .inString newline) (line : Bytes) :
    scanSqlState s line ≠ .inString newline := by
  have hfinal := final_lineScanner s line
  generalize scanSqlState s line = s₁ at hfinal ⊢
  induction s, line using lineScanner.induction with
  | nil s =>
    rw [Scanner.final_nil] at hfinal
    exact Option.some.inj hfinal ▸ hs
  | returns s c rest k h =>
    rw [Scanner.final_of_return h] at hfinal
    cases hfinal
  | step s c rest k s' after h ih =>
    rw [Scanner.final_of_step h] at hfinal
    exact ih (lineScanner_state hs h) hfinal

theorem contextsFrom_nil (s : SqlState) : contextsFrom s [] = [] := by
  cases s with
  | normal => exact contexts_nil
  | inString q => rw [contextsFrom, skipQuoted, span_self, contexts_nil, List.append_nil]
  | inComment => rw [contextsFrom, skipBlockComment, span_self, contexts_nil, List.append_nil]

theorem length_contextsFrom (s : SqlState) (b : Bytes) : (contextsFrom s b).length = b.length := by
  cases s with
  | normal => exact length_contexts b
  | inString q =>
    rw [contextsFrom, List.length_append, length_contexts,
      length_span (skipQuoted_suffix q b)]
  | inComment =>
    rw [contextsFrom, List.length_append, length_contexts,
      length_span (skipBlockComment_suffix b)]

/-- The parser gives every byte of a line that it visits the context that the byte has in the whole
text. -/
theorem lineVisits_eq {s : SqlState} (hs : s ≠ .inString newline) {lines : List Bytes}
    (hne : lines ≠ []) (hlines : ∀ line ∈ lines, newline ∉ line)
    (hno : NoExecutable ([newline].intercalate lines)) :
    lineVisits s lines =
      hideNewlines ([newline].intercalate lines)
        (contextsFrom s ([newline].intercalate lines)) := by
  induction lines generalizing s with
  | nil => exact absurd rfl hne
  | cons line lines ih =>
    obtain ⟨hline, hrest⟩ := List.forall_mem_cons.mp hlines
    cases lines with
    | nil =>
      rw [List.intercalate_singleton] at hno ⊢
      have hlast := contextsFrom_line (t := []) (fun d h ↦ by cases h) hline hs
        (by rwa [List.append_nil])
      rw [List.append_nil, contextsFrom_nil, List.append_nil] at hlast
      rw [hlast, lineVisits, hideNewlines_line hline]
      rw [← hlast, length_contextsFrom]
    | cons next lines =>
      rw [List.intercalate_cons_cons, List.append_assoc, List.singleton_append] at hno ⊢
      have hfirst := contextsFrom_line (fun d h ↦ by
        rw [List.head?_cons] at h
        exact (Option.some.inj h).symm) hline hs hno
      obtain ⟨k, hk⟩ := contextsFrom_newline (scanSqlState_ne hs line)
        ([newline].intercalate (next :: lines))
      have hsuffix : [newline].intercalate (next :: lines) <:+
          line ++ newline :: [newline].intercalate (next :: lines) :=
        (List.suffix_cons _ _).trans (List.suffix_append _ _)
      -- the visits of a line are as many as its bytes, so the two lists are zipped line by line
      have hlength : line.length = (lineScanner.visits s line).length := by
        have htotal := congrArg List.length hfirst
        rw [length_contextsFrom, List.length_append, List.length_append, length_contextsFrom]
          at htotal
        exact Nat.add_right_cancel htotal
      have hrest' := ih (scanSqlState_ne hs line) (List.cons_ne_nil _ _) hrest
        (hno.of_suffix hsuffix)
      rw [hfirst, hk, hideNewlines, List.zipWith_append hlength, List.zipWith_cons_cons,
        if_pos rfl, ← hideNewlines, hideNewlines_line hline hlength, ← hideNewlines, ← hrest']
      rfl

/-! ## Agreement -/

/-- What each of the scanners gives to the positions of a text: the slow-log parser over its lines,
the fingerprint, the classifier's two loops and the expansion of placeholders. -/
def scannerVisits (values : List Bytes) (text : Bytes) : List (List (Option Context)) :=
  [lineVisits .normal (text.splitOn newline),
    (fingerprintScanner.visits [] text).map some,
    (tokenScanner.visits (0, []) text).map some,
    (trailingScanner.visits false text).map some,
    (placeholderScanner.visits (values, [], 0) text).map some]

/-- The scanners agree on a text, and visit all of it that they are meant to. -/
structure ScannersAgree (values : List Bytes) (text : Bytes) : Prop where
  agree : ∀ v ∈ scannerVisits values text, ∀ w ∈ scannerVisits values text,
    ∀ (i : ℕ) (j k : Context), v[i]? = some (some j) → w[i]? = some (some k) → j = k
  /-- The parser sees every byte that is not a newline. -/
  lines_visited : ∀ (i : ℕ) (c : UInt8), text[i]? = some c → c ≠ newline →
    ∃ k, (lineVisits .normal (text.splitOn newline))[i]? = some (some k)
  fingerprint_visited : (fingerprintScanner.visits [] text).length = text.length
  tokens_visited : (tokenScanner.visits (0, []) text).length = text.length
  trailing_visited : hasTrailingStatement text = false →
    (trailingScanner.visits false text).length = text.length
  placeholders_visited : (interpolateFrom values text).isSome →
    (placeholderScanner.visits (values, [], 0) text).length = text.length

theorem newline_not_mem_splitOn (text : Bytes) : ∀ line ∈ text.splitOn newline, newline ∉ line := by
  induction text with
  | nil =>
    intro line hline
    rw [List.splitOn_nil, List.mem_singleton] at hline
    rw [hline]
    exact List.not_mem_nil
  | cons c text ih =>
    rw [List.splitOn_cons_eq_if_modifyHead]
    split_ifs with hc
    · intro line hline
      rcases List.mem_cons.mp hline with rfl | hline
      · exact List.not_mem_nil
      · exact ih line hline
    · obtain ⟨first, lines, hsplit⟩ :=
        List.exists_cons_of_ne_nil (List.splitOn_ne_nil newline text)
      rw [hsplit] at ih ⊢
      obtain ⟨hfirst, hlines⟩ := List.forall_mem_cons.mp ih
      refine List.forall_mem_cons.mpr ⟨fun hmem ↦ ?_, hlines⟩
      rcases List.mem_cons.mp hmem with heq | hmem
      · exact hc (beq_iff_eq.mpr heq.symm)
      · exact hfirst hmem

section Agreement

variable {text : Bytes} (hno : NoExecutable text)
include hno

theorem trailingScanner_visits :
    trailingScanner.visits false text <+: contexts text ∧
      (hasTrailingStatement text = false → trailingScanner.visits false text = contexts text) := by
  obtain ⟨hstart, hall⟩ := trailingScanner.labels_of_step (P := NoExecutable)
    (fun b after h hafter ↦ h.of_suffix hafter) contexts_nil
    (fun s c rest k s' after h hstep ↦ trailingScanner_labels h hstep) false hno
  refine ⟨hstart, fun h ↦ hall ?_⟩
  rw [hasTrailingStatement, ← final_trailingScanner] at h
  rwa [← Option.isNone_eq_false_iff]

theorem tokenScanner_visits : tokenScanner.visits (0, []) text = contexts text := by
  obtain ⟨-, hall⟩ := tokenScanner.labels_of_step (P := NoExecutable)
    (fun b after h hafter ↦ h.of_suffix hafter) contexts_nil
    (fun s c rest k s' after h hstep ↦ tokenScanner_labels h hstep) (0, []) hno
  have hfinal := final_tokenScanner (TokenScanner.new text) []
  exact hall (by
    cases h : tokenScanner.final (0, []) text with
    | none => rw [TokenScanner.new, h] at hfinal; cases hfinal
    | some s => rfl)

theorem placeholderScanner_visits (values : List Bytes) :
    placeholderScanner.visits (values, [], 0) text <+: contexts text ∧
      ((interpolateFrom values text).isSome →
        placeholderScanner.visits (values, [], 0) text = contexts text) := by
  obtain ⟨hstart, hall⟩ := placeholderScanner.labels_of_step (P := NoExecutable)
    (fun b after h hafter ↦ h.of_suffix hafter) contexts_nil
    (fun s c rest k s' after h hstep ↦ placeholderScanner_labels h hstep) (values, [], 0) hno
  refine ⟨hstart, fun h ↦ hall ?_⟩
  have hfinal := congrArg Option.isSome (final_placeholderScanner values text [] 0)
  rw [Option.isSome_map, Option.isSome_map] at hfinal
  rwa [hfinal]

theorem fingerprintScanner_visits : fingerprintScanner.visits [] text = contexts text := by
  obtain ⟨-, hall⟩ := fingerprintScanner.labels_of_step (P := NoExecutable)
    (fun b after h hafter ↦ h.of_suffix hafter) contexts_nil
    (fun s c rest k s' after h hstep ↦ fingerprintScanner_labels h hstep) [] hno
  exact hall (by rw [final_fingerprintScanner]; rfl)

theorem lineVisits_splitOn :
    lineVisits .normal (text.splitOn newline) = hideNewlines text (contexts text) := by
  have hjoin : [newline].intercalate (text.splitOn newline) = text :=
    List.intercalate_splitOn newline
  have hnormal : SqlState.normal ≠ .inString newline := by
    rintro ⟨⟩
  have hvisits := lineVisits_eq hnormal (List.splitOn_ne_nil newline text)
    (newline_not_mem_splitOn text) (by rwa [hjoin])
  rwa [hjoin] at hvisits

end Agreement

/-- Every scanner gives every byte that it visits the context of the reference lexer. -/
theorem scannerVisits_eq {text : Bytes} (hno : NoExecutable text) (values : List Bytes)
    {v : List (Option Context)} (hv : v ∈ scannerVisits values text) {i : ℕ} {k : Context}
    (hk : v[i]? = some (some k)) : (contexts text)[i]? = some k := by
  have hstart {ks : List Context} (hks : ks <+: contexts text) (h : v = ks.map some) :
      (contexts text)[i]? = some k := by
    rw [h, List.getElem?_map, Option.map_eq_some_iff] at hk
    obtain ⟨k', hk', heq⟩ := hk
    obtain rfl := Option.some.inj heq
    obtain ⟨after, hafter⟩ := hks
    rw [← hafter, List.getElem?_append_left (List.getElem?_eq_some_iff.mp hk').1, hk']
  simp only [scannerVisits, List.mem_cons, List.not_mem_nil, or_false] at hv
  rcases hv with h | h | h | h | h
  · rw [h, lineVisits_splitOn hno, hideNewlines, List.getElem?_zipWith_eq_some] at hk
    obtain ⟨c, k', hc, hk', heq⟩ := hk
    split_ifs at heq
    rw [hk', Option.some.inj heq]
  · exact hstart (fingerprintScanner_visits hno ▸ List.prefix_refl _) h
  · exact hstart (tokenScanner_visits hno ▸ List.prefix_refl _) h
  · exact hstart (trailingScanner_visits hno).1 h
  · exact hstart (placeholderScanner_visits hno values).1 h

/-- The scanners agree on the context of every byte that two of them visit. -/
theorem scanners_agree {text : Bytes} (hno : NoExecutable text) (values : List Bytes) :
    ScannersAgree values text where
  agree := by
    intro v hv w hw i j k hj hk
    exact Option.some.inj ((scannerVisits_eq hno values hv hj).symm.trans
      (scannerVisits_eq hno values hw hk))
  lines_visited := by
    intro i c hc hne
    have hlt : i < (contexts text).length := by
      rw [length_contexts]
      exact (List.getElem?_eq_some_iff.mp hc).1
    refine ⟨(contexts text)[i], ?_⟩
    rw [lineVisits_splitOn hno, hideNewlines, List.getElem?_zipWith_eq_some]
    exact ⟨c, _, hc, List.getElem?_eq_getElem hlt, if_neg hne⟩
  fingerprint_visited := by rw [fingerprintScanner_visits hno, length_contexts]
  tokens_visited := by rw [tokenScanner_visits hno, length_contexts]
  trailing_visited := fun h ↦ by rw [(trailingScanner_visits hno).2 h, length_contexts]
  placeholders_visited := fun h ↦ by
    rw [(placeholderScanner_visits hno values).2 h, length_contexts]

/-- A string, a comment and two quotes over two lines. -/
theorem scanners_agree_sample :
    ScannersAgree [ascii "1"] (ascii "SELECT 'a''b\\" ++ newline :: ascii "' /*/ */ , ? -- c") :=
  scanners_agree (by decide) [ascii "1"]

end SqlReplay
