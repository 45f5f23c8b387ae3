import SqlReplay.Proto.ParamLiteral
import SqlReplay.Sql.CodeLevel
import SqlReplay.Sql.Delimited

/-!
# Values in a statement

A value takes the place of a question mark, and the rest of the statement must not notice. Inside
the value that means: it is one literal (`OneLiteral`), closed at its end, without comments, and
with no semicolon or quote at code level. Outside it means that every byte keeps its context, code,
string or comment. Both hold when the placeholder stands between boundaries, white space or the like
on both sides.

The literal side is by the grammar: `ParamLiteral.oneLiteral` goes through the kinds of literals.
For the rest, the loop of `interpolate` cuts the statement at its placeholders, and the context of a
construct depends on what follows it by one or two bytes of lookahead. A boundary is in the way of
any lookahead, so a construct in front of a placeholder is scanned alike whatever value stands there
(`textContexts_copied`), and the induction along the loop puts the pieces together
(`nonempty_placeholderCut`).

What is left is the decimals that are no numbers. `Expansion.keepsStructure_iff` says that they are
all that goes wrong: the expansion keeps the structure of the statement exactly if every decimal
that is written without quotes is a number.
-/

namespace SqlReplay

open Fingerprint

/-! ## Contexts -/

/-- The scanner of `interpolate`, byte by byte at code level: an executable comment is a comment. -/
def copyScanner : Scanner Unit UInt8 Context where
  step _ c rest :=
    if isQuote c then (.quoted c, some ((), skipQuoted c rest))
    else if opensLineComment c rest then (.lineComment, some ((), skipLineComment rest))
    else if opensBlockComment c rest then (.blockComment, some ((), skipBlockComment rest.tail))
    else (.code, some ((), rest))
  step_suffix := by
    intro s c rest k s' after h
    split_ifs at h
    · cases h
      exact skipQuoted_suffix c rest
    · cases h
      exact skipLineComment_suffix rest
    · cases h
      exact (skipBlockComment_suffix rest.tail).trans (List.tail_suffix rest)
    · cases h
      exact List.suffix_refl rest

/-- The lexical context of every byte of a statement. -/
def textContexts (b : Bytes) : List Context := copyScanner.visits () b

section Contexts

variable {c : UInt8} {rest b after : Bytes}

theorem textContexts_nil : textContexts [] = [] := Scanner.visits_nil _ _

theorem textContexts_quoted (h : isQuote c = true) :
    textContexts (c :: rest) =
      span (c :: rest) (skipQuoted c rest) (.quoted c) ++ textContexts (skipQuoted c rest) :=
  Scanner.visits_of_step (if_pos h)

theorem textContexts_line (h : opensLineComment c rest = true) :
    textContexts (c :: rest) =
      span (c :: rest) (skipLineComment rest) .lineComment ++ textContexts (skipLineComment rest) :=
  Scanner.visits_of_step ((if_neg (opensLineComment_not_isQuote h)).trans (if_pos h))

theorem textContexts_block (h : opensBlockComment c rest = true) :
    textContexts (c :: rest) =
      span (c :: rest) (skipBlockComment rest.tail) .blockComment ++
        textContexts (skipBlockComment rest.tail) := by
  have hl : ¬opensLineComment c rest = true := by
    intro hl
    simp only [opensBlockComment, Bool.and_eq_true, beq_iff_eq] at h
    rw [h.1] at hl
    simp [opensLineComment, ch] at hl
  exact Scanner.visits_of_step ((if_neg (opensBlockComment_not_isQuote h)).trans
    ((if_neg hl).trans (if_pos h)))

theorem textContexts_code (h : OpensNothing c rest) :
    textContexts (c :: rest) = .code :: textContexts rest := by
  have hstep : copyScanner.step () c rest = (.code, some ((), rest)) :=
    (if_neg h.2.2).trans ((if_neg h.2.1).trans (if_neg h.1))
  rw [textContexts, Scanner.visits_of_step hstep, span_cons (List.suffix_refl rest), span_self]
  rfl

theorem CodeRun.textContexts_eq (h : CodeRun b after) :
    textContexts b = span b after .code ++ textContexts after := by
  induction h with
  | refl b => rw [span_self, List.nil_append]
  | cons hc h ih => rw [textContexts_code hc, ih, span_cons h.suffix, List.cons_append]

end Contexts

/-- Without executable comments these are the contexts of the reference lexer. -/
theorem textContexts_eq_contexts {b : Bytes} (h : NoExecutable b) :
    textContexts b = contexts b := by
  induction hn : b.length using Nat.strong_induction_on generalizing b with
  | _ n ih =>
  subst hn
  cases b with
  | nil => rw [textContexts_nil, contexts_nil]
  | cons c rest =>
    have hrest {after : Bytes} (hafter : after <:+ rest) : textContexts after = contexts after :=
      ih after.length (Nat.lt_succ_of_le hafter.length_le)
        (h.of_suffix (hafter.trans (List.suffix_cons c rest))) rfl
    by_cases hq : isQuote c = true
    · rw [textContexts_quoted hq, contexts_quoted hq, hrest (skipQuoted_suffix c rest)]
    by_cases hl : opensLineComment c rest = true
    · rw [textContexts_line hl, contexts_line hl, hrest (skipLineComment_suffix rest)]
    by_cases hb : opensBlockComment c rest = true
    · rw [textContexts_block hb, contexts_block hb (h.not_opens hb), List.drop_one,
        hrest ((skipBlockComment_suffix rest.tail).trans (List.tail_suffix rest))]
    · rw [textContexts_code ⟨hb, hl, hq⟩, contexts_code ⟨hb, hl, hq⟩, hrest (List.suffix_refl rest)]

/-! ## A literal in its place -/

/-- The bytes that a placeholder may stand between. -/
def isBoundary (c : UInt8) : Bool :=
  isAsciiWhitespace c || c == ch '(' || c == ch ')' || c == ch ',' || c == ch '='

theorem isBoundary_spec {c : UInt8} (hc : isBoundary c = true) :
    isSeparator c = true ∧ c ≠ ch '?' ∧ (isIdentByte c = false ∧ c ≠ ch '.' ∧ c ≠ singleQuote ∧
      c ≠ doubleQuote) ∧ isQuote c = false :=
  forall_byte (p := fun c ↦ isBoundary c = true → isSeparator c = true ∧ c ≠ ch '?' ∧
    (isIdentByte c = false ∧ c ≠ ch '.' ∧ c ≠ singleQuote ∧ c ≠ doubleQuote) ∧
      isQuote c = false) (by decide) c hc

/-- The text is one complete literal wherever a boundary or the end of the text stands behind it: it
opens nothing that goes on, and holds no comment and no semicolon or quote at code level. -/
structure OneLiteral (v : Bytes) : Prop where
  literal : ParamLiteral v
  split : ∀ after : Bytes, (∀ c ∈ after.head?, isBoundary c = true) →
    textContexts (v ++ after) = textContexts v ++ textContexts after
  noComment : ∀ k ∈ textContexts v, k ≠ .blockComment ∧ k ≠ .lineComment
  clean : ∀ p ∈ v.zip (textContexts v), p.2 = .code → p.1 ≠ ch ';' ∧ isQuote p.1 = false

section OneLiteral

variable {v : Bytes}

/-- It is enough to know the contexts in front of every text. -/
theorem OneLiteral.of_contexts (h : ParamLiteral v) (ks : List Context)
    (hks : ∀ after : Bytes, (∀ c ∈ after.head?, isBoundary c = true) →
      textContexts (v ++ after) = ks ++ textContexts after)
    (hcomment : ∀ k ∈ ks, k ≠ .blockComment ∧ k ≠ .lineComment)
    (hclean : ∀ p ∈ v.zip ks, p.2 = .code → p.1 ≠ ch ';' ∧ isQuote p.1 = false) :
    OneLiteral v := by
  have hv := hks [] fun c hc ↦ by cases hc
  rw [textContexts_nil, List.append_nil, List.append_nil] at hv
  rw [← hv] at hks hcomment hclean
  exact ⟨h, hks, hcomment, hclean⟩

/-- A literal all of whose bytes stand at code level. -/
theorem OneLiteral.of_codeRun (h : ParamLiteral v)
    (hclean : ∀ c ∈ v, c ≠ ch ';' ∧ isQuote c = false)
    (hrun : ∀ after : Bytes, (∀ c ∈ after.head?, isBoundary c = true) →
      CodeRun (v ++ after) after) :
    OneLiteral v := by
  refine .of_contexts h (List.replicate v.length .code) (fun after hafter ↦ ?_)
    (fun k hk ↦ ?_) fun p hp _ ↦ hclean _ (List.of_mem_zip hp).1
  · rw [(hrun after hafter).textContexts_eq, span_append]
  · rw [List.eq_of_mem_replicate hk]
    decide

theorem Number.isNumeralByte {n : Bytes} (h : Number n) : ∀ c ∈ n, isNumeralByte c = true := by
  intro c hc
  rw [SqlReplay.isNumeralByte]
  cases h with
  | decimal hm he =>
    have hbyte : isDecimalByte c = true := by
      rcases List.mem_append.mp hc with hc | hc
      · exact hm.isDecimalByte c hc
      · exact he.isDecimalByte c hc
    rw [hbyte]
    rfl
  | @hex x digits hx hdigits hne =>
    rw [List.mem_cons, List.mem_cons] at hc
    rcases hc with rfl | rfl | hc
    · rfl
    · rw [beq_iff_eq.mpr hx, Bool.or_true]
    · rw [hdigits c hc, Bool.or_true, Bool.true_or]

/-- A number does not open anything, whatever stands behind it. -/
theorem codeRun_number {n after : Bytes} (h : Number n) (hafter : EndsLiteral after) :
    CodeRun (n ++ after) after := by
  obtain ⟨c, rest, heq, hc⟩ := h.head after
  have hrun : CodeRun (c :: rest) (skipNumber (c :: rest)) :=
    codeRun_skipNumber (hc.imp id fun h ↦ h.1)
  rwa [← heq, skipNumber_append h hafter] at hrun

theorem endsLiteral_of_isBoundary {after : Bytes} (h : ∀ c ∈ after.head?, isBoundary c = true) :
    EndsLiteral after := fun c hc ↦ (isBoundary_spec (h c hc)).2.2.1

/-- The sign of a number opens no comment, because no second one follows it. -/
theorem codeRun_signed {sign n after : Bytes}
    (hsign : sign = [] ∨ sign = [ch '+'] ∨ sign = [ch '-']) (h : Number n)
    (hafter : EndsLiteral after) : CodeRun (sign ++ n ++ after) after := by
  have hrun := codeRun_number h hafter
  rw [List.append_assoc]
  rcases hsign with rfl | rfl | rfl
  · exact hrun
  · exact .cons (opensNothing_of_isPlain (by decide) _) hrun
  · refine .cons ⟨Bool.false_ne_true, fun hdash ↦ ?_, by decide⟩ hrun
    obtain ⟨c, rest, heq, hc⟩ := h.head after
    rw [heq] at hdash
    have hne : c ≠ ch '-' := by
      rcases hc with hdigit | ⟨rfl, -⟩
      · rintro rfl
        exact absurd hdigit (by decide)
      · decide
    simp [opensLineComment, hne] at hdash
    exact absurd hdash (by decide)

/-- A closed string in single quotes. -/
theorem textContexts_string {body after : Bytes} (h : QuotedBody singleQuote body)
    (hafter : after.head? ≠ some singleQuote) :
    textContexts (singleQuote :: (body ++ [singleQuote]) ++ after) =
      List.replicate (body.length + 2) (.quoted singleQuote) ++ textContexts after := by
  have hskip : skipQuoted singleQuote (body ++ [singleQuote] ++ after) = after := by
    rw [List.append_assoc]
    exact skipQuoted_body (by decide) (by decide) h hafter
  rw [List.cons_append, textContexts_quoted (by decide), hskip, ← List.cons_append, span_append,
    List.length_cons, List.length_append, List.length_singleton]

theorem ne_quote_of_isBoundary {after : Bytes} (h : ∀ c ∈ after.head?, isBoundary c = true) :
    after.head? ≠ some singleQuote := fun hhead ↦
  (endsLiteral_of_isBoundary h _ hhead).2.2.1 rfl

/-- **A literal stays one literal wherever it is put.** -/
theorem ParamLiteral.oneLiteral (h : ParamLiteral v) : OneLiteral v := by
  cases h with
  | null =>
    refine .of_codeRun .null (by decide +kernel) fun after _ ↦ ?_
    exact .of_plain (by decide +kernel) after
  | @number sign n hsign hn =>
    refine .of_codeRun (.number sign hsign hn) (fun c hc ↦ ?_) fun after hafter ↦
      codeRun_signed hsign hn (endsLiteral_of_isBoundary hafter)
    have hclean (c : UInt8) (hc : (isNumeralByte c || c == ch '+' || c == ch '-') = true) :
        c ≠ ch ';' ∧ isQuote c = false :=
      forall_byte (p := fun c ↦ (isNumeralByte c || c == ch '+' || c == ch '-') = true →
        c ≠ ch ';' ∧ isQuote c = false) (by decide) c hc
    refine hclean c ?_
    rcases List.mem_append.mp hc with hc | hc
    · rcases hsign with rfl | rfl | rfl
      · exact absurd hc List.not_mem_nil
      · rw [List.mem_singleton.mp hc]
        decide
      · rw [List.mem_singleton.mp hc]
        decide
    · rw [hn.isNumeralByte c hc]
      rfl
  | @string body hbody =>
    refine .of_contexts (.string hbody) _
      (fun after hafter ↦ textContexts_string hbody (ne_quote_of_isBoundary hafter))
      (fun k hk ↦ ?_) fun p hp hcode ↦ ?_
    · rw [List.eq_of_mem_replicate hk]
      exact ⟨nofun, nofun⟩
    · rw [List.eq_of_mem_replicate (List.of_mem_zip hp).2] at hcode
      cases hcode
  | @hex digits hdigits =>
    have hbody : QuotedBody singleQuote digits := by
      induction digits with
      | nil => exact .nil
      | cons c digits ih =>
        obtain ⟨hc, hrest⟩ := List.forall_mem_cons.mp hdigits
        have hplain : c ≠ backslash ∧ c ≠ singleQuote :=
          forall_byte (p := fun c ↦ isAsciiHexdigit c = true → c ≠ backslash ∧ c ≠ singleQuote)
            (by decide) c hc
        exact .plain hplain.1 hplain.2 (ih hrest)
    refine .of_contexts (.hex hdigits)
      (.code :: List.replicate (digits.length + 2) (.quoted singleQuote))
      (fun after hafter ↦ ?_) (List.forall_mem_cons.mpr ⟨by decide, fun k hk ↦ ?_⟩)
      fun p hp hcode ↦ ?_
    · have hstring := textContexts_string hbody (ne_quote_of_isBoundary hafter)
      rw [List.cons_append, textContexts_code (opensNothing_of_isPlain (by decide) _), hstring]
      rfl
    · rw [List.eq_of_mem_replicate hk]
      exact ⟨nofun, nofun⟩
    · rw [List.zip_cons_cons] at hp
      rcases List.mem_cons.mp hp with rfl | hp
      · decide
      · rw [List.eq_of_mem_replicate (List.of_mem_zip hp).2] at hcode
        cases hcode

end OneLiteral

/-! ## Where the placeholders stand -/

/-- The places that `interpolate` takes for placeholders stand between boundaries. `done` is what
stands in front of the text. -/
def SeparatedBehind (done b : Bytes) : Prop :=
  ∀ pre post : Bytes, b = pre ++ ch '?' :: post → (textContexts b)[pre.length]? = some .code →
    (∀ c ∈ (done ++ pre).getLast?, isBoundary c = true) ∧ ∀ c ∈ post.head?, isBoundary c = true

/-- Every question mark at code level stands between white space, parentheses, commas, equality
signs and the ends of the text. -/
def Separated (sql : Bytes) : Prop := SeparatedBehind [] sql

theorem SeparatedBehind.append {done k after : Bytes} (h : SeparatedBehind done (k ++ after))
    (ks : List Context) (hlength : ks.length = k.length)
    (hks : textContexts (k ++ after) = ks ++ textContexts after) :
    SeparatedBehind (done ++ k) after := by
  intro pre post heq hcode
  have hplace : (textContexts (k ++ after))[(k ++ pre).length]? = some .code := by
    rw [hks, List.length_append, ← hlength, List.getElem?_append_right (Nat.le_add_right _ _),
      Nat.add_sub_cancel_left, hcode]
  rw [List.append_assoc]
  exact h (k ++ pre) post (by rw [heq, List.append_assoc]) hplace

/-- A stretch of a statement with the contexts of its bytes, and no placeholder in it. -/
structure Stretch where
  text : Bytes
  contexts : List Context
  length_eq : contexts.length = text.length
  noPlaceholder : (ch '?', Context.code) ∉ text.zip contexts

/-- The statement cut at its placeholders: the expanded text has a value at each of them, and the
bytes between them keep the contexts they have in the statement. -/
structure PlaceholderCut (values : List Bytes) (sql out : Bytes) where
  first : Stretch
  others : List (Bytes × Stretch)
  values_eq : others.map Prod.fst = values
  sql_eq : sql = first.text ++ others.flatMap fun x ↦ ch '?' :: x.2.text
  sql_contexts : textContexts sql =
    first.contexts ++ others.flatMap fun x ↦ .code :: x.2.contexts
  out_eq : out = first.text ++ others.flatMap fun x ↦ x.1 ++ x.2.text
  out_contexts : textContexts out =
    first.contexts ++ others.flatMap fun x ↦ textContexts x.1 ++ x.2.contexts

/-! ## One turn of the copying loop -/

/-- What is copied in one turn. -/
def copied (c : UInt8) (rest : Bytes) : Bytes := c :: consumed rest (skipCopied c rest)

/-- The context it stands in. -/
def copyContext (c : UInt8) (rest : Bytes) : Context :=
  if isQuote c then .quoted c
  else if opensLineComment c rest then .lineComment
  else if opensBlockComment c rest then .blockComment
  else .code

section Copy

variable {c : UInt8} {rest : Bytes}

theorem copied_append (c : UInt8) (rest : Bytes) :
    copied c rest ++ skipCopied c rest = c :: rest := by
  rw [copied, List.cons_append, consumed_append (skipCopied_suffix c rest)]

/-- The continuation bytes of a character are at code level. -/
theorem isPlain_of_continuation {d : UInt8} (hd : (d &&& 0xC0 == 0x80) = true) :
    isPlain d = true := isPlain_of (p := fun d ↦ d &&& 0xC0 == 0x80) (by decide) hd

theorem span_copied (c : UInt8) (rest : Bytes) (k : Context) :
    span (c :: rest) (skipCopied c rest) k = List.replicate (copied c rest).length k := by
  rw [← copied_append, span_append]

theorem opensNothing_of_copyContext (h : copyContext c rest = .code) : OpensNothing c rest := by
  rw [copyContext] at h
  split_ifs at h with hq hl hb
  exact ⟨hb, hl, hq⟩

/-- At code level a byte is copied with the continuation bytes behind it. -/
theorem isContinuation_of_copied (hcode : copyContext c rest = .code) :
    ∀ d ∈ consumed rest (skipCopied c rest), (d &&& 0xC0 == 0x80) = true := by
  obtain ⟨hb, hl, hq⟩ := opensNothing_of_copyContext hcode
  have hskip : skipCopied c rest = rest.dropWhile fun d ↦ d &&& 0xC0 == 0x80 := by
    rw [skipCopied, if_neg hq, if_neg hl, if_neg hb]
  have hconsumed : consumed rest (skipCopied c rest) =
      rest.takeWhile fun d ↦ d &&& 0xC0 == 0x80 := by
    refine List.append_cancel_right ((consumed_append (skipCopied_suffix c rest)).trans ?_)
    rw [hskip, List.takeWhile_append_dropWhile]
  intro d hd
  rw [hconsumed] at hd
  exact List.mem_takeWhile_imp (p := fun d ↦ d &&& 0xC0 == 0x80) (l := rest) hd

/-- What is copied at code level stands at code level in front of every text, if the first byte of
it still opens nothing. -/
theorem textContexts_code_copied (hcode : copyContext c rest = .code) {t : Bytes}
    (h : OpensNothing c (consumed rest (skipCopied c rest) ++ t)) :
    textContexts (copied c rest ++ t) =
      List.replicate (copied c rest).length .code ++ textContexts t := by
  have hrun : CodeRun (copied c rest ++ t) t := by
    rw [copied, List.cons_append]
    exact .cons h (.of_plain (fun d hd ↦
      isPlain_of_continuation (isContinuation_of_copied hcode d hd)) t)
  rw [hrun.textContexts_eq, span_append]

theorem textContexts_copy (c : UInt8) (rest : Bytes) :
    textContexts (c :: rest) = List.replicate (copied c rest).length (copyContext c rest) ++
      textContexts (skipCopied c rest) := by
  rw [← span_copied]
  by_cases hq : isQuote c = true
  · rw [textContexts_quoted hq, copyContext, if_pos hq, skipCopied, if_pos hq]
  by_cases hl : opensLineComment c rest = true
  · rw [textContexts_line hl, copyContext, if_neg hq, if_pos hl, skipCopied, if_neg hq, if_pos hl]
  by_cases hb : opensBlockComment c rest = true
  · rw [textContexts_block hb, copyContext, if_neg hq, if_neg hl, if_pos hb, skipCopied, if_neg hq,
      if_neg hl, if_pos hb]
  · have hcode : copyContext c rest = .code := by
      rw [copyContext, if_neg hq, if_neg hl, if_neg hb]
    have hcopy := textContexts_code_copied (t := skipCopied c rest) hcode (by
      rw [consumed_append (skipCopied_suffix c rest)]
      exact ⟨hb, hl, hq⟩)
    rw [copied_append] at hcopy
    rw [hcopy, hcode, span_copied]

/-- What is copied, when it is known to be `p`. -/
theorem copied_eq {p : Bytes} (h : rest = p ++ skipCopied c rest) : copied c rest = c :: p := by
  rw [copied]
  congr 1
  exact List.append_cancel_right ((consumed_append (skipCopied_suffix c rest)).trans h)

theorem head?_append_ne_nil {p : Bytes} (hp : p ≠ []) (t t' : Bytes) :
    (p ++ t).head? = (p ++ t').head? := by
  rw [List.head?_append_of_ne_nil p hp, List.head?_append_of_ne_nil p hp]

/-- **A construct in front of a placeholder** is copied in the same way whatever stands in the
place of the placeholder, as long as a boundary stands in front of that. -/
theorem textContexts_copied {p t : Bytes} {n : UInt8}
    (hafter : skipCopied c rest = p ++ ch '?' :: t)
    (hlast : (copied c rest ++ p).getLast? = some n) (hn : isBoundary n = true) (tail : Bytes) :
    textContexts (copied c rest ++ (p ++ tail)) =
      List.replicate (copied c rest).length (copyContext c rest) ++ textContexts (p ++ tail) := by
  obtain ⟨hsep, -, -, hquote⟩ := isBoundary_spec hn
  have hne : skipCopied c rest ≠ [] := by
    rw [hafter]
    exact List.append_ne_nil_of_right_ne_nil _ (List.cons_ne_nil _ _)
  by_cases hq : isQuote c = true
  · have hskipCopied : skipCopied c rest = skipQuoted c rest := by rw [skipCopied, if_pos hq]
    rw [hskipCopied] at hne hafter
    obtain ⟨body, hbody, hhead, hskip⟩ := skipQuoted_split hne
    have hcopied : copied c rest = c :: body := copied_eq (by rw [hskipCopied]; exact hbody)
    have hp : p ≠ [] := by
      -- else the closing quote would be the boundary
      rintro rfl
      obtain ⟨q, hclose⟩ := skipQuoted_close hne
      have hend : copied c rest = c :: (q ++ [c]) := copied_eq (by
        rw [hskipCopied, List.append_assoc]
        exact hclose)
      rw [List.append_nil, hend, ← List.cons_append, List.getLast?_concat] at hlast
      rw [← Option.some.inj hlast, hq] at hquote
      cases hquote
    have hskip' : skipQuoted c (body ++ (p ++ tail)) = p ++ tail := by
      refine hskip _ ?_
      rw [head?_append_ne_nil hp tail (ch '?' :: t), ← hafter]
      exact hhead
    rw [hcopied, List.cons_append, textContexts_quoted hq, hskip', ← List.cons_append, span_append,
      copyContext, if_pos hq]
  by_cases hl : opensLineComment c rest = true
  · have hskipCopied : skipCopied c rest = skipLineComment rest := by
      rw [skipCopied, if_neg hq, if_pos hl]
    rw [hskipCopied] at hne hafter
    have hnewline := skipLineComment_head hne
    have hbody : rest = rest.takeWhile (· ≠ newline) ++ skipLineComment rest :=
      List.takeWhile_append_dropWhile.symm
    have hp : p ≠ [] := by
      rintro rfl
      rw [hafter] at hnewline
      exact absurd (Option.some.inj hnewline) (by decide)
    have hhead : (p ++ tail).head? = (skipLineComment rest).head? := by
      rw [head?_append_ne_nil hp tail (ch '?' :: t), ← hafter]
    have hcopied : copied c rest = c :: rest.takeWhile (· ≠ newline) :=
      copied_eq (by rw [hskipCopied]; exact hbody)
    have hskip := skipLineComment_append (b := rest) (hhead.trans hnewline)
    have hopens : opensLineComment c (rest.takeWhile (· ≠ newline) ++ (p ++ tail)) = true := by
      refine opensLineComment_append ?_ hhead (by rwa [← hbody])
      refine or_iff_not_imp_right.mpr fun hhash ↦ ?_
      simp only [opensLineComment, Bool.or_eq_true, Bool.and_eq_true, beq_iff_eq, hhash,
        false_or] at hl
      obtain ⟨r, rfl⟩ := List.head?_eq_some_iff.mp hl.1.2
      rw [List.takeWhile_cons_of_pos (by decide)]
      exact List.cons_ne_nil _ _
    rw [hcopied, List.cons_append, textContexts_line hopens, hskip, ← List.cons_append,
      span_append, copyContext, if_neg hq, if_pos hl]
  by_cases hb : opensBlockComment c rest = true
  · have hskipCopied : skipCopied c rest = skipBlockComment rest.tail := by
      rw [skipCopied, if_neg hq, if_neg hl, if_pos hb]
    obtain ⟨r, rfl⟩ : ∃ r, rest = ch '*' :: r :=
      List.head?_eq_some_iff.mp (beq_iff_eq.mp (Bool.and_eq_true_iff.mp hb).2)
    rw [List.tail_cons] at hskipCopied
    rw [hskipCopied] at hne
    obtain ⟨e, body, hbody, hskip⟩ := skipBlockComment_split hne
    have hcopied : copied c (ch '*' :: r) = c :: ch '*' :: e :: body :=
      copied_eq (by rw [hskipCopied]; exact congrArg (ch '*' :: ·) hbody)
    have hopens : opensBlockComment c (ch '*' :: (e :: body ++ (p ++ tail))) = true := hb
    have hcontext := textContexts_block hopens
    rw [List.tail_cons, hskip] at hcontext
    rw [hcopied]
    refine hcontext.trans ?_
    rw [copyContext, if_neg hq, if_neg hl, if_pos hb]
    exact congrArg (· ++ _) (span_append (c :: ch '*' :: e :: body) (p ++ tail) _)
  · have hcode : copyContext c rest = .code := by
      rw [copyContext, if_neg hq, if_neg hl, if_neg hb]
    rw [hcode]
    refine textContexts_code_copied hcode ?_
    have hrest : rest = consumed rest (skipCopied c rest) ++ p ++ ch '?' :: t :=
      calc rest = consumed rest (skipCopied c rest) ++ skipCopied c rest :=
            (consumed_append (skipCopied_suffix c rest)).symm
        _ = consumed rest (skipCopied c rest) ++ (p ++ ch '?' :: t) :=
            congrArg (consumed rest (skipCopied c rest) ++ ·) hafter
        _ = _ := (List.append_assoc _ _ _).symm
    have hopens : OpensNothing c rest := ⟨hb, hl, hq⟩
    rw [← List.append_assoc]
    rw [copied, List.cons_append] at hlast
    generalize consumed rest (skipCopied c rest) ++ p = m at hrest hlast
    rcases List.eq_nil_or_concat' m with rfl | ⟨r, e, rfl⟩
    · -- the boundary is the byte itself
      obtain rfl : c = n := Option.some.inj hlast
      exact opensNothing_of_isPlain (isSeparator_spec hsep).1 _
    · obtain rfl : e = n := by
        rw [← List.cons_append, List.getLast?_concat] at hlast
        exact Option.some.inj hlast
      have hdash : e ≠ ch '-' := ne_of_isPlain (isSeparator_spec hsep).1 rfl
      rw [hrest, List.append_assoc, List.singleton_append] at hopens
      rw [List.append_assoc, List.singleton_append]
      refine ⟨?_, ?_, hq⟩
      · rw [opensBlockComment_anchor, ← opensBlockComment_anchor c r e (ch '?' :: t)]
        exact hopens.1
      · rw [opensLineComment_anchor c r hdash, ← opensLineComment_anchor c r hdash (ch '?' :: t)]
        exact hopens.2.1

end Copy

/-! ## The loop -/

section Loop

variable {values : List Bytes} {b out : Bytes} {used : ℕ}

/-- What is copied has no placeholder in it. -/
theorem noPlaceholder_copied {c : UInt8} (hc : c ≠ ch '?') (rest : Bytes) :
    (ch '?', Context.code) ∉
      (copied c rest).zip (List.replicate (copied c rest).length (copyContext c rest)) := by
  intro hmem
  obtain ⟨htext, hcontext⟩ := List.of_mem_zip hmem
  have hcode := (List.eq_of_mem_replicate hcontext).symm
  rcases List.mem_cons.mp htext with heq | hd
  · exact hc heq.symm
  · exact absurd (isContinuation_of_copied hcode _ hd) (by decide)

/-- A stretch with what one turn copies in front of it. -/
def Stretch.cons (f : Stretch) {c : UInt8} (hc : c ≠ ch '?') (rest : Bytes) : Stretch where
  text := copied c rest ++ f.text
  contexts := List.replicate (copied c rest).length (copyContext c rest) ++ f.contexts
  length_eq := by rw [List.length_append, List.length_append, List.length_replicate, f.length_eq]
  noPlaceholder := by
    rw [List.zip_append (List.length_replicate).symm, List.mem_append, not_or]
    exact ⟨noPlaceholder_copied hc rest, f.noPlaceholder⟩

def Stretch.nil : Stretch := ⟨[], [], rfl, List.not_mem_nil⟩

namespace PlaceholderCut

variable {sql : Bytes}

/-- A statement and its expansion start alike, unless a placeholder is the first thing in it. -/
theorem head?_out (cut : PlaceholderCut values sql out)
    (hsql : ∀ c ∈ sql.head?, isBoundary c = true) :
    ∀ c ∈ out.head?, isBoundary c = true := by
  by_cases hfirst : cut.first.text = []
  · have hothers : cut.others = [] := by
      cases hcases : cut.others with
      | nil => rfl
      | cons x xs =>
        rw [cut.sql_eq, hfirst, hcases] at hsql
        exact absurd rfl (isBoundary_spec (hsql _ rfl)).2.1
    rw [cut.out_eq, hfirst, hothers]
    exact fun c hc ↦ by cases hc
  · have hhead := head?_append_ne_nil hfirst (cut.others.flatMap fun x ↦ x.1 ++ x.2.text)
      (cut.others.flatMap fun x ↦ ch '?' :: x.2.text)
    rwa [cut.out_eq, hhead, ← cut.sql_eq]

/-- A boundary stands in front of the first placeholder, if there is one. -/
theorem getLast?_first (cut : PlaceholderCut values sql out) {done : Bytes}
    (hsep : SeparatedBehind done sql) {x : Bytes × Stretch} {xs : List (Bytes × Stretch)}
    (hothers : cut.others = x :: xs) :
    ∀ c ∈ (done ++ cut.first.text).getLast?, isBoundary c = true := by
  have hsql := cut.sql_eq
  have hcontexts := cut.sql_contexts
  rw [hothers, List.flatMap_cons] at hsql hcontexts
  refine (hsep cut.first.text _ hsql ?_).1
  rw [hcontexts, ← cut.first.length_eq, List.getElem?_append_right (Nat.le_refl _), Nat.sub_self]
  rfl

end PlaceholderCut

/-- **The loop keeps the contexts.** -/
theorem nonempty_placeholderCut {done : Bytes} (h : interpolateFrom values b = some (out, used))
    (hused : used = values.length) (hvalues : ∀ v ∈ values, OneLiteral v)
    (hsep : SeparatedBehind done b) : Nonempty (PlaceholderCut values b out) := by
  fun_induction interpolateFrom values b generalizing out used done with
  | case1 values =>
    cases h
    obtain rfl := List.length_eq_zero_iff.mp hused.symm
    exact ⟨.nil, [], rfl, rfl, textContexts_nil, rfl, textContexts_nil⟩
  | case2 rest => cases h
  | case3 rest v values ih =>
    -- a placeholder at code level: its value is one literal, so what follows is at code level again
    obtain ⟨⟨out', used'⟩, h', heq⟩ := Option.map_eq_some_iff.mp h
    cases heq
    have hcode : textContexts (ch '?' :: rest) = .code :: textContexts rest :=
      textContexts_code (opensNothing_of_isPlain (by decide) rest)
    have hnext := (hsep [] rest rfl (by rw [hcode]; rfl)).2
    obtain ⟨hv, hrest⟩ := List.forall_mem_cons.mp hvalues
    obtain ⟨cut⟩ := ih h' (Nat.succ.inj hused) hrest
      (hsep.append (k := [ch '?']) [.code] rfl hcode)
    refine ⟨.nil, (v, cut.first) :: cut.others, congrArg (v :: ·) cut.values_eq,
      congrArg (ch '?' :: ·) cut.sql_eq, ?_, ?_, ?_⟩
    · rw [hcode]
      exact congrArg (Context.code :: ·) cut.sql_contexts
    · exact (congrArg (v ++ ·) cut.out_eq).trans (List.append_assoc _ _ _).symm
    · have hcontexts := congrArg (textContexts v ++ ·) cut.out_contexts
      exact (hv.split out' (cut.head?_out hnext)).trans
        (hcontexts.trans (List.append_assoc _ _ _).symm)
  | case4 values c rest hc ih =>
    obtain ⟨⟨out', used'⟩, h', heq⟩ := Option.map_eq_some_iff.mp h
    cases heq
    have hcopy := textContexts_copy c rest
    rw [← copied_append c rest] at hsep hcopy
    have hsep' := hsep.append _ List.length_replicate hcopy
    obtain ⟨cut⟩ := ih h' hused hvalues hsep'
    have hout : textContexts (copied c rest ++ out') =
        List.replicate (copied c rest).length (copyContext c rest) ++ textContexts out' := by
      cases hothers : cut.others with
      | nil =>
        have hsql := cut.sql_eq
        have hout := cut.out_eq
        rw [hothers, List.flatMap_nil] at hsql hout
        rw [hout.trans hsql.symm, hcopy]
      | cons x xs =>
        -- a placeholder follows, so what is copied ends at a boundary and reads the same before it
        obtain ⟨n, hn⟩ : ∃ n, (copied c rest ++ cut.first.text).getLast? = some n :=
          ⟨_, List.getLast?_eq_some_getLast (List.cons_ne_nil _ _)⟩
        have hboundary : isBoundary n = true := by
          refine cut.getLast?_first hsep' hothers n ?_
          rw [List.append_assoc, List.getLast?_append, hn]
          rfl
        have hsql := cut.sql_eq
        rw [hothers, List.flatMap_cons, List.cons_append] at hsql
        have hcopied := textContexts_copied hsql hn hboundary
          (cut.others.flatMap fun x ↦ x.1 ++ x.2.text)
        rwa [← cut.out_eq] at hcopied
    refine ⟨cut.first.cons hc rest, cut.others, cut.values_eq, ?_, ?_, ?_, ?_⟩
    · have hsql := congrArg (copied c rest ++ ·) cut.sql_eq
      exact (copied_append c rest).symm.trans (hsql.trans (List.append_assoc _ _ _).symm)
    · have hcontexts := congrArg
        (List.replicate (copied c rest).length (copyContext c rest) ++ ·) cut.sql_contexts
      exact (textContexts_copy c rest).trans (hcontexts.trans (List.append_assoc _ _ _).symm)
    · exact (congrArg (copied c rest ++ ·) cut.out_eq).trans (List.append_assoc _ _ _).symm
    · have hcontexts := congrArg
        (List.replicate (copied c rest).length (copyContext c rest) ++ ·) cut.out_contexts
      exact hout.trans (hcontexts.trans (List.append_assoc _ _ _).symm)

end Loop

/-! ## Expansions -/

/-- A parameter as it is sent: `NULL` by the bitmap, as long data, or as a value of a type. -/
inductive SentParam
  | null
  | longData (data : Bytes)
  | value (ftype flags : UInt8) (wire : Bytes)

namespace SentParam

/-- What goes into the statement; nothing for a value that is not accepted. -/
def render : SentParam → Option Bytes
  | null => some (ascii "NULL")
  | longData data => some (bytesLiteral data)
  | value ftype flags wire => (decodeBinaryValue ftype flags wire).map Prod.fst

/-- A number with a sign or without. -/
def IsNumber (s : Bytes) : Prop :=
  ∃ sign n : Bytes, s = sign ++ n ∧ (sign = [] ∨ sign = [ch '+'] ∨ sign = [ch '-']) ∧ Number n

/-- A decimal that goes into the statement as it is, is a number. -/
def Proper : SentParam → Prop
  | value ftype _ wire => ftype = FieldType.DECIMAL ∨ ftype = FieldType.NEWDECIMAL →
      ∀ s rest, Reader.lenencBytes wire = some (s, rest) → Bare s → IsNumber s
  | _ => True

end SentParam

/-- A prepared statement with its placeholders between boundaries, and its expansion. -/
structure Expansion where
  sql : Bytes
  params : List SentParam
  values : List Bytes
  out : Bytes
  separated : Separated sql
  rendered : params.map SentParam.render = values.map some
  expanded : interpolate sql values values.length = some out

/-- Every value is one literal, and every byte outside the placeholders keeps its context. -/
def Expansion.KeepsStructure (e : Expansion) : Prop :=
  (∀ v ∈ e.values, OneLiteral v) ∧ Nonempty (PlaceholderCut e.values e.sql e.out)

section Expansion

variable {s v wire rest : Bytes} {ftype flags : UInt8}

theorem decodeBinaryValue_decimal (h : ftype = FieldType.DECIMAL ∨ ftype = FieldType.NEWDECIMAL)
    (flags : UInt8) : decodeBinaryValue ftype flags = decimalValue := by
  rcases h with rfl | rfl <;> rfl

/-- What a decimal is rendered as: as it is, or as a string. -/
theorem decimalValue_eq_some (h : decimalValue wire = some (v, rest)) :
    ∃ s, Reader.lenencBytes wire = some (s, rest) ∧ ((Bare s ∧ v = s) ∨ v = stringLiteral s) := by
  rw [decimalValue, Reader.bind_apply, Option.bind_eq_some_iff] at h
  obtain ⟨⟨s, wire'⟩, hs, h⟩ := h
  dsimp only at h
  split_ifs at h with hutf8 hbare
  · cases h
  · rw [Reader.pure_apply] at h
    cases h
    exact ⟨_, hs, .inl ⟨hbare, rfl⟩⟩
  · rw [Reader.pure_apply] at h
    cases h
    exact ⟨_, hs, .inr rfl⟩

theorem decimalValue_bare (hs : Reader.lenencBytes wire = some (s, rest)) (hbare : Bare s) :
    decimalValue wire = some (s, rest) := by
  have hutf8 : isUtf8 s = true := by
    refine isUtf8_of_ascii fun c hc ↦ ?_
    exact forall_byte (p := fun c ↦ isNumericByte c = true → c < 0x80) (by decide) c
      (List.all_eq_true.mp hbare.2 c hc)
  rw [decimalValue, Reader.bind_apply, hs, Option.bind_some]
  dsimp only
  have hbare' : s ≠ [] ∧ s.all isNumericByte = true := hbare
  rw [if_neg (by rw [hutf8]; decide), if_pos hbare']
  rfl

/-- A literal made of the bytes of numbers is a number. -/
theorem ParamLiteral.isNumber (h : ParamLiteral s) (hbare : Bare s) : SentParam.IsNumber s := by
  have hall := List.all_eq_true.mp hbare.2
  cases h with
  | null => exact absurd (hall (ch 'N') (by decide)) (by decide)
  | number sign hsign hn => exact ⟨sign, _, rfl, hsign, hn⟩
  | string => exact absurd (hall _ List.mem_cons_self) (by decide)
  | hex => exact absurd (hall _ List.mem_cons_self) (by decide)

/-- A parameter is rendered as a literal exactly if it is proper. -/
theorem SentParam.paramLiteral_iff {p : SentParam} (h : p.render = some v) :
    ParamLiteral v ↔ p.Proper := by
  cases p with
  | null =>
    obtain rfl := Option.some.inj h
    exact iff_of_true .null trivial
  | longData data =>
    obtain rfl := Option.some.inj h
    exact iff_of_true (paramLiteral_bytesLiteral data) trivial
  | value ftype flags wire =>
    obtain ⟨⟨v, rest⟩, hdecode, rfl⟩ := Option.map_eq_some_iff.mp h
    by_cases htype : ftype = FieldType.DECIMAL ∨ ftype = FieldType.NEWDECIMAL
    · rw [decodeBinaryValue_decimal htype] at hdecode
      constructor
      · intro hliteral _ s rest' hs hbare
        rw [decimalValue_bare hs hbare] at hdecode
        obtain ⟨rfl, -⟩ := Prod.mk.inj (Option.some.inj hdecode)
        exact hliteral.isNumber hbare
      · intro hproper
        obtain ⟨s, hs, ⟨hbare, rfl⟩ | rfl⟩ := decimalValue_eq_some hdecode
        · obtain ⟨sign, n, heq, hsign, hn⟩ := hproper htype _ _ hs hbare
          rw [heq]
          exact .number sign hsign hn
        · exact paramLiteral_stringLiteral s
    · have hliteral : Yields (decodeBinaryValue ftype flags) ParamLiteral :=
        yields_decodeBinaryValue (not_or.mp htype).1 (not_or.mp htype).2
      exact iff_of_true (hliteral _ _ _ hdecode) fun h ↦ absurd h htype

/-- **Which expansions keep the structure of the statement**: those in which every decimal that is
written without quotes is a number. -/
theorem Expansion.keepsStructure_iff (e : Expansion) :
    e.KeepsStructure ↔ ∀ p ∈ e.params, p.Proper := by
  constructor
  · intro h p hp
    have hmem : p.render ∈ e.values.map some := e.rendered ▸ List.mem_map_of_mem hp
    obtain ⟨v, hv, hrender⟩ := List.mem_map.mp hmem
    exact (SentParam.paramLiteral_iff hrender.symm).mp (h.1 v hv).literal
  · intro h
    have hvalues : ∀ v ∈ e.values, OneLiteral v := by
      intro v hv
      have hmem : some v ∈ e.params.map SentParam.render := e.rendered ▸ List.mem_map_of_mem hv
      obtain ⟨p, hp, hrender⟩ := List.mem_map.mp hmem
      exact ((SentParam.paramLiteral_iff hrender).mpr (h p hp)).oneLiteral
    have hexpanded := e.expanded
    rw [interpolate] at hexpanded
    split at hexpanded
    · cases hexpanded
    · next out used hfrom =>
      split_ifs at hexpanded with hused
      obtain rfl := Option.some.inj hexpanded
      exact ⟨hvalues, nonempty_placeholderCut hfrom hused hvalues e.separated⟩

end Expansion

/-- `Separated` on the prefixes of the text. -/
theorem separated_iff (sql : Bytes) : Separated sql ↔
    ∀ pre ∈ sql.inits, (sql.drop pre.length).head? = some (ch '?') →
      (textContexts sql)[pre.length]? = some .code →
        pre.getLast?.all isBoundary = true ∧
          (sql.drop pre.length).tail.head?.all isBoundary = true := by
  constructor
  · intro h pre hpre hhead hcode
    obtain ⟨post, rfl⟩ := (List.mem_inits pre sql).mp hpre
    rw [List.drop_left] at hhead ⊢
    obtain ⟨post, rfl⟩ := List.head?_eq_some_iff.mp hhead
    obtain ⟨hbefore, hbehind⟩ := h pre post rfl hcode
    exact ⟨(Option.all_eq_true _ _).mpr hbefore, (Option.all_eq_true _ _).mpr hbehind⟩
  · rintro h pre post rfl hcode
    have hplace := h pre ((List.mem_inits _ _).mpr (List.prefix_append _ _))
    rw [List.drop_left] at hplace
    obtain ⟨hbefore, hbehind⟩ := hplace rfl hcode
    exact ⟨(Option.all_eq_true _ _).mp hbefore, (Option.all_eq_true _ _).mp hbehind⟩

instance : DecidablePred Separated := fun sql ↦ decidable_of_iff _ (separated_iff sql).symm

/-- The decimal `--` opens a comment. -/
def dashesExpansion : Expansion where
  sql := ascii "SELECT ? , 1"
  params := [.value FieldType.NEWDECIMAL 0 (2 :: ascii "--")]
  values := [ascii "--"]
  out := ascii "SELECT -- , 1"
  separated := by decide +kernel
  rendered := by decide +kernel
  expanded := by decide +kernel

theorem Expansion.not_keepsStructure :
    (textContexts dashesExpansion.sql).getLast? = some .code ∧
      (textContexts dashesExpansion.out).getLast? = some .lineComment ∧
      ¬dashesExpansion.KeepsStructure := by
  refine ⟨by decide +kernel, by decide +kernel, fun h ↦ ?_⟩
  have hliteral := h.1 (ascii "--") (by decide)
  exact (hliteral.noComment .lineComment (by decide +kernel)).2 rfl

end SqlReplay
