import SqlReplay.Sql.Normalize

/-!
# The way to a place in the code

`AtCode b after read` says that the scanner, started at `b`, comes at code level to the suffix
`after`, and what it has read on its way, with its comments taken for white space. An executable
comment is a comment here, as it is for the fingerprint.

The result is `AtCode.normalize`: when the place is at a byte that no number, string or name
swallows, what `normalize` has written by then depends on the text before the place alone, whatever
follows. What a later turn can see of the output is what it would see of the text that was read:
`Follows` says so for the last byte and for the last one that is not white space.
-/

namespace SqlReplay

open Fingerprint

/-! ## Places -/

inductive AtCode : Bytes → Bytes → Bytes → Prop
  | refl (b : Bytes) : AtCode b b []
  | byte {c : UInt8} {rest after read : Bytes} (hc : OpensNothing c rest)
    (h : AtCode rest after read) : AtCode (c :: rest) after (c :: read)
  | quoted {c : UInt8} {rest after read : Bytes} (hc : isQuote c = true)
    (h : AtCode (skipQuoted c rest) after read) :
    AtCode (c :: rest) after (consumed (c :: rest) (skipQuoted c rest) ++ read)
  | block {c : UInt8} {rest after read : Bytes} (hc : opensBlockComment c rest = true)
    (h : AtCode (skipBlockComment (rest.drop 1)) after read) :
    AtCode (c :: rest) after (ch ' ' :: read)
  | line {c : UInt8} {rest after read : Bytes} (hc : opensLineComment c rest = true)
    (h : AtCode (skipLineComment rest) after read) : AtCode (c :: rest) after read

namespace AtCode

theorem suffix {b after read : Bytes} (h : AtCode b after read) : after <:+ b := by
  induction h with
  | refl b => exact List.suffix_refl b
  | byte _ _ ih => exact ih.trans (List.suffix_cons _ _)
  | quoted _ _ ih => exact ih.trans ((skipQuoted_suffix _ _).trans (List.suffix_cons _ _))
  | block _ _ ih =>
    exact ih.trans ((skipBlockComment_suffix _).trans
      ((List.drop_suffix _ _).trans (List.suffix_cons _ _)))
  | line _ _ ih => exact ih.trans ((skipLineComment_suffix _).trans (List.suffix_cons _ _))

/-- A place behind a stretch of code can be reached from behind that stretch. -/
theorem of_codeRun {b mid : Bytes} (hrun : CodeRun b mid) {x : UInt8} {read : Bytes}
    (h : AtCode b [x] read) (hmid : mid ≠ []) :
    ∃ read', read = consumed b mid ++ read' ∧ AtCode mid [x] read' := by
  induction hrun generalizing read with
  | refl b => exact ⟨read, by rw [consumed, Nat.sub_self]; rfl, h⟩
  | @cons c b mid hc hrun ih =>
    cases h with
    | refl => exact absurd (List.suffix_nil.mp hrun.suffix) hmid
    | byte _ h =>
      obtain ⟨read', rfl, h'⟩ := ih h hmid
      refine ⟨read', ?_, h'⟩
      obtain ⟨p, rfl⟩ := hrun.suffix
      have hcons : consumed (c :: (p ++ mid)) mid = c :: p := consumed_append_left (c :: p) mid
      rw [hcons, consumed_append_left, List.cons_append]
    | quoted hq => exact absurd hq hc.2.2
    | block hb => exact absurd hb hc.1
    | line hl => exact absurd hl hc.2.1

end AtCode

/-- A byte that no number, string or name swallows. -/
structure IsAnchor (x : UInt8) : Prop where
  ascii : x < 0x80
  notNumeral : isNumeralByte x = false
  notQuote : isQuote x = false

instance (x : UInt8) : Decidable (IsAnchor x) :=
  decidable_of_iff (x < 0x80 ∧ isNumeralByte x = false ∧ isQuote x = false)
    ⟨fun h ↦ ⟨h.1, h.2.1, h.2.2⟩, fun h ↦ ⟨h.ascii, h.notNumeral, h.notQuote⟩⟩

/-! ## What can be seen of the output -/

/-- The output looks, to a later turn, as the text that was read. -/
structure Follows (read out : Bytes) : Prop where
  utf8_read : isUtf8 read = true
  utf8_out : isUtf8 out = true
  solid : ∀ c ∈ signContext, lastSolid out = some c ↔ lastSolid read = some c
  ident : read.getLast?.any isIdentByte = false → out.getLast?.any isIdentByte = false
  ascii : (∀ c ∈ read.getLast?, c < 0x80) → ∀ c ∈ out.getLast?, c < 0x80
  backtick : out.getLast? = some backtick ↔ read.getLast? = some backtick

namespace Follows

theorem nil : Follows [] [] := by
  have hutf8 : isUtf8 [] = true := isUtf8_of_ascii fun _ h ↦ absurd h List.not_mem_nil
  exact ⟨hutf8, hutf8, fun _ _ ↦ Iff.rfl, id, id, Iff.rfl⟩

variable {read out : Bytes}

/-- Two texts with last bytes of one kind. -/
theorem of_last {c d : UInt8} (hread : isUtf8 (read ++ [c]) = true) (hout : isUtf8 out = true)
    (hc : isSolid c = true) (hd : isSolid d = true)
    (hsign : c = d ∨ c ∉ signContext ∧ d ∉ signContext)
    (hident : isIdentByte c = false → isIdentByte d = false)
    (hback : d = SqlReplay.backtick ↔ c = SqlReplay.backtick) :
    Follows (read ++ [c]) (out ++ [d]) := by
  refine ⟨hread, isUtf8_concat hout (isSolid_spec hd).1, fun x hx ↦ ?_, ?_, ?_, ?_⟩
  · rw [lastSolid_concat hc, lastSolid_concat hd, Option.some.injEq, Option.some.injEq]
    rcases hsign with rfl | ⟨hc', hd'⟩
    · exact Iff.rfl
    · exact ⟨fun h ↦ absurd (h ▸ hx) hd', fun h ↦ absurd (h ▸ hx) hc'⟩
  · rw [List.getLast?_concat, List.getLast?_concat]
    exact hident
  · intro _ e he
    rw [List.getLast?_concat] at he
    obtain rfl := Option.some.inj he
    exact (isSolid_spec hd).1
  · rw [List.getLast?_concat, List.getLast?_concat, Option.some.injEq, Option.some.injEq]
    exact hback

/-- White space, or a comment. -/
theorem space (h : Follows read out) {c : UInt8} (hc : isAsciiWhitespace c = true) :
    Follows (read ++ [c]) (pushSpace out) := by
  obtain ⟨hascii, hspace⟩ := isAsciiWhitespace_spec c hc
  have hlast := @getLast?_pushSpace out
  have hnot : isIdentByte c = false ∧ c ≠ SqlReplay.backtick :=
    forall_byte (p := fun c ↦ isAsciiWhitespace c = true →
      isIdentByte c = false ∧ c ≠ SqlReplay.backtick) (by decide) c hc
  refine ⟨isUtf8_concat h.utf8_read hascii, ?_, fun x hx ↦ ?_, fun _ ↦ ?_, fun _ x hx ↦ ?_, ?_⟩
  · rw [pushSpace]
    split_ifs
    · exact isUtf8_concat h.utf8_out (by decide)
    · exact h.utf8_out
  · rw [lastSolid_pushSpace, lastSolid_concat_space hascii hspace, h.solid x hx]
  · cases hl : (pushSpace out).getLast? with
    | none => rfl
    | some x =>
      rw [hlast x hl]
      decide
  · rw [hlast x hx]
    decide
  · rw [List.getLast?_concat, Option.some.injEq]
    refine ⟨fun hb ↦ ?_, fun hb ↦ absurd hb hnot.2⟩
    exact absurd (hlast _ hb) (by decide)

/-- An ASCII byte that is copied in lower case. -/
theorem push (h : Follows read out) {c : UInt8} (hc : c < 0x80) :
    Follows (read ++ [c]) (out ++ [toAsciiLowercase c]) := by
  have hspec := forall_byte (p := fun c ↦ c < 0x80 → toAsciiLowercase c < 0x80 ∧
    (isWhitespace [c] = true → toAsciiLowercase c = c) ∧
    (isWhitespace [c] = false → isSolid c = true ∧ isSolid (toAsciiLowercase c) = true ∧
      (c = toAsciiLowercase c ∨ c ∉ signContext ∧ toAsciiLowercase c ∉ signContext)) ∧
    (isIdentByte c = false → isIdentByte (toAsciiLowercase c) = false) ∧
    (toAsciiLowercase c = SqlReplay.backtick ↔ c = SqlReplay.backtick)) (by decide) c hc
  obtain ⟨hlow, hwhite, hsolid, hident, hback⟩ := hspec
  by_cases hspace : isWhitespace [c] = true
  · -- a vertical tab: white space to the standard library's trimming only
    rw [hwhite hspace]
    refine ⟨isUtf8_concat h.utf8_read hc, isUtf8_concat h.utf8_out hc, fun x hx ↦ ?_, ?_, ?_, ?_⟩
    · rw [lastSolid_concat_space hc hspace, lastSolid_concat_space hc hspace, h.solid x hx]
    all_goals rw [List.getLast?_concat, List.getLast?_concat]
    · exact id
    · exact id
  · rw [Bool.not_eq_true] at hspace
    obtain ⟨hc', hd', hsign⟩ := hsolid hspace
    exact of_last (isUtf8_concat h.utf8_read hc) h.utf8_out hc' hd' hsign hident hback

/-- A character that is not ASCII. -/
theorem char (h : Follows read out) {k : Bytes} (hutf8 : isUtf8 k = true) (hchar : chars k = [k])
    (hk : ∀ c ∈ k, 0x80 ≤ c) : Follows (read ++ k) (out ++ k) := by
  have hne : k ≠ [] := ne_nil_of_mem_chars (s := k) (by rw [hchar]; exact List.mem_singleton_self k)
  obtain ⟨c, hc⟩ := Option.ne_none_iff_exists'.mp (mt List.getLast?_eq_none_iff.mp hne)
  have hc80 := hk c (List.mem_of_getLast? hc)
  have hlast (b : Bytes) : (b ++ k).getLast? = some c := by rw [List.getLast?_append, hc]; rfl
  refine ⟨isUtf8_append h.utf8_read hutf8, isUtf8_append h.utf8_out hutf8,
    fun x hx ↦ ?_, ?_, ?_, ?_⟩
  · have htrim {b : Bytes} (hb : isUtf8 b = true) :
        lastSolid (b ++ k) = if isWhitespace k then lastSolid b else some c := by
      rw [lastSolid, trimEnd_append_char hb hchar]
      split_ifs
      · rfl
      · exact hlast b
    rw [htrim h.utf8_out, htrim h.utf8_read]
    split_ifs
    · exact h.solid x hx
    · exact Iff.rfl
  all_goals rw [hlast, hlast]
  · exact id
  · exact id

end Follows

/-! ## What a turn takes -/

/-- A string or name that is closed ends in its quote. -/
theorem skipQuoted_close {q : UInt8} {b : Bytes} (h : skipQuoted q b ≠ []) :
    ∃ p, b = p ++ q :: skipQuoted q b := by
  fun_induction skipQuoted q b with
  | case1 => exact absurd rfl h
  | case2 c => exact absurd rfl h
  | case3 c d rest hesc ih =>
    obtain ⟨p, hp⟩ := ih h
    exact ⟨c :: d :: p, congrArg (c :: d :: ·) hp⟩
  | case4 rest hesc ih =>
    obtain ⟨p, hp⟩ := ih h
    exact ⟨q :: q :: p, congrArg (q :: q :: ·) hp⟩
  | case5 d rest hd hesc => exact ⟨[], rfl⟩
  | case6 c d rest hesc hc ih =>
    obtain ⟨p, hp⟩ := ih h
    exact ⟨c :: p, congrArg (c :: ·) hp⟩

theorem skipBlockComment_close {b : Bytes} (h : skipBlockComment b ≠ []) :
    ∃ p, b = p ++ ch '/' :: skipBlockComment b := by
  fun_induction skipBlockComment b with
  | case1 => exact absurd rfl h
  | case2 c => exact absurd rfl h
  | case3 c d rest hclose => exact ⟨[c], by rw [hclose.2]; rfl⟩
  | case4 c d rest hclose ih =>
    obtain ⟨p, hp⟩ := ih h
    exact ⟨c :: p, congrArg (c :: ·) hp⟩

/-- A character that is not ASCII is copied as it is. -/
theorem pushLossyLower_char {c : UInt8} (hc : ¬c < 0x80) {pre : Bytes}
    (h : isUtf8 (c :: pre) = true) :
    ∃ k m, pre = k ++ m ∧ isUtf8 (c :: k) = true ∧ chars (c :: k) = [c :: k] ∧
      (∀ d ∈ c :: k, 0x80 ≤ d) ∧ isUtf8 m = true ∧
      ∀ out t, pushLossyLower out c (pre ++ t) = (out ++ c :: k, m ++ t) := by
  obtain ⟨hone, hchars, hutf8, hrest⟩ := isUtf8_cons h
  obtain ⟨hcount, hbytes⟩ := utf8Char_eq_true hc hone
  have hlen : utf8Len c = (utf8Char c pre).2 + 1 := by
    have hpos : 0 < utf8Len c := by
      rw [utf8Len]
      split_ifs <;> decide
    omega
  have hle := utf8Char_le c pre
  refine ⟨pre.take (utf8Char c pre).2, pre.drop (utf8Char c pre).2,
    (List.take_append_drop _ pre).symm, hutf8, hchars, ?_, hrest, fun out t ↦ ?_⟩
  · rw [hcount]
    exact List.forall_mem_cons.mpr ⟨UInt8.not_lt.mp hc, hbytes⟩
  · rw [pushLossyLower, if_neg hc]
    dsimp only
    rw [hlen, List.take_succ_cons, List.drop_succ_cons, List.take_append_of_le_length hle,
      List.drop_append_of_le_length hle, if_pos hutf8]

/-- What follows ASCII bytes in a valid text is valid. -/
theorem isUtf8_of_ascii_append {p m : Bytes} (hp : ∀ c ∈ p, c < 0x80) (h : isUtf8 (p ++ m) = true) :
    isUtf8 m = true := by
  rw [isUtf8, utf8Chars_append (isUtf8_of_ascii hp), List.all_append, Bool.and_eq_true] at h
  exact h.2

/-- A quoted identifier is copied up to its closing backtick, whatever follows the anchor. -/
theorem copyIdent_anchor {x : UInt8} (hx : x ≠ backtick) {pre m : Bytes}
    (hutf8 : isUtf8 pre = true) (hskip : skipQuoted backtick (pre ++ [x]) = m ++ [x]) {out : Bytes}
    (hout : isUtf8 out = true) :
    ∃ ident, isUtf8 (ident ++ [backtick]) = true ∧
      ∀ t, copyIdent out (pre ++ x :: t) = (ident ++ [backtick], m ++ x :: t) := by
  induction hn : pre.length using Nat.strong_induction_on generalizing pre out with
  | _ n ih =>
  subst hn
  cases pre with
  | nil =>
    rw [List.nil_append, skipQuoted] at hskip
    exact absurd (congrArg List.length hskip) (by simp)
  | cons c pre =>
    rw [List.cons_append, skipQuoted_cons, if_neg fun h ↦ h.2 rfl] at hskip
    by_cases hc : c = backtick
    · -- a backtick closes the identifier unless it is doubled
      subst hc
      rw [if_pos rfl] at hskip
      have hpre := (isUtf8_append_cons_iff (s := []) (c := backtick) (by decide)).mp hutf8
      cases pre with
      | nil =>
        have hhead : ¬([] ++ [x]).head? = some backtick := fun h ↦ hx (Option.some.inj h)
        rw [if_neg hhead] at hskip
        obtain rfl : m = [] := (List.append_cancel_right hskip).symm
        refine ⟨out, isUtf8_concat hout (by decide), fun t ↦ ?_⟩
        rw [List.cons_append, copyIdent, if_pos rfl]
        exact if_neg fun h ↦ hx (Option.some.inj h)
      | cons d pre =>
        by_cases hd : d = backtick
        · subst hd
          rw [List.cons_append, List.head?_cons, if_pos rfl, List.tail_cons] at hskip
          have hpre' := (isUtf8_append_cons_iff (s := []) (c := backtick) (by decide)).mp hpre.2
          obtain ⟨ident, hident, hcopy⟩ := ih pre.length (by simp only [List.length_cons]; omega)
            hpre'.2 hskip (isUtf8_concat (isUtf8_concat hout (c := backtick) (by decide))
              (c := backtick) (by decide)) rfl
          refine ⟨ident, hident, fun t ↦ ?_⟩
          rw [List.cons_append, List.cons_append, copyIdent, if_pos rfl, List.head?_cons,
            if_pos rfl, List.tail_cons, ← hcopy t, List.append_assoc]
          rfl
        · rw [List.cons_append, List.head?_cons, if_neg fun h ↦ hd (Option.some.inj h)] at hskip
          obtain rfl : m = d :: pre :=
            (List.append_cancel_right (hskip : d :: pre ++ [x] = m ++ [x])).symm
          refine ⟨out, isUtf8_concat hout (by decide), fun t ↦ ?_⟩
          rw [List.cons_append, copyIdent, if_pos rfl, List.cons_append, List.head?_cons,
            if_neg fun h ↦ hd (Option.some.inj h)]
    · rw [if_neg hc] at hskip
      by_cases hascii : c < 0x80
      · have hpre := (isUtf8_append_cons_iff (s := []) hascii).mp hutf8
        have hlow : toAsciiLowercase c < 0x80 :=
          forall_byte (p := fun c ↦ c < 0x80 → toAsciiLowercase c < 0x80) (by decide) c
            hascii
        obtain ⟨ident, hident, hcopy⟩ := ih pre.length (Nat.lt_succ_self _) hpre.2 hskip
          (isUtf8_concat hout hlow) rfl
        refine ⟨ident, hident, fun t ↦ ?_⟩
        rw [List.cons_append, copyIdent, if_neg hc, pushLossyLower, if_pos hascii]
        exact hcopy t
      · -- a character of several bytes, none of which is a backtick
        obtain ⟨k, m', rfl, hk, -, hbytes, hm', hpush⟩ := pushLossyLower_char hascii hutf8
        have hover : ∀ d ∈ k, d ≠ backtick ∧ (d ≠ backslash ∨ backtick = backtick) := by
          intro d hd
          refine ⟨?_, Or.inr rfl⟩
          rintro rfl
          exact absurd (hbytes _ (List.mem_cons_of_mem c hd)) (by decide)
        rw [List.append_assoc, skipQuoted_append hover] at hskip
        obtain ⟨ident, hident, hcopy⟩ := ih m'.length
          (by rw [List.length_cons, List.length_append]; omega) hm' hskip
          (isUtf8_append hout hk) rfl
        refine ⟨ident, hident, fun t ↦ ?_⟩
        rw [List.cons_append, copyIdent, if_neg hc, hpush]
        exact hcopy t


/-! ## The loop -/

theorem IsAnchor.ne_dash {x : UInt8} (hx : IsAnchor x) : x ≠ ch '-' := by
  rintro rfl
  exact absurd hx.notNumeral (by decide)

theorem IsAnchor.ne_backtick {x : UInt8} (hx : IsAnchor x) : x ≠ backtick := by
  rintro rfl
  exact absurd hx.notQuote (by decide)

/-- The last byte of a number, as a later turn sees it and the placeholder. -/
theorem numeral_last_spec (c : UInt8) : isNumeralByte c = true → c ≠ ch '+' ∧ c ≠ ch '-' →
    isSolid c = true ∧ c ∉ signContext ∧ c ≠ backtick :=
  forall_byte (p := fun c ↦ isNumeralByte c = true → c ≠ ch '+' ∧ c ≠ ch '-' →
    isSolid c = true ∧ c ∉ signContext ∧ c ≠ backtick) (by decide) c

theorem exists_trimmed (s : Bytes) : ∃ blank, s = trimEnd s ++ blank := by
  obtain ⟨taken, htaken⟩ := List.dropWhile_suffix (p := isWhitespace) (l := (chars s).reverse)
  refine ⟨taken.reverse.flatten, ?_⟩
  rw [trimEnd, ← List.flatten_append, ← List.reverse_append, htaken, List.reverse_reverse,
    chars_flatten]

/-- Folding a sign away leaves a valid text. -/
theorem isUtf8_foldSign {out : Bytes} (h : isUtf8 out = true) : isUtf8 (foldSign out) = true := by
  rw [foldSign]
  split_ifs with hsign
  · exact h
  · obtain ⟨sign, hascii, hlast⟩ : ∃ sign : UInt8, sign < 0x80 ∧
        (trimEnd out).getLast? = some sign := by
      rw [not_and_or, not_not, not_not] at hsign
      rcases hsign with hsign | hsign
      · exact ⟨_, by decide, hsign⟩
      · exact ⟨_, by decide, hsign⟩
    obtain ⟨blank, hblank⟩ := exists_trimmed out
    rw [← List.dropLast_append_getLast? sign hlast, List.append_assoc] at hblank
    rw [hblank] at h
    exact ((isUtf8_append_cons_iff hascii).mp h).1
  · exact h

theorem Follows.placeholder {read out : Bytes} {c : UInt8} (hread : isUtf8 (read ++ [c]) = true)
    (hout : isUtf8 out = true) (hc : isSolid c = true ∧ c ∉ signContext ∧ c ≠ SqlReplay.backtick) :
    Follows (read ++ [c]) (out ++ [ch '?']) := by
  refine Follows.of_last hread hout hc.1 (by decide) (Or.inr ⟨hc.2.1, by decide⟩)
    (fun _ ↦ by decide)
    ⟨fun h ↦ absurd h (by decide), fun h ↦ absurd h hc.2.2⟩

/-- One turn of the loop on the text `pre` before the anchor `x`: it takes some of it, and goes on
with the rest whatever follows the anchor. -/
def Turns (x : UInt8) (pre read before out : Bytes) : Prop :=
  ∃ rest taken read' out', rest.length < pre.length ∧ isUtf8 rest = true ∧ read = taken ++ read' ∧
    AtCode (rest ++ [x]) [x] read' ∧ Follows (before ++ taken) out' ∧
    ∀ t, normalize out (pre ++ x :: t) = normalize out' (rest ++ x :: t)

section Turns

variable {x c : UInt8} {pre read before out : Bytes}

/-- A text in front of the anchor ends where the anchor stands. -/
theorem exists_rest {x : UInt8} {b read : Bytes} (h : AtCode b [x] read) :
    ∃ rest, b = rest ++ [x] := by
  obtain ⟨rest, hrest⟩ := h.suffix
  exact ⟨rest, hrest.symm⟩

theorem turns_quoted (hx : IsAnchor x) (hc : isQuote c = true)
    (h : AtCode (skipQuoted c (pre ++ [x])) [x] read) (hutf8 : isUtf8 (c :: pre) = true)
    (hfollows : Follows before out) :
    Turns x (c :: pre) (consumed (c :: (pre ++ [x])) (skipQuoted c (pre ++ [x])) ++ read) before
      out := by
  obtain ⟨rest, hrest⟩ := exists_rest h
  have hne : skipQuoted c (pre ++ [x]) ≠ [] := by
    rw [hrest]
    exact List.append_ne_nil_of_right_ne_nil _ (List.cons_ne_nil x [])
  -- what is quoted ends in front of the anchor, with its quote
  obtain ⟨p, hp⟩ := skipQuoted_close hne
  obtain ⟨p', hp', hhead, hstable⟩ := skipQuoted_split hne
  rw [hrest] at h hp hp' hhead ⊢
  have hpre : pre = p ++ c :: rest := by
    rw [← List.cons_append, ← List.append_assoc] at hp
    exact List.append_cancel_right hp
  have hclose : p' = p ++ [c] := by
    rw [hp, ← List.singleton_append, ← List.append_assoc] at hp'
    exact (List.append_cancel_right hp').symm
  subst hpre hclose
  have hascii : c < 0x80 := forall_byte (p := fun c ↦ isQuote c = true → c < 0x80)
    (by decide) c hc
  have hskip (t : Bytes) : skipQuoted c (p ++ c :: rest ++ x :: t) = rest ++ x :: t := by
    have ht : (rest ++ x :: t).head? ≠ some c := by rwa [head?_anchor]
    rw [List.append_assoc, List.cons_append, ← List.singleton_append, ← List.append_assoc]
    exact hstable _ ht
  have hsplit := (isUtf8_append_cons_iff (s := c :: p) (t := rest) hascii).mp hutf8
  have htaken : consumed (c :: (p ++ c :: rest ++ [x])) (rest ++ [x]) = c :: p ++ [c] := by
    have heq : c :: (p ++ c :: rest ++ [x]) = (c :: p ++ [c]) ++ (rest ++ [x]) := by simp
    rw [heq, consumed_append_left]
  have hread : isUtf8 (before ++ (c :: p) ++ [c]) = true :=
    isUtf8_concat (isUtf8_append hfollows.utf8_read hsplit.1) hascii
  refine ⟨rest, c :: p ++ [c], read, ?_⟩
  simp only [isQuote, Bool.or_eq_true, beq_iff_eq] at hc
  rcases hc with hc | rfl
  · -- a string
    refine ⟨out ++ [ch '?'], ?_, hsplit.2, by rw [htaken], h, ?_, fun t ↦ ?_⟩
    · rw [List.length_cons, List.length_append, List.length_cons]
      omega
    · rw [← List.append_assoc]
      refine Follows.placeholder hread hfollows.utf8_out ?_
      rcases hc with rfl | rfl
      all_goals decide
    · have hback : c ≠ backtick := by
        rcases hc with rfl | rfl
        all_goals decide
      rw [List.cons_append, normalize_string hc, skipString_eq hback, hskip]
  · -- a quoted identifier
    have hpre8 := (isUtf8_append_cons_iff (s := []) (c := backtick) (by decide)).mp hutf8
    obtain ⟨ident, hident, hcopy⟩ := copyIdent_anchor hx.ne_backtick hpre8.2 hrest
      (isUtf8_concat hfollows.utf8_out (c := backtick) (by decide))
    refine ⟨ident ++ [backtick], ?_, hsplit.2, by rw [htaken], h, ?_, fun t ↦ ?_⟩
    · rw [List.length_cons, List.length_append, List.length_cons]
      omega
    · have hout := (isUtf8_append_cons_iff (s := ident) (t := []) (c := backtick) (by decide)).mp
        hident
      rw [← List.append_assoc]
      exact Follows.of_last hread hout.1 (by decide) (by decide) (Or.inl rfl) id Iff.rfl
    · rw [List.cons_append, normalize_ident, hcopy]

theorem turns_block (hc : opensBlockComment c (pre ++ [x]) = true)
    (h : AtCode (skipBlockComment ((pre ++ [x]).drop 1)) [x] read)
    (hutf8 : isUtf8 (c :: pre) = true) (hfollows : Follows before out) :
    Turns x (c :: pre) (ch ' ' :: read) before out := by
  obtain ⟨rest, hrest⟩ := exists_rest h
  have hne : skipBlockComment ((pre ++ [x]).drop 1) ≠ [] := by
    rw [hrest]
    exact List.append_ne_nil_of_right_ne_nil _ (List.cons_ne_nil x [])
  match pre with
  | [] =>
    exact absurd
      (by rw [List.nil_append, List.drop_one, List.tail_cons, skipBlockComment.eq_def]) hne
  | d :: pre =>
    rw [List.cons_append, List.drop_succ_cons, List.drop_zero] at hrest hne h
    obtain ⟨p, hp⟩ := skipBlockComment_close hne
    obtain ⟨e, p', hp', hstable⟩ := skipBlockComment_split hne
    rw [hrest] at h hp hp'
    have hpre : pre = p ++ ch '/' :: rest := by
      rw [← List.cons_append, ← List.append_assoc] at hp
      exact List.append_cancel_right hp
    have hclose : e :: p' = p ++ [ch '/'] := by
      rw [hp, ← List.singleton_append, ← List.append_assoc] at hp'
      exact (List.append_cancel_right hp').symm
    subst hpre
    have hsplit := (isUtf8_append_cons_iff (s := c :: d :: p) (t := rest) (c := ch '/')
      (by decide)).mp hutf8
    refine ⟨rest, [ch ' '], read, pushSpace out, ?_, hsplit.2, rfl, h,
      hfollows.space (by decide), fun t ↦ ?_⟩
    · rw [List.length_cons, List.length_cons, List.length_append, List.length_cons]
      omega
    · have hopens : opensBlockComment c (d :: (p ++ ch '/' :: rest) ++ x :: t) = true := by
        rw [opensBlockComment_anchor]
        exact hc
      rw [List.cons_append, normalize_block hopens, List.cons_append, List.drop_succ_cons,
        List.drop_zero, List.append_assoc, List.cons_append, ← List.singleton_append,
        ← List.append_assoc, ← hclose, hstable]

theorem turns_line (hx : IsAnchor x) (hc : opensLineComment c (pre ++ [x]) = true)
    (h : AtCode (skipLineComment (pre ++ [x])) [x] read) (hutf8 : isUtf8 (c :: pre) = true)
    (hfollows : Follows before out) : Turns x (c :: pre) read before out := by
  obtain ⟨rest, hrest⟩ := exists_rest h
  have hne : skipLineComment (pre ++ [x]) ≠ [] := by
    rw [hrest]
    exact List.append_ne_nil_of_right_ne_nil _ (List.cons_ne_nil x [])
  have hhead := skipLineComment_head hne
  have hp := (List.takeWhile_append_dropWhile (p := (· ≠ newline)) (l := pre ++ [x])).symm
  change pre ++ [x] = _ ++ skipLineComment (pre ++ [x]) at hp
  have hskip (t : Bytes) (ht : t.head? = some newline) :=
    skipLineComment_append (b := pre ++ [x]) ht
  generalize (pre ++ [x]).takeWhile (· ≠ newline) = p at hp hskip
  rw [hrest] at h hp hhead
  have hpre : pre = p ++ rest := by
    rw [← List.append_assoc] at hp
    exact List.append_cancel_right hp
  have hopens (t : Bytes) : opensLineComment c (pre ++ x :: t) = true := by
    rw [opensLineComment_anchor c pre hx.ne_dash]
    exact hc
  have hrest8 : isUtf8 rest = true := by
    match rest with
    | [] => exact isUtf8_of_ascii fun _ h ↦ absurd h List.not_mem_nil
    | d :: rest =>
      obtain rfl : d = newline := Option.some.inj hhead
      rw [hpre] at hutf8
      have hsplit := (isUtf8_append_cons_iff (s := c :: p) (t := rest) (c := newline)
        (by decide)).mp hutf8
      exact (isUtf8_append_cons_iff (s := []) (c := newline) (by decide)).mpr
        ⟨isUtf8_of_ascii fun _ h ↦ absurd h List.not_mem_nil, hsplit.2⟩
  refine ⟨rest, [], read, out, ?_, hrest8, rfl, h, by rwa [List.append_nil], fun t ↦ ?_⟩
  · rw [hpre, List.length_cons, List.length_append]
    omega
  · rw [List.cons_append, normalize_line (hopens t), hpre, List.append_assoc,
      hskip _ (by rw [head?_anchor]; exact hhead)]

theorem turns_code (hx : IsAnchor x) (hc : OpensNothing c (pre ++ [x]))
    (h : AtCode (pre ++ [x]) [x] read) (hutf8 : isUtf8 (c :: pre) = true)
    (hfollows : Follows before out) : Turns x (c :: pre) (c :: read) before out := by
  have hopens (t : Bytes) : OpensNothing c (pre ++ x :: t) :=
    opensNothing_anchor hx.ne_dash hc t
  -- one byte, copied in lower case or to a blank
  have hbyte (hascii : c < 0x80) {out' : Bytes} (hfollows' : Follows (before ++ [c]) out')
      (hturn : ∀ t, normalize out (c :: (pre ++ x :: t)) = normalize out' (pre ++ x :: t)) :
      Turns x (c :: pre) (c :: read) before out :=
    ⟨pre, [c], read, out', Nat.lt_succ_self _,
      ((isUtf8_append_cons_iff (s := []) hascii).mp hutf8).2, rfl, h, hfollows', hturn⟩
  by_cases hspace : isAsciiWhitespace c = true
  · exact hbyte (isAsciiWhitespace_spec c hspace).1 (hfollows.space hspace) fun t ↦
      normalize_space hspace
  rw [Bool.not_eq_true] at hspace
  have hanchor (t : Bytes) : (pre ++ x :: t).head?.any isAsciiDigit =
      (pre ++ [x]).head?.any isAsciiDigit := by rw [head?_anchor]
  by_cases hnumber : isAsciiDigit c = true ∨ c = ch '.' ∧ (pre ++ [x]).head?.any isAsciiDigit
  · have hnumber' (t : Bytes) :
        isAsciiDigit c = true ∨ c = ch '.' ∧ (pre ++ x :: t).head?.any isAsciiDigit := by
      rwa [hanchor]
    have hstart := numeralStart_spec (hnumber.imp_right And.left)
    by_cases hident : endsWithIdentChar out = true
    · -- a digit that belongs to a name
      have hascii : c < 0x80 := forall_byte (p := fun c ↦ isAsciiDigit c = true ∨ c = ch '.' →
        c < 0x80) (by decide) c (hnumber.imp_right And.left)
      refine hbyte hascii (hfollows.push hascii) fun t ↦ ?_
      rw [normalize_code (hopens t), if_neg (by rw [hspace]; exact Bool.false_ne_true),
        if_pos (hnumber' t), if_pos hident]
    · rw [Bool.not_eq_true] at hident
      obtain ⟨p, m, hpm, hp, hstop⟩ := stopsBefore_skipNumber hx.notNumeral c pre
      have hlt := skipNumber_length (hnumber.imp_right And.left) (pre ++ [x])
      rw [← List.cons_append, hstop []] at hlt
      have hmlen : m.length ≤ pre.length := by
        simp only [List.length_append, List.length_cons] at hlt
        omega
      have hrun := @codeRun_skipNumber c (pre ++ [x]) (hnumber.imp_right And.left)
      rw [← List.cons_append, hstop []] at hrun
      obtain ⟨read', hread', hcode⟩ := AtCode.of_codeRun hrun (AtCode.byte hc h)
        (List.append_ne_nil_of_right_ne_nil _ (List.cons_ne_nil x []))
      have htaken : consumed (c :: pre ++ [x]) (m ++ [x]) = p := by
        rw [hpm, List.append_assoc, consumed_append_left]
      rw [htaken] at hread'
      have hpascii : ∀ d ∈ p, d < 0x80 := fun d hd ↦ (isNumeralByte_spec d).2.2.2.2 (hp.bytes d hd)
      have hpne : p ≠ [] := by
        rintro rfl
        have := congrArg List.length hpm
        rw [List.nil_append, List.length_cons] at this
        omega
      refine ⟨m, p, read', foldSign out ++ [ch '?'], ?_,
        isUtf8_of_ascii_append hpascii (by rwa [← hpm]), hread', hcode, ?_, fun t ↦ ?_⟩
      · rw [List.length_cons]
        omega
      · obtain ⟨p, d, rfl⟩ : ∃ p' d, p = p' ++ [d] :=
          ⟨p.dropLast, p.getLast hpne, (List.dropLast_append_getLast hpne).symm⟩
        have hd := numeral_last_spec d (hp.bytes d (by simp)) (hp.last d (by simp))
        rw [← List.append_assoc]
        refine Follows.placeholder ?_ (isUtf8_foldSign hfollows.utf8_out) hd
        rw [List.append_assoc]
        exact isUtf8_append hfollows.utf8_read (isUtf8_of_ascii hpascii)
      · rw [List.cons_append, normalize_number (hnumber' t) hident, ← List.cons_append, hstop]
  · have hnumber' (t : Bytes) :
        ¬(isAsciiDigit c = true ∨ c = ch '.' ∧ (pre ++ x :: t).head?.any isAsciiDigit) := by
      rwa [hanchor]
    by_cases hascii : c < 0x80
    · exact hbyte hascii (hfollows.push hascii) fun t ↦
        normalize_push (hopens t) hascii hspace (hnumber' t)
    · obtain ⟨k, m, rfl, hk8, hchars, hk, hm8, hpush⟩ := pushLossyLower_char hascii hutf8
      have hrun : CodeRun (c :: k ++ (m ++ [x])) (m ++ [x]) :=
        CodeRun.of_plain (fun d hd ↦ isPlain_of_not_ascii (hk d hd)) _
      have hcode := AtCode.byte hc h
      rw [List.append_assoc, ← List.cons_append] at hcode
      obtain ⟨read', hread', hcode'⟩ := AtCode.of_codeRun hrun hcode
        (List.append_ne_nil_of_right_ne_nil _ (List.cons_ne_nil x []))
      rw [consumed_append_left] at hread'
      refine ⟨m, c :: k, read', out ++ c :: k, ?_, hm8, hread', hcode',
        hfollows.char hk8 hchars hk, fun t ↦ ?_⟩
      · rw [List.length_cons, List.length_append]
        omega
      · rw [List.cons_append, normalize_code (hopens t),
          if_neg (by rw [hspace]; exact Bool.false_ne_true), if_neg (hnumber' t), hpush]

end Turns

/-- **The text before a place decides what was written by then.** -/
theorem AtCode.written {x : UInt8} (hx : IsAnchor x) {pre read : Bytes}
    (h : AtCode (pre ++ [x]) [x] read) (hutf8 : isUtf8 pre = true) {before out : Bytes}
    (hfollows : Follows before out) :
    ∃ out', Follows (before ++ read) out' ∧
      ∀ t, normalize out (pre ++ x :: t) = normalize out' (x :: t) := by
  induction hn : pre.length using Nat.strong_induction_on generalizing pre read before out with
  | _ n ih =>
  subst hn
  match pre with
  | [] =>
    have hread : read = [] := by
      rcases h with _ | ⟨_, h⟩ | ⟨_, h⟩ | ⟨_, h⟩ | ⟨_, h⟩
      · rfl
      all_goals exact absurd (List.suffix_nil.mp h.suffix) (List.cons_ne_nil x [])
    subst hread
    exact ⟨out, by rwa [List.append_nil], fun t ↦ rfl⟩
  | c :: pre =>
    have hturn : Turns x (c :: pre) read before out := by
      generalize hb : c :: pre ++ [x] = b at h
      cases h with
      | refl => exact absurd (congrArg List.length hb) (by simp)
      | byte hc h =>
        obtain ⟨rfl, rfl⟩ := List.cons.inj hb
        exact turns_code hx hc h hutf8 hfollows
      | quoted hc h =>
        obtain ⟨rfl, rfl⟩ := List.cons.inj hb
        exact turns_quoted hx hc h hutf8 hfollows
      | block hc h =>
        obtain ⟨rfl, rfl⟩ := List.cons.inj hb
        exact turns_block hc h hutf8 hfollows
      | line hc h =>
        obtain ⟨rfl, rfl⟩ := List.cons.inj hb
        exact turns_line hx hc h hutf8 hfollows
    obtain ⟨rest, taken, read', out', hlt, hrest8, rfl, hcode, hfollows', hrun⟩ := hturn
    obtain ⟨out'', hfollows'', hrun'⟩ := ih rest.length hlt hcode hrest8 hfollows' rfl
    rw [List.append_assoc] at hfollows''
    exact ⟨out'', hfollows'', fun t ↦ (hrun t).trans (hrun' t)⟩

end SqlReplay
