import SqlReplay.Sql.CodeLevel
import SqlReplay.Sql.Collapse

/-!
# Lists of literals in a statement

Lists and rows of literals, with any spacing, as a grammar, and what the loop of the fingerprint
makes of them. Behind an opening parenthesis or a comma every literal becomes a placeholder, also
one with a sign, and a run of white space one blank: what comes out is a `GroupText` or a `RowText`
that depends on the list alone, not on the text around it.
-/

namespace SqlReplay

open Fingerprint

/-! ## Grammar -/

/-- White space, or nothing. -/
def Blank (s : Bytes) : Prop := ∀ c ∈ s, isAsciiWhitespace c = true

instance : DecidablePred Blank := fun s ↦
  inferInstanceAs (Decidable (∀ c ∈ s, isAsciiWhitespace c = true))

theorem blank_nil : Blank [] := fun _ h ↦ absurd h List.not_mem_nil

/-- `n` literals with commas between them, and any spacing. -/
inductive LiteralList : ℕ → Bytes → Prop
  | one {before lit after : Bytes} (hbefore : Blank before) (h : Literal lit ∨ SignedNumber lit)
    (hafter : Blank after) : LiteralList 1 (before ++ (lit ++ after))
  | cons {n : ℕ} {before lit after more : Bytes} (hbefore : Blank before)
    (h : Literal lit ∨ SignedNumber lit) (hafter : Blank after) (hmore : LiteralList n more) :
    LiteralList (n + 1) (before ++ (lit ++ (after ++ ch ',' :: more)))

/-- `n` tuples of literals with commas between them, and any spacing. -/
inductive RowList : ℕ → Bytes → Prop
  | one {k : ℕ} {l : Bytes} (h : LiteralList k l) : RowList 1 (ch '(' :: (l ++ [ch ')']))
  | cons {n k : ℕ} {l gap gap' more : Bytes} (h : LiteralList k l) (hgap : Blank gap)
    (hgap' : Blank gap') (hmore : RowList n more) :
    RowList (n + 1) (ch '(' :: (l ++ ch ')' :: (gap ++ ch ',' :: (gap' ++ more))))

/-! ## What comes out -/

/-- What is left of white space behind a byte that is none. -/
def blankText (s : Bytes) : Bytes := if s = [] then [] else [ch ' ']

theorem spaces_blankText (s : Bytes) : Spaces (blankText s) := by
  intro c hc
  rw [blankText] at hc
  split_ifs at hc
  · cases hc
  · exact List.mem_singleton.mp hc

theorem normalize_pushSpaces {s : Bytes} (hs : Blank s) (out rest : Bytes) :
    normalize (pushSpace out) (s ++ rest) = normalize (pushSpace out) rest := by
  induction s with
  | nil => rfl
  | cons c s ih =>
    obtain ⟨hc, hs⟩ := List.forall_mem_cons.mp hs
    rw [List.cons_append, normalize_space hc, pushSpace_pushSpace]
    exact ih hs

theorem normalize_blank {s : Bytes} (hs : Blank s) {c : UInt8} (hc : c ≠ ch ' ')
    (out rest : Bytes) :
    normalize (out ++ [c]) (s ++ rest) = normalize (out ++ [c] ++ blankText s) rest := by
  match s with
  | [] => rw [blankText, if_pos rfl, List.append_nil, List.nil_append]
  | d :: s =>
    obtain ⟨hd, hs⟩ := List.forall_mem_cons.mp hs
    have hpush : pushSpace (out ++ [c]) = out ++ [c] ++ [ch ' '] := by
      rw [pushSpace, List.getLast?_concat, if_pos]
      exact ⟨List.append_ne_nil_of_right_ne_nil _ (List.cons_ne_nil c []),
        fun h ↦ hc (Option.some.inj h)⟩
    rw [List.cons_append, normalize_space hd, normalize_pushSpaces hs, hpush, blankText,
      if_neg (List.cons_ne_nil d s)]

/-- Parentheses and commas. -/
def isBracket (c : UInt8) : Bool := c == ch '(' || c == ch ')' || c == ch ','

theorem isBracket_spec (c : UInt8) : isBracket c = true →
    isPlain c = true ∧ c < 0x80 ∧ isAsciiWhitespace c = false ∧ isAsciiDigit c = false ∧
      c ≠ ch '.' ∧ toAsciiLowercase c = c ∧ isIdentByte c = false ∧ c ≠ ch ' ' ∧
      isSolid c = true ∧ c ≠ ch '-' ∧ c ≠ ch '+' ∧ c ≠ singleQuote ∧ c ≠ doubleQuote :=
  forall_byte (p := fun c ↦ isBracket c = true →
    isPlain c = true ∧ c < 0x80 ∧ isAsciiWhitespace c = false ∧ isAsciiDigit c = false ∧
      c ≠ ch '.' ∧ toAsciiLowercase c = c ∧ isIdentByte c = false ∧ c ≠ ch ' ' ∧
      isSolid c = true ∧ c ≠ ch '-' ∧ c ≠ ch '+' ∧ c ≠ singleQuote ∧ c ≠ doubleQuote)
    (by decide) c

theorem normalize_bracket {c : UInt8} (h : isBracket c = true) (out rest : Bytes) :
    normalize out (c :: rest) = normalize (out ++ [c]) rest := by
  obtain ⟨hplain, hascii, hspace, hdigit, hdot, hlower, -⟩ := isBracket_spec c h
  rw [normalize_push (opensNothing_of_isPlain hplain rest) hascii hspace, hlower]
  rintro (h | ⟨h, -⟩)
  · rw [hdigit] at h
    cases h
  · exact hdot h

theorem endsLiteral_blank {s : Bytes} (hs : Blank s) {c : UInt8} (hc : isBracket c = true)
    (rest : Bytes) : EndsLiteral (s ++ c :: rest) := by
  match s with
  | [] =>
    obtain ⟨-, -, -, -, hdot, -, hident, -, -, -, -, hsingle, hdouble⟩ := isBracket_spec c hc
    exact endsLiteral_cons hident ⟨hdot, hsingle, hdouble⟩ rest
  | d :: s =>
    have hd := hs d List.mem_cons_self
    have hspec := forall_byte (p := fun d ↦ isAsciiWhitespace d = true → isIdentByte d = false ∧
      d ≠ ch '.' ∧ d ≠ singleQuote ∧ d ≠ doubleQuote) (by decide) d hd
    exact endsLiteral_cons hspec.1 hspec.2 _

/-- Behind an opening parenthesis or a comma every literal becomes a placeholder. -/
theorem normalize_item {c : UInt8} (hc : c = ch '(' ∨ c = ch ',') {before lit after : Bytes}
    (hbefore : Blank before) (h : Literal lit ∨ SignedNumber lit) (hafter : Blank after) {d : UInt8}
    (hd : isBracket d = true) (out rest : Bytes) :
    normalize (out ++ [c]) (before ++ (lit ++ (after ++ d :: rest))) =
      normalize (out ++ [c] ++ (blankText before ++ ch '?' :: blankText after)) (d :: rest) := by
  have hspec : c ≠ ch ' ' ∧ c < 0x80 ∧ isIdentByte c = false ∧ isSolid c = true ∧
      c ∈ signContext ∧ c ≠ ch '-' ∧ c ≠ ch '+' := by
    rcases hc with rfl | rfl
    all_goals decide
  obtain ⟨hcspace, hascii, hident, hsolid, hmem, hminus, hplus⟩ := hspec
  have hlast : lastSolid (out ++ [c] ++ blankText before) = some c := by
    rw [blankText]
    split_ifs
    · rw [List.append_nil, lastSolid_concat hsolid]
    · rw [lastSolid_concat_space (by decide) (by decide), lastSolid_concat hsolid]
  have hends := endsLiteral_blank hafter hd rest
  have hlit : normalize (out ++ [c] ++ blankText before) (lit ++ (after ++ d :: rest)) =
      normalize (out ++ [c] ++ blankText before ++ [ch '?']) (after ++ d :: rest) := by
    rcases h with h | h
    · refine normalize_literal h hends ?_ fun e he ↦ ?_
      · rw [blankText]
        split_ifs
        · rw [List.append_nil]
          exact endsWithIdentChar_concat hascii hident out
        · exact endsWithIdentChar_concat (by decide) (by decide) _
      · obtain rfl : c = e := Option.some.inj (hlast.symm.trans he)
        exact ⟨hminus, hplus⟩
    · refine normalize_signed h hends fun e he ↦ ?_
      obtain rfl : c = e := Option.some.inj (hlast.symm.trans he)
      exact hmem
  rw [normalize_blank hbefore hcspace, hlit, normalize_blank hafter (by decide)]
  simp only [List.append_assoc, List.cons_append, List.nil_append]

/-- **A list of literals becomes a list of placeholders.** -/
theorem normalize_list {n : ℕ} {l : Bytes} (h : LiteralList n l) :
    ∃ g, GroupText n g ∧ ∀ c, c = ch '(' ∨ c = ch ',' → ∀ out rest,
      normalize (out ++ [c]) (l ++ ch ')' :: rest) =
        normalize (out ++ [c] ++ g) (ch ')' :: rest) := by
  have hitem (s s' : Bytes) : ∀ c ∈ blankText s ++ ch '?' :: blankText s',
      c = ch '?' ∨ c = ch ',' ∨ c = ch ' ' := by
    intro c hc
    rcases List.mem_append.mp hc with hc | hc
    · exact Or.inr (Or.inr (spaces_blankText s c hc))
    rcases List.mem_cons.mp hc with hc | hc
    · exact Or.inl hc
    · exact Or.inr (Or.inr (spaces_blankText s' c hc))
  have hcount (s s' : Bytes) : (blankText s ++ ch '?' :: blankText s').count (ch '?') = 1 := by
    have hblank (s : Bytes) : (blankText s).count (ch '?') = 0 :=
      List.count_eq_zero.mpr fun hmem ↦ absurd (spaces_blankText s _ hmem) (by decide)
    rw [List.count_append, List.count_cons_self, hblank, hblank]
  induction h with
  | @one before lit after hbefore h hafter =>
    refine ⟨blankText before ++ ch '?' :: blankText after,
      ⟨hitem _ _, hcount _ _, Nat.one_pos⟩, fun c hc out rest ↦ ?_⟩
    rw [List.append_assoc, List.append_assoc,
      normalize_item hc hbefore h hafter (by decide)]
  | @cons n before lit after more hbefore h hafter _ ih =>
    obtain ⟨g, hg, hmore⟩ := ih
    refine ⟨blankText before ++ ch '?' :: blankText after ++ ch ',' :: g, ⟨fun c hc ↦ ?_, ?_,
      Nat.succ_pos n⟩, fun c hc out rest ↦ ?_⟩
    · rcases List.mem_append.mp hc with hc | hc
      · exact hitem _ _ c hc
      rcases List.mem_cons.mp hc with hc | hc
      · exact Or.inr (Or.inl hc)
      · exact hg.bytes c hc
    · rw [List.count_append, hcount, List.count_cons_of_ne (by decide), hg.count, Nat.add_comm]
    · rw [List.append_assoc, List.append_assoc, List.append_assoc, List.cons_append,
        normalize_item hc hbefore h hafter (by decide), normalize_bracket (by decide),
        hmore (ch ',') (Or.inr rfl)]
      simp only [List.append_assoc, List.cons_append, List.nil_append]

/-- A tuple becomes a tuple of placeholders. -/
theorem normalize_tuple {n : ℕ} {l : Bytes} (h : LiteralList n l) :
    ∃ g, GroupText n g ∧ ∀ out rest,
      normalize out (ch '(' :: (l ++ ch ')' :: rest)) =
        normalize (out ++ ch '(' :: g ++ [ch ')']) rest := by
  obtain ⟨g, hg, hlist⟩ := normalize_list h
  refine ⟨g, hg, fun out rest ↦ ?_⟩
  rw [normalize_bracket (by decide), hlist _ (Or.inl rfl), normalize_bracket (by decide)]
  simp only [List.append_assoc, List.cons_append, List.nil_append]

/-- **Rows of literals become rows of placeholders.** -/
theorem normalize_rows {n : ℕ} {r : Bytes} (h : RowList n r) :
    ∃ m, RowText n (m ++ [ch ')']) ∧ ∀ out rest,
      normalize out (r ++ rest) = normalize (out ++ m ++ [ch ')']) rest := by
  induction h with
  | one h =>
    obtain ⟨g, hg, htuple⟩ := normalize_tuple h
    refine ⟨ch '(' :: g, .one hg, fun out rest ↦ ?_⟩
    rw [List.cons_append, List.append_assoc, List.singleton_append, htuple]
  | @cons n k l gap gap' more h hgap hgap' _ ih =>
    obtain ⟨g, hg, htuple⟩ := normalize_tuple h
    obtain ⟨m, hm, hmore⟩ := ih
    refine ⟨ch '(' :: (g ++ ch ')' :: (blankText gap ++ ch ',' :: (blankText gap' ++ m))), ?_,
      fun out rest ↦ ?_⟩
    · have hrow := RowText.cons hg (spaces_blankText gap) (spaces_blankText gap') hm
      simpa only [List.append_assoc, List.cons_append] using hrow
    · simp only [List.append_assoc, List.cons_append]
      rw [htuple, normalize_blank hgap (by decide), normalize_bracket (by decide),
        normalize_blank hgap' (by decide), hmore]
      simp only [List.append_assoc, List.cons_append, List.nil_append]

end SqlReplay
