import SqlReplay.Sql.LiteralLists

/-!
# Literals and the classes of statements

A statement belongs to the same class whatever stands in its literal slots. A slot is a place at
code level behind white space, a parenthesis, a comma or an operator that no sign precedes, with
something behind it that could not belong to a literal. The same is true of the lists behind `in`
and of the rows behind `values`, of any length and spacing, unless the keyword stands directly
behind a backtick: the passes that collapse lists take the end of a quoted identifier for a part of
the word.

Everything before a place is fixed by `AtCode.written`, everything behind a parenthesis by
`normalize_append` and the passes by `collapseLists_in` and its likes, so a text with a list in it
is the same on both sides of the list (`fingerprint_around`).
-/

namespace SqlReplay

open Fingerprint

/-! ## Slots -/

/-- Behind one of these a literal cannot belong to a name, and a sign is unary. -/
def operandContext : Bytes := ascii "(,=<>*/%"

/-- The text around a literal. -/
structure LiteralSlot where
  before : Bytes
  last : UInt8
  after : Bytes
  /-- The text before the last byte, with its comments taken for blanks. -/
  read : Bytes
  utf8 : isUtf8 before = true
  atCode : AtCode (before ++ [last]) [last] read
  edge : isAsciiWhitespace last = true ∨ last ∈ operandContext
  noSign : ∀ c ∈ lastSolid (read ++ [last]), c ≠ ch '-' ∧ c ≠ ch '+'
  ends : EndsLiteral after

namespace LiteralSlot

/-- The statement with a literal in the slot. -/
def text (s : LiteralSlot) (lit : Bytes) : Bytes := s.before ++ s.last :: (lit ++ s.after)

/-- The literals for the slot: a signed one where the sign is unary. -/
def Takes (s : LiteralSlot) (lit : Bytes) : Prop :=
  Literal lit ∨
    SignedNumber lit ∧ ∃ c ∈ lastSolid (s.read ++ [s.last]), c ∈ operandContext

theorem edge_spec (c : UInt8) : isAsciiWhitespace c = true ∨ c ∈ operandContext →
    IsAnchor c ∧ (isAsciiWhitespace c = true ∨ isAsciiWhitespace c = false ∧
      isAsciiDigit c = false ∧ c ≠ ch '.' ∧ toAsciiLowercase c = c ∧ isIdentByte c = false) ∧
      (isPlain c = true ∨ c = ch '/') :=
  forall_byte (p := fun c ↦ isAsciiWhitespace c = true ∨ c ∈ operandContext →
    IsAnchor c ∧ (isAsciiWhitespace c = true ∨ isAsciiWhitespace c = false ∧
      isAsciiDigit c = false ∧ c ≠ ch '.' ∧ toAsciiLowercase c = c ∧ isIdentByte c = false) ∧
      (isPlain c = true ∨ c = ch '/')) (by decide) c

/-- No literal starts with the star that would open a comment behind a slash. -/
theorem head_ne_star {s : LiteralSlot} {lit : Bytes} (h : s.Takes lit) (after : Bytes) :
    (lit ++ after).head? ≠ some (ch '*') := by
  have hnumber {n : Bytes} (hn : Number n) (after : Bytes) :
      (n ++ after).head? ≠ some (ch '*') := by
    obtain ⟨c, rest, heq, hc⟩ := hn.head after
    rw [heq]
    intro hstar
    obtain rfl := Option.some.inj hstar
    exact absurd (hc.imp_right And.left) (by decide)
  rcases h with (hn | hq) | ⟨hs, -⟩
  · exact hnumber hn after
  · obtain ⟨hq, -⟩ := hq
    intro hstar
    obtain rfl := Option.some.inj hstar
    exact absurd hq (by decide)
  · obtain ⟨hs, -⟩ := hs
    intro hstar
    obtain rfl := Option.some.inj hstar
    exact absurd hs (by decide)

/-- **The literal in a slot becomes a placeholder**, and the text before it something that does not
depend on it. -/
theorem normalize_text (s : LiteralSlot) :
    ∃ out, ∀ lit, s.Takes lit →
      normalize [] (s.text lit) = normalize (out ++ [ch '?']) s.after := by
  obtain ⟨hanchor, hkind, hopens⟩ := edge_spec s.last s.edge
  obtain ⟨out, hfollows, hwritten⟩ := s.atCode.written hanchor s.utf8 Follows.nil
  rw [List.nil_append] at hfollows
  have hcode {lit : Bytes} (h : s.Takes lit) : OpensNothing s.last (lit ++ s.after) := by
    rcases hopens with hplain | hslash
    · exact opensNothing_of_isPlain hplain _
    · refine ⟨fun hb ↦ ?_, ?_, ?_⟩
      · simp only [opensBlockComment, Bool.and_eq_true, beq_iff_eq] at hb
        exact head_ne_star h s.after hb.2
      · rw [hslash]
        simp [opensLineComment, ch]
      · rw [hslash]
        decide
  -- the byte before the literal, written
  obtain ⟨out', hident, hfollows', hlast⟩ : ∃ out', endsWithIdentChar out' = false ∧
      Follows (s.read ++ [s.last]) out' ∧ ∀ lit, s.Takes lit →
        normalize out (s.last :: (lit ++ s.after)) = normalize out' (lit ++ s.after) := by
    rcases hkind with hspace | ⟨hspace, hdigit, hdot, hlower, hident⟩
    · refine ⟨pushSpace out, ?_, hfollows.space hspace, fun lit _ ↦ normalize_space hspace⟩
      rw [endsWithIdentChar]
      cases hl : (pushSpace out).getLast? with
      | none => rfl
      | some c =>
        rw [getLast?_pushSpace c hl]
        decide
    · have hpush := hfollows.push hanchor.ascii
      rw [hlower] at hpush
      refine ⟨out ++ [s.last], endsWithIdentChar_concat hanchor.ascii hident out, hpush,
        fun lit h ↦ ?_⟩
      rw [normalize_push (hcode h) hanchor.ascii hspace, hlower]
      rintro (h | ⟨h, -⟩)
      · rw [hdigit] at h
        cases h
      · exact hdot h
  have hsigns : ∀ c ∈ lastSolid out', c ≠ ch '-' ∧ c ≠ ch '+' := by
    intro c hc
    constructor
    · rintro rfl
      exact (s.noSign _ ((hfollows'.solid _ (by decide)).mp hc)).1 rfl
    · rintro rfl
      exact (s.noSign _ ((hfollows'.solid _ (by decide)).mp hc)).2 rfl
  refine ⟨out', fun lit h ↦ ?_⟩
  rw [text, hwritten, hlast lit h]
  rcases h with h | ⟨h, c, hc, hmem⟩
  · exact normalize_literal h s.ends hident hsigns
  · refine normalize_signed h s.ends fun d hd ↦ ?_
    have hcontext : c ∈ signContext := by
      have hsub : ∀ c ∈ operandContext, c ∈ signContext := by decide +kernel
      exact hsub c hmem
    obtain rfl : c = d := Option.some.inj (((hfollows'.solid c hcontext).mpr hc).symm.trans hd)
    exact hcontext

end LiteralSlot

/-! ## Lists behind a keyword -/

/-- The text around a list behind the keyword `word`. -/
structure ListPlace (word : Bytes) where
  before : Bytes
  first : UInt8
  keyword : Bytes
  /-- What stands between the keyword and the first parenthesis. -/
  gap : Bytes
  after : Bytes
  /-- The text before the keyword, with its comments taken for blanks. -/
  read : Bytes
  utf8 : isUtf8 before = true
  isWord : (first :: keyword).map toAsciiLowercase = word
  atCode : AtCode (before ++ [first]) [first] read
  wholeWord : read.getLast?.any isIdentByte = false
  blank : Blank gap

/-- The statement with `list` behind the keyword. -/
def ListPlace.text {word : Bytes} (p : ListPlace word) (list : Bytes) : Bytes :=
  p.before ++ (p.first :: p.keyword ++ (p.gap ++ (list ++ p.after)))

theorem normalize_letters {k : Bytes} (hk : ∀ c ∈ k, isAsciiAlphabetic c = true) (out t : Bytes) :
    normalize out (k ++ t) = normalize (out ++ k.map toAsciiLowercase) t := by
  induction k generalizing out with
  | nil => rw [List.map_nil, List.append_nil, List.nil_append]
  | cons c k ih =>
    obtain ⟨hc, hk⟩ := List.forall_mem_cons.mp hk
    have hspec := forall_byte (p := fun c ↦ isAsciiAlphabetic c = true → isPlain c = true ∧
      c < 0x80 ∧ isAsciiWhitespace c = false ∧ ¬(isAsciiDigit c = true ∨ c = ch '.'))
      (by decide) c hc
    obtain ⟨hplain, hascii, hspace, hnumber⟩ := hspec
    rw [List.cons_append, normalize_push (opensNothing_of_isPlain hplain _) hascii hspace
      fun h ↦ hnumber (h.imp_right And.left), ih hk, List.map_cons, List.append_assoc,
      List.singleton_append]

theorem dropSemicolons_append {c : UInt8} (hsolid : isSolid c = true) (hc : c ≠ ch ';')
    (p : Bytes) : ∃ q, ∀ s, dropSemicolons (s ++ c :: p) = s ++ c :: q := by
  obtain ⟨hascii, hspace⟩ := isSolid_spec hsolid
  induction hn : p.length using Nat.strong_induction_on generalizing p with
  | _ n ih =>
  subst hn
  by_cases hlast : (c :: p).getLast? = some (ch ';')
  · match p with
    | [] => exact absurd (Option.some.inj hlast) hc
    | d :: p =>
      obtain ⟨q, hq⟩ := ih (trimEnd (d :: p).dropLast).length (by
        have hle := trimEnd_length (d :: p).dropLast
        rw [List.length_dropLast] at hle
        exact Nat.lt_of_le_of_lt hle (Nat.pred_lt (Nat.succ_ne_zero _))) _ rfl
      refine ⟨q, fun s ↦ ?_⟩
      rw [dropSemicolons, List.getLast?_append_cons, if_pos hlast, List.dropLast_append_cons,
        List.dropLast_cons_cons, trimEnd_append_cons hascii hspace, hq]
  · refine ⟨p, fun s ↦ ?_⟩
    rw [dropSemicolons, List.getLast?_append_cons, if_neg hlast]

theorem trimStart_append_cons {c : UInt8} (hsolid : isSolid c = true) (s t : Bytes) :
    trimStart (s ++ c :: t) = trimStart s ++ c :: t := by
  obtain ⟨hascii, hspace⟩ := isSolid_spec hsolid
  rw [trimStart, chars_append_cons s hascii, dropWhile_append_cons hspace, List.flatten_append,
    List.flatten_cons, chars_flatten, trimStart]
  rfl

/-- Trimming leaves the last character that is not white space. -/
theorem getLast?_trimStart {s : Bytes} {c : UInt8} (h : (trimStart s).getLast? = some c) :
    s.getLast? = some c := by
  have hsuffix : trimStart s <:+ s := by
    have hflatten := flatten_dropWhile_suffix isWhitespace (chars s)
    rwa [chars_flatten] at hflatten
  obtain ⟨p, hp⟩ := hsuffix
  rw [← hp, List.getLast?_append, h]
  rfl

/-- **A text around a list**: what the passes see of it, when the list becomes `m` up to its last
parenthesis. -/
theorem ListPlace.fingerprint_around {a : UInt8} {w : Bytes}
    (p : ListPlace (a :: w)) (hword : ∀ c ∈ a :: w, isAsciiAlphabetic c = true)
    (hanchor : ∀ x, toAsciiLowercase x = a → IsAnchor x) :
    ∃ z q, (z.getLast?.all isWordEdge = true ↔ p.read.getLast? ≠ some backtick) ∧
      ∀ list m, (∀ out rest, normalize out (list ++ rest) =
        normalize (out ++ m ++ [ch ')']) rest) →
        fingerprint (p.text list) =
          collapseLists (z ++ a :: (w ++ (blankText p.gap ++ m) ++ ch ')' :: q)) := by
  obtain ⟨hfirst, hrest⟩ := List.cons.inj p.isWord
  obtain ⟨out, hfollows, hwritten⟩ :=
    p.atCode.written (hanchor p.first hfirst) p.utf8 Follows.nil
  rw [List.nil_append] at hfollows
  have halpha : ∀ c ∈ p.first :: p.keyword, isAsciiAlphabetic c = true := by
    intro c hc
    have hmem : toAsciiLowercase c ∈ a :: w := by
      rw [← p.isWord]
      exact List.mem_map_of_mem hc
    exact forall_byte (p := fun c ↦ isAsciiAlphabetic (toAsciiLowercase c) = true →
      isAsciiAlphabetic c = true) (by decide) c (hword _ hmem)
  have hsolid : isSolid a = true :=
    forall_byte (p := fun c ↦ isAsciiAlphabetic c = true → isSolid c = true) (by decide) a
      (hword a List.mem_cons_self)
  obtain ⟨tail, htail⟩ := normalize_append (c := ch ')') (by decide) (by decide) [] p.after
  obtain ⟨q, hq⟩ := dropSemicolons_append (c := ch ')') (by decide) (by decide) (trimEnd tail)
  refine ⟨trimStart out, q, ⟨fun hedge hback ↦ ?_, fun hback ↦ ?_⟩, fun list m hlist ↦ ?_⟩
  · -- a backtick in front of the keyword is in what was written, and is no edge of a word
    obtain ⟨s, hs⟩ := List.getLast?_eq_some_iff.mp (hfollows.backtick.mpr hback)
    rw [hs, trimStart_append_cons (by decide), List.getLast?_concat] at hedge
    exact absurd hedge (by decide)
  · cases hlast : (trimStart out).getLast? with
    | none => rfl
    | some c =>
      have hout := getLast?_trimStart hlast
      have hident := hfollows.ident p.wholeWord
      rw [hout, Option.any_some] at hident
      have hne : c ≠ backtick := by
        rintro rfl
        exact hback (hfollows.backtick.mp hout)
      rw [Option.all_some, isWordEdge, hident, Bool.not_false, Bool.true_and]
      exact bne_iff_ne.mpr hne
  · -- the keyword, the gap, the list, and what follows its last parenthesis
    have hlast : ∃ init last, a :: w = init ++ [last] ∧ last ≠ ch ' ' := by
      refine ⟨(a :: w).dropLast, (a :: w).getLast (List.cons_ne_nil a w),
        (List.dropLast_append_getLast _).symm, ?_⟩
      intro h
      have halpha := hword _ (List.getLast_mem (List.cons_ne_nil a w))
      rw [h] at halpha
      exact absurd halpha (by decide)
    obtain ⟨init, last, hsplit, hne⟩ := hlast
    have hgap {gap : Bytes} (h : Blank gap) (rest : Bytes) :
        normalize (out ++ a :: w) (gap ++ rest) =
          normalize (out ++ a :: w ++ blankText gap) rest := by
      rw [hsplit, ← List.append_assoc, normalize_blank h hne]
    have hnormalize : normalize [] (p.text list) =
        out ++ a :: (w ++ (blankText p.gap ++ m)) ++ ch ')' :: tail := by
      rw [text, List.cons_append, hwritten, ← List.cons_append, normalize_letters halpha, p.isWord,
        hgap p.blank, hlist, htail]
      simp only [List.append_assoc, List.cons_append]
    rw [fingerprint, hnormalize, trim_append_cons (by decide) (by decide),
      trimStart_append_cons hsolid, hq, collapseLists, List.append_assoc, List.cons_append]

/-- A list with its parentheses. -/
def parenthesized (l : Bytes) : Bytes := ch '(' :: (l ++ [ch ')'])

section Lists

theorem literal_one : Literal (ascii "1") := by
  have hone : Mantissa (ascii "1") := .integer (by decide +kernel) (by decide)
  exact Or.inl (.decimal hone .none)

theorem literalList_one : LiteralList 1 (ascii "1") := by
  have hone : LiteralList 1 ([] ++ (ascii "1" ++ [])) :=
    .one blank_nil (Or.inl literal_one) blank_nil
  exact hone

theorem literalList_two : LiteralList 2 (ascii "1,1") := by
  have htwo : LiteralList 2 ([] ++ (ascii "1" ++ ([] ++ ch ',' :: ascii "1"))) :=
    .cons blank_nil (Or.inl literal_one) blank_nil literalList_one
  exact htwo

variable (p : ListPlace (ascii "in")) (p' : ListPlace (ascii "values"))

/-- **Lists behind `in`** are one class, unless a backtick is before the keyword. -/
theorem ListPlace.in_iff :
    (∀ m n l l', LiteralList m l → LiteralList n l' →
      fingerprint (p.text (parenthesized l)) = fingerprint (p.text (parenthesized l'))) ↔
      p.read.getLast? ≠ some backtick := by
  obtain ⟨z, q, hedge, haround⟩ := p.fingerprint_around (by decide +kernel)
    (forall_byte (p := fun x ↦ toAsciiLowercase x = ch 'i' → IsAnchor x) (by decide))
  have hlist {n : ℕ} {l : Bytes} (h : LiteralList n l) : ∃ g, GroupText n g ∧
      fingerprint (p.text (parenthesized l)) =
        collapseLists (z ++ ch 'i' :: (inPart (blankText p.gap) g ++ ch ')' :: q)) := by
    obtain ⟨g, hg, htuple⟩ := normalize_tuple h
    refine ⟨g, hg, haround _ (ch '(' :: g) fun out rest ↦ ?_⟩
    rw [parenthesized, List.cons_append, List.append_assoc, List.singleton_append, htuple]
  rw [← hedge]
  constructor
  · intro hall
    by_contra hback
    rw [Bool.not_eq_true] at hback
    obtain ⟨v, w, hkept⟩ := collapseLists_in_kept z q hback
    obtain ⟨g, hg, hone⟩ := hlist literalList_one
    obtain ⟨g', hg', htwo⟩ := hlist literalList_two
    have heq := hall 1 2 _ _ literalList_one literalList_two
    rw [hone, htwo, hkept _ 1 g (spaces_blankText _) hg,
      hkept _ 2 g' (spaces_blankText _) hg'] at heq
    have hpart := (List.cons.inj (List.append_cancel_left heq)).2
    rw [List.append_left_inj, inPart, inPart] at hpart
    have hgroup := (List.cons.inj (List.append_cancel_left (List.cons.inj hpart).2)).2
    have hcount := hg.count.symm.trans (hgroup ▸ hg'.count)
    exact absurd hcount (by decide)
  · intro hword m n l l' h h'
    obtain ⟨v, hv⟩ := collapseLists_in z (blankText p.gap) q (spaces_blankText _) hword
    obtain ⟨g, hg, hl⟩ := hlist h
    obtain ⟨g', hg', hl'⟩ := hlist h'
    rw [hl, hl', hv m g hg, hv n g' hg']

/-- **Rows behind `values`** are one class, unless a backtick is before the keyword. -/
theorem ListPlace.values_iff :
    (∀ m n r r', RowList m r → RowList n r' →
      fingerprint (p'.text r) = fingerprint (p'.text r')) ↔ p'.read.getLast? ≠ some backtick := by
  obtain ⟨z, q, hedge, haround⟩ := p'.fingerprint_around (by decide +kernel)
    (forall_byte (p := fun x ↦ toAsciiLowercase x = ch 'v' → IsAnchor x) (by decide))
  have hrows {n : ℕ} {r : Bytes} (h : RowList n r) : ∃ m, RowText n (m ++ [ch ')']) ∧
      fingerprint (p'.text r) =
        collapseLists (z ++ ch 'v' :: (valuesPart (blankText p'.gap) m ++ ch ')' :: q)) := by
    obtain ⟨m, hm, hnormalize⟩ := normalize_rows h
    exact ⟨m, hm, haround r m hnormalize⟩
  rw [← hedge]
  constructor
  · intro hall
    by_contra hback
    rw [Bool.not_eq_true] at hback
    obtain ⟨v, w, hkept⟩ := collapseLists_values_kept z q hback
    have hone := RowList.one literalList_one
    have htwo := RowList.cons literalList_one blank_nil blank_nil hone
    obtain ⟨m, hm, hr⟩ := hrows hone
    obtain ⟨m', hm', hr'⟩ := hrows htwo
    have heq := hall 1 2 _ _ hone htwo
    have hbytes {n : ℕ} {m : Bytes} (h : RowText n (m ++ [ch ')'])) :
        ∀ c ∈ m, isIdentByte c = false := fun c hc ↦ h.bytes c (List.mem_append_left _ hc)
    rw [hr, hr', hkept _ m (spaces_blankText _) (hbytes hm),
      hkept _ m' (spaces_blankText _) (hbytes hm')] at heq
    have hpart := (List.cons.inj (List.append_cancel_left heq)).2
    rw [List.append_left_inj, valuesPart, valuesPart] at hpart
    have hsame := List.append_cancel_left (List.append_cancel_left hpart)
    have hcount := hm.count.symm.trans (hsame ▸ hm'.count)
    exact absurd hcount (by decide)
  · intro hword m n r r' h h'
    obtain ⟨v, hv⟩ := collapseLists_values z (blankText p'.gap) q (spaces_blankText _) hword
    obtain ⟨g, hg, hl⟩ := hrows h
    obtain ⟨g', hg', hl'⟩ := hrows h'
    rw [hl, hl', hv m g hg, hv n g' hg']

end Lists

/-- **Literals do not split a class**, but for lists whose keyword stands directly behind a
backtick. -/
theorem fingerprint_literals (s : LiteralSlot) (p : ListPlace (ascii "in"))
    (p' : ListPlace (ascii "values")) :
    (∀ lit lit', s.Takes lit → s.Takes lit' →
      fingerprint (s.text lit) = fingerprint (s.text lit')) ∧
    ((∀ m n l l', LiteralList m l → LiteralList n l' →
      fingerprint (p.text (parenthesized l)) = fingerprint (p.text (parenthesized l'))) ↔
      p.read.getLast? ≠ some backtick) ∧
    ((∀ m n r r', RowList m r → RowList n r' →
      fingerprint (p'.text r) = fingerprint (p'.text r')) ↔ p'.read.getLast? ≠ some backtick) := by
  refine ⟨fun lit lit' h h' ↦ ?_, p.in_iff, p'.values_iff⟩
  obtain ⟨out, hout⟩ := s.normalize_text
  rw [fingerprint, fingerprint, hout lit h, hout lit' h']

/-! ## Samples -/

theorem AtCode.of_plain {p : Bytes} (hp : ∀ c ∈ p, isPlain c = true) (t : Bytes) :
    AtCode (p ++ t) t p := by
  induction p with
  | nil => exact .refl t
  | cons c p ih =>
    obtain ⟨hc, hp⟩ := List.forall_mem_cons.mp hp
    exact .byte (opensNothing_of_isPlain hc _) (ih hp)

def slotSample : LiteralSlot where
  before := ascii "a ="
  last := ch ' '
  after := ascii ";"
  read := ascii "a ="
  utf8 := by decide +kernel
  atCode := .of_plain (by decide +kernel) _
  edge := by decide
  noSign := by decide +kernel
  ends := endsLiteral_cons (by decide) (by decide) []

def inSample : ListPlace (ascii "in") where
  before := ascii "a "
  first := ch 'I'
  keyword := ascii "N"
  gap := ascii " "
  after := ascii ";"
  read := ascii "a "
  utf8 := by decide +kernel
  isWord := by decide
  atCode := .of_plain (by decide +kernel) _
  wholeWord := by decide
  blank := by decide +kernel

def valuesSample : ListPlace (ascii "values") where
  before := ascii "t "
  first := ch 'V'
  keyword := ascii "ALUES"
  gap := []
  after := []
  read := ascii "t "
  utf8 := by decide +kernel
  isWord := by decide
  atCode := .of_plain (by decide +kernel) _
  wholeWord := by decide
  blank := blank_nil

theorem fingerprint_literals_sample :
    fingerprint (ascii "a = 1;") = fingerprint (ascii "a = -1;") ∧
      fingerprint (ascii "a IN (1);") = fingerprint (ascii "a IN (1,1);") ∧
      fingerprint (ascii "t VALUES(1)") = fingerprint (ascii "t VALUES(1),(1,1)") := by
  have hsigned : SignedNumber (ascii "-1") := by
    have hone : Mantissa (ascii "1") := .integer (by decide +kernel) (by decide)
    exact .mk (Or.inr rfl) (.decimal hone .none)
  obtain ⟨hslot, hin, hvalues⟩ := fingerprint_literals slotSample inSample valuesSample
  refine ⟨hslot (ascii "1") (ascii "-1") (Or.inl literal_one)
    (Or.inr ⟨hsigned, ch '=', by decide +kernel, by decide⟩), ?_, ?_⟩
  · exact hin.mpr (by decide) 1 2 _ _ literalList_one literalList_two
  · exact hvalues.mpr (by decide) 1 2 _ _ (.one literalList_one)
      (.cons literalList_one blank_nil blank_nil (.one literalList_two))

/-- A place directly behind a quoted identifier. -/
def backtickSample : ListPlace (ascii "in") where
  before := ascii "\x60a\x60"
  first := ch 'I'
  keyword := ascii "N"
  gap := []
  after := []
  read := ascii "\x60a\x60"
  utf8 := by decide +kernel
  isWord := by decide
  atCode := .quoted (by decide) (.refl _)
  wholeWord := by decide
  blank := blank_nil

/-- Lists of one and of two literals are told apart there. -/
theorem fingerprint_behind_backtick :
    ¬∀ (p : ListPlace (ascii "in")) (m n : ℕ) (l l' : Bytes), LiteralList m l →
      LiteralList n l' →
        fingerprint (p.text (parenthesized l)) = fingerprint (p.text (parenthesized l')) := by
  intro hall
  have heq := hall backtickSample 1 2 _ _ literalList_one literalList_two
  revert heq
  decide +kernel

end SqlReplay
