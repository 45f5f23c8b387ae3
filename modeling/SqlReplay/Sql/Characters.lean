import SqlReplay.Proto.UseStatement
import SqlReplay.Sql.CodeLevel
import SqlReplay.Sql.Collapse

/-!
# Whole characters

The scanners of SQL text step from byte to byte, and behind a backslash they step over two. So
inside of a string they can stand in the middle of a character. They never stand there at code
level: what is skipped as a whole ends with the text or with a delimiter of ASCII, and an ASCII byte
is a character by itself (`isUtf8_skipQuoted` and its likes).

For the fingerprint this is the invariant of its loop: what it has written is valid, what it has
still to read is valid, and the characters written that are not ASCII, `wide`, are among those read
outside strings and comments, in their order (`normalize_writes`). The later passes take such
characters away and add none: trimming and the fold of a sign drop the end of a text, and a
collapsing pass puts ASCII in place of what it found between two ASCII bytes
(`ListForm.collapse_writes`). U+FFFD is such a character, so `push_lossy_lower` writes it only where
it reads it.
-/

namespace SqlReplay

open Fingerprint

/-! ## Where a skipped text ends -/

section Skipping

variable {b : Bytes}

theorem isUtf8_nil : isUtf8 [] = true := isUtf8_of_ascii fun _ h ↦ absurd h List.not_mem_nil

theorem isUtf8_tail_of_ascii {c : UInt8} (hc : c < 0x80) (h : isUtf8 (c :: b) = true) :
    isUtf8 b = true :=
  ((isUtf8_append_cons_iff (s := []) hc).mp h).2

/-- What stands behind an ASCII byte is valid. -/
theorem isUtf8_of_close {p after : Bytes} {c : UInt8} (hc : c < 0x80) (h : isUtf8 b = true)
    (hb : b = p ++ c :: after) : isUtf8 after = true := by
  rw [hb] at h
  exact ((isUtf8_append_cons_iff hc).mp h).2

theorem isUtf8_skipQuoted {q : UInt8} (hq : q < 0x80) (h : isUtf8 b = true) :
    isUtf8 (skipQuoted q b) = true := by
  by_cases hnil : skipQuoted q b = []
  · rw [hnil]
    exact isUtf8_nil
  · obtain ⟨p, hp⟩ := skipQuoted_close hnil
    exact isUtf8_of_close hq h hp

theorem isUtf8_skipBlockComment (h : isUtf8 b = true) : isUtf8 (skipBlockComment b) = true := by
  by_cases hnil : skipBlockComment b = []
  · rw [hnil]
    exact isUtf8_nil
  · obtain ⟨p, hp⟩ := skipBlockComment_close hnil
    exact isUtf8_of_close (by decide) h hp

theorem isUtf8_skipLineComment (h : isUtf8 b = true) : isUtf8 (skipLineComment b) = true := by
  by_cases hnil : skipLineComment b = []
  · rw [hnil]
    exact isUtf8_nil
  · obtain ⟨after, hafter⟩ := List.head?_eq_some_iff.mp (skipLineComment_head hnil)
    obtain ⟨p, hp⟩ := skipLineComment_suffix b
    rw [hafter] at hp ⊢
    have hrest := isUtf8_of_close (by decide) h hp.symm
    exact (isUtf8_append_cons_iff (s := []) (by decide)).mpr ⟨isUtf8_nil, hrest⟩

/-- A loop that moves over ASCII. -/
def TakesAscii (f : Bytes → Bytes) : Prop := ∀ b, ∃ p, b = p ++ f b ∧ ∀ d ∈ p, d < 0x80

namespace TakesAscii

variable {f g : Bytes → Bytes}

theorem comp (hf : TakesAscii f) (hg : TakesAscii g) : TakesAscii fun b ↦ g (f b) := by
  intro b
  obtain ⟨p, hp, hpascii⟩ := hf b
  obtain ⟨q, hq, hqascii⟩ := hg (f b)
  refine ⟨p ++ q, ?_, List.forall_mem_append.mpr ⟨hpascii, hqascii⟩⟩
  rw [List.append_assoc, ← hq, ← hp]

theorem dropWhile {p : UInt8 → Bool} (hp : ∀ c, p c = true → c < 0x80) :
    TakesAscii (List.dropWhile p) := fun b ↦
  ⟨b.takeWhile p, List.takeWhile_append_dropWhile.symm,
    fun d hd ↦ hp d (List.mem_takeWhile_imp hd)⟩

theorem cons (hf : TakesAscii f) {c : UInt8} (hc : c < 0x80) (b : Bytes) :
    ∃ p, c :: b = p ++ f b ∧ ∀ d ∈ p, d < 0x80 := by
  obtain ⟨p, hp, hascii⟩ := hf b
  exact ⟨c :: p, congrArg (c :: ·) hp, List.forall_mem_cons.mpr ⟨hc, hascii⟩⟩

end TakesAscii

theorem ascii_of_isAsciiDigit (c : UInt8) (h : isAsciiDigit c = true) : c < 0x80 :=
  (isNumeralByte_spec c).2.2.2.2 ((isNumeralByte_spec c).1 h).1

theorem takesAscii_digits : TakesAscii (List.dropWhile isAsciiDigit) :=
  TakesAscii.dropWhile ascii_of_isAsciiDigit

theorem takesAscii_skipExponent : TakesAscii skipExponent := by
  intro b
  cases b with
  | nil => exact ⟨[], rfl, fun _ h ↦ absurd h List.not_mem_nil⟩
  | cons c rest =>
    rw [skipExponent]
    by_cases he : c ||| 0x20 = ch 'e' ∧ (if rest.head? = some (ch '+') ∨
        rest.head? = some (ch '-') then rest.tail else rest).head?.any isAsciiDigit
    · rw [if_pos he]
      have hc : c < 0x80 := (isNumeralByte_spec c).2.2.2.2 ((isNumeralByte_spec c).2.2.1 he.1)
      by_cases hsign : rest.head? = some (ch '+') ∨ rest.head? = some (ch '-')
      · rw [if_pos hsign]
        obtain ⟨sign, digits, rfl⟩ : ∃ sign digits, rest = sign :: digits :=
          List.exists_cons_of_ne_nil (by rintro rfl; simp at hsign)
        obtain ⟨p, hp, hascii⟩ := takesAscii_digits digits
        have hsign' : sign < 0x80 := by
          rw [List.head?_cons, Option.some.injEq, Option.some.injEq] at hsign
          rcases hsign with rfl | rfl
          all_goals decide
        refine ⟨c :: sign :: p, congrArg (c :: sign :: ·) hp, ?_⟩
        exact List.forall_mem_cons.mpr ⟨hc, List.forall_mem_cons.mpr ⟨hsign', hascii⟩⟩
      · rw [if_neg hsign]
        exact takesAscii_digits.cons hc rest
    · rw [if_neg he]
      exact ⟨[], rfl, fun _ h ↦ absurd h List.not_mem_nil⟩

/-- A number is ASCII. -/
theorem takesAscii_skipNumber : TakesAscii skipNumber := by
  intro b
  rw [skipNumber]
  split_ifs with hhex
  · obtain ⟨zero, x, rest, rfl⟩ : ∃ zero x rest, b = zero :: x :: rest := by
      obtain ⟨zero, tail, rfl⟩ : ∃ zero tail, b = zero :: tail :=
        List.exists_cons_of_ne_nil (by rintro rfl; simp at hhex)
      obtain ⟨x, rest, rfl⟩ : ∃ x rest, tail = x :: rest :=
        List.exists_cons_of_ne_nil (by rintro rfl; simp at hhex)
      exact ⟨zero, x, rest, rfl⟩
    have hzero : zero < 0x80 := by
      rw [Option.some.inj hhex.1]
      decide
    have hx : x < 0x80 := by
      have hletter : x ||| 0x20 = ch 'x' := of_decide_eq_true hhex.2
      exact (isNumeralByte_spec x).2.2.2.2 ((isNumeralByte_spec x).2.2.2.1 hletter).1
    obtain ⟨p, hp, hascii⟩ := TakesAscii.dropWhile (p := isAsciiHexdigit)
      (fun c hc ↦ (isNumeralByte_spec c).2.2.2.2 ((isNumeralByte_spec c).2.1 hc).1) rest
    refine ⟨zero :: x :: p, congrArg (zero :: x :: ·) hp, ?_⟩
    exact List.forall_mem_cons.mpr ⟨hzero, List.forall_mem_cons.mpr ⟨hx, hascii⟩⟩
  · -- a point between the digits
    have hpoint : TakesAscii fun m ↦
        if m.head? = some (ch '.') then m.tail.dropWhile isAsciiDigit else m := by
      intro m
      dsimp only
      split_ifs with hm
      · obtain ⟨m, rfl⟩ := List.head?_eq_some_iff.mp hm
        exact takesAscii_digits.cons (by decide) m
      · exact ⟨[], rfl, fun _ h ↦ absurd h List.not_mem_nil⟩
    exact (takesAscii_digits.comp hpoint).comp takesAscii_skipExponent b

end Skipping

/-! ## Characters that are not ASCII -/

/-- The characters of a text that take more than a byte. -/
def wide (s : Bytes) : List Bytes := (chars s).filter fun k ↦ k.length ≠ 1

section Wide

variable {c : UInt8} {s t : Bytes}

theorem wide_nil : wide [] = [] := by rw [wide, chars_nil, List.filter_nil]

theorem wide_append (h : isUtf8 s = true) (t : Bytes) : wide (s ++ t) = wide s ++ wide t := by
  rw [wide, chars_append h, List.filter_append, wide, wide]

theorem wide_append_cons (hc : c < 0x80) (s t : Bytes) :
    wide (s ++ c :: t) = wide s ++ wide t := by
  rw [wide, chars_append_cons s hc, List.filter_append, List.filter_cons_of_neg (by simp), wide,
    wide]

theorem wide_cons (hc : c < 0x80) (t : Bytes) : wide (c :: t) = wide t := by
  have h := wide_append_cons hc [] t
  rwa [List.nil_append, wide_nil, List.nil_append] at h

theorem wide_concat (hc : c < 0x80) (s : Bytes) : wide (s ++ [c]) = wide s := by
  rw [wide_append_cons hc, wide_nil, List.append_nil]

theorem wide_of_ascii (h : ∀ d ∈ s, d < 0x80) : wide s = [] := by
  induction s with
  | nil => exact wide_nil
  | cons c s ih =>
    obtain ⟨hc, hs⟩ := List.forall_mem_cons.mp h
    rw [wide_cons hc, ih hs]

theorem wide_of_sublist (h : (chars t).Sublist (chars s)) : (wide t).Sublist (wide s) := h.filter _

theorem mem_wide {k : Bytes} (hk : k.length ≠ 1) : k ∈ wide s ↔ k ∈ chars s := by
  rw [wide, List.mem_filter]
  exact and_iff_left (decide_eq_true hk)

end Wide

/-! ## The text outside strings and comments -/

/-- A statement without its strings and comments. A quoted identifier is neither; an executable
comment is a comment. -/
def outsideText : Bytes → Bytes
  | [] => []
  | c :: rest =>
    if c = singleQuote ∨ c = doubleQuote then outsideText (skipQuoted c rest)
    else if c = backtick then
      c :: (consumed rest (skipQuoted c rest) ++ outsideText (skipQuoted c rest))
    else if opensBlockComment c rest then outsideText (skipBlockComment rest.tail)
    else if opensLineComment c rest then outsideText (skipLineComment rest)
    else c :: outsideText rest
termination_by b => b.length
decreasing_by
  all_goals simp only [List.length_cons, Nat.lt_succ_iff]
  · exact (skipQuoted_suffix c rest).length_le
  · exact (skipQuoted_suffix c rest).length_le
  · exact ((skipBlockComment_suffix _).trans (List.tail_suffix rest)).length_le
  · exact (skipLineComment_suffix rest).length_le
  · exact le_rfl

example : outsideText (ascii "a /* b */ 'c' # d") = ascii "a   " := by decide +kernel

theorem outsideText_nil : outsideText [] = [] := by rw [outsideText]

theorem outsideText_code {c : UInt8} {rest : Bytes} (h : OpensNothing c rest) :
    outsideText (c :: rest) = c :: outsideText rest := by
  obtain ⟨hb, hl, hq⟩ := h
  simp only [isQuote, Bool.or_eq_true, beq_iff_eq, not_or] at hq
  rw [outsideText, if_neg (not_or_intro hq.1.1 hq.1.2), if_neg hq.2, if_neg hb, if_neg hl]

/-- A stretch of code is kept. -/
theorem CodeRun.outsideText_eq {p after : Bytes} (h : CodeRun (p ++ after) after) :
    outsideText (p ++ after) = p ++ outsideText after := by
  generalize hb : p ++ after = b at h
  induction h generalizing p with
  | refl b =>
    obtain rfl : p = [] := List.append_left_eq_self.mp hb
    rfl
  | @cons c b after hc hrun ih =>
    cases p with
    | nil =>
      have hle := hrun.suffix.length_le
      rw [List.nil_append] at hb
      rw [hb, List.length_cons] at hle
      omega
    | cons d p =>
      obtain ⟨rfl, rfl⟩ := List.cons.inj hb
      rw [outsideText_code hc, ih rfl, List.cons_append]

/-! ## The loop -/

namespace Fingerprint

theorem toAsciiLowercase_ascii {c : UInt8} (hc : c < 0x80) : toAsciiLowercase c < 0x80 :=
  forall_byte (p := fun c ↦ c < 0x80 → toAsciiLowercase c < 0x80) (by decide) c hc

/-- What a step of a scanner from `b` to `after` writes on `out`: the output stays valid, and its
wide characters are those it had and those of `seen`. -/
structure Writes (out seen out' : Bytes) : Prop where
  utf8 : isUtf8 out' = true
  wide : (wide out').Sublist (wide out ++ wide seen)

namespace Writes

variable {out out' seen : Bytes}

theorem trans {seen' out'' : Bytes} (hseen : isUtf8 seen = true) (h : Writes out seen out')
    (h' : Writes out' seen' out'') : Writes out (seen ++ seen') out'' := by
  refine ⟨h'.utf8, h'.wide.trans ?_⟩
  rw [wide_append hseen, ← List.append_assoc]
  exact h.wide.append_right _

/-- What writes no wide character. -/
theorem of_sublist (hutf8 : isUtf8 out' = true)
    (h : (SqlReplay.wide out').Sublist (SqlReplay.wide out)) (seen : Bytes) :
    Writes out seen out' :=
  ⟨hutf8, h.trans (List.sublist_append_left _ _)⟩

/-- ASCII is no wide character. -/
theorem ascii (hout : isUtf8 out = true) {p : Bytes} (hp : ∀ d ∈ p, d < 0x80) (seen : Bytes) :
    Writes out seen (out ++ p) := by
  refine of_sublist (isUtf8_append hout (isUtf8_of_ascii hp)) ?_ seen
  rw [wide_append hout, wide_of_ascii hp, List.append_nil]

end Writes

section Copying

variable {out : Bytes} {c : UInt8} {rest : Bytes}

/-- A character is copied as a whole, in lower case if it is ASCII. -/
theorem pushLossyLower_writes (hout : isUtf8 out = true) (h : isUtf8 (c :: rest) = true) :
    ∃ k m, rest = k ++ m ∧ (k = [] ∨ 0x80 ≤ c ∧ ∀ d ∈ k, 0x80 ≤ d) ∧ isUtf8 (c :: k) = true ∧
      isUtf8 m = true ∧ (pushLossyLower out c rest).2 = m ∧
      Writes out (c :: k) (pushLossyLower out c rest).1 := by
  by_cases hascii : c < 0x80
  · have hlower := toAsciiLowercase_ascii hascii
    refine ⟨[], rest, rfl, Or.inl rfl, ?_, isUtf8_tail_of_ascii hascii h, ?_, ?_⟩
    · exact isUtf8_of_ascii fun d hd ↦ List.mem_singleton.mp hd ▸ hascii
    · rw [pushLossyLower, if_pos hascii]
    · rw [pushLossyLower, if_pos hascii]
      refine Writes.of_sublist (isUtf8_concat hout hlower) ?_ _
      rw [wide_concat hlower]
  · obtain ⟨k, m, rfl, hk, -, hbytes, hm, hpush⟩ := pushLossyLower_char hascii h
    have hpush' := hpush out []
    rw [List.append_nil, List.append_nil] at hpush'
    obtain ⟨hc, hbytes⟩ := List.forall_mem_cons.mp hbytes
    refine ⟨k, m, rfl, Or.inr ⟨hc, hbytes⟩, hk, hm, ?_, ?_⟩
    · rw [hpush']
    · rw [hpush']
      exact ⟨isUtf8_append hout hk, by rw [wide_append hout]⟩

/-- So is a quoted identifier. -/
theorem copyIdent_writes {b : Bytes} (hout : isUtf8 out = true) (h : isUtf8 b = true) :
    ∃ seen, b = seen ++ (copyIdent out b).2 ∧ isUtf8 seen = true ∧
      isUtf8 (copyIdent out b).2 = true ∧ Writes out seen (copyIdent out b).1 := by
  have hback : (backtick : UInt8) < 0x80 := by decide
  fun_induction copyIdent out b with
  | case1 out =>
    exact ⟨[], rfl, isUtf8_nil, isUtf8_nil, Writes.of_sublist hout (List.Sublist.refl _) _⟩
  | case2 out rest hd ih =>
    obtain ⟨rest, rfl⟩ := List.head?_eq_some_iff.mp hd
    have hpair : ∀ d ∈ [backtick, backtick], d < 0x80 := by simp [hback]
    rw [List.tail_cons] at ih ⊢
    have hrest := isUtf8_tail_of_ascii hback (isUtf8_tail_of_ascii hback h)
    obtain ⟨seen, hseen, hutf8, hafter, hwrites⟩ :=
      ih (isUtf8_append hout (isUtf8_of_ascii hpair)) hrest
    refine ⟨[backtick, backtick] ++ seen, ?_, isUtf8_append (isUtf8_of_ascii hpair) hutf8,
      hafter, (Writes.ascii hout hpair _).trans (isUtf8_of_ascii hpair) hwrites⟩
    rw [List.append_assoc, ← hseen]
    rfl
  | case3 out rest hd =>
    have hone : ∀ d ∈ [backtick], d < 0x80 := by simp [hback]
    exact ⟨[backtick], rfl, isUtf8_of_ascii hone, isUtf8_tail_of_ascii hback h,
      Writes.ascii hout hone _⟩
  | case4 out c rest hc ih =>
    obtain ⟨k, m, hrest, -, hk, hm, hpush, hwrites⟩ := pushLossyLower_writes hout h
    obtain ⟨seen, hseen, hutf8, hafter, hwrites'⟩ := ih hwrites.utf8 (by rwa [hpush])
    refine ⟨c :: k ++ seen, ?_, isUtf8_append hk hutf8, hafter, hwrites.trans hk hwrites'⟩
    rw [List.append_assoc, ← hseen, hpush, hrest, List.cons_append]

/-- Taking white space off the end leaves a valid text, with no other characters. -/
theorem trimEnd_writes {s : Bytes} (h : isUtf8 s = true) :
    isUtf8 (trimEnd s) = true ∧ (wide (trimEnd s)).Sublist (wide s) := by
  have hsub : ((chars s).reverse.dropWhile isWhitespace).reverse.Sublist (chars s) := by
    have hdrop := (List.dropWhile_sublist (l := (chars s).reverse) isWhitespace).reverse
    rwa [List.reverse_reverse] at hdrop
  obtain ⟨hchars, hutf8⟩ := chars_flatten_of fun k hk ↦ chars_of_mem_chars h (hsub.mem hk)
  refine ⟨hutf8, wide_of_sublist ?_⟩
  rwa [trimEnd, hchars]

theorem dropLast_writes {s : Bytes} {c : UInt8} (hc : c < 0x80) (h : isUtf8 s = true)
    (hlast : s.getLast? = some c) : isUtf8 s.dropLast = true ∧ wide s.dropLast = wide s := by
  obtain ⟨s, rfl⟩ := List.getLast?_eq_some_iff.mp hlast
  rw [List.dropLast_concat, wide_concat hc]
  exact ⟨((isUtf8_append_cons_iff hc).mp h).1, rfl⟩

/-- Folding a sign takes the end of the output away. -/
theorem foldSign_writes (h : isUtf8 out = true) : (wide (foldSign out)).Sublist (wide out) := by
  have htrim := trimEnd_writes h
  rw [foldSign]
  split_ifs with hsign
  · exact List.Sublist.refl _
  · obtain ⟨sign, hascii, hlast⟩ : ∃ sign : UInt8, sign < 0x80 ∧
        (trimEnd out).getLast? = some sign := by
      rw [not_and_or, not_not, not_not] at hsign
      rcases hsign with hsign | hsign
      · exact ⟨_, by decide, hsign⟩
      · exact ⟨_, by decide, hsign⟩
    rw [(dropLast_writes hascii htrim.1 hlast).2]
    exact htrim.2
  · exact List.Sublist.refl _

theorem pushSpace_writes (h : isUtf8 out = true) (seen : Bytes) :
    Writes out seen (pushSpace out) := by
  rw [pushSpace]
  split_ifs
  · exact Writes.ascii h (by decide +kernel) seen
  · exact Writes.of_sublist h (List.Sublist.refl _) seen

theorem opensBlockComment_ascii (h : opensBlockComment c rest = true) :
    c < 0x80 ∧ rest.head? = some (ch '*') := by
  simp only [opensBlockComment, Bool.and_eq_true, beq_iff_eq] at h
  rw [h.1]
  exact ⟨by decide, h.2⟩

theorem opensLineComment_ascii (h : opensLineComment c rest = true) : c < 0x80 := by
  simp only [opensLineComment, Bool.or_eq_true, Bool.and_eq_true, beq_iff_eq] at h
  rcases h with rfl | ⟨⟨rfl, -⟩, -⟩
  all_goals decide

theorem numeralStart_ascii (h : isAsciiDigit c = true ∨ c = ch '.') : c < 0x80 := by
  rcases h with h | rfl
  · exact ascii_of_isAsciiDigit c h
  · decide

theorem opensNothing_of_not (hstring : ¬(c = singleQuote ∨ c = doubleQuote)) (hident : c ≠ backtick)
    (hblock : ¬opensBlockComment c rest = true) (hline : ¬opensLineComment c rest = true) :
    OpensNothing c rest := by
  refine ⟨hblock, hline, fun hquote ↦ ?_⟩
  simp only [isQuote, Bool.or_eq_true, beq_iff_eq] at hquote
  exact hquote.elim hstring hident

/-- **The loop writes the characters that it reads outside strings and comments.** -/
theorem normalize_writes {b : Bytes} (hout : isUtf8 out = true) (h : isUtf8 b = true) :
    Writes out (outsideText b) (normalize out b) := by
  fun_induction normalize out b with
  | case1 out =>
    rw [outsideText_nil]
    exact Writes.of_sublist hout (List.Sublist.refl _) _
  | case2 out c rest hq ih =>
    -- a string leaves a placeholder
    have hne : c ≠ backtick := by rcases hq with rfl | rfl <;> decide
    have hc : c < 0x80 := by rcases hq with rfl | rfl <;> decide
    rw [skipString_eq hne] at ih ⊢
    have hmark := Writes.ascii hout (p := [ch '?']) (by decide +kernel) []
    rw [outsideText, if_pos hq]
    exact hmark.trans isUtf8_nil
      (ih hmark.utf8 (isUtf8_skipQuoted hc (isUtf8_tail_of_ascii hc h)))
  | case3 out rest hq ih =>
    -- a quoted identifier is copied
    have hback : (backtick : UInt8) < 0x80 := by decide
    have hone : ∀ d ∈ [backtick], d < 0x80 := by simp [hback]
    have hopen := Writes.ascii hout hone [backtick]
    obtain ⟨seen, hseen, hutf8, hafter, hwrites⟩ :=
      copyIdent_writes hopen.utf8 (isUtf8_tail_of_ascii hback h)
    have hcopy := ih hwrites.utf8 hafter
    rw [copyIdent_eq] at hcopy hseen ⊢
    have htext : outsideText (backtick :: rest) =
        [backtick] ++ (seen ++ outsideText (skipQuoted backtick rest)) := by
      rw [outsideText, if_neg hq, if_pos rfl]
      nth_rewrite 1 [hseen]
      rw [consumed_append_left]
      rfl
    rw [htext]
    exact hopen.trans (isUtf8_of_ascii hone) (hwrites.trans hutf8 hcopy)
  | case4 out c rest hq hi hb ih =>
    obtain ⟨hc, hstar⟩ := opensBlockComment_ascii hb
    obtain ⟨rest, rfl⟩ := List.head?_eq_some_iff.mp hstar
    rw [List.drop_succ_cons, List.drop_zero] at ih ⊢
    have hrest := isUtf8_tail_of_ascii (by decide) (isUtf8_tail_of_ascii hc h)
    have hspace := pushSpace_writes hout []
    rw [outsideText, if_neg hq, if_neg hi, if_pos hb, List.tail_cons]
    exact hspace.trans isUtf8_nil (ih hspace.utf8 (isUtf8_skipBlockComment hrest))
  | case5 out c rest hq hi hb hl ih =>
    have hc := opensLineComment_ascii hl
    rw [outsideText, if_neg hq, if_neg hi, if_neg hb, if_pos hl]
    exact ih hout (isUtf8_skipLineComment (isUtf8_tail_of_ascii hc h))
  | case6 out c rest hq hi hb hl hw ih =>
    have hc := (isAsciiWhitespace_spec c hw).1
    have hspace := pushSpace_writes hout [c]
    rw [outsideText_code (opensNothing_of_not hq hi hb hl)]
    exact hspace.trans (isUtf8_of_ascii (List.forall_mem_singleton.mpr hc))
      (ih hspace.utf8 (isUtf8_tail_of_ascii hc h))
  | case7 out c rest hq hi hb hl hw hn hident ih =>
    -- a digit of an identifier
    have hc := numeralStart_ascii (hn.imp_right And.left)
    have hdigit := Writes.ascii hout (List.forall_mem_singleton.mpr (toAsciiLowercase_ascii hc)) [c]
    rw [outsideText_code (opensNothing_of_not hq hi hb hl)]
    exact hdigit.trans (isUtf8_of_ascii (List.forall_mem_singleton.mpr hc))
      (ih hdigit.utf8 (isUtf8_tail_of_ascii hc h))
  | case8 out c rest hq hi hb hl hw hn hident ih =>
    -- a number leaves a placeholder, and may take the sign in front of it along
    obtain ⟨p, hp, hascii⟩ := takesAscii_skipNumber (c :: rest)
    have hrun : CodeRun (c :: rest) (skipNumber (c :: rest)) :=
      codeRun_skipNumber (hn.imp_right And.left)
    generalize skipNumber (c :: rest) = after at *
    rw [hp] at h hrun ⊢
    have hfold := Writes.of_sublist (isUtf8_foldSign hout) (foldSign_writes hout) []
    have hmark := Writes.ascii hfold.utf8 (p := [ch '?']) (by decide +kernel) p
    rw [hrun.outsideText_eq]
    have hafter := ih hmark.utf8 (isUtf8_of_ascii_append hascii h)
    have hall := hfold.trans isUtf8_nil (hmark.trans (isUtf8_of_ascii hascii) hafter)
    exact hall
  | case9 out c rest hq hi hb hl hw hn ih =>
    obtain ⟨k, m, hrest, hbytes, hk, hm, hpush, hwrites⟩ := pushLossyLower_writes hout h
    have hcode := opensNothing_of_not hq hi hb hl
    rw [hpush] at ih ⊢
    have hrun : CodeRun (c :: k ++ m) m := by
      rw [hrest] at hcode
      rcases hbytes with rfl | ⟨-, hbytes⟩
      · exact .cons hcode (.refl m)
      · exact .cons hcode (CodeRun.of_plain (fun d hd ↦ isPlain_of_not_ascii (hbytes d hd)) m)
    have htext : outsideText (c :: rest) = c :: k ++ outsideText m := by
      rw [hrest]
      exact hrun.outsideText_eq
    rw [htext]
    exact hwrites.trans hk (ih hwrites.utf8 hm)

end Copying

/-! ## The later passes -/

theorem trim_writes {s : Bytes} (h : isUtf8 s = true) :
    isUtf8 (trim s) = true ∧ (wide (trim s)).Sublist (wide s) := by
  obtain ⟨hchars, hutf8⟩ := chars_trim h
  refine ⟨hutf8, wide_of_sublist ?_⟩
  rw [hchars]
  exact (List.rdropWhile_prefix _ _).sublist.trans (List.dropWhile_sublist _)

theorem dropSemicolons_writes {s : Bytes} (h : isUtf8 s = true) :
    isUtf8 (dropSemicolons s) = true ∧ (wide (dropSemicolons s)).Sublist (wide s) := by
  fun_induction dropSemicolons s with
  | case1 s hlast ih =>
    obtain ⟨hdrop, hwide⟩ := dropLast_writes (by decide) h hlast
    obtain ⟨htrim, hsub⟩ := trimEnd_writes hdrop
    obtain ⟨hutf8, hrest⟩ := ih htrim
    rw [hwide] at hsub
    exact ⟨hutf8, hrest.trans hsub⟩
  | case2 s hlast => exact ⟨h, List.Sublist.refl _⟩

end Fingerprint

/-- A collapsing pass puts ASCII between ASCII bytes. -/
theorem ListForm.collapse_writes {f : ListForm} (hcanon : ∀ c ∈ f.canon, c < 0x80) {a : UInt8}
    (ha : f.word.head? = some a) (hascii : a < 0x80) {s : Bytes} (h : isUtf8 s = true)
    (before : Option UInt8) :
    isUtf8 (f.collapse before s) = true ∧ (wide (f.collapse before s)).Sublist (wide s) := by
  induction hn : s.length using Nat.strong_induction_on generalizing s before with
  | _ n ih =>
  subst hn
  cases s with
  | nil =>
    rw [ListForm.collapse_nil]
    exact ⟨isUtf8_nil, List.Sublist.refl _⟩
  | cons c rest =>
    by_cases hc : c < 0x80
    · by_cases hlists : ∃ after, wordAt f.word before (c :: rest) = true ∧
          f.tail (rest.drop (f.word.length - 1)) = some after
      · obtain ⟨after, hword, htail⟩ := hlists
        obtain ⟨p, hp⟩ := f.tail_split htail
        have hsplit : c :: rest = c :: (rest.take (f.word.length - 1) ++ p) ++ ch ')' :: after := by
          rw [List.cons_append, List.append_assoc, ← hp, List.take_append_drop]
        have hlt : after.length < (c :: rest).length := by
          have hlen := congrArg List.length hsplit
          simp only [List.length_append, List.length_cons] at hlen ⊢
          omega
        have hafter := isUtf8_of_close (by decide) h hsplit
        obtain ⟨hutf8, hwide⟩ := ih after.length hlt hafter (some (ch ')')) rfl
        have hcanon' := isUtf8_of_ascii hcanon
        rw [ListForm.collapse_lists hword htail, wide_append hcanon', wide_of_ascii hcanon,
          List.nil_append, hsplit, wide_append_cons (by decide)]
        exact ⟨isUtf8_append hcanon' hutf8, hwide.trans (List.sublist_append_right _ _)⟩
      · obtain ⟨hutf8, hwide⟩ := ih rest.length (Nat.lt_succ_self _) (isUtf8_tail_of_ascii hc h)
          (some c) rfl
        rw [ListForm.collapse_cons, wide_cons hc, wide_cons hc]
        · exact ⟨(isUtf8_append_cons_iff (s := []) hc).mpr ⟨isUtf8_nil, hutf8⟩, hwide⟩
        · intro hword
          exact Option.eq_none_iff_forall_ne_some.mpr fun after htail ↦
            hlists ⟨after, hword, htail⟩
    · -- no byte of the character is the first letter of the word
      obtain ⟨k, m, rfl, hk, -, hbytes, hm, -⟩ := pushLossyLower_char hc h
      have hnot : a ∉ c :: k := fun hmem ↦ UInt8.not_lt.mpr (hbytes a hmem) hascii
      have hlt : m.length < (c :: (k ++ m)).length := by
        rw [List.length_cons, List.length_append]
        omega
      obtain ⟨hutf8, hwide⟩ := ih m.length hlt hm ((c :: k).getLast?.or before) rfl
      rw [← List.cons_append, ListForm.collapse_copy ha hnot, wide_append hk, wide_append hk]
      exact ⟨isUtf8_append hk hutf8, hwide.append_left _⟩

theorem collapseInLists_writes {s : Bytes} (h : isUtf8 s = true) :
    isUtf8 (collapseInLists s) = true ∧ (wide (collapseInLists s)).Sublist (wide s) := by
  rw [collapseInLists, collapseInFrom_eq]
  exact ListForm.collapse_writes (a := ch 'i') (by decide +kernel) rfl (by decide) h none

theorem collapseValuesLists_writes {s : Bytes} (h : isUtf8 s = true) :
    isUtf8 (collapseValuesLists s) = true ∧ (wide (collapseValuesLists s)).Sublist (wide s) := by
  rw [collapseValuesLists, collapseValuesFrom_eq]
  exact ListForm.collapse_writes (a := ch 'v') (by decide +kernel) rfl (by decide) h none

/-! ## The fingerprint -/

/-- `String::from_utf8(b).expect(..)`: a panic unless the bytes are UTF-8. -/
def expectUtf8 (b : Bytes) : Option Bytes := if isUtf8 b then some b else none

theorem expectUtf8_of_isUtf8 {b : Bytes} (h : isUtf8 b = true) : expectUtf8 b = some b := if_pos h

/-- `fingerprint`, with the `expect` at the end of each collapsing pass. -/
def fingerprintChecked (query : Bytes) : Option Bytes := do
  let s ← expectUtf8 (collapseInLists (dropSemicolons (trim (normalize [] query))))
  expectUtf8 (collapseValuesLists s)

/-- **The fingerprint of a text is a text**, and its wide characters are among those that stand
outside strings and comments, in the same order. -/
theorem fingerprint_writes {s : Bytes} (h : isUtf8 s = true) :
    fingerprintChecked s = some (fingerprint s) ∧
      (wide (fingerprint s)).Sublist (wide (outsideText s)) := by
  have hloop := normalize_writes isUtf8_nil h
  have hwide := hloop.wide
  rw [wide_nil, List.nil_append] at hwide
  obtain ⟨htrim, hwide'⟩ := trim_writes hloop.utf8
  obtain ⟨hdrop, hwide''⟩ := dropSemicolons_writes htrim
  obtain ⟨hin, hwideIn⟩ := collapseInLists_writes hdrop
  obtain ⟨hvalues, hwideValues⟩ := collapseValuesLists_writes hin
  constructor
  · rw [fingerprintChecked, expectUtf8_of_isUtf8 hin]
    exact expectUtf8_of_isUtf8 hvalues
  · rw [fingerprint]
    exact hwideValues.trans (hwideIn.trans (hwide''.trans (hwide'.trans hwide)))

/-- So U+FFFD comes from such a place only. -/
theorem replacementCharacter_of_fingerprint {s : Bytes} (h : isUtf8 s = true)
    (hmem : replacementCharacter ∈ chars (fingerprint s)) :
    replacementCharacter ∈ chars (outsideText s) := by
  have hlong : replacementCharacter.length ≠ 1 := by decide
  rw [← mem_wide hlong] at hmem ⊢
  exact (fingerprint_writes h).2.mem hmem

end SqlReplay
