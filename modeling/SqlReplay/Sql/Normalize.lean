import SqlReplay.Sql.Literals

/-!
# One turn of the fingerprint

`normalize` turn by turn: an equation for each kind of text at the head, and for each of the small
functions on the output what a later turn can see of it. A turn looks back at two things. Whether a
digit belongs to a name is a matter of the last byte of the output, and whether a sign is unary one
of the last two characters that are not white space, so `lastSolid` is the other end of every
statement here.

The output is looked back at, but never further than to a solid character that is no sign: what
stands before one has no influence (`normalize_append`).
-/

namespace SqlReplay

open Fingerprint

/-- The last byte of a text that is not white space at its end. -/
def lastSolid (b : Bytes) : Option UInt8 := (trimEnd b).getLast?

/-- An ASCII character that is not white space. -/
def isSolid (c : UInt8) : Bool := c < 0x80 && !isWhitespace [c]

theorem isSolid_spec {c : UInt8} (h : isSolid c = true) :
    c < 0x80 ∧ isWhitespace [c] = false := by
  rw [isSolid, Bool.and_eq_true, Bool.not_eq_true'] at h
  exact ⟨of_decide_eq_true h.1, h.2⟩

theorem lastSolid_concat {c : UInt8} (h : isSolid c = true) (b : Bytes) :
    lastSolid (b ++ [c]) = some c := by
  rw [lastSolid, trimEnd_concat b (isSolid_spec h).1 (isSolid_spec h).2, List.getLast?_concat]

theorem lastSolid_concat_space {c : UInt8} (hc : c < 0x80) (hspace : isWhitespace [c] = true)
    (b : Bytes) : lastSolid (b ++ [c]) = lastSolid b := by
  rw [lastSolid, trimEnd_concat_space hc hspace, lastSolid]

/-- White space of ASCII is white space. -/
theorem isAsciiWhitespace_spec (c : UInt8) :
    isAsciiWhitespace c = true → c < 0x80 ∧ isWhitespace [c] = true :=
  forall_byte (p := fun c ↦ isAsciiWhitespace c = true → c < 0x80 ∧ isWhitespace [c] = true)
    (by decide) c

namespace Fingerprint

theorem lastSolid_pushSpace (out : Bytes) : lastSolid (pushSpace out) = lastSolid out := by
  rw [pushSpace]
  split_ifs
  · exact lastSolid_concat_space (by decide) (by decide) out
  · rfl

theorem getLast?_pushSpace {out : Bytes} : ∀ c ∈ (pushSpace out).getLast?, c = ch ' ' := by
  intro c hc
  rw [pushSpace] at hc
  split_ifs at hc with h
  · rw [List.getLast?_concat] at hc
    exact (Option.some.inj hc).symm
  · rw [not_and_not_right] at h
    have hne : out ≠ [] := by
      rintro rfl
      cases hc
    rw [h hne] at hc
    exact (Option.some.inj hc).symm

@[simp] theorem pushSpace_pushSpace (out : Bytes) : pushSpace (pushSpace out) = pushSpace out := by
  rw [pushSpace, if_neg]
  rintro ⟨hne, hlast⟩
  obtain ⟨c, hc⟩ := Option.ne_none_iff_exists'.mp (mt List.getLast?_eq_none_iff.mp hne)
  exact hlast (hc.trans (congrArg some (getLast?_pushSpace c hc)))

/-- A sign is only folded when it is the last thing in sight. -/
theorem foldSign_eq_self {out : Bytes} (h : ∀ c ∈ lastSolid out, c ≠ ch '-' ∧ c ≠ ch '+') :
    foldSign out = out := by
  rw [foldSign, if_pos]
  exact ⟨fun hlast ↦ (h _ hlast).1 rfl, fun hlast ↦ (h _ hlast).2 rfl⟩

/-- A unary sign is folded. -/
theorem foldSign_sign {sign : UInt8} (hsign : sign = ch '+' ∨ sign = ch '-') {out : Bytes}
    (h : ∀ c ∈ lastSolid out, c ∈ signContext) : foldSign (out ++ [sign]) = out := by
  have hsolid : isSolid sign = true := by
    rcases hsign with rfl | rfl
    all_goals decide
  have htrim : trimEnd (out ++ [sign]) = out ++ [sign] :=
    trimEnd_concat out (isSolid_spec hsolid).1 (isSolid_spec hsolid).2
  have hall : (trimEnd out).getLast?.all (· ∈ signContext) = true := by
    rw [← lastSolid]
    cases hlast : lastSolid out with
    | none => rfl
    | some c => exact decide_eq_true (h c hlast)
  rw [foldSign, htrim, List.getLast?_concat, if_neg, List.dropLast_concat, if_pos hall]
  rintro ⟨hminus, hplus⟩
  rcases hsign with rfl | rfl
  · exact hplus rfl
  · exact hminus rfl

/-! ## Turns -/

section Turns

variable {out : Bytes} {c : UInt8} {rest : Bytes}

theorem normalize_nil : normalize out [] = out := by rw [normalize]

theorem normalize_string (h : c = singleQuote ∨ c = doubleQuote) :
    normalize out (c :: rest) = normalize (out ++ [ch '?']) (skipString c rest) := by
  rw [normalize, if_pos h]

theorem normalize_ident :
    normalize out (backtick :: rest) =
      normalize (copyIdent (out ++ [backtick]) rest).1 (copyIdent (out ++ [backtick]) rest).2 := by
  rw [normalize, if_neg (by decide), if_pos rfl]

theorem normalize_block (h : opensBlockComment c rest) :
    normalize out (c :: rest) = normalize (pushSpace out) (skipBlockComment (rest.drop 1)) := by
  have hc : c = ch '/' := by
    simp only [opensBlockComment, Bool.and_eq_true, beq_iff_eq] at h
    exact h.1
  subst hc
  rw [normalize, if_neg (by decide), if_neg (by decide), if_pos h]

theorem normalize_line (h : opensLineComment c rest) :
    normalize out (c :: rest) = normalize out (skipLineComment rest) := by
  have hb : ¬opensBlockComment c rest := by
    intro hb
    simp only [opensBlockComment, Bool.and_eq_true, beq_iff_eq] at hb
    rw [hb.1] at h
    simp [opensLineComment, ch] at h
  have hq : c ≠ singleQuote ∧ c ≠ doubleQuote ∧ c ≠ backtick := by
    refine ⟨?_, ?_, ?_⟩
    all_goals
      rintro rfl
      exact opensLineComment_not_isQuote h (by decide)
  rw [normalize, if_neg (not_or_intro hq.1 hq.2.1), if_neg hq.2.2, if_neg hb, if_pos h]

/-- A turn at a byte that opens nothing. -/
theorem normalize_code (h : OpensNothing c rest) :
    normalize out (c :: rest) =
      if isAsciiWhitespace c then normalize (pushSpace out) rest
      else if isAsciiDigit c = true ∨ (c = ch '.' ∧ rest.head?.any isAsciiDigit) then
        if endsWithIdentChar out then normalize (out ++ [toAsciiLowercase c]) rest
        else normalize (foldSign out ++ [ch '?']) (skipNumber (c :: rest))
      else normalize (pushLossyLower out c rest).1 (pushLossyLower out c rest).2 := by
  obtain ⟨hb, hl, hq⟩ := h
  simp only [isQuote, Bool.or_eq_true, beq_iff_eq, not_or] at hq
  rw [normalize, if_neg (not_or_intro hq.1.1 hq.1.2), if_neg hq.2, if_neg hb, if_neg hl]
  split_ifs <;> rfl

theorem normalize_space (h : isAsciiWhitespace c = true) :
    normalize out (c :: rest) = normalize (pushSpace out) rest := by
  have hplain : isPlain c = true := isPlain_of (by decide) h
  rw [normalize_code (opensNothing_of_isPlain hplain rest), if_pos h]

/-- The first byte of a number opens nothing and is no white space. -/
theorem numeralStart_spec (hc : isAsciiDigit c = true ∨ c = ch '.') :
    isPlain c = true ∧ isAsciiWhitespace c = false :=
  forall_byte (p := fun c ↦ isAsciiDigit c = true ∨ c = ch '.' →
    isPlain c = true ∧ isAsciiWhitespace c = false) (by decide) c hc

theorem normalize_number
    (hc : isAsciiDigit c = true ∨ (c = ch '.' ∧ rest.head?.any isAsciiDigit))
    (hident : endsWithIdentChar out = false) :
    normalize out (c :: rest) = normalize (foldSign out ++ [ch '?']) (skipNumber (c :: rest)) := by
  obtain ⟨hplain, hspace⟩ := numeralStart_spec (hc.imp_right And.left)
  rw [normalize_code (opensNothing_of_isPlain hplain rest),
    if_neg (by rw [hspace]; exact Bool.false_ne_true), if_pos hc,
    if_neg (by rw [hident]; exact Bool.false_ne_true)]

/-- An ASCII byte that starts no number is copied. -/
theorem normalize_push (h : OpensNothing c rest) (hascii : c < 0x80)
    (hspace : isAsciiWhitespace c = false)
    (hc : ¬(isAsciiDigit c = true ∨ (c = ch '.' ∧ rest.head?.any isAsciiDigit))) :
    normalize out (c :: rest) = normalize (out ++ [toAsciiLowercase c]) rest := by
  rw [normalize_code h, if_neg (by rw [hspace]; exact Bool.false_ne_true), if_neg hc,
    pushLossyLower, if_pos hascii]

end Turns

/-! ## Literals -/

theorem endsWithIdentChar_concat {c : UInt8} (hc : c < 0x80) (hident : isIdentByte c = false)
    (out : Bytes) : endsWithIdentChar (out ++ [c]) = false := by
  rw [endsWithIdentChar, List.getLast?_concat, Option.any_some, hident, Bool.false_or,
    decide_eq_false (UInt8.not_le.mpr hc)]

/-- **A literal becomes a placeholder**, where it cannot belong to a name and no sign is before
it. -/
theorem normalize_literal {out lit after : Bytes} (h : Literal lit) (hafter : EndsLiteral after)
    (hident : endsWithIdentChar out = false)
    (hsign : ∀ c ∈ lastSolid out, c ≠ ch '-' ∧ c ≠ ch '+') :
    normalize out (lit ++ after) = normalize (out ++ [ch '?']) after := by
  rcases h with hnumber | hstring
  · have hskip := skipNumber_append hnumber hafter
    obtain ⟨c, rest, heq, hc⟩ := hnumber.head after
    rw [heq] at hskip ⊢
    rw [normalize_number hc hident, foldSign_eq_self hsign, hskip]
  · obtain ⟨hq, hbody⟩ := hstring
    rw [List.cons_append, List.append_assoc, List.singleton_append, normalize_string hq,
      skipString_append hq hbody hafter]

/-- So does a number with a sign, which is unary there. -/
theorem normalize_signed {out lit after : Bytes} (h : SignedNumber lit) (hafter : EndsLiteral after)
    (hsign : ∀ c ∈ lastSolid out, c ∈ signContext) :
    normalize out (lit ++ after) = normalize (out ++ [ch '?']) after := by
  obtain ⟨hs, hnumber⟩ := h
  rename_i sign number
  have hskip := skipNumber_append hnumber hafter
  obtain ⟨c, rest, heq, hc⟩ := hnumber.head after
  have hdash : c ≠ ch '-' := by
    rintro rfl
    rcases hc with hc | ⟨hc, -⟩
    all_goals exact absurd hc (by decide)
  have hopens : OpensNothing sign (c :: rest) := by
    refine ⟨?_, ?_, ?_⟩
    · rcases hs with rfl | rfl
      all_goals exact fun hb ↦ absurd (Bool.and_eq_true_iff.mp hb).1 (by decide)
    · simp only [opensLineComment, Bool.or_eq_true, Bool.and_eq_true, beq_iff_eq,
        List.head?_cons, Option.some.injEq, not_or, not_and]
      refine ⟨?_, fun h _ ↦ hdash h.2⟩
      rcases hs with rfl | rfl
      all_goals decide
    · rcases hs with rfl | rfl
      all_goals decide
  have hspec : sign < 0x80 ∧ isAsciiWhitespace sign = false ∧ isAsciiDigit sign = false ∧
      sign ≠ ch '.' ∧ toAsciiLowercase sign = sign ∧ isIdentByte sign = false := by
    rcases hs with rfl | rfl
    all_goals decide
  obtain ⟨hascii, hspace, hdigit, hdot, hlower, hident⟩ := hspec
  rw [heq] at hskip
  rw [List.cons_append, heq, normalize_push hopens hascii hspace ?_, hlower,
    normalize_number hc (endsWithIdentChar_concat hascii hident out), foldSign_sign hs hsign, hskip]
  rintro (h | ⟨h, -⟩)
  · rw [hdigit] at h
    cases h
  · exact hdot h

/-! ## What a turn cannot see -/

theorem pushLossyLower_append (x out : Bytes) (d : UInt8) (rest : Bytes) :
    pushLossyLower (x ++ out) d rest =
      (x ++ (pushLossyLower out d rest).1, (pushLossyLower out d rest).2) := by
  rw [pushLossyLower, pushLossyLower]
  dsimp only
  split_ifs <;> rw [List.append_assoc]

theorem copyIdent_append (x out b : Bytes) :
    copyIdent (x ++ out) b = (x ++ (copyIdent out b).1, (copyIdent out b).2) := by
  fun_induction copyIdent out b with
  | case1 => rw [copyIdent]
  | case2 out rest hd ih => rw [copyIdent, if_pos rfl, if_pos hd, List.append_assoc, ih]
  | case3 out rest hd => rw [copyIdent, if_pos rfl, if_neg hd, List.append_assoc]
  | case4 out c rest hc ih => rw [copyIdent, if_neg hc, pushLossyLower_append, ih]

theorem pushSpace_append (x y : Bytes) (c : UInt8) :
    pushSpace (x ++ c :: y) = x ++ pushSpace (c :: y) := by
  rw [pushSpace, pushSpace, List.getLast?_append_cons]
  by_cases hspace : (c :: y).getLast? = some (ch ' ')
  · rw [if_neg fun h ↦ h.2 hspace, if_neg fun h ↦ h.2 hspace]
  · rw [if_pos ⟨List.append_ne_nil_of_right_ne_nil _ (List.cons_ne_nil _ _), hspace⟩,
      if_pos ⟨List.cons_ne_nil _ _, hspace⟩, List.append_assoc]

theorem pushSpace_cons (c : UInt8) (y : Bytes) : ∃ y', pushSpace (c :: y) = c :: y' := by
  rw [pushSpace]
  split_ifs
  · exact ⟨_, rfl⟩
  · exact ⟨_, rfl⟩

theorem endsWithIdentChar_append (x y : Bytes) (c : UInt8) :
    endsWithIdentChar (x ++ c :: y) = endsWithIdentChar (c :: y) := by
  rw [endsWithIdentChar, endsWithIdentChar, List.getLast?_append_cons]

/-- A solid character that is no sign bounds what a sign is judged by. -/
theorem foldSign_append {c : UInt8} (hsolid : isSolid c = true) (hc : c ≠ ch '-' ∧ c ≠ ch '+')
    (x y : Bytes) :
    foldSign (x ++ c :: y) = x ++ foldSign (c :: y) ∧ ∃ y', foldSign (c :: y) = c :: y' := by
  obtain ⟨hascii, hspace⟩ := isSolid_spec hsolid
  have htrim (x y : Bytes) : trimEnd (x ++ c :: y) = x ++ c :: trimEnd y :=
    trimEnd_append_cons hascii hspace x y
  have htrim' (y : Bytes) : trimEnd (c :: y) = c :: trimEnd y := htrim [] y
  rw [foldSign, foldSign, htrim, htrim', List.getLast?_append_cons]
  by_cases hsign : (c :: trimEnd y).getLast? ≠ some (ch '-') ∧
      (c :: trimEnd y).getLast? ≠ some (ch '+')
  · rw [if_pos hsign, if_pos hsign]
    exact ⟨rfl, y, rfl⟩
  · rw [if_neg hsign, if_neg hsign]
    have hne : trimEnd y ≠ [] := by
      intro hnil
      rw [hnil, List.getLast?_singleton] at hsign
      exact hsign ⟨fun h ↦ hc.1 (Option.some.inj h), fun h ↦ hc.2 (Option.some.inj h)⟩
    obtain ⟨d, z, hz⟩ := List.exists_cons_of_ne_nil hne
    rw [hz, List.dropLast_cons_cons, List.dropLast_append_cons, List.dropLast_cons_cons, htrim,
      htrim', List.getLast?_append_cons]
    split_ifs
    · exact ⟨rfl, _, rfl⟩
    · exact ⟨rfl, y, rfl⟩

/-- **What stands before a solid character that is no sign has no influence.** -/
theorem normalize_append {c : UInt8} (hsolid : isSolid c = true) (hc : c ≠ ch '-' ∧ c ≠ ch '+')
    (y b : Bytes) : ∃ p, ∀ x, normalize (x ++ c :: y) b = x ++ c :: p := by
  -- every branch writes behind the solid character, and looks back no further than it
  generalize hout : c :: y = out
  fun_induction normalize out b generalizing y with
  | case1 =>
    refine ⟨y, fun x ↦ ?_⟩
    rw [normalize, hout]
  | case2 out d rest hq ih =>
    subst hout
    obtain ⟨p, hp⟩ := ih (y ++ [ch '?']) rfl
    refine ⟨p, fun x ↦ ?_⟩
    rw [normalize_string hq, List.append_assoc]
    exact hp x
  | case3 out rest hq ih =>
    subst hout
    have hcons := congrArg Prod.fst (copyIdent_append [c] (y ++ [backtick]) rest)
    obtain ⟨p, hp⟩ := ih _ hcons.symm
    refine ⟨p, fun x ↦ ?_⟩
    rw [normalize_ident, List.append_assoc, copyIdent_append]
    exact hp x
  | case4 out d rest hq hi hb ih =>
    subst hout
    obtain ⟨y', hy'⟩ := pushSpace_cons c y
    obtain ⟨p, hp⟩ := ih y' hy'.symm
    refine ⟨p, fun x ↦ ?_⟩
    rw [normalize_block hb, pushSpace_append]
    exact hp x
  | case5 out d rest hq hi hb hl ih =>
    obtain ⟨p, hp⟩ := ih y hout
    refine ⟨p, fun x ↦ ?_⟩
    rw [normalize_line hl]
    exact hp x
  | case6 out d rest hq hi hb hl hw ih =>
    subst hout
    obtain ⟨y', hy'⟩ := pushSpace_cons c y
    obtain ⟨p, hp⟩ := ih y' hy'.symm
    refine ⟨p, fun x ↦ ?_⟩
    rw [normalize_space hw, pushSpace_append]
    exact hp x
  | case7 out d rest hq hi hb hl hw hn hident ih =>
    subst hout
    obtain ⟨p, hp⟩ := ih (y ++ [toAsciiLowercase d]) rfl
    refine ⟨p, fun x ↦ ?_⟩
    rw [normalize, if_neg hq, if_neg hi, if_neg hb, if_neg hl, if_neg hw, dif_pos hn,
      if_pos (by rwa [endsWithIdentChar_append]), List.append_assoc]
    exact hp x
  | case8 out d rest hq hi hb hl hw hn hident ih =>
    subst hout
    obtain ⟨-, y', hy'⟩ := foldSign_append hsolid hc [] y
    obtain ⟨p, hp⟩ := ih (y' ++ [ch '?']) (by rw [hy']; rfl)
    refine ⟨p, fun x ↦ ?_⟩
    rw [normalize, if_neg hq, if_neg hi, if_neg hb, if_neg hl, if_neg hw, dif_pos hn,
      if_neg (by rwa [endsWithIdentChar_append]), (foldSign_append hsolid hc x y).1,
      List.append_assoc]
    exact hp x
  | case9 out d rest hq hi hb hl hw hn ih =>
    subst hout
    have hcons := congrArg Prod.fst (pushLossyLower_append [c] y d rest)
    obtain ⟨p, hp⟩ := ih _ hcons.symm
    refine ⟨p, fun x ↦ ?_⟩
    rw [normalize, if_neg hq, if_neg hi, if_neg hb, if_neg hl, if_neg hw, dif_neg hn,
      pushLossyLower_append]
    exact hp x

end Fingerprint

end SqlReplay
