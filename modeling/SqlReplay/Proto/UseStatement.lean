import SqlReplay.Sql.Trivia
import SqlReplay.Slowlog.Text
import Mathlib.Data.List.DropRight

/-!
# USE statements

Two places recognise a database switch. The replayer asks `is_use_statement`, a token scan that
skips comments, and the decoder asks `parse_use_target`, which cuts the text at white space and
knows nothing of comments. Here the statements that MySQL takes for a switch are written down as a
grammar (`UseStatement`) and the two are compared on it.

The token scan is right on all of them. The other one gives the right name for a statement exactly
when the statement has no comment anywhere, has white space behind the keyword, and its name does
not begin or end with a character that is white space to `str::trim` (`UseStatement.Plain`).

## How a comment is seen

A comment starts with `/`, `#` or `-`, which are neither white space nor part of a plain name. Such
a byte stops every trimming, so wherever it stands it stays in what `parse_use_target` looks at: in
the keyword, which is then another word, or in the name, which is then too long. Backticks hide none
of this, since a quoted name ends where its own backtick does.
-/

namespace SqlReplay

open Fingerprint

/-! ## The grammar -/

/-- A byte of an identifier that is not quoted. -/
def isNameByte (c : UInt8) : Bool := isIdentByte c || 0x80 ≤ c

/-- An identifier as it is written, and the name that it stands for. -/
inductive Names : Bytes → Bytes → Prop
  | plain {name : Bytes} (hne : name ≠ []) (hbytes : ∀ c ∈ name, isNameByte c = true) :
    Names name name
  | quoted {name : Bytes} (hne : name ≠ []) :
    Names (backtick :: (doubleBackticks name ++ [backtick])) name

/-- Trivia at the end of a text, where a line comment need not be ended. -/
inductive ClosingTrivia : Bytes → Prop
  | closed {t : Bytes} (h : Trivia t) : ClosingTrivia t
  | hash {t body : Bytes} (h : Trivia t) (hbody : newline ∉ body) :
    ClosingTrivia (t ++ ch '#' :: body)
  | dashes {t body : Bytes} (h : Trivia t) (hspace : body.head?.all isAsciiWhitespace = true)
    (hbody : newline ∉ body) : ClosingTrivia (t ++ ch '-' :: ch '-' :: body)

/-- What may stand behind the name: trivia with a semicolon in it, or with none. -/
inductive UseTail : Bytes → Prop
  | bare {t : Bytes} (h : ClosingTrivia t) : UseTail t
  | semicolon {g t : Bytes} (hg : Trivia g) (ht : ClosingTrivia t) : UseTail (g ++ ch ';' :: t)

/-- A `USE` statement. -/
structure UseStatement where
  lead : Bytes
  keyword : Bytes
  gap : Bytes
  ident : Bytes
  name : Bytes
  tail : Bytes
  lead_trivia : Trivia lead
  isUse : keyword.map toAsciiLowercase = ascii "use"
  gap_trivia : Trivia gap
  /-- Only a quoted name may follow the keyword directly. -/
  gap_spec : gap ≠ [] ∨ ident.head? = some backtick
  names : Names ident name
  tail_spec : UseTail tail
  utf8 : isUtf8 (lead ++ (keyword ++ (gap ++ (ident ++ tail)))) = true

namespace UseStatement

/-- The text of the statement. -/
def text (u : UseStatement) : Bytes := u.lead ++ (u.keyword ++ (u.gap ++ (u.ident ++ u.tail)))

/-- No comment, white space behind the keyword, and a name that trimming leaves alone. -/
structure Plain (u : UseStatement) : Prop where
  lead : ∀ c ∈ u.lead, isAsciiWhitespace c = true
  gap : ∀ c ∈ u.gap, isAsciiWhitespace c = true
  gap_ne : u.gap ≠ []
  tail : ∀ c ∈ u.tail, isAsciiWhitespace c = true ∨ c = ch ';'
  ident : trim u.ident = u.ident

end UseStatement

/-! ## Bytes that stop a trimming -/

/-- An ASCII byte that is neither white space nor a semicolon. -/
def Solid (c : UInt8) : Prop := c < 0x80 ∧ isWhitespace [c] = false ∧ c ≠ ch ';'

instance : DecidablePred Solid := fun c ↦
  inferInstanceAs (Decidable (c < 0x80 ∧ isWhitespace [c] = false ∧ c ≠ ch ';'))

/-- The first byte of a comment. -/
def startsComment (c : UInt8) : Bool := c == ch '/' || c == ch '#' || c == ch '-'

theorem startsComment_spec {c : UInt8} (h : startsComment c = true) :
    Solid c ∧ c ≠ backtick ∧ isNameByte c = false ∧ isAsciiWhitespace c = false ∧
      isWordByte c = false ∧ toAsciiLowercase c ≠ ch 'u' :=
  forall_byte (p := fun c ↦ startsComment c = true → Solid c ∧ c ≠ backtick ∧
    isNameByte c = false ∧ isAsciiWhitespace c = false ∧ isWordByte c = false ∧
      toAsciiLowercase c ≠ ch 'u') (by decide) c h

theorem ascii_of_isAsciiWhitespace {c : UInt8} (h : isAsciiWhitespace c = true) :
    c < 0x80 ∧ isWhitespace [c] = true ∧ c ≠ ch ';' :=
  forall_byte (p := fun c ↦ isAsciiWhitespace c = true →
    c < 0x80 ∧ isWhitespace [c] = true ∧ c ≠ ch ';') (by decide) c h

/-- Trivia is white space up to its first comment. -/
theorem Trivia.split {t : Bytes} (h : Trivia t) :
    (∀ c ∈ t, isAsciiWhitespace c = true) ∨
      ∃ w x m, t = w ++ x :: m ∧ (∀ c ∈ w, isAsciiWhitespace c = true) ∧
        startsComment x = true := by
  induction h with
  | nil => exact Or.inl fun c hc ↦ absurd hc List.not_mem_nil
  | @space c t hc _ ih =>
    rcases ih with ih | ⟨w, x, m, rfl, hw, hx⟩
    · exact Or.inl (List.forall_mem_cons.mpr ⟨hc, ih⟩)
    · exact Or.inr ⟨c :: w, x, m, rfl, List.forall_mem_cons.mpr ⟨hc, hw⟩, hx⟩
  | block => exact Or.inr ⟨[], ch '/', _, rfl, fun c hc ↦ absurd hc List.not_mem_nil, rfl⟩
  | hash => exact Or.inr ⟨[], ch '#', _, rfl, fun c hc ↦ absurd hc List.not_mem_nil, rfl⟩
  | dashes => exact Or.inr ⟨[], ch '-', _, rfl, fun c hc ↦ absurd hc List.not_mem_nil, rfl⟩

theorem ClosingTrivia.split {t : Bytes} (h : ClosingTrivia t) :
    (∀ c ∈ t, isAsciiWhitespace c = true) ∨ ∃ w x m, t = w ++ x :: m ∧ startsComment x = true := by
  cases h with
  | closed h =>
    rcases h.split with h | ⟨w, x, m, ht, -, hx⟩
    · exact Or.inl h
    · exact Or.inr ⟨w, x, m, ht, hx⟩
  | hash => exact Or.inr ⟨_, ch '#', _, rfl, rfl⟩
  | dashes => exact Or.inr ⟨_, ch '-', _, rfl, rfl⟩

/-- White space, a semicolon and white space, or there is a comment. -/
theorem UseTail.split {t : Bytes} (h : UseTail t) :
    (∃ g r, (t = g ∨ t = g ++ ch ';' :: r) ∧ (∀ c ∈ g, isAsciiWhitespace c = true) ∧
        ∀ c ∈ r, isAsciiWhitespace c = true) ∨
      ∃ w x m, t = w ++ x :: m ∧ startsComment x = true := by
  cases h with
  | bare h =>
    rcases h.split with h | ⟨w, x, m, ht, hx⟩
    · exact Or.inl ⟨t, [], Or.inl rfl, h, fun c hc ↦ absurd hc List.not_mem_nil⟩
    · exact Or.inr ⟨w, x, m, ht, hx⟩
  | @semicolon g r hg hr =>
    rcases hg.split with hg | ⟨w, x, m, rfl, -, hx⟩
    · rcases hr.split with hr | ⟨w, x, m, rfl, hx⟩
      · exact Or.inl ⟨g, r, Or.inr rfl, hg, hr⟩
      · exact Or.inr ⟨g ++ ch ';' :: w, x, m, by rw [List.append_assoc]; rfl, hx⟩
    · exact Or.inr ⟨w, x, m ++ ch ';' :: r, by rw [List.append_assoc]; rfl, hx⟩

/-! ## Trimming -/

theorem trimEnd_append_blank {w : Bytes} (hw : ∀ c ∈ w, isAsciiWhitespace c = true) (s : Bytes) :
    trimEnd (s ++ w) = trimEnd s := by
  induction w using List.reverseRecOn with
  | nil => rw [List.append_nil]
  | append_singleton w c ih =>
    rw [List.forall_mem_append, List.forall_mem_singleton] at hw
    obtain ⟨hascii, hspace, -⟩ := ascii_of_isAsciiWhitespace hw.2
    rw [← List.append_assoc, trimEnd_concat_space hascii hspace, ih hw.1]

theorem trimStart_blank {w : Bytes} (hw : ∀ c ∈ w, isAsciiWhitespace c = true) :
    trimStart w = [] := by
  rw [trimStart, chars_of_ascii fun c hc ↦ (ascii_of_isAsciiWhitespace (hw c hc)).1,
    List.dropWhile_eq_nil_iff.mpr, List.flatten_nil]
  intro k hk
  obtain ⟨c, hc, rfl⟩ := List.mem_map.mp hk
  exact (ascii_of_isAsciiWhitespace (hw c hc)).2.1

/-- The text without the white space, the semicolon and the white space at its end. -/
def closing (b : Bytes) : Bytes := trimEnd ((stripSuffix (trimEnd b) (ch ';')).getD (trimEnd b))

theorem getD_stripSuffix_append {x : UInt8} (hx : x ≠ ch ';') (a b : Bytes) :
    (stripSuffix (a ++ x :: b) (ch ';')).getD (a ++ x :: b) =
      a ++ x :: (stripSuffix b (ch ';')).getD b := by
  rw [stripSuffix, stripSuffix]
  rcases List.eq_nil_or_concat b with rfl | ⟨b, y, rfl⟩
  · rw [List.getLast?_concat, if_neg fun h ↦ hx (Option.some.inj h)]
    rfl
  · rw [List.concat_eq_append, ← List.cons_append, ← List.append_assoc, List.getLast?_concat,
      List.getLast?_concat, List.dropLast_concat, List.dropLast_concat]
    split_ifs
    · rfl
    · rw [Option.getD_none, Option.getD_none, List.append_assoc]
      rfl

/-- A solid byte and everything in front of it stays. -/
theorem closing_append {x : UInt8} (hx : Solid x) (a b : Bytes) :
    closing (a ++ x :: b) = a ++ x :: closing b := by
  rw [closing, trimEnd_append_cons hx.1 hx.2.1, getD_stripSuffix_append hx.2.2,
    trimEnd_append_cons hx.1 hx.2.1, closing]

/-! ## Texts that are trimmed already -/

/-- The characters of a text are characters by themselves. -/
theorem chars_of_mem_chars {s k : Bytes} (h : isUtf8 s = true) (hk : k ∈ chars s) :
    chars k = [k] ∧ isUtf8 k = true := by
  induction hn : s.length using Nat.strong_induction_on generalizing s with
  | _ n ih =>
  subst hn
  cases s with
  | nil => rw [chars_nil] at hk; cases hk
  | cons b s =>
    obtain ⟨-, hone, hfirst, hrest⟩ := isUtf8_cons h
    rw [chars, utf8Chars, List.map_cons, ← chars] at hk
    rcases List.mem_cons.mp hk with rfl | hk
    · exact ⟨hone, hfirst⟩
    · refine ih _ ?_ hrest hk rfl
      rw [List.length_drop, List.length_cons]
      omega

theorem chars_flatten_of {cs : List Bytes} (h : ∀ k ∈ cs, chars k = [k] ∧ isUtf8 k = true) :
    chars cs.flatten = cs ∧ isUtf8 cs.flatten = true := by
  induction cs with
  | nil => exact ⟨chars_nil, isUtf8_of_ascii fun c hc ↦ absurd hc List.not_mem_nil⟩
  | cons k cs ih =>
    obtain ⟨⟨hk, hutf8⟩, hcs⟩ := List.forall_mem_cons.mp h
    obtain ⟨hchars, hrest⟩ := ih hcs
    rw [List.flatten_cons, chars_append hutf8, hk, hchars]
    exact ⟨rfl, isUtf8_append hutf8 hrest⟩

section TrimList

variable {τ : Type*} (p : τ → Bool) (l : List τ)

/-- Dropping from both ends. -/
def trimList : List τ := (l.dropWhile p).rdropWhile p

theorem dropWhile_trimList : (trimList p l).dropWhile p = trimList p l := by
  refine List.dropWhile_eq_self_iff.mpr fun hlen ↦ ?_
  have hfront : trimList p l <+: l.dropWhile p := List.rdropWhile_prefix p _
  rw [List.IsPrefix.getElem hfront hlen]
  exact List.dropWhile_get_zero_not p l (hlen.trans_le hfront.length_le)

theorem trimList_trimList : trimList p (trimList p l) = trimList p l := by
  rw [trimList, dropWhile_trimList, trimList, List.rdropWhile_idempotent]

variable {p l}

theorem mem_of_mem_trimList {x : τ} (h : x ∈ trimList p l) : x ∈ l :=
  (List.dropWhile_suffix p).mem ((List.rdropWhile_prefix p _).mem h)

end TrimList

theorem mem_of_mem_trim {s : Bytes} {x : UInt8} (h : x ∈ trim s) : x ∈ s := by
  rw [trim, List.mem_flatten] at h
  obtain ⟨k, hk, hx⟩ := h
  rw [← chars_flatten s]
  exact List.mem_flatten.mpr ⟨k, mem_of_mem_trimList hk, hx⟩

theorem chars_trim {s : Bytes} (h : isUtf8 s = true) :
    chars (trim s) = trimList isWhitespace (chars s) ∧ isUtf8 (trim s) = true :=
  chars_flatten_of fun _ hk ↦ chars_of_mem_chars h (mem_of_mem_trimList hk)

theorem trim_trim {s : Bytes} (h : isUtf8 s = true) : trim (trim s) = trim s := by
  have htrim (b : Bytes) : trim b = (trimList isWhitespace (chars b)).flatten := rfl
  rw [htrim (trim s), (chars_trim h).1, trimList_trimList, ← htrim]

/-! ## The keyword and the name -/

/-- What `parse_use_target` makes of the text behind the keyword. -/
def nameOf (target : Bytes) : Option Bytes :=
  (match stripPrefix target backtick with
    | some inner => (stripSuffix inner backtick).map undoubleBackticks
    | none => some target).filter (· ≠ [])

/-- What it makes of the trimmed statement. -/
def useTarget (rest : Bytes) : Option Bytes :=
  match splitOnceWhitespace rest with
  | none => none
  | some (kw, target) =>
    if kw.map toAsciiLowercase ≠ ascii "use" then none else nameOf (trim target)

theorem parseUseTarget_eq (sql : Bytes) :
    parseUseTarget sql =
      useTarget (trim ((stripSuffix (trim sql) (ch ';')).getD (trim sql))) := by
  rw [parseUseTarget, useTarget]
  rfl

/-- White space in front is trimmed away, and the end up to the last solid byte. -/
theorem parseUseTarget_blank {w : Bytes} (hw : ∀ c ∈ w, isAsciiWhitespace c = true) {x : UInt8}
    (hx : Solid x) (b : Bytes) : parseUseTarget (w ++ x :: b) = useTarget (x :: closing b) := by
  have hnil : trimStart [] = [] := trimStart_blank fun c hc ↦ absurd hc List.not_mem_nil
  rw [parseUseTarget_eq, trim_append_cons hx.1 hx.2.1, trimStart_blank hw,
    getD_stripSuffix_append hx.2.2, trim_append_cons hx.1 hx.2.1, hnil]
  rfl

section Split

variable {k : Bytes}

theorem chars_solid (hk : ∀ c ∈ k, Solid c) (b : Bytes) :
    chars (k ++ b) = k.map ([·]) ++ chars b := by
  rw [chars_append (isUtf8_of_ascii fun c hc ↦ (hk c hc).1),
    chars_of_ascii fun c hc ↦ (hk c hc).1]

theorem not_isWhitespace_map (hk : ∀ c ∈ k, Solid c) :
    ∀ d ∈ k.map ([·]), (!isWhitespace d) = true := by
  intro d hd
  obtain ⟨c, hc, rfl⟩ := List.mem_map.mp hd
  rw [(hk c hc).2.1]
  rfl

theorem flatten_map_singleton (b : Bytes) : (b.map ([·])).flatten = b := by
  induction b with
  | nil => rfl
  | cons c b ih => rw [List.map_cons, List.flatten_cons, ih]; rfl

/-- A word in front of white space is split off. -/
theorem splitOnceWhitespace_word (hk : ∀ c ∈ k, Solid c) {c : UInt8}
    (hc : isAsciiWhitespace c = true) (b : Bytes) :
    splitOnceWhitespace (k ++ c :: b) = some (k, b) := by
  obtain ⟨hascii, hspace, -⟩ := ascii_of_isAsciiWhitespace hc
  have hstop : ¬(!isWhitespace [c]) = true := by rw [hspace]; exact Bool.false_ne_true
  have hdrop : (chars (k ++ c :: b)).dropWhile (! isWhitespace ·) = [c] :: chars b := by
    rw [chars_solid hk, chars_cons hascii, List.dropWhile_append_of_pos (not_isWhitespace_map hk),
      List.dropWhile_cons_of_neg (p := (! isWhitespace ·)) hstop]
  have htake : (chars (k ++ c :: b)).takeWhile (! isWhitespace ·) = k.map ([·]) := by
    rw [chars_solid hk, chars_cons hascii, List.takeWhile_append_of_pos (not_isWhitespace_map hk),
      List.takeWhile_cons_of_neg (p := (! isWhitespace ·)) hstop, List.append_nil]
  rw [splitOnceWhitespace, hdrop]
  dsimp only
  rw [htake, flatten_map_singleton, chars_flatten]

/-- A word that is split off goes on at least to its first white space. -/
theorem splitOnceWhitespace_eq_some (hk : ∀ c ∈ k, Solid c) {b kw target : Bytes}
    (h : splitOnceWhitespace (k ++ b) = some (kw, target)) : ∃ m, kw = k ++ m := by
  rw [splitOnceWhitespace] at h
  split at h
  · cases h
  · obtain ⟨rfl, -⟩ := Prod.mk.inj (Option.some.inj h)
    rw [chars_solid hk, List.takeWhile_append_of_pos (not_isWhitespace_map hk), List.flatten_append,
      flatten_map_singleton]
    exact ⟨_, rfl⟩

end Split

/-- Nothing is read unless the keyword is followed by white space. -/
theorem useTarget_solid {k b : Bytes} (hk : ∀ c ∈ k, Solid c)
    (hne : ∀ m, (k ++ m).map toAsciiLowercase ≠ ascii "use") : useTarget (k ++ b) = none := by
  rw [useTarget]
  split
  · rfl
  · next kw target h =>
    obtain ⟨m, rfl⟩ := splitOnceWhitespace_eq_some hk h
    exact if_pos (hne m)

section Keyword

variable {keyword : Bytes} (hkeyword : keyword.map toAsciiLowercase = ascii "use")
include hkeyword

theorem keyword_solid : ∀ c ∈ keyword, Solid c := by
  intro c hc
  have hmem : toAsciiLowercase c ∈ ascii "use" := hkeyword ▸ List.mem_map_of_mem hc
  exact forall_byte (p := fun c ↦ toAsciiLowercase c ∈ ascii "use" → Solid c)
    (by decide) c hmem

theorem keyword_length : keyword.length = 3 := by
  rw [← List.length_map (f := toAsciiLowercase), hkeyword]
  rfl

/-- A statement that starts with the keyword. -/
theorem parseUseTarget_keyword {w : Bytes} (hw : ∀ c ∈ w, isAsciiWhitespace c = true) (b : Bytes) :
    parseUseTarget (w ++ (keyword ++ b)) = useTarget (keyword ++ closing b) := by
  have hsolid := keyword_solid hkeyword
  match keyword, keyword_length hkeyword with
  | [x, y, z], _ =>
    have hz := closing_append (hsolid z (by simp)) [y] b
    rw [List.cons_append, parseUseTarget_blank hw (hsolid x (by simp))]
    exact congrArg (fun b ↦ useTarget (x :: b)) hz

/-- The keyword with a solid byte behind it is another word. -/
theorem useTarget_keyword_solid {x : UInt8} (hx : Solid x) (b : Bytes) :
    useTarget (keyword ++ x :: b) = none := by
  have hk : ∀ c ∈ keyword ++ [x], Solid c := by
    rw [List.forall_mem_append, List.forall_mem_singleton]
    exact ⟨keyword_solid hkeyword, hx⟩
  have hnone := useTarget_solid (b := b) hk fun m hm ↦ by
    have hlen := congrArg List.length hm
    rw [List.length_map, List.length_append, List.length_append, keyword_length hkeyword,
      List.length_singleton] at hlen
    have hthree : (ascii "use").length = 3 := rfl
    omega
  rwa [List.append_assoc] at hnone

theorem useTarget_keyword_blank {c : UInt8} (hc : isAsciiWhitespace c = true) (b : Bytes) :
    useTarget (keyword ++ c :: b) = nameOf (trim b) := by
  rw [useTarget, splitOnceWhitespace_word (keyword_solid hkeyword) hc]
  exact if_neg (not_not.mpr hkeyword)

end Keyword

/-! ## Reading the name -/

theorem undoubleBackticks_cons {c : UInt8} (hc : c ≠ backtick) (b : Bytes) :
    undoubleBackticks (c :: b) = c :: undoubleBackticks b := by
  cases b with
  | nil => rfl
  | cons d b => rw [undoubleBackticks, if_neg fun h ↦ hc h.1]

theorem undoubleBackticks_append (name b : Bytes) :
    undoubleBackticks (doubleBackticks name ++ b) = name ++ undoubleBackticks b := by
  induction name with
  | nil => rfl
  | cons c name ih =>
    rw [doubleBackticks, List.flatMap_cons, ← doubleBackticks, List.append_assoc]
    by_cases hc : c = backtick
    · rw [if_pos hc, List.cons_append, List.singleton_append, undoubleBackticks,
        if_pos ⟨rfl, rfl⟩, ih, hc]
      rfl
    · rw [if_neg hc, List.singleton_append, undoubleBackticks_cons hc, ih]
      rfl

theorem undoubleBackticks_ne_nil {b : Bytes} (hb : b ≠ []) : undoubleBackticks b ≠ [] := by
  match b, hb with
  | [c], _ => exact List.cons_ne_nil _ _
  | c :: d :: b, _ =>
    rw [undoubleBackticks]
    split_ifs
    · exact List.cons_ne_nil _ _
    · exact List.cons_ne_nil _ _

theorem mem_undoubleBackticks {x : UInt8} (hx : x ≠ backtick) {b : Bytes} (h : x ∈ b) :
    x ∈ undoubleBackticks b := by
  fun_induction undoubleBackticks b with
  | case1 => exact h
  | case2 c => exact h
  | case3 c d rest hpair ih =>
    simp only [hpair.1, hpair.2, List.mem_cons, hx, false_or] at h
    exact List.mem_cons_of_mem _ (ih h)
  | case4 c d rest hpair ih =>
    rcases List.mem_cons.mp h with rfl | h
    · exact List.mem_cons_self
    · exact List.mem_cons_of_mem _ (ih h)

theorem length_doubleBackticks (name : Bytes) : name.length ≤ (doubleBackticks name).length := by
  induction name with
  | nil => exact le_refl _
  | cons c name ih =>
    rw [doubleBackticks, List.flatMap_cons, ← doubleBackticks, List.length_append, List.length_cons]
    split_ifs
    · rw [List.length_cons, List.length_singleton]
      omega
    · rw [List.length_singleton]
      omega

theorem nameOf_of_head {target : Bytes} (hne : target ≠ []) (h : target.head? ≠ some backtick) :
    nameOf target = some target := by
  rw [nameOf, stripPrefix, if_neg h]
  exact if_pos (decide_eq_true hne)

/-- A byte that is no backtick is not lost. -/
theorem mem_of_nameOf {target db : Bytes} (h : nameOf target = some db) {x : UInt8}
    (hx : x ≠ backtick) (hmem : x ∈ target) : x ∈ db := by
  rw [nameOf] at h
  have h := (Option.filter_eq_some_iff.mp h).1
  rw [stripPrefix] at h
  split_ifs at h with hquoted
  · obtain ⟨inner, rfl⟩ := List.head?_eq_some_iff.mp hquoted
    rw [List.tail_cons] at h
    dsimp only at h
    rw [stripSuffix] at h
    split_ifs at h with hlast
    · obtain ⟨inner, rfl⟩ := List.getLast?_eq_some_iff.mp hlast
      rw [List.dropLast_concat, Option.map_some, Option.some.injEq] at h
      rw [← h]
      refine mem_undoubleBackticks hx ?_
      rw [List.mem_cons, List.mem_append, List.mem_singleton] at hmem
      exact (hmem.resolve_left hx).resolve_right hx
    · cases h
  · exact Option.some.inj h ▸ hmem

/-- A quoted name is read back if nothing stands behind its closing backtick. -/
theorem nameOf_quoted {name : Bytes} (hne : name ≠ []) (t : Bytes) :
    nameOf (backtick :: (doubleBackticks name ++ backtick :: t)) = some name ↔ t = [] := by
  rw [nameOf, stripPrefix, if_pos List.head?_cons, List.tail_cons]
  dsimp only
  rw [stripSuffix]
  rcases List.eq_nil_or_concat t with rfl | ⟨t, y, rfl⟩
  · rw [List.getLast?_concat, if_pos rfl, List.dropLast_concat]
    have hread := undoubleBackticks_append name []
    rw [undoubleBackticks, List.append_nil, List.append_nil] at hread
    rw [Option.map_some, hread]
    exact iff_of_true (if_pos (decide_eq_true hne)) rfl
  · rw [List.concat_eq_append, ← List.cons_append, ← List.append_assoc, List.getLast?_concat,
      List.dropLast_concat]
    refine iff_of_false (fun h ↦ ?_) (List.append_ne_nil_of_right_ne_nil _ (List.cons_ne_nil _ _))
    have h := (Option.filter_eq_some_iff.mp h).1
    split_ifs at h
    · rw [Option.map_some, undoubleBackticks_append, Option.some.injEq] at h
      exact undoubleBackticks_ne_nil (List.cons_ne_nil _ _) (List.append_right_eq_self.mp h)
    · cases h

/-! ## Names without backticks are trimmed -/

theorem isUtf8_getD_stripSuffix {s : Bytes} (h : isUtf8 s = true) :
    isUtf8 ((stripSuffix s (ch ';')).getD s) = true := by
  rw [stripSuffix]
  split_ifs with hlast
  · obtain ⟨s, rfl⟩ := List.getLast?_eq_some_iff.mp hlast
    rw [List.dropLast_concat, Option.getD_some]
    exact ((isUtf8_append_cons_iff (by decide)).mp h).1
  · exact h

theorem mem_of_mem_getD_stripSuffix {s : Bytes} {x : UInt8}
    (h : x ∈ (stripSuffix s (ch ';')).getD s) : x ∈ s := by
  rw [stripSuffix] at h
  split_ifs at h
  · exact List.mem_of_mem_dropLast h
  · exact h

theorem trim_of_parseUseTarget {sql db : Bytes} (hutf8 : isUtf8 sql = true)
    (hquote : backtick ∉ sql) (h : parseUseTarget sql = some db) : trim db = db := by
  have hstrip := isUtf8_getD_stripSuffix (chars_trim hutf8).2
  have hrest := (chars_trim hstrip).2
  have hmem : backtick ∉ trim ((stripSuffix (trim sql) (ch ';')).getD (trim sql)) := fun hmem ↦
    hquote (mem_of_mem_trim (mem_of_mem_getD_stripSuffix (mem_of_mem_trim hmem)))
  rw [parseUseTarget_eq] at h
  generalize trim ((stripSuffix (trim sql) (ch ';')).getD (trim sql)) = rest at h hrest hmem
  rw [useTarget] at h
  split at h
  · cases h
  · next kw target hsplit =>
    split_ifs at h
    -- what stands behind the keyword is made of characters of the text
    obtain ⟨htarget, hsub⟩ : isUtf8 target = true ∧ ∀ x ∈ target, x ∈ rest := by
      rw [splitOnceWhitespace] at hsplit
      split at hsplit
      · cases hsplit
      · next c after hdrop =>
        obtain ⟨-, rfl⟩ := Prod.mk.inj (Option.some.inj hsplit)
        have hafter : ∀ k ∈ after, k ∈ chars rest := fun k hk ↦
          (List.dropWhile_suffix _).mem (hdrop ▸ List.mem_cons_of_mem c hk)
        refine ⟨(chars_flatten_of fun k hk ↦ chars_of_mem_chars hrest (hafter k hk)).2,
          fun x hx ↦ ?_⟩
        obtain ⟨k, hk, hx⟩ := List.mem_flatten.mp hx
        rw [← chars_flatten rest]
        exact List.mem_flatten.mpr ⟨k, hafter k hk, hx⟩
    have hhead : (trim target).head? ≠ some backtick := fun hhead ↦
      hmem (hsub _ (mem_of_mem_trim (List.mem_of_head? hhead)))
    by_cases hnil : trim target = []
    · rw [hnil] at h
      cases h
    · rw [nameOf_of_head hnil hhead] at h
      rw [← Option.some.inj h, trim_trim htarget]

/-! ## Both recognisers on a statement -/

section Ends

theorem trim_blank_append {w : Bytes} (hw : ∀ c ∈ w, isAsciiWhitespace c = true) (s : Bytes) :
    trim (w ++ s) = trim s := by
  have hascii : ∀ c ∈ w, c < 0x80 := fun c hc ↦ (ascii_of_isAsciiWhitespace (hw c hc)).1
  have hspace : ∀ d ∈ w.map ([·]), isWhitespace d = true := by
    intro d hd
    obtain ⟨c, hc, rfl⟩ := List.mem_map.mp hd
    exact (ascii_of_isAsciiWhitespace (hw c hc)).2.1
  rw [trim, chars_append (isUtf8_of_ascii hascii), chars_of_ascii hascii,
    List.dropWhile_append_of_pos hspace, trim]

/-- Behind a trimmed text, white space and one semicolon are cut off. -/
theorem closing_trimmed {s : Bytes} (htrim : trimEnd s = s) (hsemi : ch ';' ∉ s) {g r t : Bytes}
    (ht : t = g ∨ t = g ++ ch ';' :: r) (hg : ∀ c ∈ g, isAsciiWhitespace c = true)
    (hr : ∀ c ∈ r, isAsciiWhitespace c = true) : closing (s ++ t) = s := by
  rcases ht with rfl | rfl
  · have hlast : s.getLast? ≠ some (ch ';') := fun h ↦ hsemi (List.mem_of_getLast? h)
    rw [closing, trimEnd_append_blank hg, htrim, stripSuffix, if_neg hlast, Option.getD_none, htrim]
  · have hend : trimEnd (s ++ (g ++ ch ';' :: r)) = s ++ g ++ [ch ';'] := by
      have hnil := trimEnd_append_blank hr []
      rw [List.nil_append] at hnil
      rw [← List.append_assoc, trimEnd_append_cons (by decide) (by decide), hnil,
        trimEnd_eq_self fun c hc ↦ by rw [chars_nil] at hc; cases hc]
    rw [closing, hend, stripSuffix, List.getLast?_concat, if_pos rfl, List.dropLast_concat,
      Option.getD_some, trimEnd_append_blank hg, htrim]

/-- The last character of a trimmed text is no white space. -/
theorem last_of_trim {s : Bytes} (hutf8 : isUtf8 s = true) (h : trim s = s) :
    ∀ c ∈ (chars s).getLast?, isWhitespace c = false := by
  intro c hc
  have hchars := (chars_trim hutf8).1
  rw [h] at hchars
  rw [hchars] at hc
  have hne : trimList isWhitespace (chars s) ≠ [] := by
    intro hnil
    rw [hnil] at hc
    cases hc
  have hlast := List.rdropWhile_last_not isWhitespace ((chars s).dropWhile isWhitespace) hne
  rw [Option.mem_def, List.getLast?_eq_some_getLast hne, Option.some.injEq] at hc
  rw [← hc]
  exact Bool.eq_false_of_not_eq_true hlast

theorem isUtf8_ascii_append {p : Bytes} (hp : ∀ c ∈ p, c < 0x80) (s : Bytes) :
    isUtf8 (p ++ s) = isUtf8 s := by
  have hutf8 := isUtf8_of_ascii hp
  rw [isUtf8, utf8Chars_append hutf8, List.all_append, ← isUtf8, ← isUtf8, hutf8, Bool.true_and]

theorem isUtf8_append_ascii {s t : Bytes} (ht : ∀ c ∈ t, c < 0x80)
    (h : isUtf8 (s ++ t) = true) : isUtf8 s = true := by
  cases t with
  | nil => rwa [List.append_nil] at h
  | cons c t => exact ((isUtf8_append_cons_iff (ht c List.mem_cons_self)).mp h).1

end Ends

namespace UseStatement

variable (u : UseStatement)

/-- Behind the keyword the word is over. -/
theorem stops_keyword : ∀ c ∈ (u.gap ++ (u.ident ++ u.tail)).head?, isWordByte c = false := by
  intro c hc
  rcases hgap : u.gap with _ | ⟨d, g⟩
  · have hquote : u.ident.head? = some backtick :=
      u.gap_spec.resolve_left (not_not.mpr hgap)
    obtain ⟨i, hi⟩ := List.head?_eq_some_iff.mp hquote
    rw [hgap, hi] at hc
    obtain rfl : backtick = c := Option.some.inj hc
    rfl
  · have hsplit := u.gap_trivia.split
    rw [hgap] at hc hsplit
    obtain rfl : d = c := Option.some.inj hc
    have hspace (h : isAsciiWhitespace d = true) : isWordByte d = false :=
      forall_byte (p := fun d ↦ isAsciiWhitespace d = true → isWordByte d = false)
        (by decide) d h
    rcases hsplit with hblank | ⟨w, x, m, hw, hblank, hx⟩
    · exact hspace (hblank d List.mem_cons_self)
    · cases w with
      | nil =>
        obtain rfl : d = x := (List.cons.inj hw).1
        exact (startsComment_spec hx).2.2.2.2.1
      | cons e w =>
        obtain rfl : d = e := (List.cons.inj hw).1
        exact hspace (hblank d List.mem_cons_self)

/-- The token scan finds the keyword. -/
theorem isUseStatement_text : isUseStatement u.text = true := by
  have hword : ∀ c ∈ u.keyword, isWordByte c = true ∧ isWordStart c = true := by
    intro c hc
    have hmem : toAsciiLowercase c ∈ ascii "use" := u.isUse ▸ List.mem_map_of_mem hc
    exact forall_byte (p := fun c ↦ toAsciiLowercase c ∈ ascii "use" →
      isWordByte c = true ∧ isWordStart c = true) (by decide) c hmem
  obtain ⟨x, k, hk⟩ := List.exists_cons_of_length_eq_add_one (keyword_length u.isUse)
  have huse := u.isUse
  rw [hk] at hword huse
  rw [isUseStatement_eq, text, u.lead_trivia.wordsFrom_append, hk, List.cons_append,
    wordsFrom_word 0 (hword x List.mem_cons_self).2
      (fun c hc ↦ (hword c (List.mem_cons_of_mem x hc)).1) u.stops_keyword, huse]
  rfl

variable {u}

/-- The name in a plain statement with a name that is not quoted. -/
theorem parseUseTarget_of_plain {w g k name t : Bytes} {c : UInt8}
    (hw : ∀ c ∈ w, isAsciiWhitespace c = true) (hk : k.map toAsciiLowercase = ascii "use")
    (hg : ∀ d ∈ c :: g, isAsciiWhitespace d = true) (hne : name ≠ [])
    (hbytes : ∀ d ∈ name, isNameByte d = true) (hutf8 : isUtf8 name = true)
    {g' r : Bytes} (ht : t = g' ∨ t = g' ++ ch ';' :: r)
    (hg' : ∀ c ∈ g', isAsciiWhitespace c = true) (hr : ∀ c ∈ r, isAsciiWhitespace c = true)
    (htrim : trim name = name) :
    parseUseTarget (w ++ (k ++ (c :: g ++ (name ++ t)))) = some name := by
  have hname (d : UInt8) (hd : isNameByte d = true) : d ≠ ch ';' ∧ d ≠ backtick :=
    forall_byte (p := fun d ↦ isNameByte d = true → d ≠ ch ';' ∧ d ≠ backtick)
      (by decide) d hd
  have hascii : ∀ d ∈ c :: g, d < 0x80 := fun d hd ↦ (ascii_of_isAsciiWhitespace (hg d hd)).1
  have hend : trimEnd (c :: g ++ name) = c :: g ++ name := by
    refine trimEnd_eq_self fun d hd ↦ last_of_trim hutf8 htrim d ?_
    rw [chars_append (isUtf8_of_ascii hascii)] at hd
    have hchars : chars name ≠ [] := by
      intro hnil
      have hflatten := chars_flatten name
      rw [hnil] at hflatten
      exact hne hflatten.symm
    rwa [List.getLast?_append_of_ne_nil _ hchars] at hd
  have hsemi : ch ';' ∉ c :: g ++ name := by
    intro hmem
    rcases List.mem_append.mp hmem with hmem | hmem
    · exact (ascii_of_isAsciiWhitespace (hg _ hmem)).2.2 rfl
    · exact (hname _ (hbytes _ hmem)).1 rfl
  rw [parseUseTarget_keyword hk hw, ← List.append_assoc, closing_trimmed hend hsemi ht hg' hr,
    List.cons_append, useTarget_keyword_blank hk (hg c List.mem_cons_self),
    trim_blank_append fun d hd ↦ hg d (List.mem_cons_of_mem c hd), htrim]
  exact nameOf_of_head hne fun hhead ↦ (hname _ (hbytes _ (List.mem_of_head? hhead))).2 rfl

/-- A comment in front of the keyword: the first word is another one. -/
theorem parseUseTarget_lead {w m : Bytes} {x : UInt8} (hw : ∀ c ∈ w, isAsciiWhitespace c = true)
    (hx : startsComment x = true) : parseUseTarget (w ++ x :: m) = none := by
  obtain ⟨hsolid, -, -, -, -, hu⟩ := startsComment_spec hx
  rw [parseUseTarget_blank hw hsolid]
  refine useTarget_solid (k := [x]) (List.forall_mem_singleton.mpr hsolid) fun n hn ↦ hu ?_
  exact (List.cons.inj hn).1

section Behind

variable {w k g name : Bytes} {c : UInt8} (hw : ∀ c ∈ w, isAsciiWhitespace c = true)
  (hk : k.map toAsciiLowercase = ascii "use") (hc : isAsciiWhitespace c = true)
include hw hk

/-- No white space behind the keyword. -/
theorem parseUseTarget_solid {x : UInt8} (hx : Solid x) (m : Bytes) :
    parseUseTarget (w ++ (k ++ x :: m)) = none := by
  have hclosing := closing_append hx [] m
  rw [List.nil_append, List.nil_append] at hclosing
  rw [parseUseTarget_keyword hk hw, hclosing, useTarget_keyword_solid hk hx]

include hc

/-- What the name is read from, up to a solid byte. -/
theorem parseUseTarget_gap {x : UInt8} (hx : Solid x) (a m : Bytes) :
    parseUseTarget (w ++ (k ++ c :: (a ++ x :: m))) =
      nameOf (trimStart a ++ x :: trimEnd (closing m)) := by
  rw [parseUseTarget_keyword hk hw, ← List.cons_append, closing_append hx, List.cons_append,
    useTarget_keyword_blank hk hc, trim_append_cons hx.1 hx.2.1]

/-- A comment behind a name that is not quoted, or in front of it. -/
theorem parseUseTarget_ne_of_comment {x : UInt8} (hx : startsComment x = true)
    (hname : ∀ d ∈ name, isNameByte d = true) (a m : Bytes) :
    parseUseTarget (w ++ (k ++ c :: (a ++ x :: m))) ≠ some name := by
  obtain ⟨hsolid, hquote, hbyte, -⟩ := startsComment_spec hx
  rw [parseUseTarget_gap hw hk hc hsolid]
  intro h
  have hmem := mem_of_nameOf h hquote (List.mem_append_right _ List.mem_cons_self)
  rw [hname x hmem] at hbyte
  cases hbyte

variable (hg : ∀ d ∈ g, isAsciiWhitespace d = true)
include hg

/-- A comment in front of a quoted name. -/
theorem parseUseTarget_quoted_ne {x : UInt8} (hx : startsComment x = true) (m t : Bytes) :
    parseUseTarget (w ++ (k ++ c :: (g ++ x ::
      (m ++ (backtick :: (doubleBackticks name ++ [backtick]) ++ t))))) ≠ some name := by
  obtain ⟨hsolid, hquote, -⟩ := startsComment_spec hx
  have htail : m ++ (backtick :: (doubleBackticks name ++ [backtick]) ++ t) =
      (m ++ backtick :: doubleBackticks name) ++ backtick :: t := by
    simp only [List.cons_append, List.append_assoc, List.nil_append]
  rw [parseUseTarget_gap hw hk hc hsolid, trimStart_blank hg, List.nil_append, htail,
    closing_append (by decide), trimEnd_append_cons (by decide) (by decide),
    nameOf_of_head (List.cons_ne_nil _ _) fun h ↦ hquote (Option.some.inj h)]
  intro h
  have hlen := congrArg List.length (Option.some.inj h)
  have hdouble := length_doubleBackticks name
  simp only [List.length_cons, List.length_append] at hlen
  omega

/-- A quoted name is read if there is no comment behind it. -/
theorem parseUseTarget_quoted (hne : name ≠ []) (t : Bytes) :
    parseUseTarget (w ++ (k ++ c :: (g ++
      (backtick :: (doubleBackticks name ++ [backtick]) ++ t)))) = some name ↔
      trimEnd (closing t) = [] := by
  have htail : backtick :: (doubleBackticks name ++ [backtick]) ++ t =
      backtick :: (doubleBackticks name ++ backtick :: t) := by
    simp only [List.cons_append, List.append_assoc, List.nil_append]
  rw [htail, parseUseTarget_gap hw hk hc (by decide), trimStart_blank hg, List.nil_append,
    closing_append (by decide), trimEnd_append_cons (by decide) (by decide), nameOf_quoted hne]

end Behind

theorem trimEnd_nil : trimEnd [] = [] :=
  trimEnd_eq_self fun c hc ↦ by rw [chars_nil] at hc; cases hc

theorem mem_tail_comment {t m : Bytes} {x : UInt8} (hx : startsComment x = true)
    (h : ∀ c ∈ t ++ x :: m, isAsciiWhitespace c = true ∨ c = ch ';') : False := by
  obtain ⟨hsolid, -, -, hspace, -⟩ := startsComment_spec hx
  rcases h x (List.mem_append_right _ List.mem_cons_self) with h | h
  · rw [hspace] at h
    cases h
  · exact hsolid.2.2 h

end UseStatement

theorem Names.split {i n : Bytes} (h : Names i n) : n ≠ [] ∧
    ((i = n ∧ ∀ c ∈ n, isNameByte c = true) ∨
      i = backtick :: (doubleBackticks n ++ [backtick])) := by
  cases h with
  | plain hne hbytes => exact ⟨hne, Or.inl ⟨rfl, hbytes⟩⟩
  | quoted hne => exact ⟨hne, Or.inr rfl⟩

theorem not_blank_of_startsComment {x : UInt8} (hx : startsComment x = true) :
    ¬isAsciiWhitespace x = true := by
  rw [(startsComment_spec hx).2.2.2.1]
  exact Bool.false_ne_true

theorem blank_or_semicolon {t g r : Bytes} (ht : t = g ∨ t = g ++ ch ';' :: r)
    (hg : ∀ c ∈ g, isAsciiWhitespace c = true) (hr : ∀ c ∈ r, isAsciiWhitespace c = true) :
    ∀ c ∈ t, isAsciiWhitespace c = true ∨ c = ch ';' := by
  rcases ht with rfl | rfl
  · exact fun c hc ↦ Or.inl (hg c hc)
  · intro c hc
    rcases List.mem_append.mp hc with hc | hc
    · exact Or.inl (hg c hc)
    · exact (List.mem_cons.mp hc).symm.imp_left (hr c)

namespace UseStatement

variable {u : UseStatement}

/-- There is no backtick in a statement without comments whose name is not quoted. -/
theorem backtick_notMem_text (hlead : ∀ c ∈ u.lead, isAsciiWhitespace c = true)
    (hgap : ∀ c ∈ u.gap, isAsciiWhitespace c = true) (hident : u.ident = u.name)
    (hbytes : ∀ c ∈ u.name, isNameByte c = true)
    (htail : ∀ c ∈ u.tail, isAsciiWhitespace c = true ∨ c = ch ';') : backtick ∉ u.text := by
  have hblank : ¬isAsciiWhitespace backtick = true := by decide
  rw [text, hident]
  simp only [List.mem_append, not_or]
  refine ⟨fun h ↦ hblank (hlead _ h), fun h ↦ ?_, fun h ↦ hblank (hgap _ h), fun h ↦ ?_,
    fun h ↦ ?_⟩
  · have hmem := u.isUse ▸ List.mem_map_of_mem (f := toAsciiLowercase) h
    exact absurd hmem (by decide)
  · exact absurd (hbytes _ h) (by decide)
  · exact (htail _ h).elim hblank (by decide)

/-- A comment in front of the name. -/
theorem parseUseTarget_ne_of_gap {d x : UInt8} {w m : Bytes}
    (hlead : ∀ c ∈ u.lead, isAsciiWhitespace c = true) (hgap : u.gap = d :: (w ++ x :: m))
    (hd : isAsciiWhitespace d = true) (hw : ∀ c ∈ w, isAsciiWhitespace c = true)
    (hx : startsComment x = true) : parseUseTarget u.text ≠ some u.name := by
  have htext : u.text = u.lead ++ (u.keyword ++ d :: (w ++ x :: (m ++ (u.ident ++ u.tail)))) := by
    rw [text, hgap]
    simp only [List.cons_append, List.append_assoc]
  rw [htext]
  obtain ⟨-, ⟨-, hbytes⟩ | hident⟩ := u.names.split
  · exact parseUseTarget_ne_of_comment hlead u.isUse hd hx hbytes w _
  · rw [hident]
    exact parseUseTarget_quoted_ne hlead u.isUse hd hw hx m u.tail

/-- A name that is not quoted, with white space in front of it. -/
theorem parseUseTarget_iff_of_plain {c : UInt8} {g : Bytes}
    (hlead : ∀ c ∈ u.lead, isAsciiWhitespace c = true) (hgap : u.gap = c :: g)
    (hblank : ∀ d ∈ c :: g, isAsciiWhitespace d = true) (hident : u.ident = u.name)
    (hbytes : ∀ d ∈ u.name, isNameByte d = true) :
    parseUseTarget u.text = some u.name ↔ u.Plain := by
  have htext : u.text = u.lead ++ (u.keyword ++ (c :: g ++ (u.name ++ u.tail))) := by
    rw [text, hgap, hident]
  rcases u.tail_spec.split with ⟨g', r, ht, hg', hr⟩ | ⟨w, x, m, ht, hx⟩
  · have htail := blank_or_semicolon ht hg' hr
    have hutf8 := u.utf8
    rw [← text] at hutf8
    constructor
    · intro h
      refine ⟨hlead, hgap ▸ hblank, hgap ▸ List.cons_ne_nil c g, htail, hident ▸ ?_⟩
      exact trim_of_parseUseTarget hutf8 (backtick_notMem_text hlead (hgap ▸ hblank) hident hbytes
        htail) h
    · intro h
      rw [htext]
      refine parseUseTarget_of_plain hlead u.isUse hblank u.names.split.1 hbytes ?_ ht hg' hr
        (hident ▸ h.ident)
      have hascii : ∀ d ∈ u.lead ++ (u.keyword ++ (c :: g)), d < 0x80 := by
        simp only [List.forall_mem_append]
        exact ⟨fun d hd ↦ (ascii_of_isAsciiWhitespace (hlead d hd)).1,
          fun d hd ↦ (keyword_solid u.isUse d hd).1,
          fun d hd ↦ (ascii_of_isAsciiWhitespace (hblank d hd)).1⟩
      have hassoc : u.text = u.lead ++ (u.keyword ++ (c :: g)) ++ (u.name ++ u.tail) := by
        rw [htext, List.append_assoc, List.append_assoc]
      rw [hassoc, isUtf8_ascii_append hascii] at hutf8
      refine isUtf8_append_ascii (fun d hd ↦ ?_) hutf8
      rcases htail d hd with hd | rfl
      · exact (ascii_of_isAsciiWhitespace hd).1
      · decide
  · have hassoc : u.text = u.lead ++ (u.keyword ++ c :: ((g ++ u.name ++ w) ++ x :: m)) := by
      rw [htext, ht]
      simp only [List.cons_append, List.append_assoc]
    rw [hassoc]
    exact iff_of_false (parseUseTarget_ne_of_comment hlead u.isUse (hblank c List.mem_cons_self) hx
      hbytes _ m) fun h ↦ mem_tail_comment hx (ht ▸ h.tail)

/-- A quoted name with white space in front of it. -/
theorem parseUseTarget_iff_of_quoted {c : UInt8} {g : Bytes}
    (hlead : ∀ c ∈ u.lead, isAsciiWhitespace c = true) (hgap : u.gap = c :: g)
    (hblank : ∀ d ∈ c :: g, isAsciiWhitespace d = true)
    (hident : u.ident = backtick :: (doubleBackticks u.name ++ [backtick])) :
    parseUseTarget u.text = some u.name ↔ u.Plain := by
  obtain ⟨hc, hg⟩ := List.forall_mem_cons.mp hblank
  rw [text, hgap, List.cons_append, hident,
    parseUseTarget_quoted hlead u.isUse hc hg u.names.split.1]
  rcases u.tail_spec.split with ⟨g', r, ht, hg', hr⟩ | ⟨w, x, m, ht, hx⟩
  · have hclosing := closing_trimmed trimEnd_nil List.not_mem_nil ht hg' hr
    rw [List.nil_append] at hclosing
    rw [hclosing, trimEnd_nil]
    refine iff_of_true rfl ⟨hlead, hgap ▸ hblank, hgap ▸ List.cons_ne_nil c g, ?_, hident ▸ ?_⟩
    · exact blank_or_semicolon ht hg' hr
    · exact trim_between _ (by decide) (by decide) (by decide) (by decide)
  · obtain ⟨hsolid, -⟩ := startsComment_spec hx
    rw [ht, closing_append hsolid, trimEnd_append_cons hsolid.1 hsolid.2.1]
    exact iff_of_false (List.append_ne_nil_of_right_ne_nil _ (List.cons_ne_nil _ _))
      fun h ↦ mem_tail_comment hx (ht ▸ h.tail)

/-- **What `parse_use_target` reads of a `USE` statement.** -/
theorem parseUseTarget_iff : parseUseTarget u.text = some u.name ↔ u.Plain := by
  rcases u.lead_trivia.split with hlead | ⟨w, x, m, hlead, hw, hx⟩
  swap
  · -- a comment in front of the keyword
    rw [text, hlead, List.append_assoc, List.cons_append, parseUseTarget_lead hw hx]
    exact iff_of_false nofun fun h ↦ not_blank_of_startsComment hx
      (h.lead x (hlead ▸ List.mem_append_right _ List.mem_cons_self))
  rcases hgap : u.gap with _ | ⟨c, g⟩
  · -- a quoted name directly behind the keyword
    have hquote : u.ident.head? = some backtick := u.gap_spec.resolve_left (not_not.mpr hgap)
    obtain ⟨i, hi⟩ := List.head?_eq_some_iff.mp hquote
    rw [text, hgap, hi, List.nil_append, List.cons_append,
      parseUseTarget_solid hlead u.isUse (by decide)]
    exact iff_of_false nofun fun h ↦ h.gap_ne hgap
  have hsplit := u.gap_trivia.split
  rw [hgap] at hsplit
  rcases hsplit with hblank | ⟨w, x, m, hw, hblank, hx⟩
  swap
  · -- a comment between keyword and name
    refine iff_of_false ?_ fun h ↦ not_blank_of_startsComment hx
      (h.gap x (by rw [hgap, hw]; exact List.mem_append_right _ List.mem_cons_self))
    cases w with
    | nil =>
      rw [text, hgap, hw, List.nil_append, List.cons_append,
        parseUseTarget_solid hlead u.isUse (startsComment_spec hx).1]
      exact nofun
    | cons d w =>
      obtain ⟨hd, hblank⟩ := List.forall_mem_cons.mp hblank
      exact parseUseTarget_ne_of_gap hlead (hgap.trans hw) hd hblank hx
  obtain ⟨-, ⟨hident, hbytes⟩ | hident⟩ := u.names.split
  · exact parseUseTarget_iff_of_plain hlead hgap hblank hident hbytes
  · exact parseUseTarget_iff_of_quoted hlead hgap hblank hident

/-- **Both recognisers agree on a `USE` statement.** The token scan finds every one of them, and the
name is read from it if and only if it is plain. -/
theorem recognised_iff (u : UseStatement) :
    (isUseStatement u.text = true ∧ parseUseTarget u.text = some u.name) ↔ u.Plain := by
  rw [u.isUseStatement_text, eq_self, true_and, parseUseTarget_iff]

/-- A comment in front of the statement. -/
def commented : UseStatement where
  lead := ascii "/*c*/"
  keyword := ascii "USE"
  gap := ascii " "
  ident := ascii "db"
  name := ascii "db"
  tail := []
  lead_trivia := @Trivia.block (ascii "c") [] (by decide) (by decide) Trivia.nil
  isUse := by decide
  gap_trivia := Trivia.space (by decide) Trivia.nil
  gap_spec := Or.inl (by decide)
  names := Names.plain (by decide) (by decide +kernel)
  tail_spec := UseTail.bare (ClosingTrivia.closed Trivia.nil)
  utf8 := by decide +kernel

/-- The replayer takes `/*c*/USE db` for a switch, and the decoder reads no name from it. -/
theorem not_recognised : ¬∀ u : UseStatement,
    isUseStatement u.text = true ∧ parseUseTarget u.text = some u.name := by
  intro h
  have hnone : parseUseTarget commented.text = none := by decide +kernel
  have hsome := (h commented).2
  rw [hnone] at hsome
  cases hsome

end UseStatement

end SqlReplay
