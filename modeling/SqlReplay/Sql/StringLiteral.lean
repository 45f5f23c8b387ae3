import SqlReplay.Sql.Literals
import SqlReplay.Sql.Agreement

/-!
# String literals

`string_literal` writes a string so that a server reads the same string back, and the scanners of
the tool, each of which has its own loop over a quoted text, must see where it ends. How a server in
its default mode reads a literal is stated here (`readString`); the loops are those of the model.

One fact about the escaper carries everything. What it writes for a byte is a backslash with another
byte, a doubled quote, or a byte that is neither backslash nor quote (`stringEscape_cases`). So the
text between the quotes is a `QuotedBody`, in which no quote stands alone and no backslash stands
last, and a loop that comes to the closing quote has not been misled by anything in front of it. The
quote is seen to be the closing one by the byte behind it, which must not be a quote again.

A newline is among the bytes that are escaped, so a literal lies on one line and the slow-log parser
comes to its end on the line it began on.
-/

namespace SqlReplay

/-! ## Reading a literal back -/

/-- What a backslash and the byte `c` stand for. The escapes of `%` and `_` are left to `LIKE`. -/
def unescape (c : UInt8) : Bytes :=
  if c = ch '0' then [0]
  else if c = ch 'b' then [8]
  else if c = ch 't' then [9]
  else if c = ch 'n' then [newline]
  else if c = ch 'r' then [13]
  else if c = ch 'Z' then [0x1A]
  else if c = ch '%' ∨ c = ch '_' then [backslash, c]
  else [c]

/-- The string from just behind its opening quote, and the text behind the closing one. -/
def readQuoted (quote : UInt8) : Bytes → Option (Bytes × Bytes)
  | [] => none
  | [c] => if c = quote then some ([], []) else none
  | c :: d :: rest =>
    if c = backslash then (readQuoted quote rest).map fun r ↦ (unescape d ++ r.1, r.2)
    else if c = quote then
      if d = quote then (readQuoted quote rest).map fun r ↦ (quote :: r.1, r.2)
      else some ([], d :: rest)
    else (readQuoted quote (d :: rest)).map fun r ↦ (c :: r.1, r.2)

/-- How a server in its default mode reads the string literal at the head of a text: its value and
the text behind it. -/
def readString : Bytes → Option (Bytes × Bytes)
  | [] => none
  | c :: rest => if c = singleQuote ∨ c = doubleQuote then readQuoted c rest else none

/-! ## The escaper -/

/-- What `string_literal` writes for a byte. -/
def stringEscape (c : UInt8) : Bytes :=
  if c = singleQuote then [singleQuote, singleQuote]
  else if c = backslash then [backslash, backslash]
  else if c = 0 then [backslash, ch '0']
  else if c = newline then [backslash, ch 'n']
  else if c = 13 then [backslash, ch 'r']
  else if c = 0x1A then [backslash, ch 'Z']
  else [c]

theorem stringLiteral_eq (s : Bytes) :
    stringLiteral s = singleQuote :: (s.flatMap stringEscape ++ [singleQuote]) := rfl

/-- A byte is escaped by a backslash, by doubling it, or not at all. -/
theorem stringEscape_cases (c : UInt8) :
    (∃ d, stringEscape c = [backslash, d] ∧ unescape d = [c] ∧ d ≠ newline) ∨
      (c = singleQuote ∧ stringEscape c = [singleQuote, singleQuote]) ∨
      (stringEscape c = [c] ∧ c ≠ backslash ∧ c ≠ singleQuote ∧ c ≠ newline) := by
  rw [stringEscape]
  split_ifs with hquote hbackslash hnul hnewline hreturn hsub
  · exact Or.inr (Or.inl ⟨hquote, rfl⟩)
  · exact Or.inl ⟨backslash, rfl, by rw [hbackslash]; rfl, by decide⟩
  · exact Or.inl ⟨ch '0', rfl, by rw [hnul]; rfl, by decide⟩
  · exact Or.inl ⟨ch 'n', rfl, by rw [hnewline]; rfl, by decide⟩
  · exact Or.inl ⟨ch 'r', rfl, by rw [hreturn]; rfl, by decide⟩
  · exact Or.inl ⟨ch 'Z', rfl, by rw [hsub]; rfl, by decide⟩
  · exact Or.inr (Or.inr ⟨rfl, hbackslash, hquote, hnewline⟩)

theorem quotedBody_escape (s : Bytes) : QuotedBody singleQuote (s.flatMap stringEscape) := by
  induction s with
  | nil => exact .nil
  | cons c s ih =>
    rw [List.flatMap_cons]
    rcases stringEscape_cases c with ⟨d, hesc, -, -⟩ | ⟨-, hesc⟩ | ⟨hesc, hbackslash, hquote, -⟩
    · rw [hesc]
      exact .escaped d ih
    · rw [hesc]
      exact .doubled ih
    · rw [hesc]
      exact .plain hbackslash hquote ih

/-- A string literal lies on one line. -/
theorem newline_not_mem_stringLiteral (s : Bytes) : newline ∉ stringLiteral s := by
  have hescape : newline ∉ s.flatMap stringEscape := by
    rw [List.mem_flatMap]
    rintro ⟨c, -, hmem⟩
    rcases stringEscape_cases c with ⟨d, hesc, -, hd⟩ | ⟨-, hesc⟩ | ⟨hesc, -, -, hc⟩
    · rw [hesc, List.mem_cons, List.mem_singleton] at hmem
      exact hmem.elim (by decide) fun h ↦ hd h.symm
    · rw [hesc] at hmem
      exact absurd hmem (by decide)
    · rw [hesc, List.mem_singleton] at hmem
      exact hc hmem.symm
  rw [stringLiteral_eq, List.mem_cons, List.mem_append, List.mem_singleton]
  rintro (h | h | h)
  · exact absurd h (by decide)
  · exact hescape h
  · exact absurd h (by decide)

/-- The bytes are read back one by one. -/
theorem readQuoted_escape (s : Bytes) {t : Bytes} (ht : t.head? ≠ some singleQuote) :
    readQuoted singleQuote (s.flatMap stringEscape ++ singleQuote :: t) = some (s, t) := by
  induction s with
  | nil =>
    rw [List.flatMap_nil, List.nil_append]
    cases t with
    | nil => rfl
    | cons d t =>
      have hd : d ≠ singleQuote := fun h ↦ ht (by rw [h, List.head?_cons])
      rw [readQuoted, if_neg (by decide), if_pos rfl, if_neg hd]
  | cons c s ih =>
    rw [List.flatMap_cons, List.append_assoc]
    rcases stringEscape_cases c with
      ⟨d, hesc, hvalue, -⟩ | ⟨rfl, hesc⟩ | ⟨hesc, hbackslash, hquote, -⟩
    · rw [hesc, List.cons_append, List.singleton_append, readQuoted, if_pos rfl, ih, hvalue]
      rfl
    · rw [hesc, List.cons_append, List.singleton_append, readQuoted, if_neg (by decide), if_pos rfl,
        if_pos rfl, ih]
      rfl
    · -- the byte is not the last one of the text: the closing quote is still to come
      obtain ⟨d, rest, hrest⟩ : ∃ d rest,
          s.flatMap stringEscape ++ singleQuote :: t = d :: rest :=
        List.exists_cons_of_ne_nil (List.append_ne_nil_of_right_ne_nil _ (List.cons_ne_nil _ _))
      rw [hesc, List.singleton_append, hrest, readQuoted, if_neg hbackslash, if_neg hquote, ← hrest,
        ih]
      rfl

/-! ## The slow-log parser on a literal -/

/-- The parser's loop leaves a string behind its closing quote. -/
theorem run_lineScanner_body {q : UInt8} {body after : Bytes} (hq : q ≠ backtick)
    (hesc : q ≠ backslash) (h : QuotedBody q body) (hafter : after.head? ≠ some q) :
    lineScanner.run (.inString q) (body ++ q :: after) =
      ((lineScanner.run .normal after).1,
        List.replicate (body.length + 1) (.quoted q) ++ (lineScanner.run .normal after).2) := by
  have hspan (p b : Bytes) (k : Context) (ks : List Context) (n : ℕ) :
      span (p ++ b) b k ++ (List.replicate n k ++ ks) = List.replicate (p.length + n) k ++ ks := by
    rw [span_append, ← List.append_assoc, ← List.replicate_add]
  induction h with
  | nil =>
    have hstep : lineScanner.step (.inString q) q after = (.quoted q, some (.normal, after)) := by
      simp [lineScanner, hesc, hafter]
    rw [List.nil_append, Scanner.run_of_step hstep]
    exact congrArg (_, ·) (hspan [q] after _ _ 0)
  | @escaped b c _ ih =>
    have hstep : lineScanner.step (.inString q) backslash (c :: (b ++ q :: after)) =
        (.quoted q, some (.inString q, b ++ q :: after)) := if_pos ⟨rfl, hq⟩
    rw [List.cons_append, List.cons_append, Scanner.run_of_step hstep, ih]
    refine congrArg (_, ·) ((hspan [backslash, c] (b ++ q :: after) _ _ _).trans ?_)
    rw [List.length_cons, List.length_singleton, List.length_cons, List.length_cons, Nat.add_comm]
  | @doubled b _ ih =>
    have hstep : lineScanner.step (.inString q) q (q :: (b ++ q :: after)) =
        (.quoted q, some (.inString q, b ++ q :: after)) := by
      simp [lineScanner, hesc]
    rw [List.cons_append, List.cons_append, Scanner.run_of_step hstep, ih]
    refine congrArg (_, ·) ((hspan [q, q] (b ++ q :: after) _ _ _).trans ?_)
    rw [List.length_cons, List.length_singleton, List.length_cons, List.length_cons, Nat.add_comm]
  | @plain c b hesc' hne _ ih =>
    have hstep : lineScanner.step (.inString q) c (b ++ q :: after) =
        (.quoted q, some (.inString q, b ++ q :: after)) := by
      simp [lineScanner, hesc', hne]
    rw [List.cons_append, Scanner.run_of_step hstep, ih]
    refine congrArg (_, ·) ((hspan [c] (b ++ q :: after) _ _ _).trans ?_)
    rw [List.length_singleton, List.length_cons, Nat.add_comm]

/-- The string literal at the head of a line: all of it is string, and the line goes on behind it at
code level. -/
theorem run_lineScanner_stringLiteral (s : Bytes) {line : Bytes}
    (hline : line.head? ≠ some singleQuote) :
    lineScanner.run .normal (stringLiteral s ++ line) =
      ((lineScanner.run .normal line).1,
        List.replicate (stringLiteral s).length (.quoted singleQuote) ++
          (lineScanner.run .normal line).2) := by
  have hstep : lineScanner.step .normal singleQuote
      (s.flatMap stringEscape ++ singleQuote :: line) =
      (.quoted singleQuote, some (.inString singleQuote,
        s.flatMap stringEscape ++ singleQuote :: line)) := by
    have hquote : isQuote singleQuote = true := by decide
    simp [lineScanner, hquote]
  rw [stringLiteral_eq, List.cons_append, List.append_assoc, List.singleton_append,
    Scanner.run_of_step hstep,
    run_lineScanner_body (by decide) (by decide) (quotedBody_escape s) hline, ← List.append_assoc]
  congr 2
  rw [span_cons (List.suffix_refl _), span_self, List.length_cons, List.length_append,
    List.length_singleton]
  rfl

theorem splitOn_append {p : Bytes} (hp : newline ∉ p) (t : Bytes) :
    (p ++ t).splitOn newline = (t.splitOn newline).modifyHead (p ++ ·) := by
  induction p with
  | nil =>
    cases h : t.splitOn newline with
    | nil => exact absurd h (List.splitOn_ne_nil newline t)
    | cons first lines => rw [List.nil_append, h]; rfl
  | cons c p ih =>
    obtain ⟨hc, hp⟩ := not_or.mp (mt List.mem_cons.mpr hp)
    rw [List.cons_append, List.splitOn_cons_eq_if_modifyHead, ih hp,
      if_neg fun h ↦ hc (beq_iff_eq.mp h).symm]
    cases t.splitOn newline with
    | nil => rfl
    | cons first lines => rfl

/-- The first line of a text starts with the first byte of the text, if with any. -/
theorem head?_splitOn {t first : Bytes} {lines : List Bytes} {q : UInt8}
    (h : t.splitOn newline = first :: lines) (hfirst : first.head? = some q) :
    t.head? = some q := by
  cases t with
  | nil =>
    rw [List.splitOn_nil] at h
    rw [← (List.cons.inj h).1] at hfirst
    cases hfirst
  | cons c t =>
    rw [List.splitOn_cons_eq_if_modifyHead] at h
    split_ifs at h
    · rw [← (List.cons.inj h).1] at hfirst
      cases hfirst
    · obtain ⟨line, lines', hsplit⟩ :=
        List.exists_cons_of_ne_nil (List.splitOn_ne_nil newline t)
      rw [hsplit] at h
      rw [← (List.cons.inj h).1] at hfirst
      exact hfirst

/-- A text that starts with a string literal, line by line. -/
theorem lineVisits_stringLiteral (s : Bytes) {t : Bytes} (ht : t.head? ≠ some singleQuote) :
    lineVisits .normal ((stringLiteral s ++ t).splitOn newline) =
      List.replicate (stringLiteral s).length (some (.quoted singleQuote)) ++
        lineVisits .normal (t.splitOn newline) ∧
    ((stringLiteral s ++ t).splitOn newline).foldl scanSqlState .normal =
      (t.splitOn newline).foldl scanSqlState .normal := by
  rw [splitOn_append (newline_not_mem_stringLiteral s)]
  obtain ⟨first, lines, hsplit⟩ := List.exists_cons_of_ne_nil (List.splitOn_ne_nil newline t)
  have hrun := run_lineScanner_stringLiteral s (mt (head?_splitOn hsplit) ht)
  have hvisits : lineScanner.visits .normal (stringLiteral s ++ first) =
      List.replicate (stringLiteral s).length (.quoted singleQuote) ++
        lineScanner.visits .normal first := congrArg Prod.snd hrun
  have hstate : scanSqlState .normal (stringLiteral s ++ first) = scanSqlState .normal first := by
    have hfinal := congrArg Prod.fst hrun
    exact Option.some.inj
      ((final_lineScanner _ _).symm.trans (hfinal.trans (final_lineScanner _ _)))
  rw [hsplit, List.modifyHead_cons, List.foldl_cons, List.foldl_cons, hstate]
  refine ⟨?_, rfl⟩
  cases lines with
  | nil => rw [lineVisits, lineVisits, hvisits, List.map_append, List.map_replicate]
  | cons line lines =>
    have hcons (l : Bytes) : lineVisits .normal (l :: line :: lines) =
        (lineScanner.visits .normal l).map some ++
          none :: lineVisits (scanSqlState .normal l) (line :: lines) := by
      rw [lineVisits]
      exact List.cons_ne_nil _ _
    rw [hcons, hcons, hvisits, hstate, List.map_append, List.map_replicate, List.append_assoc]

/-! ## Every reader of a literal -/

/-- **String literals round-trip.** A server reads the string back, and each of the loops that skip
a quoted text stands behind the closing quote when it leaves it. The loops are entered behind the
opening quote, except for the slow-log parser's, which is run over the lines of the text. -/
theorem stringLiteral_roundTrip (s : Bytes) {t : Bytes} (ht : t.head? ≠ some singleQuote) :
    readString (stringLiteral s ++ t) = some (s, t) ∧
    skipQuoted singleQuote ((stringLiteral s).tail ++ t) = t ∧
    Fingerprint.skipString singleQuote ((stringLiteral s).tail ++ t) = t ∧
    skipCopied singleQuote ((stringLiteral s).tail ++ t) = t ∧
    lineVisits .normal ((stringLiteral s ++ t).splitOn newline) =
      List.replicate (stringLiteral s).length (some (.quoted singleQuote)) ++
        lineVisits .normal (t.splitOn newline) ∧
    ((stringLiteral s ++ t).splitOn newline).foldl scanSqlState .normal =
      (t.splitOn newline).foldl scanSqlState .normal := by
  have hskip : skipQuoted singleQuote ((stringLiteral s).tail ++ t) = t := by
    rw [stringLiteral_eq, List.tail_cons, List.append_assoc, List.singleton_append]
    exact skipQuoted_body (by decide) (by decide) (quotedBody_escape s) ht
  refine ⟨?_, hskip, ?_, ?_, lineVisits_stringLiteral s ht⟩
  · rw [stringLiteral_eq, List.cons_append, List.append_assoc, List.singleton_append, readString,
      if_pos (Or.inl rfl), readQuoted_escape s ht]
  · rw [Fingerprint.skipString_eq (by decide), hskip]
  · rw [skipCopied, if_pos (by decide), hskip]

/-- A string of quotes and backslashes in front of a comma. -/
theorem stringLiteral_roundTrip_sample :
    readString (stringLiteral (ascii "'\\''\n") ++ ascii ",") =
      some (ascii "'\\''\n", ascii ",") :=
  (stringLiteral_roundTrip (ascii "'\\''\n") (by decide)).1

end SqlReplay
