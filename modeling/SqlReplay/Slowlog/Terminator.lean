import SqlReplay.Slowlog.Entry

/-!
# A statement and its terminator

The server writes a statement with a semicolon behind it, and the parser takes one off. What the
parser asks about a line or about the state of the text has the same answer with the semicolon and
without, but for one case: two dashes at the end of the text open a line comment, and behind them a
semicolon shows that they do not. The state is the normal one either way.
-/

namespace SqlReplay

/-! ## The end of a line -/

theorem startsWith_concat {pat : Bytes} {c : UInt8} (hc : c ∉ pat) (line : Bytes) :
    startsWith pat (line ++ [c]) = startsWith pat line := by
  refine Bool.eq_iff_iff.mpr ?_
  rw [startsWith, startsWith, List.isPrefixOf_iff_prefix, List.isPrefixOf_iff_prefix,
    List.prefix_concat_iff]
  refine ⟨fun h ↦ h.resolve_left ?_, .inr⟩
  rintro rfl
  exact hc (List.mem_append_right line (List.mem_singleton_self c))

theorem isEntryHeader_semicolon (line : Bytes) :
    isEntryHeader (line ++ [ch ';']) = isEntryHeader line := by
  unfold isEntryHeader
  rw [startsWith_concat (by decide), startsWith_concat (by decide), startsWith_concat (by decide),
    startsWith_concat (by decide), startsWith_concat (by decide)]

/-- A text that is not changed by trimming its end does not end with white space. -/
theorem last_of_trimEnd {s : Bytes} (h : trimEnd s = s) :
    ∀ c ∈ (chars s).getLast?, isWhitespace c = false := by
  intro c hc
  have hne := ne_nil_of_mem_chars (List.mem_of_getLast? hc)
  obtain ⟨cs, hcs⟩ := List.getLast?_eq_some_iff.mp hc
  have hflatten := chars_flatten s
  by_contra hspace
  rw [trimEnd, hcs, List.reverse_concat, List.dropWhile_cons_of_pos (Bool.not_eq_false _ ▸ hspace)]
    at h
  have hle : (cs.reverse.dropWhile isWhitespace).reverse.flatten.length ≤ cs.flatten.length := by
    obtain ⟨ds, hds⟩ := List.dropWhile_suffix (p := isWhitespace) (l := cs.reverse)
    have hsplit := congrArg (List.flatten ∘ List.reverse) hds
    rw [Function.comp_apply, Function.comp_apply, List.reverse_reverse, List.reverse_append,
      List.flatten_append] at hsplit
    rw [← hsplit, List.length_append]
    exact Nat.le_add_right _ _
  rw [h, ← hflatten, hcs, List.flatten_concat, List.length_append] at hle
  exact hne (List.length_eq_zero_iff.mp (by omega))

theorem dropWhile_ne_nil_of_trim {s : Bytes} (h : trim s ≠ []) :
    (chars s).dropWhile isWhitespace ≠ [] := by
  intro hnil
  rw [trim, hnil] at h
  exact h rfl

theorem trimStart_concat {s : Bytes} (h : trim s ≠ []) {c : UInt8} (hc : c < 0x80) :
    trimStart (s ++ [c]) = trimStart s ++ [c] := by
  have hdrop := dropWhile_ne_nil_of_trim h
  rw [trimStart, trimStart, chars_append_cons s hc, chars_nil, List.dropWhile_append,
    if_neg (by rwa [List.isEmpty_iff]), List.flatten_concat]

/-- Trimming leaves what stands behind the text. -/
theorem trim_concat {s : Bytes} (h : trim s ≠ []) (hend : trimEnd s = s) {c : UInt8} (hc : c < 0x80)
    (hspace : isWhitespace [c] = false) : trim (s ++ [c]) = trim s ++ [c] := by
  have hdrop := dropWhile_ne_nil_of_trim h
  have hlast : ∀ x ∈ ((chars s).dropWhile isWhitespace).getLast?, isWhitespace x = false := by
    intro x hx
    refine last_of_trimEnd hend x ?_
    rw [← List.takeWhile_append_dropWhile (p := isWhitespace) (l := chars s),
      List.getLast?_append, hx, Option.some_or]
    rfl
  have hreverse : ((chars s).dropWhile isWhitespace).reverse.dropWhile isWhitespace =
      ((chars s).dropWhile isWhitespace).reverse :=
    dropWhile_eq_self (by rwa [List.head?_reverse])
  rw [trim, trim, chars_append_cons s hc, chars_nil, List.dropWhile_append,
    if_neg (by rwa [List.isEmpty_iff]), List.reverse_concat,
    List.dropWhile_cons_of_neg (by rw [hspace]; exact Bool.false_ne_true), List.reverse_cons,
    List.reverse_reverse, hreverse, List.reverse_reverse, List.flatten_concat]

theorem parseSetTimestamp_semicolon {t : Bytes} (h : parseSetTimestamp t = none) :
    parseSetTimestamp (t ++ [ch ';']) = none := by
  rw [parseSetTimestamp] at h ⊢
  by_cases hlong : 14 < t.length
  · have htake : (t ++ [ch ';']).take 14 = t.take 14 := List.take_append_of_le_length hlong.le
    have hdrop : (t ++ [ch ';']).drop 14 = t.drop 14 ++ [ch ';'] :=
      List.drop_append_of_le_length hlong.le
    have hlength : (t ++ [ch ';']).length ≤ 14 ↔ t.length ≤ 14 := by
      rw [List.length_append, List.length_singleton]
      omega
    rw [htake, hdrop, trimEndMatches_concat]
    exact (if_congr (or_congr_left hlength) rfl rfl).trans h
  · have hnone : (parseF64 (trim (trimEndMatches (ch ';') ((t ++ [ch ';']).drop 14)))).map
        microsOfSecs = none := by
      have hdrop : (t ++ [ch ';']).drop 14 = [] ∨ (t ++ [ch ';']).drop 14 = [] ++ [ch ';'] := by
        by_cases heq : t.length = 14
        · exact .inr (by rw [List.drop_append_of_le_length heq.ge, ← heq, List.drop_length])
        · refine .inl (List.drop_eq_nil_of_le ?_)
          rw [List.length_append, List.length_singleton]
          omega
      have hempty : trimEndMatches (ch ';') [] = [] := rfl
      have hnot : parseF64 [] = none := by decide
      rcases hdrop with hdrop | hdrop
      · rw [hdrop, hempty, trim_nil, hnot, Option.map_none]
      · rw [hdrop, trimEndMatches_concat, hempty, trim_nil, hnot, Option.map_none]
    rw [hnone, ite_self]

/-- The first line of a statement begins one with the semicolon too. -/
theorem IsStatementLine.semicolon {line : Bytes} (h : IsStatementLine line)
    (hend : trimEnd line = line) : IsStatementLine (line ++ [ch ';']) := by
  have htrim := trim_concat h.nonblank hend (c := ch ';') (by decide) (by decide)
  have hstart := trimStart_concat h.nonblank (c := ch ';') (by decide)
  refine ⟨⟨?_, isRestartBanner_semicolon line, ?_, ?_, ?_⟩, ?_⟩
  · cases line with
    | nil => exact absurd trim_nil h.nonblank
    | cons c line => exact h.hash
  · rw [isPortLine, startsWith_concat (by decide), startsWith_concat (by decide)]
    exact h.port
  · rw [isColumnHeader, hstart, startsWith_concat (by decide), contains_concat (by decide),
      contains_concat (by decide), contains_concat (by decide)]
    exact h.columns
  · rw [htrim]
    exact List.append_ne_nil_of_right_ne_nil _ (List.cons_ne_nil _ _)
  · rw [htrim]
    exact parseSetTimestamp_semicolon h.setTimestamp

/-! ## The state of the text -/

/-- Two dashes that open a line comment still do, unless the text ends with them. -/
theorem opensLineComment_concat (c : UInt8) (rest : Bytes) :
    opensLineComment c (rest ++ [ch ';']) = opensLineComment c rest ∨
      c = ch '-' ∧ rest = [ch '-'] := by
  match rest with
  | [] =>
    refine .inl ?_
    rw [opensLineComment, opensLineComment]
    rfl
  | [d] =>
    by_cases hd : c = ch '-' ∧ d = ch '-'
    · exact .inr ⟨hd.1, congrArg (· :: []) hd.2⟩
    · refine .inl ?_
      have hno : (c == ch '-' && some d == some (ch '-')) = false := by
        rw [Bool.and_eq_false_iff, beq_eq_false_iff_ne, beq_eq_false_iff_ne]
        by_cases hc : c = ch '-'
        · exact .inr fun heq ↦ hd ⟨hc, Option.some.inj heq⟩
        · exact .inl hc
      change (c == ch '#' || (c == ch '-' && some d == some (ch '-') && _)) =
        (c == ch '#' || (c == ch '-' && some d == some (ch '-') && _))
      rw [hno, Bool.false_and, Bool.false_and]
  | d :: e :: rest => exact .inl rfl

theorem scanSqlState_semicolon {state : SqlState} {line : Bytes}
    (hstate : state ≠ .inString (ch ';')) (h : scanSqlState state line = .normal) :
    scanSqlState state (line ++ [ch ';']) = .normal := by
  -- what is taken at each step does not reach the end of the line, and is the same with more behind
  fun_induction scanSqlState state line with
  | case1 state =>
    rw [h]
    decide +kernel
  | case2 q c rest hc ih =>
    -- a backslash at the end of the line would leave the string open
    cases rest with
    | nil =>
      rw [List.tail_nil, scanSqlState] at h
      cases h
    | cons d rest =>
      rw [List.cons_append, scanSqlState, if_pos hc]
      exact ih hstate h
  | case3 q rest hc hq ih =>
    cases rest with
    | nil => cases hq
    | cons d rest =>
      have hq' : (d :: rest ++ [ch ';']).head? = some q := hq
      rw [List.cons_append, scanSqlState, if_neg hc, if_pos rfl, if_pos hq']
      exact ih hstate h
  | case4 q rest hc hq ih =>
    -- the semicolon does not double the closing quote
    have hq' : (rest ++ [ch ';']).head? ≠ some q := by
      cases rest with
      | nil => exact fun heq ↦ hstate (congrArg SqlState.inString (Option.some.inj heq).symm)
      | cons d rest => exact hq
    rw [List.cons_append, scanSqlState, if_neg hc, if_pos rfl, if_neg hq']
    exact ih nofun h
  | case5 q c rest hc hq ih =>
    rw [List.cons_append, scanSqlState, if_neg hc, if_neg hq]
    exact ih hstate h
  | case6 c rest hc ih =>
    cases rest with
    | nil => cases hc.2
    | cons d rest =>
      have hc' : c = ch '*' ∧ (d :: rest ++ [ch ';']).head? = some (ch '/') := hc
      rw [List.cons_append, scanSqlState, if_pos hc']
      exact ih nofun h
  | case7 c rest hc ih =>
    have hc' : ¬ (c = ch '*' ∧ (rest ++ [ch ';']).head? = some (ch '/')) := by
      cases rest with
      | nil => exact fun heq ↦ absurd (Option.some.inj heq.2) (by decide)
      | cons d rest => exact hc
    rw [List.cons_append, scanSqlState, if_neg hc']
    exact ih nofun h
  | case8 c rest hquote ih =>
    rw [List.cons_append, scanSqlState, if_pos hquote]
    refine ih (fun heq ↦ ?_) h
    obtain rfl := SqlState.inString.inj heq
    exact absurd hquote (by decide)
  | case9 c rest hquote hblock ih =>
    cases rest with
    | nil =>
      rw [opensBlockComment, List.head?_nil, Bool.and_eq_true] at hblock
      cases hblock.2
    | cons d rest =>
      have hblock' : opensBlockComment c (d :: rest ++ [ch ';']) = true := hblock
      rw [List.cons_append, scanSqlState, if_neg hquote, if_pos hblock']
      exact ih nofun h
  | case10 c rest hquote hblock hline =>
    -- two dashes that end the line open a comment, and do not with a semicolon behind them
    have hblock' : ¬ opensBlockComment c (rest ++ [ch ';']) = true := by
      cases rest with
      | nil =>
        rw [opensBlockComment, List.nil_append, Bool.and_eq_true]
        exact fun heq ↦ absurd heq.2 (by decide)
      | cons d rest => exact hblock
    rw [List.cons_append, scanSqlState, if_neg hquote, if_neg hblock']
    rcases opensLineComment_concat c rest with heq | ⟨rfl, rfl⟩
    · rw [heq, if_pos hline]
    · decide +kernel
  | case11 c rest hquote hblock hline ih =>
    have hblock' : ¬ opensBlockComment c (rest ++ [ch ';']) = true := by
      cases rest with
      | nil =>
        rw [opensBlockComment, List.nil_append, Bool.and_eq_true]
        exact fun heq ↦ absurd heq.2 (by decide)
      | cons d rest => exact hblock
    rw [List.cons_append, scanSqlState, if_neg hquote, if_neg hblock']
    rcases opensLineComment_concat c rest with heq | ⟨rfl, rfl⟩
    · rw [heq, if_neg hline]
      exact ih nofun h
    · exact absurd rfl hline

/-! ## The lines of a statement -/

/-- The last line of a text is the one that grows. -/
theorem splitOn_concat (text : Bytes) {c : UInt8} (hc : c ≠ newline) :
    ∃ lines last, text.splitOn newline = lines ++ [last] ∧
      (text ++ [c]).splitOn newline = lines ++ [last ++ [c]] := by
  induction text with
  | nil =>
    refine ⟨[], [], rfl, ?_⟩
    exact List.splitOn_eq_singleton fun hmem ↦ hc (List.mem_singleton.mp hmem).symm
  | cons d text ih =>
    obtain ⟨lines, last, htext, hconcat⟩ := ih
    rw [List.cons_append, List.splitOn_cons_eq_if_modifyHead, List.splitOn_cons_eq_if_modifyHead,
      htext, hconcat]
    by_cases hd : (d == newline) = true
    · rw [if_pos hd, if_pos hd]
      exact ⟨[] :: lines, last, rfl, rfl⟩
    · rw [if_neg hd, if_neg hd]
      cases lines with
      | nil => exact ⟨[], d :: last, rfl, rfl⟩
      | cons line lines => exact ⟨(d :: line) :: lines, last, rfl, rfl⟩

theorem foldl_scanSqlState_ne {lines : List Bytes} :
    lines.foldl scanSqlState .normal ≠ .inString (ch ';') := by
  have hscan (state : SqlState) (line : Bytes) (hstate : state ≠ .inString (ch ';')) :
      scanSqlState state line ≠ .inString (ch ';') := by
    fun_induction scanSqlState state line with
    | case1 => exact hstate
    | case2 _ _ _ _ ih => exact ih hstate
    | case3 _ _ _ _ ih => exact ih hstate
    | case4 _ _ _ _ ih => exact ih nofun
    | case5 _ _ _ _ _ ih => exact ih hstate
    | case6 _ _ _ ih => exact ih nofun
    | case7 _ _ _ ih => exact ih nofun
    | case8 c rest hquote ih =>
      refine ih fun heq ↦ ?_
      obtain rfl := SqlState.inString.inj heq
      exact absurd hquote (by decide)
    | case9 _ _ _ _ ih => exact ih nofun
    | case10 => exact nofun
    | case11 _ _ _ _ _ ih => exact ih nofun
  have hfold (lines : List Bytes) (state : SqlState) (hstate : state ≠ .inString (ch ';')) :
      lines.foldl scanSqlState state ≠ .inString (ch ';') := by
    induction lines generalizing state with
    | nil => exact hstate
    | cons line lines ih => exact ih _ (hscan state line hstate)
  exact hfold lines .normal nofun

theorem noHeaders_concat {state : SqlState} {lines : List Bytes} {last : Bytes}
    (h : NoHeaders state (lines ++ [last])) : NoHeaders state (lines ++ [last ++ [ch ';']]) := by
  induction lines generalizing state with
  | nil =>
    refine ⟨fun hstate ↦ ⟨?_, isRestartBanner_semicolon last⟩, trivial⟩
    rw [isEntryHeader_semicolon]
    exact (h.1 hstate).1
  | cons line lines ih => exact ⟨h.1, ih h.2⟩

/-- A statement text that a log can hold: behind its metadata it is read as it is. -/
structure IsLoggable (text : Bytes) : Prop where
  noTrailingSpace : trimEnd text = text
  noCr : 13 ∉ text
  first : ∀ line ∈ (text.splitOn newline).head?, IsStatementLine line
  closed : (text.splitOn newline).foldl scanSqlState .normal = .normal
  noHeaders : NoHeaders .normal (text.splitOn newline)

/-- The text with its terminator, as lines. -/
def statementLines (text : Bytes) : List Bytes := (text ++ [ch ';']).splitOn newline

theorem stripCr_of_not_mem {line : Bytes} (h : 13 ∉ line) : SlowLogParser.stripCr line = line := by
  rw [SlowLogParser.stripCr, stripSuffix, if_neg fun hlast ↦ h (List.mem_of_getLast? hlast)]
  rfl

theorem mem_of_mem_intercalate {lines : List Bytes} {line : Bytes}
    (hline : line ∈ lines) {c : UInt8} (hc : c ∈ line) : c ∈ [newline].intercalate lines := by
  induction lines with
  | nil => cases hline
  | cons l lines ih =>
    cases lines with
    | nil =>
      rw [List.intercalate_singleton]
      exact List.mem_singleton.mp hline ▸ hc
    | cons l' lines =>
      rw [List.intercalate_cons_cons]
      rcases List.mem_cons.mp hline with rfl | hline
      · exact List.mem_append_left _ (List.mem_append_left _ hc)
      · exact List.mem_append_right _ (ih hline)

namespace IsLoggable

variable {text : Bytes}

theorem ne_nil (h : IsLoggable text) : text ≠ [] := by
  rintro rfl
  exact (h.first [] rfl).nonblank trim_nil

/-- The parser sees the lines as they are. -/
theorem map_stripCr (h : IsLoggable text) :
    (statementLines text).map SlowLogParser.stripCr = statementLines text := by
  refine (List.map_congr_left fun line hline ↦ stripCr_of_not_mem fun hcr ↦ ?_).trans
    (List.map_id _)
  have hmem := mem_of_mem_intercalate hline hcr
  rw [statementLines, List.intercalate_splitOn] at hmem
  rcases List.mem_append.mp hmem with hmem | hmem
  · exact h.noCr hmem
  · exact absurd (List.mem_singleton.mp hmem) (by decide)

theorem statementText_eq (h : IsLoggable text) :
    SlowLogParser.statementText ([newline].intercalate (statementLines text)) = text := by
  rw [statementLines, List.intercalate_splitOn, SlowLogParser.statementText,
    trimEnd_concat text (by decide) (by decide)]
  rw [List.getLast?_concat, if_pos rfl, List.dropLast_concat, h.noTrailingSpace]

/-- An entry with such a statement is read. -/
theorem reads (h : IsLoggable text) {m : Metadata} (hm : ∀ d ∈ m.use, d.text ≠ []) :
    Entry.Reads ⟨m, statementLines text⟩ := by
  obtain ⟨lines, last, htext, hconcat⟩ := splitOn_concat text (c := ch ';') (by decide)
  have hseen : Entry.seen ⟨m, statementLines text⟩ = lines ++ [last ++ [ch ';']] :=
    h.map_stripCr.trans hconcat
  have hfirst := h.first
  have hclosed := h.closed
  have hheaders := noHeaders_concat (htext ▸ h.noHeaders)
  rw [htext] at hfirst hclosed
  refine ⟨hm, ?_, ?_, ?_⟩
  · rw [hseen]
    cases lines with
    | nil =>
      refine ⟨last ++ [ch ';'], [], rfl, (hfirst last rfl).semicolon ?_, trivial⟩
      have hlast : last = text := by
        have hjoin : [newline].intercalate (text.splitOn newline) = text :=
          List.intercalate_splitOn newline
        rwa [htext, List.nil_append, List.intercalate_singleton] at hjoin
      rw [hlast, h.noTrailingSpace]
    | cons line lines => exact ⟨line, _, rfl, hfirst line rfl, hheaders.2⟩
  · rw [hseen, List.foldl_concat]
    rw [List.foldl_concat] at hclosed
    exact scanSqlState_semicolon foldl_scanSqlState_ne hclosed
  · have heq : Entry.seen ⟨m, statementLines text⟩ = statementLines text := h.map_stripCr
    rw [heq, h.statementText_eq]
    exact h.ne_nil

end IsLoggable

end SqlReplay
