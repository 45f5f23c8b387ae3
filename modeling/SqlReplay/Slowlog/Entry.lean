import SqlReplay.Slowlog.Parser

/-!
# Entries of a slow log

An entry as the server writes it: its headers, the metadata lines `use` and `SET timestamp`, and a
statement. `Metadata.lines` renders what stands before the statement.

Between two entries the parser is *clean*: no statement is read, or one that could end with the
next header, and nothing of an earlier entry waits to be used. `pushLines_metadata` says what the
metadata of an entry do to a clean parser, and `pushLines_statement` what a statement does behind
them. Together they are the step of every argument about whole logs.
-/

namespace SqlReplay

/-- A decimal number and the double it reads as. -/
structure NumberText where
  text : Bytes
  value : F64
  parses : parseF64 text = some value

/-- The database of a `use` line without quotes. -/
structure UseName where
  text : Bytes
  noSpace : NoSpace text
  noSemicolon : ch ';' ∉ text
  noBacktick : backtick ∉ text

/-- What an entry has before its statement. -/
structure Metadata where
  /-- The value of a `# Time:` header. -/
  time : Option Bytes
  /-- The value of the `# User@Host:` header. -/
  userHost : Bytes
  /-- The value of the `# Query_time:` header, with the fields that follow it. -/
  fields : Bytes
  use : Option UseName
  timestamp : NumberText

namespace Metadata

def headers (m : Metadata) : List Bytes :=
  (m.time.map (ascii "# Time: " ++ ·)).toList ++
    [ascii "# User@Host: " ++ m.userHost, ascii "# Query_time: " ++ m.fields]

def useLine (d : UseName) : Bytes := ascii "use " ++ d.text ++ [ch ';']

def setLine (t : NumberText) : Bytes := ascii "SET timestamp=" ++ t.text ++ [ch ';']

/-- The lines before the statement. -/
def lines (m : Metadata) : List Bytes :=
  m.headers ++ ((m.use.map useLine).toList ++ [setLine m.timestamp])

end Metadata

/-! ## Lines with a final semicolon -/

theorem stripCr_concat (s : Bytes) {c : UInt8} (hc : c ≠ 13) :
    SlowLogParser.stripCr (s ++ [c]) = s ++ [c] := by
  rw [SlowLogParser.stripCr, stripSuffix, List.getLast?_concat,
    if_neg fun h ↦ hc (Option.some.inj h)]
  rfl

/-- The carriage return of a line is that of its last part. -/
theorem stripCr_append (pat : Bytes) {c : UInt8} (hc : c ≠ 13) (s : Bytes) :
    SlowLogParser.stripCr (pat ++ c :: s) = pat ++ c :: SlowLogParser.stripCr s := by
  unfold SlowLogParser.stripCr stripSuffix
  cases s with
  | nil =>
    rw [List.getLast?_concat, if_neg fun h ↦ hc (Option.some.inj h)]
    rfl
  | cons d s =>
    rw [List.getLast?_append, List.getLast?_cons_cons]
    cases hlast : (d :: s).getLast? with
    | none => exact absurd (List.getLast?_eq_none_iff.mp hlast) (List.cons_ne_nil d s)
    | some x =>
      rw [Option.some_or]
      by_cases hx : x = 13
      · rw [if_pos (congrArg some hx), if_pos (congrArg some hx),
          List.dropLast_append_of_ne_nil (List.cons_ne_nil _ _)]
        rfl
      · rw [if_neg fun h ↦ hx (Option.some.inj h), if_neg fun h ↦ hx (Option.some.inj h)]
        rfl

/-- A line that ends with a semicolon is not a restart banner. -/
theorem isRestartBanner_semicolon (s : Bytes) : isRestartBanner (s ++ [ch ';']) = false := by
  rw [isRestartBanner, trimEnd_concat s (by decide) (by decide), Bool.and_eq_false_iff]
  right
  rw [Bool.eq_false_iff]
  intro h
  have hsuffix := List.isSuffixOf_iff_suffix.mp h
  rcases List.suffix_concat_iff.mp hsuffix with hnil | ⟨t, ht, -⟩
  · cases hnil
  · have hlast := congrArg List.getLast? ht
    rw [List.getLast?_concat] at hlast
    exact absurd (Option.some.inj hlast) (by decide)

/-! ## Lines that are neither headers nor banners -/

/-- A line that `consume_meta_line` takes for metadata or for a statement. -/
structure IsPlain (line : Bytes) : Prop where
  hash : line.head? ≠ some (ch '#')
  banner : isRestartBanner line = false
  port : isPortLine line = false
  columns : isColumnHeader line = false
  nonblank : trim line ≠ []

theorem startsWith_cons_of_ne {a c : UInt8} (h : a ≠ c) (pat s : Bytes) :
    startsWith (a :: pat) (c :: s) = false := by
  rw [startsWith, List.isPrefixOf_cons_cons, beq_eq_false_iff_ne.mpr h, Bool.false_and]

/-- A line with a final semicolon whose first letter is not that of a banner's line. -/
theorem isPlain_of_ends {c : UInt8} (s : Bytes) (hc : c < 0x80) (hspace : isWhitespace [c] = false)
    (hhash : c ≠ ch '#') (hT : ch 'T' ≠ c) : IsPlain (c :: s ++ [ch ';']) := by
  have htrim := trim_between (d := ch ';') s hc (by decide) hspace (by decide)
  have hstart : trimStart (c :: s ++ [ch ';']) = c :: s ++ [ch ';'] :=
    trimStart_eq_self (head_of_trim htrim)
  constructor
  · exact fun h ↦ hhash (Option.some.inj h)
  · exact isRestartBanner_semicolon _
  · rw [isPortLine, List.cons_append]
    exact Bool.or_eq_false_iff.mpr ⟨startsWith_cons_of_ne hT _ _, startsWith_cons_of_ne hT _ _⟩
  · have hTime : startsWith (ascii "Time") (c :: s ++ [ch ';']) = false :=
      startsWith_cons_of_ne hT _ _
    rw [isColumnHeader, hstart, hTime, Bool.false_and, Bool.false_and, Bool.false_and]
  · rw [htrim]
    exact List.cons_ne_nil _ _

namespace SlowLogParser

theorem consumeMetaLine_plain {line : Bytes} (h : IsPlain line) (p : SlowLogParser)
    (crate : TimeCrate) :
    p.consumeMetaLine crate line =
      match if p.setTsMicros = none then parseUseLine (trim line) else none with
      | some db => { p with currentDb := some db }
      | none =>
        match parseSetTimestamp (trim line) with
        | some ts => { p with setTsMicros := some ts }
        | none => p.beginQuery line := by
  rw [consumeMetaLine, if_neg h.hash, handleBanner, if_neg (Bool.eq_false_iff.mp h.banner), h.port,
    h.columns, Bool.or_false, if_neg Bool.false_ne_true]
  exact if_neg h.nonblank

end SlowLogParser

theorem trimEndMatches_concat {c : UInt8} (s : Bytes) :
    trimEndMatches c (s ++ [c]) = trimEndMatches c s := by
  rw [trimEndMatches, List.reverse_append, List.reverse_singleton, List.singleton_append,
    List.dropWhile_cons_of_pos (p := fun x ↦ decide (x = c)) (decide_eq_true rfl), trimEndMatches]

theorem trimEndMatches_eq_self {c : UInt8} {s : Bytes} (h : c ∉ s) : trimEndMatches c s = s := by
  have hdrop : s.reverse.dropWhile (· = c) = s.reverse := by
    cases hs : s.reverse with
    | nil => rfl
    | cons d t =>
      refine List.dropWhile_cons_of_neg fun hd ↦ h ?_
      rw [← of_decide_eq_true hd, ← List.mem_reverse, hs]
      exact List.mem_cons_self
  rw [trimEndMatches, hdrop, List.reverse_reverse]

namespace Metadata

theorem trim_useLine (d : UseName) : trim (useLine d) = useLine d :=
  trim_between (ascii "se " ++ d.text) (c := ch 'u') (d := ch ';') (by decide) (by decide)
    (by decide) (by decide)

theorem isPlain_useLine (d : UseName) : IsPlain (useLine d) :=
  isPlain_of_ends (c := ch 'u') (ascii "se " ++ d.text) (by decide) (by decide) (by decide)
    (by decide)

/-- The database of a `use` line, when it has one. -/
theorem parseUseLine_useLine (d : UseName) (hd : d.text ≠ []) :
    parseUseLine (useLine d) = some d.text := by
  have hlength : ¬ ((useLine d).length < 5 ∨
      ((useLine d).take 4).map toAsciiLowercase ≠ ascii "use ") := by
    rw [not_or, not_not]
    refine ⟨?_, rfl⟩
    have hpos := List.length_pos_iff.mpr hd
    have hfour : (ascii "use ").length = 4 := rfl
    rw [useLine, List.length_append, List.length_append, List.length_singleton]
    omega
  have hdrop : (useLine d).drop 4 = d.text ++ [ch ';'] := rfl
  have htrim : trim (d.text ++ [ch ';']) = d.text ++ [ch ';'] := by
    refine NoSpace.trim fun c hc ↦ ?_
    rw [chars_append_cons _ (by decide), chars_nil] at hc
    rcases List.mem_append.mp hc with hc | hc
    · exact d.noSpace c hc
    · rw [List.mem_singleton.mp hc]
      rfl
  have hquoted : ¬ (d.text.head? = some backtick ∧ d.text.getLast? = some backtick ∧
      2 ≤ d.text.length) := fun h ↦ d.noBacktick (List.mem_of_head? h.1)
  have hspace : ¬ (d.text = [] ∨ (chars d.text).any isWhitespace = true) := by
    rw [not_or, Bool.not_eq_true, List.any_eq_false]
    exact ⟨hd, fun c hc ↦ Bool.eq_false_iff.mp (d.noSpace c hc)⟩
  rw [parseUseLine, if_neg hlength, hdrop, htrim, trimEndMatches_concat,
    trimEndMatches_eq_self d.noSemicolon, d.noSpace.trim]
  dsimp only
  rw [if_neg hquoted, if_neg hspace]

theorem trim_setLine (t : NumberText) : trim (setLine t) = setLine t :=
  trim_between (ascii "ET timestamp=" ++ t.text) (c := ch 'S') (d := ch ';') (by decide)
    (by decide) (by decide) (by decide)

theorem isPlain_setLine (t : NumberText) : IsPlain (setLine t) :=
  isPlain_of_ends (c := ch 'S') (ascii "ET timestamp=" ++ t.text) (by decide) (by decide)
    (by decide) (by decide)

theorem parseUseLine_setLine (t : NumberText) : parseUseLine (setLine t) = none := by
  have hword : ((setLine t).take 4).map toAsciiLowercase ≠ ascii "use " := by
    have htake : ((setLine t).take 4).map toAsciiLowercase = ascii "set " := rfl
    rw [htake]
    decide
  rw [parseUseLine, if_pos (.inr hword)]

theorem parseSetTimestamp_setLine (t : NumberText) :
    parseSetTimestamp (setLine t) = some (microsOfSecs t.value) := by
  obtain ⟨hne, hbytes⟩ := numberBytes_of_parseF64 t.parses
  have hlength : ¬ ((setLine t).length ≤ 14 ∨
      ((setLine t).take 14).map toAsciiLowercase ≠ ascii "set timestamp=") := by
    rw [not_or, not_not]
    refine ⟨?_, rfl⟩
    have hbefore : (ascii "SET timestamp=").length = 14 := rfl
    rw [setLine, List.length_append, List.length_append, List.length_singleton]
    omega
  have hdrop : (setLine t).drop 14 = t.text ++ [ch ';'] := rfl
  have hsemicolon : ch ';' ∉ t.text := fun h ↦ (isNumberByte_spec _ (hbytes _ h)).2.2.1 rfl
  rw [parseSetTimestamp, if_neg hlength, hdrop, trimEndMatches_concat,
    trimEndMatches_eq_self hsemicolon, (noSpace_of_numberBytes hbytes).trim, t.parses]
  rfl

end Metadata

/-! ## Metadata lines -/

namespace SlowLogParser

variable {crate : TimeCrate} {p : SlowLogParser}

/-- What the headers of an entry leave alone. -/
structure Keeps (p p' : SlowLogParser) : Prop where
  inQuery : p'.inQuery = p.inQuery
  setTsMicros : p'.setTsMicros = p.setTsMicros
  currentDb : p'.currentDb = p.currentDb

theorem Keeps.trans {p p' p'' : SlowLogParser} (h : Keeps p p') (h' : Keeps p' p'') :
    Keeps p p'' :=
  ⟨h'.inQuery.trans h.inQuery, h'.setTsMicros.trans h.setTsMicros, h'.currentDb.trans h.currentDb⟩

theorem handleKv_keeps (p : SlowLogParser) (key value : Bytes) :
    Keeps p (p.handleKv key value) := by
  unfold handleKv
  split_ifs <;> exact ⟨rfl, rfl, rfl⟩

theorem handleKvTokens_keeps (p : SlowLogParser) (toks : List Bytes) :
    Keeps p (p.handleKvTokens toks) := by
  fun_induction handleKvTokens p toks with
  | case1 p => exact ⟨rfl, rfl, rfl⟩
  | case2 p => exact ⟨rfl, rfl, rfl⟩
  | case3 p tok value toks _ ih => exact ih
  | case4 p tok value toks key _ _ ih => exact ih
  | case5 p tok value toks key _ _ ih => exact (handleKv_keeps p key value).trans ih

theorem handleHeader_time (p : SlowLogParser) (s : Bytes) :
    p.handleHeader crate (ascii "# Time: " ++ s) = p.handleTime crate s := rfl

theorem handleHeader_userHost (p : SlowLogParser) (s : Bytes) :
    p.handleHeader crate (ascii "# User@Host: " ++ s) = p.handleUserHost s := rfl

theorem handleHeader_fields (p : SlowLogParser) (s : Bytes) :
    p.handleHeader crate (ascii "# Query_time: " ++ s) =
      (if contains (ascii "Thread_id:") (ascii "# Query_time: " ++ s) ||
          contains (ascii "Errno:") (ascii "# Query_time: " ++ s) then p.observeLogSlowExtra
        else p).handleKvLine (ascii "# Query_time: " ++ s) := by
  have htime : startsWith (ascii "# Time: ") (ascii "# Query_time: " ++ s) = false := rfl
  have huser : startsWith (ascii "# User@Host: ") (ascii "# Query_time: " ++ s) = false := rfl
  have hadmin : startsWith (ascii "# administrator command:") (ascii "# Query_time: " ++ s) =
    false := rfl
  have hfields : startsWith (ascii "# Query_time:") (ascii "# Query_time: " ++ s) = true := rfl
  rw [handleHeader, htime, huser, hadmin, hfields, Bool.true_and]
  rfl

theorem handleTime_keeps (p : SlowLogParser) (s : Bytes) : Keeps p (p.handleTime crate s) := by
  unfold handleTime
  cases parseTimeValue crate (trim s) with
  | none => exact ⟨rfl, rfl, rfl⟩
  | some r =>
    dsimp only [observeTimeDialect]
    split_ifs <;> exact ⟨rfl, rfl, rfl⟩

theorem handleFields_keeps (p : SlowLogParser) (s : Bytes) :
    Keeps p (p.handleHeader crate (ascii "# Query_time: " ++ s)) := by
  rw [handleHeader_fields]
  refine Keeps.trans ?_ (handleKvTokens_keeps _ _)
  unfold observeLogSlowExtra
  split_ifs <;> exact ⟨rfl, rfl, rfl⟩

theorem consumeMetaLine_header {line : Bytes} (h : line.head? = some (ch '#')) :
    p.consumeMetaLine crate line = p.handleHeader crate line := if_pos h

/-- A header of an entry: it ends a statement, and keeps what the other lines say. -/
theorem header_spec (crate : TimeCrate) {m : Metadata} {line : Bytes} (h : line ∈ m.headers) :
    isEntryHeader (stripCr line) = true ∧
      ∀ p : SlowLogParser, Keeps p (p.consumeMetaLine crate (stripCr line)) := by
  have htime (s : Bytes) : stripCr (ascii "# Time: " ++ s) = ascii "# Time: " ++ stripCr s :=
    stripCr_append (ascii "# Time:") (c := ch ' ') (by decide) s
  have huser (s : Bytes) :
      stripCr (ascii "# User@Host: " ++ s) = ascii "# User@Host: " ++ stripCr s :=
    stripCr_append (ascii "# User@Host:") (c := ch ' ') (by decide) s
  have hfields (s : Bytes) :
      stripCr (ascii "# Query_time: " ++ s) = ascii "# Query_time: " ++ stripCr s :=
    stripCr_append (ascii "# Query_time:") (c := ch ' ') (by decide) s
  have hmem : (∃ s, line = ascii "# Time: " ++ s) ∨ line = ascii "# User@Host: " ++ m.userHost ∨
      line = ascii "# Query_time: " ++ m.fields := by
    rw [Metadata.headers] at h
    rcases List.mem_append.mp h with h | h
    · obtain ⟨s, -, hs⟩ := Option.map_eq_some_iff.mp (Option.mem_toList.mp h)
      exact .inl ⟨s, hs.symm⟩
    · rcases List.mem_pair.mp h with h | h
      · exact .inr (.inl h)
      · exact .inr (.inr h)
  rcases hmem with ⟨s, rfl⟩ | rfl | rfl
  · rw [htime]
    refine ⟨rfl, fun p ↦ ?_⟩
    rw [consumeMetaLine_header rfl, handleHeader_time]
    exact handleTime_keeps p _
  · rw [huser]
    refine ⟨rfl, fun p ↦ ?_⟩
    rw [consumeMetaLine_header rfl, handleHeader_userHost]
    exact ⟨rfl, rfl, rfl⟩
  · rw [hfields]
    refine ⟨rfl, fun p ↦ ?_⟩
    rw [consumeMetaLine_header rfl]
    exact handleFields_keeps p _

/-- The lines outside of statement text, one after the other. -/
def consumeMetaLines (p : SlowLogParser) (crate : TimeCrate) (lines : List Bytes) : SlowLogParser :=
  lines.foldl (fun p line ↦ p.consumeMetaLine crate (stripCr line)) p

theorem consumeMetaLines_cons (p : SlowLogParser) (line : Bytes) (lines : List Bytes) :
    p.consumeMetaLines crate (line :: lines) =
      (p.consumeMetaLine crate (stripCr line)).consumeMetaLines crate lines := rfl

theorem consumeMetaLines_keeps (crate : TimeCrate) {m : Metadata} {lines : List Bytes}
    (h : ∀ line ∈ lines, line ∈ m.headers) (p : SlowLogParser) :
    Keeps p (p.consumeMetaLines crate lines) := by
  induction lines generalizing p with
  | nil => exact ⟨rfl, rfl, rfl⟩
  | cons line lines ih =>
    exact ((header_spec crate (h line List.mem_cons_self)).2 p).trans
      (ih (fun l hl ↦ h l (List.mem_cons_of_mem line hl)) _)

theorem pushLine_idle (hp : p.inQuery = false) (line : Bytes) :
    p.pushLine crate line = (p.consumeMetaLine crate (stripCr line), none) := by
  rw [pushLine, hp, if_neg Bool.false_ne_true]

theorem pushLines_append (p : SlowLogParser) (crate : TimeCrate) (lines lines' : List Bytes) :
    p.pushLines crate (lines ++ lines') =
      (((p.pushLines crate lines).1.pushLines crate lines').1,
        (p.pushLines crate lines).2 ++ ((p.pushLines crate lines).1.pushLines crate lines').2) := by
  induction lines generalizing p with
  | nil => rfl
  | cons line lines ih => rw [List.cons_append, pushLines, pushLines, ih, List.append_assoc]

/-- Headers between two statements. -/
theorem pushLines_headers {m : Metadata} {lines : List Bytes} (h : ∀ line ∈ lines, line ∈ m.headers)
    (hp : p.inQuery = false) :
    p.pushLines crate lines = (p.consumeMetaLines crate lines, []) := by
  induction lines generalizing p with
  | nil => rfl
  | cons line lines ih =>
    have hkeeps := (header_spec crate (h line List.mem_cons_self)).2 p
    rw [pushLines, pushLine_idle hp]
    dsimp only
    rw [ih (fun l hl ↦ h l (List.mem_cons_of_mem line hl)) (hkeeps.inQuery.trans hp)]
    rfl

/-! ## Clean states -/

/-- No statement is read, or one that the next header ends; no timestamp waits for a statement. -/
structure IsClean (p : SlowLogParser) : Prop where
  normal : p.inQuery = true → p.sqlState = .normal
  setTsMicros : p.inQuery = false → p.setTsMicros = none

theorem new_isClean : IsClean {} := ⟨nofun, fun _ ↦ rfl⟩

/-- The state once the statement is taken. -/
theorem takeQuery_idle (h : IsClean p) :
    p.takeQuery.1.inQuery = false ∧ p.takeQuery.1.setTsMicros = none := by
  unfold takeQuery
  by_cases hq : p.inQuery = true
  · rw [hq]
    exact ⟨rfl, rfl⟩
  · have hq := Bool.eq_false_iff.mpr hq
    rw [hq]
    exact ⟨hq, h.setTsMicros hq⟩

theorem takeQuery_none_of_idle (h : p.inQuery = false) : p.takeQuery = (p, none) := by
  rw [takeQuery, h]
  rfl

theorem takeQuery_inQuery (p : SlowLogParser) : p.takeQuery.1.inQuery = false := by
  unfold takeQuery
  cases hq : p.inQuery
  · exact hq
  · rfl

/-- A header ends a statement that is not inside a string or a comment. -/
theorem pushLine_header (h : p.inQuery = true → p.sqlState = .normal) {line : Bytes}
    (hline : (isEntryHeader (stripCr line) || isRestartBanner (stripCr line)) = true) :
    p.pushLine crate line =
      (p.takeQuery.1.consumeMetaLine crate (stripCr line), p.takeQuery.2) := by
  by_cases hq : p.inQuery = true
  · rw [pushLine, if_pos hq, h hq, hline]
    rfl
  · have hq := Bool.eq_false_iff.mpr hq
    rw [pushLine_idle hq, takeQuery_none_of_idle hq]

/-- What the metadata of an entry leave behind in a parser between two statements. -/
def withMetadata (p : SlowLogParser) (crate : TimeCrate) (m : Metadata) : SlowLogParser :=
  { p.consumeMetaLines crate m.headers with
    currentDb := (m.use.map UseName.text).or p.currentDb
    setTsMicros := some (microsOfSecs m.timestamp.value) }

theorem consumeMetaLine_useLine (hp : p.setTsMicros = none) {d : UseName} (hd : d.text ≠ []) :
    p.consumeMetaLine crate (Metadata.useLine d) = { p with currentDb := some d.text } := by
  rw [consumeMetaLine_plain (Metadata.isPlain_useLine d), if_pos hp, Metadata.trim_useLine,
    Metadata.parseUseLine_useLine d hd]

theorem consumeMetaLine_setLine (t : NumberText) :
    p.consumeMetaLine crate (Metadata.setLine t) =
      { p with setTsMicros := some (microsOfSecs t.value) } := by
  have hnone :
      (if p.setTsMicros = none then parseUseLine (Metadata.setLine t) else none) = none := by
    rw [Metadata.parseUseLine_setLine, ite_self]
  rw [consumeMetaLine_plain (Metadata.isPlain_setLine t), Metadata.trim_setLine, hnone,
    Metadata.parseSetTimestamp_setLine]

/-- The metadata of an entry: the statement before them is taken. -/
theorem pushLines_metadata (h : IsClean p) {m : Metadata} (hm : ∀ d ∈ m.use, d.text ≠ []) :
    p.pushLines crate m.lines =
      (p.takeQuery.1.withMetadata crate m, p.takeQuery.2.toList) := by
  obtain ⟨hidle, hset⟩ := takeQuery_idle h
  have hkeeps := consumeMetaLines_keeps crate (fun _ hl ↦ hl) p.takeQuery.1 (m := m)
  have hheaders : p.pushLines crate m.headers =
      (p.takeQuery.1.consumeMetaLines crate m.headers, p.takeQuery.2.toList) := by
    cases hlines : m.headers with
    | nil => exact absurd (congrArg List.length hlines) (by
        rw [Metadata.headers, List.length_append]
        exact Nat.succ_ne_zero _)
    | cons line lines =>
      have hmem : ∀ l ∈ line :: lines, l ∈ m.headers := fun l hl ↦ hlines ▸ hl
      obtain ⟨hline, hkeep⟩ := header_spec crate (hmem line List.mem_cons_self)
      rw [pushLines, pushLine_header h.normal (by rw [hline, Bool.true_or])]
      dsimp only
      rw [pushLines_headers (fun l hl ↦ hmem l (List.mem_cons_of_mem line hl))
        ((hkeep _).inQuery.trans hidle), List.append_nil]
      rfl
  rw [Metadata.lines, pushLines_append, hheaders, withMetadata]
  generalize p.takeQuery.1.consumeMetaLines crate m.headers = q at hkeeps ⊢
  have hq := hkeeps.inQuery.trans hidle
  have hstrip (t : NumberText) : stripCr (Metadata.setLine t) = Metadata.setLine t :=
    stripCr_concat _ (by decide)
  cases huse : m.use with
  | none =>
    dsimp only [Option.map_none, Option.toList_none, List.nil_append]
    rw [pushLines, pushLine_idle hq, hstrip, consumeMetaLine_setLine, ← hkeeps.currentDb]
    exact congrArg (_, ·) (List.append_nil _)
  | some d =>
    have hd : stripCr (Metadata.useLine d) = Metadata.useLine d := stripCr_concat _ (by decide)
    dsimp only [Option.map_some, Option.toList_some, List.singleton_append]
    rw [pushLines, pushLine_idle hq, hd,
      consumeMetaLine_useLine (hkeeps.setTsMicros.trans hset) (hm d huse), pushLines]
    dsimp only
    rw [pushLine_idle (by exact hq), hstrip, consumeMetaLine_setLine]
    exact congrArg (_, ·) (List.append_nil _)

end SlowLogParser

/-! ## Statements -/

/-- A line that begins a statement behind the metadata of its entry. -/
structure IsStatementLine (line : Bytes) : Prop extends IsPlain line where
  setTimestamp : parseSetTimestamp (trim line) = none

/-- None of the lines ends the statement: what looks like a header or a banner begins in a string
or a comment. -/
def NoHeaders : SqlState → List Bytes → Prop
  | _, [] => True
  | state, line :: lines =>
    (state = .normal → isEntryHeader line = false ∧ isRestartBanner line = false) ∧
      NoHeaders (scanSqlState state line) lines

namespace SlowLogParser

variable {crate : TimeCrate} {p : SlowLogParser}

/-- The query of a statement whose metadata are known. -/
def queryOf (p : SlowLogParser) (text : Bytes) : ParsedQuery where
  tsMicros := (p.setTsMicros.or p.timeMicros).getD 0
  threadId := p.threadId.getD 0
  user := p.user
  db := p.schema.or p.currentDb
  query := text
  queryTimeS := p.queryTimeS

/-- The state behind an entry. What the statement was is forgotten. -/
def settled (p : SlowLogParser) : SlowLogParser :=
  { p with inQuery := false, sqlState := .normal, buf := [] }.resetEntry

/-- The parser in the text of a statement. -/
def inStatement (p : SlowLogParser) (lines : List Bytes) : SlowLogParser :=
  { p with
    inQuery := true
    buf := [newline].intercalate lines
    sqlState := lines.foldl scanSqlState .normal }

theorem takeQuery_inStatement (p : SlowLogParser) (lines : List Bytes) :
    (p.inStatement lines).takeQuery = (p.settled,
      if statementText ([newline].intercalate lines) = [] then none
      else some (p.queryOf (statementText ([newline].intercalate lines)))) := rfl

theorem intercalate_concat {lines : List Bytes} (h : lines ≠ []) (line : Bytes) :
    [newline].intercalate (lines ++ [line]) = [newline].intercalate lines ++ newline :: line := by
  induction lines with
  | nil => exact absurd rfl h
  | cons l lines ih =>
    cases lines with
    | nil =>
      rw [List.singleton_append, List.intercalate_cons_cons, List.intercalate_singleton,
        List.intercalate_singleton, List.append_assoc, List.singleton_append]
    | cons l' lines =>
      have ih := ih (List.cons_ne_nil _ _)
      rw [List.cons_append] at ih
      rw [List.cons_append, List.cons_append, List.intercalate_cons_cons,
        List.intercalate_cons_cons, ih, List.append_assoc, List.append_assoc, List.append_assoc]

theorem intercalate_ne_nil {first : Bytes} (h : first ≠ []) (lines : List Bytes) :
    [newline].intercalate (first :: lines) ≠ [] := by
  cases lines with
  | nil => rwa [List.intercalate_singleton]
  | cons l lines =>
    rw [List.intercalate_cons_cons]
    simp [h]

theorem appendQueryLine_inStatement (p : SlowLogParser) {first : Bytes} (h : first ≠ [])
    (before : List Bytes) (line : Bytes) :
    (p.inStatement (first :: before)).appendQueryLine line =
      p.inStatement (first :: before ++ [line]) := by
  have hbuf : (p.inStatement (first :: before)).buf ≠ [] := intercalate_ne_nil h before
  have hjoin := intercalate_concat (List.cons_ne_nil first before) line
  have hstate : (first :: before ++ [line]).foldl scanSqlState .normal =
      scanSqlState ((first :: before).foldl scanSqlState .normal) line := List.foldl_concat ..
  rw [appendQueryLine, if_neg hbuf]
  unfold inStatement
  rw [hjoin, hstate, List.append_assoc, List.singleton_append]

/-- The lines of a statement behind its first one. -/
theorem pushLines_text (p : SlowLogParser) {first : Bytes} (hfirst : first ≠ [])
    (before lines : List Bytes)
    (h : NoHeaders ((first :: before).foldl scanSqlState .normal) (lines.map stripCr)) :
    (p.inStatement (first :: before)).pushLines crate lines =
      (p.inStatement (first :: before ++ lines.map stripCr), []) := by
  induction lines generalizing before with
  | nil => rw [List.map_nil, List.append_nil]; rfl
  | cons line lines ih =>
    rw [List.map_cons] at h ⊢
    obtain ⟨hline, hlines⟩ := h
    have hpush : (p.inStatement (first :: before)).pushLine crate line =
        (p.inStatement (first :: before ++ [stripCr line]), none) := by
      have hno : ((p.inStatement (first :: before)).sqlState = .normal &&
          (isEntryHeader (stripCr line) || isRestartBanner (stripCr line))) = false := by
        by_cases hnormal : (p.inStatement (first :: before)).sqlState = .normal
        · obtain ⟨hheader, hbanner⟩ := hline hnormal
          rw [hheader, hbanner, Bool.or_false, Bool.and_false]
        · rw [decide_eq_false hnormal, Bool.false_and]
      have hin : (p.inStatement (first :: before)).inQuery = true := rfl
      rw [pushLine, if_pos hin, hno, if_neg Bool.false_ne_true,
        appendQueryLine_inStatement p hfirst]
    rw [pushLines, hpush]
    dsimp only
    rw [List.cons_append, ih (before ++ [stripCr line]), List.cons_append, List.append_assoc]
    · rfl
    · rw [← List.cons_append, List.foldl_concat]
      exact hlines

theorem beginQuery_eq (p : SlowLogParser) (line : Bytes) :
    p.beginQuery line = p.inStatement [line] := by
  rw [beginQuery, appendQueryLine, if_pos rfl, List.nil_append]
  unfold inStatement
  rw [List.intercalate_singleton]
  rfl

/-- A statement behind its metadata. -/
theorem pushLines_statement (hp : p.inQuery = false) (hset : p.setTsMicros ≠ none)
    {line : Bytes} {lines : List Bytes} (hline : IsStatementLine (stripCr line))
    (hlines : NoHeaders (scanSqlState .normal (stripCr line)) (lines.map stripCr)) :
    p.pushLines crate (line :: lines) = (p.inStatement ((line :: lines).map stripCr), []) := by
  have hne : stripCr line ≠ [] := by
    intro hnil
    refine hline.nonblank ?_
    rw [hnil, trim, chars_nil]
    rfl
  have hpush : p.pushLine crate line = (p.inStatement [stripCr line], none) := by
    rw [pushLine_idle hp, consumeMetaLine_plain hline.toIsPlain, if_neg hset, hline.setTimestamp,
      beginQuery_eq]
  rw [pushLines, hpush]
  dsimp only
  rw [pushLines_text p hne [] lines hlines]
  rfl

end SlowLogParser

/-- An entry: its metadata, and the lines of its statement. -/
structure Entry where
  metadata : Metadata
  statement : List Bytes

namespace Entry

open SlowLogParser

def lines (e : Entry) : List Bytes := e.metadata.lines ++ e.statement

/-- The lines of the statement as the parser sees them. -/
def seen (e : Entry) : List Bytes := e.statement.map stripCr

/-- The statement of an entry is read as one, whatever stands in it. -/
structure Reads (e : Entry) : Prop where
  use : ∀ d ∈ e.metadata.use, d.text ≠ []
  begins : ∃ line lines, e.seen = line :: lines ∧ IsStatementLine line ∧
    NoHeaders (scanSqlState .normal line) lines
  closed : e.seen.foldl scanSqlState .normal = .normal
  text : statementText ([newline].intercalate e.seen) ≠ []

end Entry

namespace SlowLogParser

variable {crate : TimeCrate} {p : SlowLogParser}

/-- An entry in a clean state: the query before it is taken, and its own is read. -/
theorem pushLines_entry (crate : TimeCrate) (h : IsClean p) {e : Entry} (he : e.Reads) :
    p.pushLines crate e.lines =
      ((p.takeQuery.1.withMetadata crate e.metadata).inStatement e.seen, p.takeQuery.2.toList) := by
  obtain ⟨line, lines, hseen, hline, hlines⟩ := he.begins
  have hidle : (p.takeQuery.1.withMetadata crate e.metadata).inQuery = false :=
    (consumeMetaLines_keeps crate (fun _ hl ↦ hl) p.takeQuery.1).inQuery.trans (takeQuery_idle h).1
  have hset : (p.takeQuery.1.withMetadata crate e.metadata).setTsMicros ≠ none :=
    Option.some_ne_none _
  rw [Entry.lines, pushLines_append, pushLines_metadata h he.use]
  dsimp only
  cases hstatement : e.statement with
  | nil =>
    rw [Entry.seen, hstatement] at hseen
    cases hseen
  | cons first rest =>
    rw [Entry.seen, hstatement, List.map_cons] at hseen
    obtain ⟨hfirst, hrest⟩ := List.cons.inj hseen
    rw [← hfirst] at hline hlines
    rw [← hrest] at hlines
    rw [pushLines_statement hidle hset hline hlines, List.append_nil, Entry.seen, hstatement]

theorem inStatement_isClean {lines : List Bytes}
    (h : lines.foldl scanSqlState .normal = .normal) (p : SlowLogParser) :
    IsClean (p.inStatement lines) := ⟨fun _ ↦ h, nofun⟩

/-- The queries of entries, from a state between two entries. -/
def queriesOf (p : SlowLogParser) (crate : TimeCrate) : List Entry → List ParsedQuery
  | [] => []
  | e :: es =>
    let r := p.withMetadata crate e.metadata
    r.queryOf (statementText ([newline].intercalate e.seen)) :: r.settled.queriesOf crate es

/-- Entries that are read give one query each, from their metadata and their text. -/
theorem pushLines_entries (h : IsClean p) {es : List Entry} (hes : ∀ e ∈ es, e.Reads) :
    (p.pushLines crate (es.flatMap Entry.lines)).2 ++
        (p.pushLines crate (es.flatMap Entry.lines)).1.finish.toList =
      p.takeQuery.2.toList ++ p.takeQuery.1.queriesOf crate es := by
  induction es generalizing p with
  | nil => exact (List.append_nil _).symm
  | cons e es ih =>
    have he := hes e List.mem_cons_self
    have ih := ih (p := (p.takeQuery.1.withMetadata crate e.metadata).inStatement e.seen)
      (inStatement_isClean he.closed _) fun e' he' ↦ hes e' (List.mem_cons_of_mem e he')
    rw [takeQuery_inStatement, if_neg he.text] at ih
    rw [List.flatMap_cons, pushLines_append, pushLines_entry crate h he, List.append_assoc, ih]
    rfl

end SlowLogParser

/-- A log of entries that are all read. -/
theorem parseLog_entries (crate : TimeCrate) {es : List Entry} (hes : ∀ e ∈ es, e.Reads) :
    parseLog crate (es.flatMap Entry.lines) = SlowLogParser.queriesOf {} crate es :=
  SlowLogParser.pushLines_entries SlowLogParser.new_isClean hes

end SqlReplay
