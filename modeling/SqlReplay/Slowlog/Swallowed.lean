import SqlReplay.Slowlog.RoundTrip

/-!
# Statements that look like metadata

A client may send `SET timestamp=M` as a statement, and the server logs it behind the metadata line
of the same form. The parser does not tell the two apart: it consults the carried timestamp before
it takes a line for a `use` line, but not before it takes one for a timestamp. Such a statement is
swallowed, as are one that looks like a restart banner, like the lines behind it, and one with
nothing but a terminator. An entry whose statement is swallowed gives no query, and what it leaves
behind can spoil the `use` line of the next entry.

An entry gives at most one query whatever the parser was doing (`total_le`), so a swallowed one is
never made up for: entries give one query each exactly when every statement is kept.
-/

namespace SqlReplay

/-- An entry with a statement on one line. -/
structure OneLineEntry where
  metadata : Metadata
  statement : Bytes

namespace OneLineEntry

open SlowLogParser

def entry (e : OneLineEntry) : Entry := ⟨e.metadata, [e.statement]⟩

def lines (e : OneLineEntry) : List Bytes := e.entry.lines

/-- A statement of one line that is lexically closed and does not start with `#`, behind metadata
whose `use` line, if there is one, names a database. -/
structure IsComplete (e : OneLineEntry) : Prop where
  use : ∀ d ∈ e.metadata.use, d.text ≠ []
  closed : scanSqlState .normal (stripCr e.statement) = .normal
  hash : (stripCr e.statement).head? ≠ some (ch '#')

/-- The statement is not taken for a timestamp or for a line of a banner, and is not empty. -/
structure IsKept (e : OneLineEntry) : Prop where
  setTimestamp : parseSetTimestamp (trim (stripCr e.statement)) = none
  banner : isRestartBanner (stripCr e.statement) = false
  port : isPortLine (stripCr e.statement) = false
  columns : isColumnHeader (stripCr e.statement) = false
  nonblank : trim (stripCr e.statement) ≠ []
  text : statementText (stripCr e.statement) ≠ []

/-- Each entry gives one query, with its own timestamp. It is the query that the entry gives
whatever the other statements are, as long as they are kept. -/
structure ReadsEach (crate : TimeCrate) (es : List OneLineEntry) : Prop where
  timestamps : (parseLog crate (es.flatMap lines)).map ParsedQuery.tsMicros =
    es.map fun e ↦ microsOfSecs e.metadata.timestamp.value
  independent : ∀ es' : List OneLineEntry, es'.map metadata = es.map metadata →
    (∀ e ∈ es', e.IsComplete ∧ e.IsKept) → ∀ i : ℕ, es'[i]? = es[i]? →
      (parseLog crate (es'.flatMap lines))[i]? = (parseLog crate (es.flatMap lines))[i]?

theorem IsKept.isStatementLine {e : OneLineEntry} (he : e.IsComplete) (h : e.IsKept) :
    IsStatementLine (stripCr e.statement) :=
  ⟨⟨he.hash, h.banner, h.port, h.columns, h.nonblank⟩, h.setTimestamp⟩

theorem IsKept.reads {e : OneLineEntry} (he : e.IsComplete) (h : e.IsKept) : e.entry.Reads :=
  ⟨he.use, ⟨_, [], rfl, h.isStatementLine he, trivial⟩, he.closed, by
    have hseen : e.entry.seen = [stripCr e.statement] := rfl
    rw [hseen, List.intercalate_singleton]
    exact h.text⟩

/-! ## Entries whose statements are kept -/

/-- What is parsed of an entry depends on its statement and on the metadata up to it. -/
theorem queriesOf_getElem? (crate : TimeCrate) (p : SlowLogParser) {es es' : List OneLineEntry}
    (h : es'.map metadata = es.map metadata) (i : ℕ) (hi : es'[i]? = es[i]?) :
    (p.queriesOf crate (es'.map entry))[i]? = (p.queriesOf crate (es.map entry))[i]? := by
  induction es generalizing p es' i with
  | nil =>
    rw [List.map_nil, List.map_eq_nil_iff] at h
    rw [h]
  | cons e es ih =>
    cases es' with
    | nil => cases h
    | cons e' es' =>
      obtain ⟨hmetadata, hrest⟩ := List.cons.inj h
      cases i with
      | zero =>
        obtain rfl : e' = e := Option.some.inj hi
        rfl
      | succ i =>
        have hi' : es'[i]? = es[i]? := hi
        have hmetadata : e'.entry.metadata = e.entry.metadata := hmetadata
        rw [List.map_cons, List.map_cons, queriesOf, queriesOf, List.getElem?_cons_succ,
          List.getElem?_cons_succ, hmetadata]
        exact ih _ hrest i hi'

theorem queriesOf_tsMicros (crate : TimeCrate) (p : SlowLogParser) (es : List OneLineEntry) :
    (p.queriesOf crate (es.map entry)).map ParsedQuery.tsMicros =
      es.map fun e ↦ microsOfSecs e.metadata.timestamp.value := by
  induction es generalizing p with
  | nil => rfl
  | cons e es ih => exact congrArg (_ :: ·) (ih _)

theorem parseLog_eq (crate : TimeCrate) {es : List OneLineEntry}
    (h : ∀ e ∈ es, e.IsComplete ∧ e.IsKept) :
    parseLog crate (es.flatMap lines) = queriesOf {} crate (es.map entry) := by
  have hlines : es.flatMap lines = (es.map entry).flatMap Entry.lines := by
    rw [List.flatMap_map]
    rfl
  rw [hlines]
  refine parseLog_entries crate fun e he ↦ ?_
  obtain ⟨f, hf, rfl⟩ := List.mem_map.mp he
  exact (h f hf).2.reads (h f hf).1

theorem readsEach_of_isKept (crate : TimeCrate) {es : List OneLineEntry}
    (h : ∀ e ∈ es, e.IsComplete ∧ e.IsKept) : ReadsEach crate es := by
  refine ⟨?_, fun es' hmetadata hes' i hi ↦ ?_⟩
  · rw [parseLog_eq crate h, queriesOf_tsMicros]
  · rw [parseLog_eq crate h, parseLog_eq crate hes']
    exact queriesOf_getElem? crate {} hmetadata i hi

/-! ## At most one query for an entry -/

variable {crate : TimeCrate} {p : SlowLogParser}

/-- Whether the text that is being read can still give a query. -/
def pending (p : SlowLogParser) : ℕ :=
  if p.inQuery ∧ ¬ (p.sqlState = .normal ∧ p.takeQuery.2 = none) then 1 else 0

theorem pending_of_idle (h : p.inQuery = false) : pending p = 0 := by
  rw [pending, if_neg]
  rw [h]
  exact fun hpending ↦ Bool.false_ne_true hpending.1

theorem pending_le_one (p : SlowLogParser) : pending p ≤ 1 := by
  rw [pending]
  split_ifs <;> omega

theorem toList_length_le (o : Option ParsedQuery) : o.toList.length ≤ 1 := by
  cases o <;> exact Nat.le_of_ble_eq_true rfl

theorem handleHeader_inQuery (p : SlowLogParser) (line : Bytes) :
    (p.handleHeader crate line).inQuery = p.inQuery := by
  rw [handleHeader]
  split_ifs
  · exact (handleTime_keeps p _).inQuery
  · rfl
  · rfl
  · refine (handleKvTokens_keeps _ _).inQuery.trans ?_
    unfold observeLogSlowExtra
    split_ifs <;> rfl
  · exact (handleKvTokens_keeps p _).inQuery

theorem handleBanner_inQuery (p : SlowLogParser) (line : Bytes) :
    (p.handleBanner line).1.inQuery = p.inQuery := by
  rw [handleBanner]
  split_ifs
  · rw [restart]
    cases bannerDialect line with
    | none => rfl
    | some d =>
      dsimp only [observeBannerDialect]
      split_ifs <;> rfl
  · rfl

/-- What ends a statement begins none. -/
theorem consumeMetaLine_inQuery {line : Bytes}
    (h : (isEntryHeader line || isRestartBanner line) = true) :
    (p.consumeMetaLine crate line).inQuery = p.inQuery := by
  by_cases hhash : line.head? = some (ch '#')
  · rw [consumeMetaLine_header hhash]
    exact handleHeader_inQuery p line
  · have hheader : isEntryHeader line = false := by
      have hstarts (pat : Bytes) : startsWith (ch '#' :: pat) line = false := by
        cases line with
        | nil => rfl
        | cons c line => exact startsWith_cons_of_ne (fun heq ↦ hhash (congrArg some heq.symm)) _ _
      rw [isEntryHeader]
      exact Bool.or_eq_false_iff.mpr ⟨Bool.or_eq_false_iff.mpr ⟨Bool.or_eq_false_iff.mpr
        ⟨Bool.or_eq_false_iff.mpr ⟨hstarts _, hstarts _⟩, hstarts _⟩, hstarts _⟩, hstarts _⟩
    rw [hheader, Bool.false_or] at h
    have hbanner : (p.handleBanner line).2 = true := by
      rw [handleBanner, if_pos h]
    rw [consumeMetaLine, if_neg hhash, if_pos hbanner]
    exact handleBanner_inQuery p line

/-- A line takes a query or can begin one, not both. -/
theorem pushLine_le_one (crate : TimeCrate) (p : SlowLogParser) (line : Bytes) :
    (p.pushLine crate line).2.toList.length + pending (p.pushLine crate line).1 ≤ 1 := by
  rw [pushLine]
  dsimp only
  split_ifs with hq hends
  · rw [Bool.and_eq_true] at hends
    have hidle : (p.takeQuery.1.consumeMetaLine crate (stripCr line)).inQuery = false :=
      (consumeMetaLine_inQuery hends.2).trans (takeQuery_inQuery p)
    rw [pending_of_idle hidle]
    exact toList_length_le _
  · rw [Option.toList_none, List.length_nil, Nat.zero_add]
    exact pending_le_one _
  · rw [Option.toList_none, List.length_nil, Nat.zero_add]
    exact pending_le_one _

/-- A header of an entry begins no statement. -/
theorem pushLine_header_le (crate : TimeCrate) (p : SlowLogParser) {line : Bytes}
    (h : isEntryHeader (stripCr line) = true) :
    (p.pushLine crate line).2.toList.length + pending (p.pushLine crate line).1 ≤ pending p := by
  have hends : (isEntryHeader (stripCr line) || isRestartBanner (stripCr line)) = true := by
    rw [h, Bool.true_or]
  by_cases hq : p.inQuery = true
  · by_cases hnormal : p.sqlState = .normal
    · have hidle : (p.takeQuery.1.consumeMetaLine crate (stripCr line)).inQuery = false :=
        (consumeMetaLine_inQuery hends).trans (takeQuery_inQuery p)
      rw [pushLine, if_pos hq, hends, decide_eq_true hnormal, Bool.and_true, if_pos rfl]
      dsimp only
      rw [pending_of_idle hidle, pending]
      cases htake : p.takeQuery.2 with
      | none => exact Nat.zero_le _
      | some query =>
        rw [if_pos ⟨hq, fun hnone ↦ Option.some_ne_none query hnone.2⟩]
        exact le_rfl
    · rw [pushLine, if_pos hq, decide_eq_false hnormal, Bool.false_and, if_neg Bool.false_ne_true]
      rw [Option.toList_none, List.length_nil, Nat.zero_add]
      refine (pending_le_one _).trans ?_
      rw [pending, if_pos ⟨hq, fun hnone ↦ hnormal hnone.1⟩]
  · have hidle := Bool.eq_false_iff.mpr hq
    rw [pushLine_idle hidle]
    dsimp only
    rw [pending_of_idle ((consumeMetaLine_inQuery hends).trans hidle)]
    exact Nat.zero_le _

/-- No query is taken at a line that ends with a semicolon. -/
theorem pushLine_semicolon (p : SlowLogParser) {line : Bytes}
    (h : isEntryHeader (line ++ [ch ';']) = false) :
    (p.pushLine crate (line ++ [ch ';'])).2 = none := by
  rw [pushLine, stripCr_concat line (by decide), h, isRestartBanner_semicolon, Bool.or_false,
    Bool.and_false, if_neg Bool.false_ne_true]
  split_ifs <;> rfl

/-- The queries that lines give, with the one that is pending behind them. -/
def total (crate : TimeCrate) (p : SlowLogParser) (lines : List Bytes) : ℕ :=
  (p.pushLines crate lines).2.length + pending (p.pushLines crate lines).1

theorem total_append (p : SlowLogParser) (lines lines' : List Bytes) :
    total crate p (lines ++ lines') = (p.pushLines crate lines).2.length +
      total crate (p.pushLines crate lines).1 lines' := by
  rw [total, total, pushLines_append, List.length_append, Nat.add_assoc]

theorem total_headers_le (crate : TimeCrate) (p : SlowLogParser) {lines : List Bytes}
    (h : ∀ line ∈ lines, isEntryHeader (stripCr line) = true) :
    total crate p lines ≤ pending p := by
  induction lines generalizing p with
  | nil => exact (Nat.zero_add _).le
  | cons line lines ih =>
    have hline := pushLine_header_le crate p (h line List.mem_cons_self)
    have hlines := ih (p.pushLine crate line).1 fun l hl ↦ h l (List.mem_cons_of_mem line hl)
    rw [total] at hlines ⊢
    rw [pushLines]
    dsimp only
    rw [List.length_append]
    omega

/-- Lines that end with a semicolon and are no headers give no query, and the next line at most
one. -/
theorem total_concat_le (crate : TimeCrate) (p : SlowLogParser) {lines : List Bytes}
    (h : ∀ line ∈ lines, ∃ s, line = s ++ [ch ';'] ∧ isEntryHeader line = false) (line : Bytes) :
    total crate p (lines ++ [line]) ≤ 1 := by
  induction lines generalizing p with
  | nil =>
    have hline := pushLine_le_one crate p line
    rw [List.nil_append, total, pushLines, pushLines, List.append_nil]
    exact hline
  | cons l lines ih =>
    obtain ⟨s, rfl, hheader⟩ := h l List.mem_cons_self
    have ih := ih (p.pushLine crate (s ++ [ch ';'])).1 fun l hl ↦ h l (List.mem_cons_of_mem _ hl)
    rw [total] at ih
    rw [List.cons_append, total, pushLines, pushLine_semicolon p hheader]
    exact ih

/-- An entry gives at most one query, whatever the parser was doing. -/
theorem total_entry_le (crate : TimeCrate) (p : SlowLogParser) (e : OneLineEntry) :
    total crate p e.lines ≤ pending p + 1 := by
  have hheaders := total_headers_le crate p
    fun line hline ↦ (header_spec crate (m := e.metadata) hline).1
  have hquiet : ∀ line ∈ (e.metadata.use.map Metadata.useLine).toList ++
      [Metadata.setLine e.metadata.timestamp],
      ∃ s, line = s ++ [ch ';'] ∧ isEntryHeader line = false := by
    intro line hline
    rcases List.mem_append.mp hline with hline | hline
    · obtain ⟨d, -, rfl⟩ := Option.map_eq_some_iff.mp (Option.mem_toList.mp hline)
      exact ⟨_, rfl, rfl⟩
    · rw [List.mem_singleton.mp hline]
      exact ⟨_, rfl, rfl⟩
  have hrest := total_concat_le crate (p.pushLines crate e.metadata.headers).1 hquiet e.statement
  have hlines : e.lines = e.metadata.headers ++ ((e.metadata.use.map Metadata.useLine).toList ++
      [Metadata.setLine e.metadata.timestamp] ++ [e.statement]) := List.append_assoc ..
  rw [hlines, total_append]
  rw [total] at hheaders
  omega

theorem total_le (crate : TimeCrate) (p : SlowLogParser) (es : List OneLineEntry) :
    total crate p (es.flatMap lines) ≤ pending p + es.length := by
  induction es generalizing p with
  | nil => exact (Nat.zero_add _).le
  | cons e es ih =>
    have he := total_entry_le crate p e
    have hes := ih (p.pushLines crate e.lines).1
    rw [total] at he
    rw [List.flatMap_cons, total_append, List.length_cons]
    omega

/-! ## Entries whose statements are swallowed -/

theorem pending_of_isClean (h : IsClean p) : pending p = p.takeQuery.2.toList.length := by
  by_cases hq : p.inQuery = true
  · rw [pending]
    cases htake : p.takeQuery.2 with
    | none => rw [if_neg fun hpending ↦ hpending.2 ⟨h.normal hq, rfl⟩]; rfl
    | some query => rw [if_pos ⟨hq, fun hnone ↦ Option.some_ne_none query hnone.2⟩]; rfl
  · have hidle := Bool.eq_false_iff.mpr hq
    rw [pending_of_idle hidle, takeQuery_none_of_idle hidle]
    rfl

/-- A swallowed statement gives no query. -/
theorem total_swallowed (crate : TimeCrate) (h : IsClean p) {e : OneLineEntry} (he : e.IsComplete)
    (hkept : ¬ e.IsKept) :
    total crate p e.lines = pending p := by
  have hidle : (p.takeQuery.1.withMetadata crate e.metadata).inQuery = false :=
    (consumeMetaLines_keeps crate (fun _ hl ↦ hl) p.takeQuery.1).inQuery.trans (takeQuery_idle h).1
  have hset : (p.takeQuery.1.withMetadata crate e.metadata).setTsMicros ≠ none :=
    Option.some_ne_none _
  have hlines : e.lines = e.metadata.lines ++ [e.statement] := rfl
  rw [hlines, total_append, pushLines_metadata h he.use, pending_of_isClean h]
  generalize p.takeQuery.1.withMetadata crate e.metadata = r at hidle hset ⊢
  dsimp only
  have htotal : total crate r [e.statement] =
      pending (r.consumeMetaLine crate (stripCr e.statement)) := by
    rw [total, pushLines, pushLine_idle hidle]
    exact Nat.zero_add _
  rw [htotal]
  suffices hpending : pending (r.consumeMetaLine crate (stripCr e.statement)) = 0 by
    rw [hpending, Nat.add_zero]
  by_cases hplain : IsPlain (stripCr e.statement)
  · -- a second SET timestamp, or a statement without a text
    rw [consumeMetaLine_plain hplain, if_neg hset]
    dsimp only
    cases hts : parseSetTimestamp (trim (stripCr e.statement)) with
    | some ts => exact pending_of_idle hidle
    | none =>
      have htext : statementText (stripCr e.statement) = [] := by
        by_contra hne
        exact hkept ⟨hts, hplain.banner, hplain.port, hplain.columns, hplain.nonblank, hne⟩
      dsimp only
      rw [beginQuery_eq, pending, if_neg]
      rintro ⟨-, hno⟩
      refine hno ⟨he.closed, ?_⟩
      rw [takeQuery_inStatement, List.intercalate_singleton, if_pos htext]
  · -- a line of a banner, or a blank one
    rw [consumeMetaLine, if_neg he.hash]
    by_cases hbanner : (r.handleBanner (stripCr e.statement)).2 = true
    · rw [if_pos hbanner]
      exact pending_of_idle ((handleBanner_inQuery r _).trans hidle)
    · have hblank : trim (stripCr e.statement) = [] := by
        by_contra hne
        rw [handleBanner] at hbanner
        split_ifs at hbanner with hrestart
        · exact hbanner rfl
        · rw [Bool.or_eq_true, not_or] at hbanner
          exact hplain ⟨he.hash, Bool.eq_false_iff.mpr hrestart, Bool.eq_false_iff.mpr hbanner.1,
            Bool.eq_false_iff.mpr hbanner.2, hne⟩
      rw [if_neg hbanner, if_pos hblank]
      exact pending_of_idle hidle

/-- So the entries of a log give fewer queries than there are entries. -/
theorem total_lt (crate : TimeCrate) (h : IsClean p) {es : List OneLineEntry}
    (hes : ∀ e ∈ es, e.IsComplete) (hkept : ∃ e ∈ es, ¬ e.IsKept) :
    total crate p (es.flatMap lines) < pending p + es.length := by
  induction es generalizing p with
  | nil =>
    obtain ⟨e, he, -⟩ := hkept
    cases he
  | cons e es ih =>
    have he := hes e List.mem_cons_self
    rw [List.flatMap_cons, total_append, List.length_cons]
    by_cases hself : e.IsKept
    · have hclean : IsClean (p.pushLines crate e.lines).1 := by
        have hentry := pushLines_entry crate h (hself.reads he)
        have heq : p.pushLines crate e.lines = _ := hentry
        rw [heq]
        exact inStatement_isClean (hself.reads he).closed _
      have hrest := ih hclean (fun e' he' ↦ hes e' (List.mem_cons_of_mem e he')) (by
        obtain ⟨e', he', hnot⟩ := hkept
        rcases List.mem_cons.mp he' with rfl | he'
        · exact absurd hself hnot
        · exact ⟨e', he', hnot⟩)
      have hone := total_entry_le crate p e
      rw [total] at hone
      omega
    · have hone := total_swallowed crate h he hself
      have hrest := total_le crate (p.pushLines crate e.lines).1 es
      rw [total] at hone
      omega

theorem finish_le (p : SlowLogParser) : p.finish.toList.length ≤ pending p := by
  rw [finish, pending]
  split_ifs with hpending
  · exact toList_length_le _
  · by_cases hq : p.inQuery = true
    · have hno := not_not.mp fun hno ↦ hpending ⟨hq, hno⟩
      rw [hno.2]
      exact le_rfl
    · rw [takeQuery_none_of_idle (Bool.eq_false_iff.mpr hq)]
      exact le_rfl

/-- Every entry of a log gives one query, with its own timestamp and not depending on the other
statements, exactly when no statement looks like a `SET timestamp` line or like a line of a restart
banner, and none is empty but for its terminator. -/
theorem readsEach_iff (crate : TimeCrate) (es : List OneLineEntry) (h : ∀ e ∈ es, e.IsComplete) :
    ReadsEach crate es ↔ ∀ e ∈ es, e.IsKept := by
  constructor
  · intro hreads
    by_contra hnot
    push Not at hnot
    have hlt := total_lt crate new_isClean h hnot
    have hfinish := finish_le (({} : SlowLogParser).pushLines crate (es.flatMap lines)).1
    have hlength := congrArg List.length hreads.timestamps
    rw [List.length_map, List.length_map, parseLog, List.length_append] at hlength
    have hnew : pending {} = 0 := pending_of_idle rfl
    rw [total, hnew] at hlt
    omega
  · exact fun hkept ↦ readsEach_of_isKept crate fun e he ↦ ⟨h e he, hkept e he⟩

/-! ## A client that sets its timestamp -/

def sampleEntry (use : Option UseName) (statement : Bytes) : OneLineEntry where
  metadata := { (loggedSample none []).entry.metadata with use := use }
  statement := statement

theorem sampleEntry_isComplete {use : Option UseName} (huse : ∀ d ∈ use, d.text ≠ [])
    {statement : Bytes} (hclosed : scanSqlState .normal (stripCr statement) = .normal)
    (hhash : (stripCr statement).head? ≠ some (ch '#')) : (sampleEntry use statement).IsComplete :=
  ⟨huse, hclosed, hhash⟩

/-- A `USE` of the client is kept. -/
theorem readsEach_clientUse :
    ReadsEach ⟨fun _ ↦ none, fun _ _ _ _ _ _ ↦ none⟩
      [sampleEntry none (ascii "USE shop;"), sampleEntry (some sampleDb)
        (ascii "SELECT 2;")] := by
  refine (readsEach_iff _ _ fun e he ↦ ?_).mpr fun e he ↦ ?_
  · rcases List.mem_pair.mp he with rfl | rfl
    · refine sampleEntry_isComplete (fun d hd ↦ ?_) (by decide +kernel) (by decide)
      cases hd
    · refine sampleEntry_isComplete (fun d hd ↦ ?_) (by decide +kernel) (by decide)
      obtain rfl := Option.some.inj hd
      decide
  · rcases List.mem_pair.mp he with rfl | rfl
    · refine ⟨?_, ?_, ?_, ?_, ?_, ?_⟩ <;> decide +kernel
    · refine ⟨?_, ?_, ?_, ?_, ?_, ?_⟩ <;> decide +kernel

/-- A `SET timestamp` of the client is swallowed, and makes the metadata of the next entry part of
its statement, which is reported with the client's timestamp. -/
theorem clientSetTimestamp_swallowed :
    let es := [sampleEntry none (ascii "SET timestamp=5;"),
      sampleEntry (some sampleDb) (ascii "SELECT 2;")]
    let crate : TimeCrate := ⟨fun _ ↦ none, fun _ _ _ _ _ _ ↦ none⟩
    (∀ e ∈ es, e.IsComplete) ∧ ¬ ReadsEach crate es ∧
      (parseLog crate (es.flatMap lines)).map (fun q ↦ (q.tsMicros, q.query)) =
        [(5000000, ascii "use shop;" ++ newline :: ascii "SET timestamp=100;" ++
          newline :: ascii "SELECT 2")] := by
  intro es crate
  have hparse : (parseLog crate (es.flatMap lines)).map (fun q ↦ (q.tsMicros, q.query)) =
      [(5000000, ascii "use shop;" ++ newline :: ascii "SET timestamp=100;" ++
        newline :: ascii "SELECT 2")] := by decide +kernel
  refine ⟨fun e he ↦ ?_, fun hreads ↦ ?_, hparse⟩
  · rcases List.mem_pair.mp he with rfl | rfl
    · refine sampleEntry_isComplete (fun d hd ↦ ?_) (by decide +kernel) (by decide)
      cases hd
    · refine sampleEntry_isComplete (fun d hd ↦ ?_) (by decide +kernel) (by decide)
      obtain rfl := Option.some.inj hd
      decide
  · have hlength := congrArg List.length hreads.timestamps
    have hone := congrArg List.length hparse
    rw [List.length_map] at hlength hone
    rw [hone] at hlength
    exact absurd hlength (by decide)

end OneLineEntry

end SqlReplay
