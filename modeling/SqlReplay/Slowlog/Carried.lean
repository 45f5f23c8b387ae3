import SqlReplay.Slowlog.Entry

/-!
# What headers carry over

The parser's fields fall in two. Where a statement's text begins and ends, and which database the
`use` lines name, depends on the lines outside the headers alone (`SameText`). What the headers
name, a user, a thread, a schema and a query time, is carried along beside it (`carried`), and no
other line reads it until a query is taken.

A header that names nothing leaves the carried fields as they are (`Named.or`). A query that is
taken, or an administrator command, clears the schema and the query time, and neither the user nor
the thread.
-/

namespace SqlReplay

/-! ## What a header line names -/

/-- The fields that header lines may name. -/
structure Named where
  user : Option Bytes := none
  threadId : Option ℕ := none
  schema : Option Bytes := none
  queryTime : Option F64 := none
  deriving DecidableEq

namespace Named

/-- What is named first counts. -/
def or (n m : Named) : Named :=
  ⟨n.user.or m.user, n.threadId.or m.threadId, n.schema.or m.schema, n.queryTime.or m.queryTime⟩

theorem or_assoc (n m l : Named) : (n.or m).or l = n.or (m.or l) := by
  simp only [or, Option.or_assoc]

/-- One pair of a `Key: value` line. -/
def ofPair (key value : Bytes) : Named :=
  if key = ascii "Query_time" then { queryTime := parseF64 value }
  else if key = ascii "Thread_id" then { threadId := parseUnsigned (2 ^ 64 - 1) value }
  else if key = ascii "Schema" then { schema := some value }
  else {}

/-- The pairs that the loop of `handle_kv_line` finds. -/
def kvPairs : List Bytes → List (Bytes × Bytes)
  | [] => []
  | [_] => []
  | tok :: value :: toks =>
    match stripSuffix tok (ch ':') with
    | none => kvPairs (value :: toks)
    | some key =>
      if value.getLast? = some (ch ':') then kvPairs (value :: toks)
      else (key, value) :: kvPairs toks

/-- Pair after pair, and the last one that names a field counts. -/
def ofPairs (pairs : List (Bytes × Bytes)) : Named :=
  pairs.foldl (fun n kv ↦ (ofPair kv.1 kv.2).or n) {}

/-- What a header line names. -/
def ofLine (line : Bytes) : Named :=
  if startsWith (ascii "# User@Host: ") line then
    { user := (some (SlowLogParser.userOf (line.drop 13))).filter (· ≠ [])
      threadId := SlowLogParser.idOf (line.drop 13) }
  else ofPairs (kvPairs (splitWhitespace (trimStart (line.dropWhile (· = ch '#')))))

/-- What header lines name, one after the other. -/
def ofLines (lines : List Bytes) : Named :=
  lines.foldl (fun n line ↦ (ofLine (SlowLogParser.stripCr line)).or n) {}

/-- A query that is taken clears the schema and the query time. -/
def cleared (n : Named) : Named := { n with schema := none, queryTime := some .zero }

theorem foldl_or {ι : Type*} (f : ι → Named) (xs : List ι) (n m : Named) :
    xs.foldl (fun n x ↦ (f x).or n) (n.or m) = (xs.foldl (fun n x ↦ (f x).or n) n).or m := by
  induction xs generalizing n with
  | nil => rfl
  | cons x xs ih => rw [List.foldl_cons, List.foldl_cons, ← or_assoc, ih]

end Named

namespace SlowLogParser

/-- The fields that headers name and that stay until they are named again. -/
def carried (p : SlowLogParser) : Named := ⟨p.user, p.threadId, p.schema, some p.queryTimeS⟩

/-- The same text has been read of two logs. -/
structure SameText (p q : SlowLogParser) : Prop where
  setTsMicros : q.setTsMicros = p.setTsMicros
  currentDb : q.currentDb = p.currentDb
  buf : q.buf = p.buf
  inQuery : q.inQuery = p.inQuery
  sqlState : q.sqlState = p.sqlState

variable {crate : TimeCrate} {p q r : SlowLogParser}

theorem SameText.refl (p : SlowLogParser) : SameText p p := ⟨rfl, rfl, rfl, rfl, rfl⟩

theorem SameText.symm (h : SameText p q) : SameText q p :=
  ⟨h.setTsMicros.symm, h.currentDb.symm, h.buf.symm, h.inQuery.symm, h.sqlState.symm⟩

theorem SameText.trans (h : SameText p q) (h' : SameText q r) : SameText p r :=
  ⟨h'.setTsMicros.trans h.setTsMicros, h'.currentDb.trans h.currentDb, h'.buf.trans h.buf,
    h'.inQuery.trans h.inQuery, h'.sqlState.trans h.sqlState⟩

/-! ## Header lines -/

theorem observeTimeDialect_spec (p : SlowLogParser) (d : Dialect) :
    SameText p (p.observeTimeDialect d) ∧ (p.observeTimeDialect d).carried = p.carried := by
  rw [observeTimeDialect]
  split_ifs
  · exact ⟨⟨rfl, rfl, rfl, rfl, rfl⟩, rfl⟩
  · exact ⟨SameText.refl p, rfl⟩

theorem observeLogSlowExtra_spec (p : SlowLogParser) :
    SameText p p.observeLogSlowExtra ∧ p.observeLogSlowExtra.carried = p.carried := by
  rw [observeLogSlowExtra]
  split_ifs
  · exact ⟨⟨rfl, rfl, rfl, rfl, rfl⟩, rfl⟩
  · exact ⟨SameText.refl p, rfl⟩

theorem handleTime_spec (crate : TimeCrate) (p : SlowLogParser) (s : Bytes) :
    SameText p (p.handleTime crate s) ∧ (p.handleTime crate s).carried = p.carried := by
  rw [handleTime]
  cases parseTimeValue crate (trim s) with
  | none => exact ⟨SameText.refl p, rfl⟩
  | some r =>
    obtain ⟨hsame, hcarried⟩ := observeTimeDialect_spec { p with timeMicros := some r.1 } r.2
    exact ⟨⟨hsame.setTsMicros, hsame.currentDb, hsame.buf, hsame.inQuery, hsame.sqlState⟩,
      hcarried⟩

theorem handleKv_spec (p : SlowLogParser) (key value : Bytes) :
    SameText p (p.handleKv key value) ∧
      (p.handleKv key value).carried = (Named.ofPair key value).or p.carried := by
  rw [handleKv, Named.ofPair]
  split_ifs
  · refine ⟨⟨rfl, rfl, rfl, rfl, rfl⟩, ?_⟩
    cases parseF64 value <;> rfl
  · exact ⟨⟨rfl, rfl, rfl, rfl, rfl⟩, rfl⟩
  · exact ⟨⟨rfl, rfl, rfl, rfl, rfl⟩, rfl⟩
  · exact ⟨SameText.refl p, rfl⟩

theorem handleKvTokens_eq (p : SlowLogParser) (toks : List Bytes) :
    p.handleKvTokens toks =
      (Named.kvPairs toks).foldl (fun p kv ↦ p.handleKv kv.1 kv.2) p := by
  fun_induction handleKvTokens p toks with
  | case1 p => rfl
  | case2 p tok => rfl
  | case3 p tok value toks hkey ih => rw [ih, Named.kvPairs, hkey]
  | case4 p tok value toks key hkey hcolon ih =>
    rw [ih, Named.kvPairs, hkey]
    dsimp only
    rw [if_pos hcolon]
  | case5 p tok value toks key hkey hcolon ih =>
    rw [ih, Named.kvPairs, hkey]
    dsimp only
    rw [if_neg hcolon, List.foldl_cons]

theorem handlePairs_spec (p : SlowLogParser) (pairs : List (Bytes × Bytes)) :
    SameText p (pairs.foldl (fun p kv ↦ p.handleKv kv.1 kv.2) p) ∧
      (pairs.foldl (fun p kv ↦ p.handleKv kv.1 kv.2) p).carried =
        (Named.ofPairs pairs).or p.carried := by
  induction pairs generalizing p with
  | nil => exact ⟨SameText.refl p, rfl⟩
  | cons kv pairs ih =>
    obtain ⟨hsame, hcarried⟩ := handleKv_spec p kv.1 kv.2
    obtain ⟨hsame', hcarried'⟩ := ih (p.handleKv kv.1 kv.2)
    refine ⟨hsame.trans hsame', hcarried'.trans ?_⟩
    have hfirst : Named.or (Named.ofPair kv.1 kv.2) {} = Named.or {} (Named.ofPair kv.1 kv.2) := by
      simp only [Named.or, Option.or_none, Option.none_or]
    rw [hcarried, ← Named.or_assoc, Named.ofPairs, Named.ofPairs, List.foldl_cons, hfirst,
      Named.foldl_or (fun kv : Bytes × Bytes ↦ Named.ofPair kv.1 kv.2)]

theorem handleKvLine_spec (p : SlowLogParser) (line : Bytes) :
    SameText p (p.handleKvLine line) ∧ (p.handleKvLine line).carried =
      (Named.ofPairs (Named.kvPairs (splitWhitespace
        (trimStart (line.dropWhile (· = ch '#')))))).or p.carried := by
  rw [handleKvLine, handleKvTokens_eq]
  exact handlePairs_spec p _

/-- A header line that is neither a time nor an administrator command. -/
structure IsFieldLine (line : Bytes) : Prop where
  header : line.head? = some (ch '#')
  time : startsWith (ascii "# Time: ") line = false
  admin : startsWith (ascii "# administrator command:") line = false

instance : DecidablePred IsFieldLine := fun line ↦
  decidable_of_iff (line.head? = some (ch '#') ∧ startsWith (ascii "# Time: ") line = false ∧
    startsWith (ascii "# administrator command:") line = false)
    ⟨fun h ↦ ⟨h.1, h.2.1, h.2.2⟩, fun h ↦ ⟨h.header, h.time, h.admin⟩⟩

theorem handleHeader_spec (crate : TimeCrate) (p : SlowLogParser) {line : Bytes}
    (h : IsFieldLine line) :
    SameText p (p.handleHeader crate line) ∧
      (p.handleHeader crate line).carried = (Named.ofLine line).or p.carried := by
  rw [handleHeader, h.time, h.admin, if_neg Bool.false_ne_true, if_neg Bool.false_ne_true,
    Named.ofLine]
  split_ifs with huser hextra
  · refine ⟨⟨rfl, rfl, rfl, rfl, rfl⟩, ?_⟩
    have hname : (if userOf (line.drop 13) = [] then p.user else some (userOf (line.drop 13))) =
        ((some (userOf (line.drop 13))).filter (· ≠ [])).or p.user := by
      by_cases hnone : userOf (line.drop 13) = []
      · rw [if_pos hnone, hnone]
        rfl
      · rw [if_neg hnone, Option.filter_some, if_pos (decide_eq_true hnone)]
        rfl
    rw [handleUserHost, hname]
    rfl
  · obtain ⟨hsame, hcarried⟩ := observeLogSlowExtra_spec p
    obtain ⟨hsame', hcarried'⟩ := handleKvLine_spec p.observeLogSlowExtra line
    exact ⟨hsame.trans hsame', hcarried ▸ hcarried'⟩
  · exact handleKvLine_spec p line

/-! ## Lines that are no headers -/

theorem observeBannerDialect_spec (p : SlowLogParser) (d : Dialect) :
    SameText p (p.observeBannerDialect d) ∧ (p.observeBannerDialect d).carried = p.carried := by
  rw [observeBannerDialect]
  split_ifs
  · exact ⟨SameText.refl p, rfl⟩
  · exact ⟨⟨rfl, rfl, rfl, rfl, rfl⟩, rfl⟩

theorem restart_spec (p : SlowLogParser) (line : Bytes) :
    SameText { p with currentDb := none, setTsMicros := none } (p.restart line) ∧
      (p.restart line).carried = p.carried := by
  rw [restart]
  cases bannerDialect line with
  | none => exact ⟨⟨rfl, rfl, rfl, rfl, rfl⟩, rfl⟩
  | some d =>
    obtain ⟨hsame, hcarried⟩ := observeBannerDialect_spec { p with
      stats.restarts := p.stats.restarts + 1
      currentDb := none
      setTsMicros := none } d
    exact ⟨⟨hsame.setTsMicros, hsame.currentDb, hsame.buf, hsame.inQuery, hsame.sqlState⟩,
      hcarried⟩

theorem handleBanner_spec (p : SlowLogParser) (line : Bytes) :
    (isRestartBanner line = true ∧
      SameText { p with currentDb := none, setTsMicros := none } (p.handleBanner line).1 ∨
        isRestartBanner line = false ∧ (p.handleBanner line).1 = p) ∧
      (p.handleBanner line).1.carried = p.carried := by
  rw [handleBanner]
  split_ifs with h
  · obtain ⟨hsame, hcarried⟩ := restart_spec p line
    exact ⟨Or.inl ⟨h, hsame⟩, hcarried⟩
  · exact ⟨Or.inr ⟨Bool.eq_false_of_not_eq_true h, rfl⟩, rfl⟩

theorem handleBanner_snd (p q : SlowLogParser) (line : Bytes) :
    (q.handleBanner line).2 = (p.handleBanner line).2 := by
  rw [handleBanner, handleBanner]
  split_ifs <;> rfl

theorem SameText.handleBanner (h : SameText p q) (line : Bytes) :
    SameText (p.handleBanner line).1 (q.handleBanner line).1 := by
  have hreset : SameText { p with currentDb := none, setTsMicros := none }
      { q with currentDb := none, setTsMicros := none } :=
    ⟨rfl, rfl, h.buf, h.inQuery, h.sqlState⟩
  rcases (handleBanner_spec p line).1 with ⟨hbanner, hp⟩ | ⟨hbanner, hp⟩
  · rcases (handleBanner_spec q line).1 with ⟨-, hq⟩ | ⟨hno, -⟩
    · exact hp.symm.trans (hreset.trans hq)
    · rw [hbanner] at hno
      cases hno
  · rcases (handleBanner_spec q line).1 with ⟨hyes, -⟩ | ⟨-, hq⟩
    · rw [hbanner] at hyes
      cases hyes
    · rw [hp, hq]
      exact h

theorem SameText.beginQuery (h : SameText p q) (line : Bytes) :
    SameText (p.beginQuery line) (q.beginQuery line) :=
  ⟨h.setTsMicros, h.currentDb, rfl, rfl, rfl⟩

/-- What a line that is no header does, with the name of a `use` line. -/
theorem consumeMetaLine_text (p : SlowLogParser) {line : Bytes}
    (hline : line.head? ≠ some (ch '#')) : p.consumeMetaLine crate line =
      if (p.handleBanner line).2 then (p.handleBanner line).1
      else if trim line = [] then p
      else
        match if p.setTsMicros = none then parseUseLine (trim line) else none with
        | some db => { p with currentDb := some db }
        | none =>
          match parseSetTimestamp (trim line) with
          | some ts => { p with setTsMicros := some ts }
          | none => p.beginQuery line := if_neg hline

/-- It is read alike whatever the headers named. -/
theorem SameText.consumeMetaLine (h : SameText p q) {line : Bytes}
    (hline : line.head? ≠ some (ch '#')) :
    SameText (p.consumeMetaLine crate line) (q.consumeMetaLine crate line) := by
  rw [consumeMetaLine_text p hline, consumeMetaLine_text q hline, handleBanner_snd p q]
  have huse : (if q.setTsMicros = none then parseUseLine (trim line) else none) =
      if p.setTsMicros = none then parseUseLine (trim line) else none := by rw [h.setTsMicros]
  rw [huse]
  by_cases hbanner : (p.handleBanner line).2 = true
  · rw [if_pos hbanner, if_pos hbanner]
    exact h.handleBanner line
  rw [if_neg hbanner, if_neg hbanner]
  by_cases htrim : trim line = []
  · rw [if_pos htrim, if_pos htrim]
    exact h
  rw [if_neg htrim, if_neg htrim]
  cases if p.setTsMicros = none then parseUseLine (trim line) else none with
  | some db => exact ⟨h.setTsMicros, rfl, h.buf, h.inQuery, h.sqlState⟩
  | none =>
    cases parseSetTimestamp (trim line) with
    | some ts => exact ⟨rfl, h.currentDb, h.buf, h.inQuery, h.sqlState⟩
    | none => exact h.beginQuery line

/-- It leaves the carried fields, and unless it begins a statement the parser stays outside. -/
theorem consumeMetaLine_spec (p : SlowLogParser) {line : Bytes}
    (hline : line.head? ≠ some (ch '#')) :
    (p.consumeMetaLine crate line).carried = p.carried ∧
      ((p.consumeMetaLine crate line).inQuery = p.inQuery ∨
        p.consumeMetaLine crate line = p.inStatement [line] ∧ line ≠ []) := by
  rw [consumeMetaLine_text p hline]
  by_cases hbanner : (p.handleBanner line).2 = true
  · rw [if_pos hbanner]
    refine ⟨(handleBanner_spec p line).2, Or.inl ?_⟩
    rcases (handleBanner_spec p line).1 with ⟨-, h⟩ | ⟨-, h⟩
    · exact h.inQuery
    · rw [h]
  rw [if_neg hbanner]
  by_cases htrim : trim line = []
  · rw [if_pos htrim]
    exact ⟨rfl, Or.inl rfl⟩
  rw [if_neg htrim]
  cases if p.setTsMicros = none then parseUseLine (trim line) else none with
  | some db => exact ⟨rfl, Or.inl rfl⟩
  | none =>
    cases parseSetTimestamp (trim line) with
    | some ts => exact ⟨rfl, Or.inl rfl⟩
    | none =>
      refine ⟨rfl, Or.inr ⟨beginQuery_eq p line, ?_⟩⟩
      rintro rfl
      exact htrim (by rw [trim, chars_nil]; rfl)

theorem SameText.inStatement (h : SameText p q) (lines : List Bytes) :
    SameText (p.inStatement lines) (q.inStatement lines) :=
  ⟨h.setTsMicros, h.currentDb, rfl, rfl, rfl⟩

theorem SameText.settled (h : SameText p q) : SameText p.settled q.settled :=
  ⟨rfl, h.currentDb, rfl, rfl, rfl⟩

end SlowLogParser

end SqlReplay
