import SqlReplay.Slowlog.Carried
import Mathlib.Data.List.ReduceOption

/-!
# Logs of entries

An entry of a slow log has its header lines, which may come with a `# Time:` line, then metadata,
and then a statement, an administrator command or nothing. Restart banners may follow. Which lines
are metadata is left to the parser itself (`StaysIdle`), so that nothing is assumed of what a server
writes beyond that an entry's lines are its own.

A statement is taken by the first line of the next entry, by a banner or at the end of the log. That
is why a run is compared with the entries in two parts (`Settles`): what the parser has given, and
what it would give if it were asked to take its query. Both together are the query of the entry.

The text of a log decides where its entries are. Header lines that name something else leave it as
it is, so an entry stays one in another log with the same text (`LogEntry.WellFormed.of_sameText`).
-/

namespace SqlReplay

/-! ## Logs -/

/-- What an entry holds behind its headers and metadata. -/
inductive Content where
  | statement (first : Bytes) (rest : List Bytes)
  | admin (line : Bytes)
  | nothing
  deriving DecidableEq

/-- An entry of a log. -/
structure LogEntry where
  time : List Bytes
  headers : List Bytes
  metadata : List Bytes
  content : Content
  trailer : List Bytes

namespace Content

def lines : Content → List Bytes
  | .statement first rest => first :: rest
  | .admin line => [line]
  | .nothing => []

/-- The text of the statement, unless it is empty. -/
def text : Content → Option Bytes
  | .statement first rest => (some (SlowLogParser.statementText
      ([newline].intercalate ((first :: rest).map SlowLogParser.stripCr)))).filter (· ≠ [])
  | _ => none

/-- A statement or an administrator command ends the entry. -/
def ends : Content → Bool
  | .nothing => false
  | _ => true

end Content

/-- The header lines of an entry are complete: there is a user and host, and a query time that can
be read. The user may be empty and the id missing. -/
structure CompleteHeaders (headers : List Bytes) : Prop where
  field : ∀ line ∈ headers, SlowLogParser.IsFieldLine (SlowLogParser.stripCr line)
  first : ∀ line ∈ headers.head?, isEntryHeader (SlowLogParser.stripCr line) = true
  userHost : ∃ line ∈ headers,
    startsWith (ascii "# User@Host: ") (SlowLogParser.stripCr line) = true
  queryTime : (Named.ofLines headers).queryTime.isSome = true

namespace SlowLogParser

/-- No line begins a statement. -/
def StaysIdle (crate : TimeCrate) : SlowLogParser → List Bytes → Prop
  | p, [] => p.inQuery = false
  | p, line :: lines =>
    p.inQuery = false ∧ StaysIdle crate (p.consumeMetaLine crate (stripCr line)) lines

instance decidableStaysIdle (crate : TimeCrate) :
    (p : SlowLogParser) → (lines : List Bytes) → Decidable (StaysIdle crate p lines)
  | p, [] => inferInstanceAs (Decidable (p.inQuery = false))
  | p, line :: lines =>
    have := decidableStaysIdle crate (p.consumeMetaLine crate (stripCr line)) lines
    inferInstanceAs (Decidable (p.inQuery = false ∧ _))

/-- Lines that are no headers and begin no statement. -/
structure ReadsMetadata (crate : TimeCrate) (p : SlowLogParser) (lines : List Bytes) : Prop where
  noHeader : ∀ line ∈ lines, (stripCr line).head? ≠ some (ch '#')
  idle : StaysIdle crate p lines

/-- The content is what it claims to be, and its text is closed at its end. -/
def ReadsContent (crate : TimeCrate) (p : SlowLogParser) : Content → Prop
  | .statement first rest =>
    (stripCr first).head? ≠ some (ch '#') ∧
      (p.consumeMetaLine crate (stripCr first)).inQuery = true ∧
      NoHeaders (scanSqlState .normal (stripCr first)) (rest.map stripCr) ∧
      ((first :: rest).map stripCr).foldl scanSqlState .normal = .normal
  | .admin line => startsWith (ascii "# administrator command:") (stripCr line) = true
  | .nothing => True

/-- The parser behind the content, once the statement is taken. -/
def behindContent (crate : TimeCrate) (p : SlowLogParser) : Content → SlowLogParser
  | .statement _ _ => p.settled
  | .admin line => p.consumeMetaLine crate (stripCr line)
  | .nothing => p

end SlowLogParser

open SlowLogParser

namespace LogEntry

variable (crate : TimeCrate) (p : SlowLogParser) (e : LogEntry)

def lines : List Bytes :=
  e.time ++ (e.headers ++ (e.metadata ++ (e.content.lines ++ e.trailer)))

/-- What the headers name. -/
def named : Named := .ofLines e.headers

/-- The same entry with other header lines. -/
def withHeaders (headers : List Bytes) : LogEntry := { e with headers := headers }

/-- The parser behind the headers, between two entries before them. -/
def behindHeaders : SlowLogParser := p.consumeMetaLines crate (e.time ++ e.headers)

/-- The parser where the content begins. -/
def behindMetadata : SlowLogParser := (e.behindHeaders crate p).consumeMetaLines crate e.metadata

/-- The parser behind the entry, between two entries again. -/
def behind : SlowLogParser :=
  ((e.behindMetadata crate p).behindContent crate e.content).consumeMetaLines crate e.trailer

/-- The query of the entry. -/
def query : Option ParsedQuery := e.content.text.map (e.behindMetadata crate p).queryOf

/-- An entry that is read as such by a parser between two entries. -/
structure WellFormed : Prop where
  time : ∀ line ∈ e.time, startsWith (ascii "# Time: ") (stripCr line) = true
  headers : CompleteHeaders e.headers
  metadata : ReadsMetadata crate (e.behindHeaders crate p) e.metadata
  content : ReadsContent crate (e.behindMetadata crate p) e.content
  trailer : ReadsMetadata crate ((e.behindMetadata crate p).behindContent crate e.content) e.trailer
  /-- Only a restart banner ends a statement without a header. -/
  banner : ∀ first rest, e.content = .statement first rest →
    ∀ line ∈ e.trailer.head?, isRestartBanner (stripCr line) = true

end LogEntry

namespace SlowLogParser

variable (crate : TimeCrate)

/-- The queries of entries, one place for each. -/
def entryQueries (p : SlowLogParser) : List LogEntry → List (Option ParsedQuery)
  | [] => []
  | e :: es => e.query crate p :: (e.behind crate p).entryQueries es

/-- The parser behind entries. -/
def behindAll (p : SlowLogParser) (es : List LogEntry) : SlowLogParser :=
  es.foldl (fun p e ↦ e.behind crate p) p

/-- Entries that are read one after the other. -/
def ReadsEntries (p : SlowLogParser) : List LogEntry → Prop
  | [] => True
  | e :: es => e.WellFormed crate p ∧ (e.behind crate p).ReadsEntries es

end SlowLogParser

/-- A log: what a server that starts writes, and entries. -/
structure SlowLog where
  prelude : List Bytes
  entries : List LogEntry

namespace SlowLog

variable (crate : TimeCrate) (log : SlowLog)

def lines : List Bytes := log.prelude ++ log.entries.flatMap LogEntry.lines

/-- The parser in front of the first entry. -/
def start : SlowLogParser := SlowLogParser.consumeMetaLines {} crate log.prelude

structure WellFormed : Prop where
  prelude : ReadsMetadata crate {} log.prelude
  entries : (log.start crate).ReadsEntries crate log.entries

/-- The queries, one place for each entry. -/
def queries : List (Option ParsedQuery) := (log.start crate).entryQueries crate log.entries

end SlowLog

/-! ## What the headers leave alone -/

namespace SlowLogParser

variable {crate : TimeCrate} {p q : SlowLogParser}

theorem consumeMetaLines_append (p : SlowLogParser) (lines lines' : List Bytes) :
    p.consumeMetaLines crate (lines ++ lines') =
      (p.consumeMetaLines crate lines).consumeMetaLines crate lines' := List.foldl_append

theorem head?_of_startsWith {c : UInt8} {pat line : Bytes} (h : startsWith (c :: pat) line = true) :
    line.head? = some c := by
  cases line with
  | nil => cases h
  | cons d line =>
    rw [startsWith, List.isPrefixOf, Bool.and_eq_true, beq_iff_eq] at h
    rw [h.1, List.head?_cons]

theorem consumeTime_spec (crate : TimeCrate) (p : SlowLogParser) {lines : List Bytes}
    (h : ∀ line ∈ lines, startsWith (ascii "# Time: ") (stripCr line) = true) :
    SameText p (p.consumeMetaLines crate lines) ∧
      (p.consumeMetaLines crate lines).carried = p.carried := by
  induction lines generalizing p with
  | nil => exact ⟨SameText.refl p, rfl⟩
  | cons line lines ih =>
    obtain ⟨hline, hlines⟩ := List.forall_mem_cons.mp h
    have hstep : p.consumeMetaLine crate (stripCr line) =
        p.handleTime crate ((stripCr line).drop 8) := by
      rw [consumeMetaLine_header (head?_of_startsWith hline), handleHeader, if_pos hline]
    obtain ⟨hsame, hcarried⟩ := handleTime_spec crate p ((stripCr line).drop 8)
    rw [← hstep] at hsame hcarried
    obtain ⟨hsame', hcarried'⟩ := ih (p.consumeMetaLine crate (stripCr line)) hlines
    exact ⟨hsame.trans hsame', hcarried'.trans hcarried⟩

theorem consumeFields_spec (crate : TimeCrate) (p : SlowLogParser) {lines : List Bytes}
    (h : ∀ line ∈ lines, IsFieldLine (stripCr line)) :
    SameText p (p.consumeMetaLines crate lines) ∧
      (p.consumeMetaLines crate lines).carried = (Named.ofLines lines).or p.carried := by
  induction lines generalizing p with
  | nil => exact ⟨SameText.refl p, rfl⟩
  | cons line lines ih =>
    obtain ⟨hline, hlines⟩ := List.forall_mem_cons.mp h
    obtain ⟨hsame, hcarried⟩ := handleHeader_spec crate p hline
    rw [← consumeMetaLine_header hline.header] at hsame hcarried
    obtain ⟨hsame', hcarried'⟩ := ih (p.consumeMetaLine crate (stripCr line)) hlines
    refine ⟨hsame.trans hsame', hcarried'.trans ?_⟩
    have hfirst : (Named.ofLine (stripCr line)).or {} =
        Named.or {} (Named.ofLine (stripCr line)) := by
      simp only [Named.or, Option.or_none, Option.none_or]
    rw [hcarried, ← Named.or_assoc, Named.ofLines, Named.ofLines, List.foldl_cons, hfirst,
      Named.foldl_or (fun line ↦ Named.ofLine (stripCr line))]

/-! ## Lines outside of statements -/

theorem pushLines_idle {lines : List Bytes} (h : StaysIdle crate p lines) :
    p.pushLines crate lines = (p.consumeMetaLines crate lines, []) ∧
      (p.consumeMetaLines crate lines).inQuery = false := by
  induction lines generalizing p with
  | nil => exact ⟨rfl, h⟩
  | cons line lines ih =>
    obtain ⟨hp, hlines⟩ := h
    obtain ⟨hpush, hidle⟩ := ih hlines
    rw [pushLines, pushLine_idle hp, hpush]
    exact ⟨rfl, hidle⟩

theorem StaysIdle.inQuery {lines : List Bytes} (h : StaysIdle crate p lines) :
    p.inQuery = false := by
  cases lines with
  | nil => exact h
  | cons line lines => exact h.1

theorem staysIdle_headers (crate : TimeCrate) (hp : p.inQuery = false) {lines : List Bytes}
    (h : ∀ line ∈ lines, startsWith (ascii "# Time: ") (stripCr line) = true ∨
      IsFieldLine (stripCr line)) : StaysIdle crate p lines := by
  induction lines generalizing p with
  | nil => exact hp
  | cons line lines ih =>
    obtain ⟨hline, hlines⟩ := List.forall_mem_cons.mp h
    refine ⟨hp, ih ?_ hlines⟩
    rcases hline with hline | hline
    · rw [consumeMetaLine_header (head?_of_startsWith hline), handleHeader, if_pos hline]
      exact (handleTime_spec crate p _).1.inQuery.trans hp
    · rw [consumeMetaLine_header hline.header]
      exact (handleHeader_spec crate p hline).1.inQuery.trans hp

/-- Metadata are read alike, and leave the carried fields. -/
theorem consumeMetadata_spec {lines : List Bytes}
    (h : ∀ line ∈ lines, (stripCr line).head? ≠ some (ch '#')) :
    (p.consumeMetaLines crate lines).carried = p.carried ∧
      ∀ q, SameText p q →
        SameText (p.consumeMetaLines crate lines) (q.consumeMetaLines crate lines) := by
  induction lines generalizing p with
  | nil => exact ⟨rfl, fun q hq ↦ hq⟩
  | cons line lines ih =>
    obtain ⟨hline, hlines⟩ := List.forall_mem_cons.mp h
    obtain ⟨hcarried, hsame⟩ := ih (p := p.consumeMetaLine crate (stripCr line)) hlines
    exact ⟨hcarried.trans (consumeMetaLine_spec p hline).1,
      fun q hq ↦ hsame _ (hq.consumeMetaLine hline)⟩

theorem SameText.staysIdle (h : SameText p q) {lines : List Bytes}
    (hlines : ∀ line ∈ lines, (stripCr line).head? ≠ some (ch '#'))
    (hidle : StaysIdle crate p lines) : StaysIdle crate q lines := by
  induction lines generalizing p q with
  | nil => exact h.inQuery.trans hidle
  | cons line lines ih =>
    obtain ⟨hline, hlines⟩ := List.forall_mem_cons.mp hlines
    exact ⟨h.inQuery.trans hidle.1, ih (h.consumeMetaLine hline) hlines hidle.2⟩

theorem SameText.readsMetadata (h : SameText p q) {lines : List Bytes}
    (hlines : ReadsMetadata crate p lines) : ReadsMetadata crate q lines :=
  ⟨hlines.noHeader, h.staysIdle hlines.noHeader hlines.idle⟩

/-! ## The content of an entry -/

theorem handleAdmin_spec (p : SlowLogParser) {line : Bytes}
    (h : startsWith (ascii "# administrator command:") line = true) :
    p.consumeMetaLine crate line =
      { p with stats.adminCommands := p.stats.adminCommands + 1 }.resetEntry := by
  have hno (pat : Bytes) (hlen : pat.length ≤ (ascii "# administrator command:").length)
      (hne : ¬pat <+: ascii "# administrator command:") : startsWith pat line = false := by
    refine Bool.eq_false_of_not_eq_true fun hpre ↦ hne ?_
    rw [startsWith, List.isPrefixOf_iff_prefix] at hpre h
    exact List.prefix_of_prefix_length_le hpre h hlen
  rw [consumeMetaLine_header (head?_of_startsWith h), handleHeader,
    hno (ascii "# Time: ") (by decide) (by decide),
    hno (ascii "# User@Host: ") (by decide) (by decide), if_neg Bool.false_ne_true,
    if_neg Bool.false_ne_true, if_pos h]

theorem SameText.readsContent (h : SameText p q) {c : Content} (hc : ReadsContent crate p c) :
    ReadsContent crate q c := by
  cases c with
  | statement first rest =>
    obtain ⟨hhead, hbegins, hrest⟩ := hc
    exact ⟨hhead, (h.consumeMetaLine hhead).inQuery.trans hbegins, hrest⟩
  | admin line => exact hc
  | nothing => trivial

theorem SameText.behindContent (h : SameText p q) {c : Content} (hc : ReadsContent crate p c) :
    SameText (p.behindContent crate c) (q.behindContent crate c) := by
  cases c with
  | statement first rest => exact h.settled
  | admin line =>
    show SameText (p.consumeMetaLine crate (stripCr line)) (q.consumeMetaLine crate (stripCr line))
    rw [handleAdmin_spec p hc, handleAdmin_spec q hc]
    exact ⟨rfl, h.currentDb, h.buf, h.inQuery, h.sqlState⟩
  | nothing => exact h

theorem behindContent_carried {c : Content} (hc : ReadsContent crate p c) :
    (p.behindContent crate c).carried = if c.ends then p.carried.cleared else p.carried := by
  cases c with
  | statement first rest => rfl
  | admin line =>
    show (p.consumeMetaLine crate (stripCr line)).carried = p.carried.cleared
    rw [handleAdmin_spec p hc]
    rfl
  | nothing => rfl

end SlowLogParser

/-! ## One entry -/

namespace LogEntry

variable {crate : TimeCrate} {p q : SlowLogParser} {e : LogEntry}

theorem behindHeaders_spec (he : e.WellFormed crate p) :
    SameText p (e.behindHeaders crate p) ∧
      (e.behindHeaders crate p).carried = e.named.or p.carried := by
  obtain ⟨hsame, hcarried⟩ := consumeTime_spec crate p he.time
  obtain ⟨hsame', hcarried'⟩ := consumeFields_spec crate
    (p.consumeMetaLines crate e.time) he.headers.field
  rw [behindHeaders, consumeMetaLines_append]
  exact ⟨hsame.trans hsame', hcarried ▸ hcarried'⟩

theorem behindMetadata_carried (he : e.WellFormed crate p) :
    (e.behindMetadata crate p).carried = e.named.or p.carried :=
  (consumeMetadata_spec he.metadata.noHeader).1.trans (behindHeaders_spec he).2

/-- What an entry leaves of the carried fields. -/
theorem behind_carried (he : e.WellFormed crate p) : (e.behind crate p).carried =
    if e.content.ends then (e.named.or p.carried).cleared else e.named.or p.carried := by
  rw [behind, (consumeMetadata_spec he.trailer.noHeader).1, behindContent_carried he.content,
    behindMetadata_carried he]

/-- An entry is an entry in another log that has the same text, whatever its own headers name. -/
theorem WellFormed.of_sameText (he : e.WellFormed crate p) (h : SameText p q)
    {headers : List Bytes} (hheaders : CompleteHeaders headers) :
    (e.withHeaders headers).WellFormed crate q ∧
      SameText (e.behindMetadata crate p) ((e.withHeaders headers).behindMetadata crate q) ∧
      SameText (e.behind crate p) ((e.withHeaders headers).behind crate q) := by
  have hbehind : SameText (e.behindHeaders crate p)
      ((e.withHeaders headers).behindHeaders crate q) := by
    have htime := (consumeTime_spec crate q he.time).1
    have hfields := (consumeFields_spec crate
      (q.consumeMetaLines crate e.time) hheaders.field).1
    rw [behindHeaders, consumeMetaLines_append]
    rw [behindHeaders, consumeMetaLines_append]
    refine SameText.trans ?_ (htime.trans hfields)
    have hown := (behindHeaders_spec he).1
    rw [behindHeaders, consumeMetaLines_append] at hown
    exact hown.symm.trans h
  have hmetadata : SameText (e.behindMetadata crate p)
      ((e.withHeaders headers).behindMetadata crate q) :=
    (consumeMetadata_spec he.metadata.noHeader).2 _ hbehind
  have hcontent := hmetadata.behindContent he.content
  refine ⟨⟨he.time, hheaders, hbehind.readsMetadata he.metadata, hmetadata.readsContent he.content,
    hcontent.readsMetadata he.trailer, he.banner⟩, hmetadata, ?_⟩
  exact (consumeMetadata_spec he.trailer.noHeader).2 _ hcontent

end LogEntry

/-! ## The queries of a log -/

namespace SlowLogParser

variable {crate : TimeCrate} {p : SlowLogParser}

theorem takeQuery_statement (p : SlowLogParser) (first : Bytes) (rest : List Bytes) :
    (p.inStatement ((first :: rest).map stripCr)).takeQuery =
      (p.settled, (Content.statement first rest).text.map p.queryOf) := by
  rw [takeQuery_inStatement, Content.text, Option.filter_some]
  split_ifs with hnil hsome hsome
  · exact absurd hnil (of_decide_eq_true hsome)
  · rfl
  · rfl
  · exact absurd (decide_eq_true hnil) hsome

theorem pushLines_first (hp : p.inQuery = false) {first : Bytes} {rest : List Bytes}
    (h : ReadsContent crate p (.statement first rest)) :
    p.pushLines crate (first :: rest) = (p.inStatement ((first :: rest).map stripCr), []) := by
  obtain ⟨hhead, hbegins, hno, -⟩ := h
  obtain ⟨hfirst, hne⟩ := (consumeMetaLine_spec p hhead).2.resolve_left fun hsame ↦ by
    rw [hsame, hp] at hbegins
    cases hbegins
  rw [pushLines, pushLine_idle hp, hfirst]
  exact congrArg (fun r : SlowLogParser × List ParsedQuery ↦ (r.1, [] ++ r.2))
    (pushLines_text p hne [] rest hno)

/-- A parser that is through with its lines `lines`: it has given the query, or it is about to. -/
structure Settles (crate : TimeCrate) (p : SlowLogParser) (lines : List Bytes)
    (behind : SlowLogParser) (query : Option ParsedQuery) : Prop where
  closed : (p.pushLines crate lines).1.inQuery = true →
    (p.pushLines crate lines).1.sqlState = .normal
  behind_eq : (p.pushLines crate lines).1.takeQuery.1 = behind
  query_eq : (p.pushLines crate lines).2 ++ (p.pushLines crate lines).1.takeQuery.2.toList =
    query.toList

theorem settles_idle {lines : List Bytes} (h : StaysIdle crate p lines) :
    Settles crate p lines (p.consumeMetaLines crate lines) none := by
  obtain ⟨hpush, hidle⟩ := pushLines_idle h
  have htake := takeQuery_none_of_idle hidle
  refine ⟨?_, ?_, ?_⟩
  · rw [hpush]
    intro hquery
    rw [hidle] at hquery
    cases hquery
  · rw [hpush, htake]
  · rw [hpush, htake]
    rfl

/-- A statement and its trailer: a banner takes the query, or it waits to be taken. -/
theorem settles_statement (hp : p.inQuery = false) {first : Bytes} {rest trailer : List Bytes}
    (h : ReadsContent crate p (.statement first rest))
    (htrailer : StaysIdle crate p.settled trailer)
    (hbanner : ∀ line ∈ trailer.head?, isRestartBanner (stripCr line) = true) :
    Settles crate p ((first :: rest) ++ trailer) (p.settled.consumeMetaLines crate trailer)
      ((Content.statement first rest).text.map p.queryOf) := by
  have hclosed : (p.inStatement ((first :: rest).map stripCr)).inQuery = true →
      (p.inStatement ((first :: rest).map stripCr)).sqlState = .normal := fun _ ↦ h.2.2.2
  have htake := takeQuery_statement p first rest
  have hpush := pushLines_append p crate (first :: rest) trailer
  rw [pushLines_first hp h] at hpush
  cases trailer with
  | nil =>
    refine ⟨?_, ?_, ?_⟩
    · rw [hpush]
      exact hclosed
    · rw [hpush]
      exact congrArg Prod.fst htake
    · rw [hpush]
      exact congrArg (fun r : SlowLogParser × Option ParsedQuery ↦ [] ++ r.2.toList) htake
  | cons line lines =>
    have hline : (p.inStatement ((first :: rest).map stripCr)).pushLine crate line = _ :=
      pushLine_header hclosed (by rw [hbanner line rfl, Bool.or_true])
    have hrest := settles_idle htrailer.2
    rw [htake] at hline
    dsimp only at hpush
    rw [pushLines, hline] at hpush
    refine ⟨?_, ?_, ?_⟩
    · rw [hpush]
      exact hrest.closed
    · rw [hpush]
      exact hrest.behind_eq
    · rw [hpush, List.nil_append, List.append_assoc, hrest.query_eq, Option.toList_none,
        List.append_nil]

end SlowLogParser

namespace LogEntry

variable {crate : TimeCrate} {p : SlowLogParser} {e : LogEntry}

theorem settles_content (he : e.WellFormed crate p) :
    Settles crate (e.behindMetadata crate p) (e.content.lines ++ e.trailer) (e.behind crate p)
      (e.query crate p) := by
  have hidle : (e.behindMetadata crate p).inQuery = false := (pushLines_idle he.metadata.idle).2
  have hcontent := he.content
  have htrailer := he.trailer.idle
  unfold query behind
  cases hc : e.content with
  | statement first rest =>
    rw [hc] at hcontent htrailer
    exact settles_statement hidle hcontent htrailer (he.banner first rest hc)
  | admin line =>
    rw [hc] at htrailer
    exact settles_idle ⟨hidle, htrailer⟩
  | nothing =>
    rw [hc] at htrailer
    exact settles_idle htrailer

theorem lines_ne_nil (he : e.WellFormed crate p) : ∃ line lines,
    e.time ++ e.headers = line :: lines ∧ isEntryHeader (stripCr line) = true := by
  cases htime : e.time with
  | cons line lines =>
    refine ⟨line, lines ++ e.headers, rfl, ?_⟩
    have hline := he.time line (htime ▸ List.mem_cons_self)
    rw [isEntryHeader, hline]
    rfl
  | nil =>
    obtain ⟨line, hmem, -⟩ := he.headers.userHost
    obtain ⟨first, rest, hheaders⟩ := List.exists_cons_of_ne_nil (List.ne_nil_of_mem hmem)
    exact ⟨first, rest, hheaders, he.headers.first first (hheaders ▸ rfl)⟩

/-- The headers of an entry: the query before it is taken. -/
theorem pushLines_headers (hp : p.inQuery = true → p.sqlState = .normal)
    (he : e.WellFormed crate p.takeQuery.1) :
    p.pushLines crate (e.time ++ e.headers) =
      (e.behindHeaders crate p.takeQuery.1, p.takeQuery.2.toList) := by
  have hall : ∀ line ∈ e.time ++ e.headers, startsWith (ascii "# Time: ") (stripCr line) = true ∨
      IsFieldLine (stripCr line) :=
    List.forall_mem_append.mpr ⟨fun line h ↦ Or.inl (he.time line h),
      fun line h ↦ Or.inr (he.headers.field line h)⟩
  have hidle := staysIdle_headers crate (takeQuery_inQuery p) hall
  obtain ⟨line, lines, hlines, hline⟩ := lines_ne_nil he
  unfold behindHeaders
  rw [hlines] at hidle ⊢
  rw [pushLines, pushLine_header hp (by rw [hline, Bool.true_or]), (pushLines_idle hidle.2).1]
  exact congrArg (_, ·) (List.append_nil _)

/-- An entry behind another one: the query before it is taken, and its own is read. -/
theorem pushLines_lines (hp : p.inQuery = true → p.sqlState = .normal)
    (he : e.WellFormed crate p.takeQuery.1) :
    ((p.pushLines crate e.lines).1.inQuery = true →
        (p.pushLines crate e.lines).1.sqlState = .normal) ∧
      (p.pushLines crate e.lines).1.takeQuery.1 = e.behind crate p.takeQuery.1 ∧
      (p.pushLines crate e.lines).2 ++ (p.pushLines crate e.lines).1.takeQuery.2.toList =
        p.takeQuery.2.toList ++ (e.query crate p.takeQuery.1).toList := by
  have hmetadata := (pushLines_idle he.metadata.idle).1
  have hrest := settles_content he
  rw [lines, ← List.append_assoc, pushLines_append, pushLines_headers hp he, pushLines_append,
    hmetadata]
  refine ⟨hrest.closed, hrest.behind_eq, ?_⟩
  rw [List.nil_append, List.append_assoc]
  exact congrArg _ hrest.query_eq

end LogEntry

namespace SlowLogParser

variable {crate : TimeCrate} {p : SlowLogParser}

theorem pushLines_entryQueries (hp : p.inQuery = true → p.sqlState = .normal) {es : List LogEntry}
    (hes : p.takeQuery.1.ReadsEntries crate es) :
    (p.pushLines crate (es.flatMap LogEntry.lines)).2 ++
        (p.pushLines crate (es.flatMap LogEntry.lines)).1.finish.toList =
      p.takeQuery.2.toList ++ (p.takeQuery.1.entryQueries crate es).reduceOption := by
  induction es generalizing p with
  | nil => exact (List.append_nil _).symm
  | cons e es ih =>
    obtain ⟨he, hes⟩ := hes
    obtain ⟨hclosed, hbehind, hquery⟩ := LogEntry.pushLines_lines hp he
    rw [← hbehind] at hes
    have ih := ih hclosed hes
    rw [List.flatMap_cons, pushLines_append, List.append_assoc, ih, ← List.append_assoc, hquery,
      hbehind, entryQueries, List.append_assoc]
    cases e.query crate p.takeQuery.1 with
    | none => rw [List.reduceOption_cons_of_none]; rfl
    | some query => rw [List.reduceOption_cons_of_some]; rfl

end SlowLogParser

/-- The queries of a log are those of its entries. -/
theorem SlowLog.parseLog_lines {crate : TimeCrate} {log : SlowLog} (h : log.WellFormed crate) :
    parseLog crate log.lines = (log.queries crate).reduceOption := by
  obtain ⟨hprelude, hidle⟩ := pushLines_idle h.prelude.idle
  have hentries := h.entries
  have htake := takeQuery_none_of_idle hidle
  rw [start] at hentries
  have hclosed : (log.start crate).inQuery = true → (log.start crate).sqlState = .normal := by
    rw [start, hidle]
    exact nofun
  have hqueries := pushLines_entryQueries hclosed (by rw [start, htake]; exact hentries)
  rw [start, htake, Option.toList_none, List.nil_append] at hqueries
  rw [parseLog, SlowLog.lines, pushLines_append, hprelude, queries, start]
  exact hqueries

end SqlReplay
