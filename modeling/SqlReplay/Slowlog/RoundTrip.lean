import SqlReplay.Slowlog.Carried
import SqlReplay.Slowlog.Terminator

/-!
# What the server logged is what is parsed

A logged query is rendered as an entry of the log: a header with the user and the connection id, one
with the query time, the metadata lines and the text. Reading a list of such entries gives the
queries back, one for each, byte for byte. The database is that of the last `use` line, which may
belong to an earlier entry.

The text may contain lines that look like headers or metadata. What a line is depends on where it
stands: behind the metadata, inside a string or a comment, or where an entry could begin.

A server with `log_slow_extra` names the connection once more behind the query time, and a Percona
server the schema. What stands there replaces what the entry says elsewhere, so it has to agree
with it (`FieldsAgree`).
-/

namespace SqlReplay

/-- A query as the server logs it. -/
structure LoggedQuery where
  /-- The value of a `# Time:` header, which is not printed for every entry. -/
  time : Option Bytes
  user : Bytes
  host : Bytes
  id : ℕ
  queryTime : NumberText
  /-- The fields behind the query time. -/
  fields : Bytes
  use : Option UseName
  timestamp : NumberText
  text : Bytes

namespace LoggedQuery

/-- `u[u] @ h []  Id: n`. -/
def userHost (q : LoggedQuery) : Bytes :=
  q.user ++ ch '[' :: q.user ++ ascii "] @ " ++ q.host ++ ascii " []  Id: " ++ decimal q.id

def entry (q : LoggedQuery) : Entry where
  metadata := ⟨q.time, q.userHost, q.queryTime.text ++ ch ' ' :: q.fields, q.use, q.timestamp⟩
  statement := statementLines q.text

/-- The entry's lines. -/
def lines (q : LoggedQuery) : List Bytes := q.entry.lines

/-- What the fields behind the query time name. -/
def named (q : LoggedQuery) : Named := .ofPairs (Named.kvPairs (splitWhitespace q.fields))

/-- The database of the last `use` line. -/
def dbBehind (q : LoggedQuery) (db : Option Bytes) : Option Bytes := (q.use.map UseName.text).or db

structure IsWellFormed (q : LoggedQuery) : Prop where
  user_ne : q.user ≠ []
  user_trim : trim q.user = q.user
  user_at : ch '@' ∉ q.user
  user_bracket : ch '[' ∉ q.user
  id : q.id < 2 ^ 64
  text : IsLoggable q.text

/-- A query time, connection or schema that is named behind the query time is the entry's own. -/
structure FieldsAgree (q : LoggedQuery) (db : Option Bytes) : Prop where
  queryTime : ∀ t ∈ q.named.queryTime, t = q.queryTime.value
  threadId : ∀ id ∈ q.named.threadId, id = q.id
  schema : ∀ s ∈ q.named.schema, db = some s

/-- So it is for each of the entries, the database so far being `db`. -/
def Agree (db : Option Bytes) : List LoggedQuery → Prop
  | [] => True
  | q :: qs => q.FieldsAgree (q.dbBehind db) ∧ Agree (q.dbBehind db) qs

/-- The queries that entries log, the database so far being `db`. -/
def queries (db : Option Bytes) : List LoggedQuery → List ParsedQuery
  | [] => []
  | q :: qs =>
    let db := q.dbBehind db
    { tsMicros := microsOfSecs q.timestamp.value
      threadId := q.id
      user := some q.user
      db := db
      query := q.text
      queryTimeS := q.queryTime.value } :: queries db qs

end LoggedQuery

/-! ## The user and the connection id -/

/-- White space behind a text is trimmed away. -/
theorem trim_concat_space (s : Bytes) {c : UInt8} (hc : c < 0x80)
    (hspace : isWhitespace [c] = true) : trim (s ++ [c]) = trim s := by
  rw [trim, trim, chars_append_cons s hc, chars_nil, List.dropWhile_append]
  split_ifs with hempty
  · rw [List.isEmpty_iff.mp hempty, List.dropWhile_cons_of_pos hspace]
    rfl
  · rw [List.reverse_concat, List.dropWhile_cons_of_pos hspace]

theorem takeWhile_append_cons {a : UInt8} {s : Bytes} (h : a ∉ s) (t : Bytes) :
    (s ++ a :: t).takeWhile (· ≠ a) = s := by
  have hall : ∀ c ∈ s, decide (c ≠ a) = true := by
    intro c hc
    refine decide_eq_true ?_
    rintro rfl
    exact h hc
  rw [List.takeWhile_append_of_pos hall, List.takeWhile_cons_of_neg (by simp), List.append_nil]

theorem findIdx?_append_cons {a : UInt8} {s : Bytes} (h : a ∉ s) (t : Bytes) :
    (s ++ a :: t).findIdx? (· = a) = some s.length := by
  induction s with
  | nil => rw [List.nil_append, List.findIdx?_cons, decide_eq_true rfl, if_pos rfl]; rfl
  | cons c s ih =>
    have hne : ¬ c = a := fun heq ↦ h (heq ▸ List.mem_cons_self)
    have ih := ih fun hmem ↦ h (List.mem_cons_of_mem c hmem)
    rw [List.cons_append, List.findIdx?_cons, decide_eq_false hne, if_neg Bool.false_ne_true, ih]
    rfl

namespace LoggedQuery

variable {q : LoggedQuery}

theorem userOf_userHost (h : q.IsWellFormed) : SlowLogParser.userOf q.userHost = q.user := by
  have hbefore : q.userHost.takeWhile (· ≠ ch '@') = q.user ++ ch '[' :: q.user ++ ascii "] " := by
    have hsplit : q.userHost = (q.user ++ ch '[' :: q.user ++ ascii "] ") ++ ch '@' ::
        (ascii " " ++ q.host ++ ascii " []  Id: " ++ decimal q.id) := by
      simp only [userHost, List.append_assoc, List.cons_append]
      rfl
    rw [hsplit]
    refine takeWhile_append_cons (fun hmem ↦ ?_) _
    rcases List.mem_append.mp hmem with hmem | hmem
    · rcases List.mem_append.mp hmem with hmem | hmem
      · exact h.user_at hmem
      · rcases List.mem_cons.mp hmem with hmem | hmem
        · exact absurd hmem (by decide)
        · exact h.user_at hmem
    · exact absurd hmem (by decide)
  have htrim : trim (q.user ++ ch '[' :: q.user ++ ascii "] ") =
      q.user ++ ch '[' :: (q.user ++ [ch ']']) := by
    have hsplit : q.user ++ ch '[' :: q.user ++ ascii "] " =
        (q.user ++ ch '[' :: (q.user ++ [ch ']'])) ++ [ch ' '] := by
      simp only [List.append_assoc, List.cons_append]
      rfl
    rw [hsplit, trim_concat_space _ (by decide) (by decide)]
    refine trim_eq_self (fun c hc ↦ ?_) fun c hc ↦ ?_
    · rw [chars_append_cons _ (by decide)] at hc
      refine head_of_trim h.user_trim c ?_
      cases hchars : chars q.user with
      | nil =>
        have hflatten := chars_flatten q.user
        rw [hchars] at hflatten
        exact absurd hflatten.symm h.user_ne
      | cons d cs =>
        rw [hchars] at hc
        exact hc
    · rw [← List.cons_append, ← List.append_assoc, chars_append_cons _ (by decide), chars_nil,
        List.getLast?_concat] at hc
      obtain rfl := Option.some.inj hc
      decide
  have hlength : q.user.length ≠ 0 := fun hzero ↦ h.user_ne (List.length_eq_zero_iff.mp hzero)
  rw [SlowLogParser.userOf, hbefore, htrim]
  rw [findIdx?_append_cons h.user_bracket]
  cases hlen : q.user.length with
  | zero => exact absurd hlen hlength
  | succ n =>
    change List.take (n + 1) _ = q.user
    rw [← hlen, List.take_left]

theorem idOf_userHost (h : q.IsWellFormed) : SlowLogParser.idOf q.userHost = some q.id := by
  have hsplit : q.userHost = (q.user ++ ch '[' :: q.user ++ ascii "] @ " ++ q.host ++ ascii " []  ")
      ++ (ch 'I' :: ascii "d:" ++ ch ' ' :: decimal q.id) := by
    simp only [userHost, List.append_assoc, List.cons_append]
    rfl
  have hdigits : NoSpace (decimal q.id) :=
    noSpace_of_numberBytes fun c hc ↦ isNumberByte_of_digit (decimal_digits q.id c hc)
  have hfind : rfind (ascii "Id:") q.userHost = some (q.user ++ ch '[' :: q.user ++ ascii "] @ " ++
      q.host ++ ascii " []  ").length := by
    rw [hsplit]
    refine rfind_last _ (ascii "d:") _ (by decide) fun hmem ↦ ?_
    rcases List.mem_cons.mp hmem with hmem | hmem
    · exact absurd hmem (by decide)
    · exact absurd (decimal_digits q.id _ hmem) (by decide)
  have hdrop : q.userHost.drop ((q.user ++ ch '[' :: q.user ++ ascii "] @ " ++ q.host ++
      ascii " []  ").length + 3) = ch ' ' :: decimal q.id := by
    rw [hsplit, ← List.drop_drop, List.drop_left]
    rfl
  rw [SlowLogParser.idOf, hfind]
  dsimp only [Option.bind_eq_bind, Option.bind_some]
  rw [hdrop, splitWhitespace_cons (by decide) (by decide),
    splitWhitespace_eq_singleton hdigits (decimal_ne_nil q.id)]
  exact parseUnsigned_decimal (Nat.le_sub_one_of_lt h.id)

/-! ## The state behind the metadata -/

open SlowLogParser

/-- The carriage return of a line belongs to no word. -/
theorem splitWhitespace_stripCr (s : Bytes) : splitWhitespace (stripCr s) = splitWhitespace s := by
  rw [stripCr, stripSuffix]
  split_ifs with hlast
  · obtain ⟨s, rfl⟩ := List.getLast?_eq_some_iff.mp hlast
    rw [List.dropLast_concat, splitWhitespace_concat s (by decide) (by decide)]
    rfl
  · rfl

theorem ofLine_userHost (h : q.IsWellFormed) :
    Named.ofLine (ascii "# User@Host: " ++ q.userHost) =
      { user := some q.user, threadId := some q.id } := by
  have hstarts : startsWith (ascii "# User@Host: ") (ascii "# User@Host: " ++ q.userHost) = true :=
    rfl
  have hdrop : (ascii "# User@Host: " ++ q.userHost).drop 13 = q.userHost := rfl
  rw [Named.ofLine, if_pos hstarts, hdrop, userOf_userHost h, idOf_userHost h, Option.filter_some,
    if_pos (decide_eq_true h.user_ne)]

theorem kvPairs_fields (t : NumberText) (fields : Bytes) :
    Named.kvPairs (splitWhitespace
        (trimStart ((ascii "# Query_time: " ++ (t.text ++ ch ' ' :: fields)).dropWhile
          (· = ch '#')))) =
      (ascii "Query_time", t.text) :: Named.kvPairs (splitWhitespace fields) := by
  obtain ⟨hne, hbytes⟩ := numberBytes_of_parseF64 t.parses
  have hdrop : (ascii "# Query_time: " ++ (t.text ++ ch ' ' :: fields)).dropWhile (· = ch '#') =
      ch ' ' :: (ascii "Query_time:" ++ ch ' ' :: (t.text ++ ch ' ' :: fields)) := rfl
  have hhead : trimStart (ch ' ' :: (ascii "Query_time:" ++ ch ' ' :: (t.text ++ ch ' ' :: fields)))
      = ascii "Query_time:" ++ ch ' ' :: (t.text ++ ch ' ' :: fields) := by
    rw [trimStart, chars_cons (by decide), List.dropWhile_cons_of_pos (by decide)]
    refine trimStart_eq_self fun c hc ↦ ?_
    have hQ : ascii "Query_time:" ++ ch ' ' :: (t.text ++ ch ' ' :: fields) =
        ch 'Q' :: (ascii "uery_time:" ++ ch ' ' :: (t.text ++ ch ' ' :: fields)) := rfl
    rw [hQ, chars_cons (by decide)] at hc
    obtain rfl := Option.some.inj hc
    decide
  have hkey : NoSpace (ascii "Query_time:") := noSpace_of_all (by decide)
  have hcolon : t.text.getLast? ≠ some (ch ':') := fun hlast ↦
    (isNumberByte_spec _ (hbytes _ (List.mem_of_getLast? hlast))).2.2.2.1 rfl
  have hstrip : stripSuffix (ascii "Query_time:") (ch ':') = some (ascii "Query_time") := by decide
  rw [hdrop, hhead, splitWhitespace_word hkey (by decide) (by decide) (by decide),
    splitWhitespace_word (noSpace_of_numberBytes hbytes) hne (by decide) (by decide),
    Named.kvPairs, hstrip]
  dsimp only
  rw [if_neg hcolon]

/-- The query time is named first, and a field behind it may replace it. -/
theorem ofLine_fields (t : NumberText) (fields : Bytes) :
    Named.ofLine (ascii "# Query_time: " ++ (t.text ++ ch ' ' :: fields)) =
      (Named.ofPairs (Named.kvPairs (splitWhitespace fields))).or
        { queryTime := some t.value } := by
  have hstarts : startsWith (ascii "# User@Host: ")
      (ascii "# Query_time: " ++ (t.text ++ ch ' ' :: fields)) = false := rfl
  have hpair : (Named.ofPair (ascii "Query_time") t.text).or {} =
      Named.or {} { queryTime := some t.value } := by
    rw [Named.ofPair, if_pos rfl, t.parses]
    rfl
  rw [Named.ofLine, hstarts, if_neg Bool.false_ne_true, kvPairs_fields, Named.ofPairs,
    List.foldl_cons, hpair, Named.foldl_or fun kv : Bytes × Bytes ↦ Named.ofPair kv.1 kv.2,
    Named.ofPairs]

theorem stripCr_userHost (q : LoggedQuery) : stripCr (ascii "# User@Host: " ++ q.userHost) =
    ascii "# User@Host: " ++ q.userHost := by
  have hlast : (ascii "# User@Host: " ++ q.userHost).getLast? ≠ some 13 := by
    intro hcr
    rw [userHost, ← List.append_assoc, List.getLast?_append,
      List.getLast?_eq_some_getLast (decimal_ne_nil q.id), Option.some_or] at hcr
    have hdigit := decimal_digits q.id _ (List.getLast_mem (decimal_ne_nil q.id))
    rw [Option.some.inj hcr] at hdigit
    exact absurd hdigit (by decide)
  rw [stripCr, stripSuffix, if_neg hlast]
  rfl

/-- Pairs name no user. -/
theorem ofPairs_user (pairs : List (Bytes × Bytes)) : (Named.ofPairs pairs).user = none := by
  rw [Named.ofPairs]
  refine List.foldlRecOn (motive := fun n : Named ↦ n.user = none) pairs _ rfl fun n hn kv _ ↦ ?_
  have hpair : (Named.ofPair kv.1 kv.2).user = none := by
    rw [Named.ofPair]
    split_ifs <;> rfl
  rw [Named.or, hpair, hn, Option.or_none]

/-- What the headers of a logged query tell the parser. -/
theorem consumeMetaLines_headers (crate : TimeCrate) (p : SlowLogParser) (h : q.IsWellFormed) :
    (p.consumeMetaLines crate q.entry.metadata.headers).carried =
      (q.named.or ⟨some q.user, some q.id, none, some q.queryTime.value⟩).or p.carried := by
  -- the last two headers
  have hlast (p : SlowLogParser) :
      (p.consumeMetaLines crate [ascii "# User@Host: " ++ q.userHost,
        ascii "# Query_time: " ++ (q.queryTime.text ++ ch ' ' :: q.fields)]).carried =
        (q.named.or ⟨some q.user, some q.id, none, some q.queryTime.value⟩).or p.carried := by
    have hfields : stripCr (ascii "# Query_time: " ++ (q.queryTime.text ++ ch ' ' :: q.fields)) =
        ascii "# Query_time: " ++ (q.queryTime.text ++ ch ' ' :: stripCr q.fields) := by
      rw [← List.append_assoc, stripCr_append _ (by decide), List.append_assoc]
    have huser : (p.consumeMetaLine crate (ascii "# User@Host: " ++ q.userHost)).carried =
        Named.or { user := some q.user, threadId := some q.id } p.carried := by
      rw [consumeMetaLine_header rfl, (handleHeader_spec crate p ⟨rfl, rfl, rfl⟩).2,
        ofLine_userHost h]
    have hfield : IsFieldLine (ascii "# Query_time: " ++
        (q.queryTime.text ++ ch ' ' :: stripCr q.fields)) := ⟨rfl, rfl, rfl⟩
    have hline := (handleHeader_spec crate
      (p.consumeMetaLine crate (ascii "# User@Host: " ++ q.userHost)) hfield).2
    change ((p.consumeMetaLine crate (stripCr _)).consumeMetaLine crate (stripCr _)).carried = _
    rw [stripCr_userHost, hfields, consumeMetaLine_header rfl, hline, ofLine_fields, huser,
      splitWhitespace_stripCr, ← Named.or_assoc]
    exact congrArg (Named.or · p.carried) (Named.or_assoc _ _ _)
  rw [Metadata.headers]
  cases htime : q.entry.metadata.time with
  | none => exact hlast p
  | some s =>
    have hcarried : (p.consumeMetaLine crate (stripCr (ascii "# Time: " ++ s))).carried =
        p.carried := by
      have hstrip : stripCr (ascii "# Time: " ++ s) = ascii "# Time: " ++ stripCr s :=
        stripCr_append (ascii "# Time:") (c := ch ' ') (by decide) s
      rw [hstrip, consumeMetaLine_header rfl, handleHeader_time]
      exact (handleTime_spec crate p _).2
    rw [Option.map_some, Option.toList_some, List.singleton_append, consumeMetaLines_cons,
      ← hcarried]
    exact hlast _

/-- What agrees with a value gives it, named or not. -/
theorem or_some_of_agrees {α : Type*} {o : Option α} {a : α} (h : ∀ b ∈ o, b = a) :
    o.or (some a) = some a := by
  cases o with
  | none => rfl
  | some b => rw [h b rfl, Option.some_or]

theorem or_eq_of_agrees {α : Type*} {o o' : Option α} (h : ∀ b ∈ o, o' = some b) :
    o.or o' = o' := by
  cases o with
  | none => rfl
  | some b => rw [h b rfl, Option.some_or]

/-- The query of an entry, and the database it leaves. -/
theorem queriesOf_eq (crate : TimeCrate) {p : SlowLogParser} (hp : p.schema = none)
    {qs : List LoggedQuery} (h : ∀ q ∈ qs, q.IsWellFormed) (hagree : Agree p.currentDb qs) :
    p.queriesOf crate (qs.map entry) = queries p.currentDb qs := by
  induction qs generalizing p with
  | nil => rfl
  | cons q qs ih =>
    have hq := h q List.mem_cons_self
    obtain ⟨hfields, hagree⟩ := hagree
    have hcarried := consumeMetaLines_headers crate p hq
    have ih := ih (p := (p.withMetadata crate q.entry.metadata).settled) rfl
      (fun q' hq' ↦ h q' (List.mem_cons_of_mem q hq')) hagree
    have hseen : q.entry.seen = statementLines q.text := hq.text.map_stripCr
    set r := p.consumeMetaLines crate q.entry.metadata.headers with hr
    have huser : r.user = some q.user := by
      have hnamed : r.user = (q.named.user.or (some q.user)).or p.user :=
        congrArg Named.user hcarried
      rw [hnamed, named, ofPairs_user, Option.none_or, Option.some_or]
    have hid : r.threadId = some q.id := by
      have hnamed : r.threadId = (q.named.threadId.or (some q.id)).or p.threadId :=
        congrArg Named.threadId hcarried
      rw [hnamed, or_some_of_agrees hfields.threadId, Option.some_or]
    have htime : r.queryTimeS = q.queryTime.value := by
      have hnamed : some r.queryTimeS =
          (q.named.queryTime.or (some q.queryTime.value)).or (some p.queryTimeS) :=
        congrArg Named.queryTime hcarried
      rw [or_some_of_agrees hfields.queryTime, Option.some_or] at hnamed
      exact Option.some.inj hnamed
    have hschema : r.schema = q.named.schema := by
      have hnamed : r.schema = (q.named.schema.or none).or p.schema :=
        congrArg Named.schema hcarried
      rw [hnamed, hp, Option.or_none, Option.or_none]
    have hdb : q.named.schema.or (q.dbBehind p.currentDb) = q.dbBehind p.currentDb :=
      or_eq_of_agrees hfields.schema
    rw [List.map_cons, queriesOf, ih, hseen, hq.text.statementText_eq, queryOf, withMetadata]
    dsimp only
    rw [← hr, huser, hid, hschema, htime]
    exact congrArg (fun db ↦ (⟨_, _, _, db, _, _⟩ : ParsedQuery) :: _) hdb

end LoggedQuery

open LoggedQuery

/-- Seconds are read exactly, as long as their number of microseconds has at most 53 bits but for
its factor `2 ^ 6`. -/
theorem microsOfSecs_decimal {t : ℕ} (ht : 15625 * t < 2 ^ 53) :
    (parseF64 (decimal t)).map microsOfSecs = some (t * 1000000 : ℤ) := by
  rw [parseF64_decimal, Option.map_some]
  congr 1
  rcases Nat.eq_zero_or_pos t with rfl | hpos
  · decide +kernel
  · have hsecs := F64.IsNat.nearest t 0 1 hpos (by omega) (by omega) one_pos
    have hmillion := F64.IsNat.nearest 1000000 0 1 (by omega) (by omega)
      (by omega) one_pos
    rw [pow_zero, mul_one, mul_one] at hsecs hmillion
    have hmul := hsecs.mul hmillion (n := 15625 * t) (j := 6) (by ring) (by omega) ht (by omega)
    rw [microsOfSecs, hmul.roundToI64 (by omega)]
    norm_num

/-- Every log that the server writes, its statements being such that a log can hold them, its `use`
lines naming a database and the fields behind the query time agreeing with the entry, is parsed
back: one query for each entry, in order, with the text byte for byte, the entry's user, connection
id, query time and timestamp, and the database of the last `use` line. A timestamp of whole seconds
is exact. -/
theorem logged_round_trip (crate : TimeCrate) (qs : List LoggedQuery)
    (h : ∀ q ∈ qs, q.IsWellFormed) (huse : ∀ q ∈ qs, ∀ d ∈ q.use, d.text ≠ [])
    (hagree : Agree none qs) :
    parseLog crate (qs.flatMap LoggedQuery.lines) = queries none qs ∧
      ∀ t : ℕ, 15625 * t < 2 ^ 53 →
        (parseF64 (decimal t)).map microsOfSecs = some (t * 1000000 : ℤ) := by
  refine ⟨?_, fun t ht ↦ microsOfSecs_decimal ht⟩
  have hreads : ∀ e ∈ qs.map entry, e.Reads := by
    intro e he
    obtain ⟨q, hq, rfl⟩ := List.mem_map.mp he
    exact (h q hq).text.reads (huse q hq)
  have hlines : qs.flatMap LoggedQuery.lines = (qs.map entry).flatMap Entry.lines := by
    rw [List.flatMap_map]
    rfl
  rw [hlines, parseLog_entries crate hreads]
  exact queriesOf_eq crate rfl h hagree

/-! ## A log with two queries -/

/-- A text with a line like a header in a string. -/
def sampleText : Bytes := ascii "SELECT 'a" ++ newline :: ascii "# Time: 230901 12:00:00' FROM t"

theorem sampleText_isLoggable : IsLoggable sampleText := by
  have hlines : sampleText.splitOn newline =
      [ascii "SELECT 'a", ascii "# Time: 230901 12:00:00' FROM t"] := by decide
  refine ⟨?_, ?_, ?_, ?_, ?_⟩
  · decide +kernel
  · decide
  · rw [hlines]
    intro line hline
    obtain rfl := Option.some.inj hline
    refine ⟨⟨?_, ?_, ?_, ?_, ?_⟩, ?_⟩ <;> decide +kernel
  · rw [hlines]
    decide +kernel
  · rw [hlines]
    refine ⟨fun _ ↦ ?_, fun hstate ↦ ?_, trivial⟩
    · decide
    · exact absurd hstate (by decide +kernel)

def loggedSample (use : Option UseName) (fields : Bytes) : LoggedQuery where
  time := none
  user := ascii "app"
  host := ascii "web01"
  id := 7
  queryTime := ⟨ascii "0.5", .nearest false 1 2, by decide⟩
  fields := fields
  use := use
  timestamp := ⟨ascii "100", .nearest false 100 1, by decide⟩
  text := sampleText

theorem loggedSample_isWellFormed (use : Option UseName) (fields : Bytes) :
    (loggedSample use fields).IsWellFormed := by
  refine ⟨List.cons_ne_nil _ _, ?_, ?_, ?_, ?_, sampleText_isLoggable⟩
  · change trim (ascii "app") = ascii "app"
    exact (noSpace_of_all (by decide)).trim
  · change ch '@' ∉ ascii "app"
    decide
  · change ch '[' ∉ ascii "app"
    decide
  · change 7 < 2 ^ 64
    decide

def sampleDb : UseName :=
  ⟨ascii "shop", noSpace_of_all (by decide), by decide, by decide⟩

/-- The fields of `log_slow_extra`, and no field at all but the schema of the connection. -/
def loggedSamples : List LoggedQuery :=
  [loggedSample (some sampleDb) (ascii " Lock_time: 0.0 Rows_sent: 1 Thread_id: 7 Errno: 0"),
    loggedSample none (ascii "Schema: shop")]

/-- A log with two queries, in one database; no line of it has a time to be parsed by the crate. -/
theorem logged_round_trip_sample :
    parseLog ⟨fun _ ↦ none, fun _ _ _ _ _ _ ↦ none⟩ (loggedSamples.flatMap LoggedQuery.lines) =
      queries none loggedSamples := by
  refine (logged_round_trip _ loggedSamples ?_ ?_ ?_).1
  · rw [loggedSamples, List.forall_mem_cons, List.forall_mem_singleton]
    exact ⟨loggedSample_isWellFormed _ _, loggedSample_isWellFormed _ _⟩
  · rw [loggedSamples, List.forall_mem_cons, List.forall_mem_singleton]
    refine ⟨fun d hd ↦ ?_, fun d hd ↦ absurd hd (Option.not_mem_none d)⟩
    obtain rfl := Option.some.inj hd
    decide
  · refine ⟨⟨?_, ?_, ?_⟩, ⟨?_, ?_, ?_⟩, trivial⟩ <;> decide +kernel

/-- A `use` line without a database. -/
def emptyUse : UseName := ⟨[], noSpace_of_all (by decide), by decide, by decide⟩

/-- It is not a metadata line, but begins the statement. A connection id behind the query time is
taken for that of the header. And not every number of seconds is exact. -/
theorem empty_use_is_statement :
    (¬ ∀ (crate : TimeCrate) (qs : List LoggedQuery), (∀ q ∈ qs, q.IsWellFormed) →
      Agree none qs → parseLog crate (qs.flatMap LoggedQuery.lines) = queries none qs) ∧
    (¬ ∀ (crate : TimeCrate) (qs : List LoggedQuery), (∀ q ∈ qs, q.IsWellFormed) →
      (∀ q ∈ qs, ∀ d ∈ q.use, d.text ≠ []) →
        parseLog crate (qs.flatMap LoggedQuery.lines) = queries none qs) ∧
    (parseF64 (decimal 1000000000001)).map microsOfSecs ≠ some 1000000000001000000 := by
  refine ⟨fun h ↦ ?_, fun h ↦ ?_, by decide⟩
  · have hqs := h ⟨fun _ ↦ none, fun _ _ _ _ _ _ ↦ none⟩ [loggedSample (some emptyUse) []]
      (List.forall_mem_singleton.mpr (loggedSample_isWellFormed _ _))
      ⟨⟨by decide +kernel, by decide +kernel, by decide +kernel⟩, trivial⟩
    exact absurd hqs (by decide +kernel)
  · have hqs := h ⟨fun _ ↦ none, fun _ _ _ _ _ _ ↦ none⟩
      [loggedSample none (ascii "Thread_id: 8")]
      (List.forall_mem_singleton.mpr (loggedSample_isWellFormed _ _))
      (List.forall_mem_singleton.mpr fun d hd ↦ absurd hd (Option.not_mem_none d))
    exact absurd hqs (by decide +kernel)

end SqlReplay
