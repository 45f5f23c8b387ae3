import SqlReplay.Slowlog.Text

/-!
# The slow-log parser

`SlowLogParser` is fed the lines of a log one by one. Between two statements it reads headers and
metadata lines; a line that is neither begins a statement, which goes on until an entry header or a
restart banner comes while the text is not inside a string or a block comment. The state of the text
is carried from line to line (`scanSqlState`).

Reading a `# Time:` header is partly left to the `time` crate, whose two functions are a parameter.
What they return is only used when an entry has no `SET timestamp` line.
-/

namespace SqlReplay

inductive Dialect where
  | mysql56OrOlder
  | mysql57
  | mysql57OrNewer
  | mysql80
  | mariaDb
  deriving DecidableEq, Repr

/-- One query parsed out of the slow log. -/
structure ParsedQuery where
  tsMicros : ℤ
  threadId : ℕ
  user : Option Bytes
  db : Option Bytes
  query : Bytes
  queryTimeS : F64
  deriving DecidableEq, Repr

structure ParserStats where
  adminCommands : ℕ := 0
  restarts : ℕ := 0
  deriving DecidableEq, Repr

inductive SqlState where
  | normal
  | inString (quote : UInt8)
  | inComment
  deriving DecidableEq, Repr

/-- What the parser uses of the `time` crate, in microseconds since the epoch: reading an RFC 3339
time, and a calendar date with a time of day, in UTC. -/
structure TimeCrate where
  parseRfc3339 : Bytes → Option ℤ
  calendar : (year month day hour minute second : ℕ) → Option ℤ

structure SlowLogParser where
  dialect : Option Dialect := none
  dialectFromBanner : Bool := false
  timeMicros : Option ℤ := none
  setTsMicros : Option ℤ := none
  user : Option Bytes := none
  threadId : Option ℕ := none
  schema : Option Bytes := none
  queryTimeS : F64 := .zero
  currentDb : Option Bytes := none
  buf : Bytes := []
  inQuery : Bool := false
  sqlState : SqlState := .normal
  stats : ParserStats := {}
  deriving DecidableEq, Repr

/-! ## Lines -/

def startsWith (pat line : Bytes) : Bool := pat.isPrefixOf line

/-- Headers that begin a new entry, and so terminate a statement. -/
def isEntryHeader (line : Bytes) : Bool :=
  startsWith (ascii "# Time: ") line || startsWith (ascii "# User@Host: ") line ||
    startsWith (ascii "# Query_time: ") line || startsWith (ascii "# Thread_id: ") line ||
    startsWith (ascii "# administrator command:") line

def isRestartBanner (line : Bytes) : Bool :=
  contains (ascii ", Version: ") line && (ascii "started with:").isSuffixOf (trimEnd line)

/-- The line of the server's ports behind a banner. -/
def isPortLine (line : Bytes) : Bool :=
  startsWith (ascii "Tcp port:") line || startsWith (ascii "TCP Port:") line

/-- The line of column names behind a banner. -/
def isColumnHeader (line : Bytes) : Bool :=
  let t := trimStart line
  startsWith (ascii "Time") t && contains (ascii "Id") t && contains (ascii "Command") t &&
    contains (ascii "Argument") t

/-- `scan_sql_state`: the state of a statement's text behind a line. -/
def scanSqlState : SqlState → Bytes → SqlState
  | state, [] => state
  | .inString q, c :: rest =>
    if c = backslash ∧ q ≠ backtick then scanSqlState (.inString q) rest.tail
    else if c = q then
      if rest.head? = some q then scanSqlState (.inString q) rest.tail
      else scanSqlState .normal rest
    else scanSqlState (.inString q) rest
  | .inComment, c :: rest =>
    if c = ch '*' ∧ rest.head? = some (ch '/') then scanSqlState .normal rest.tail
    else scanSqlState .inComment rest
  | .normal, c :: rest =>
    if isQuote c then scanSqlState (.inString c) rest
    else if opensBlockComment c rest then scanSqlState .inComment rest.tail
    else if opensLineComment c rest then .normal
    else scanSqlState .normal rest
  termination_by _ b => b.length
  decreasing_by all_goals (simp only [List.length_cons, List.length_tail]; omega)

/-- `parse_use_line`. -/
def parseUseLine (t : Bytes) : Option Bytes :=
  if t.length < 5 ∨ (t.take 4).map toAsciiLowercase ≠ ascii "use " then none
  else
    let db := trim (trimEndMatches (ch ';') (trim (t.drop 4)))
    if db.head? = some backtick ∧ db.getLast? = some backtick ∧ 2 ≤ db.length then
      (some (undoubleBackticks (db.tail.dropLast))).filter (· ≠ [])
    else if db = [] ∨ (chars db).any isWhitespace then none
    else some db

/-- `(secs * 1_000_000.0).round() as i64`. -/
def microsOfSecs (secs : F64) : ℤ := (secs.mul (.nearest false 1000000 1)).roundToI64

/-- `parse_set_timestamp`. -/
def parseSetTimestamp (t : Bytes) : Option ℤ :=
  if t.length ≤ 14 ∨ (t.take 14).map toAsciiLowercase ≠ ascii "set timestamp=" then none
  else (parseF64 (trim (trimEndMatches (ch ';') (t.drop 14)))).map microsOfSecs

/-- `parse_time_value`. -/
def parseTimeValue (crate : TimeCrate) (s : Bytes) : Option (ℤ × Dialect) :=
  let s := trim s
  if ch 'T' ∈ s then (crate.parseRfc3339 s).map (·, .mysql57OrNewer)
  else do
    let (date, tod) ← match splitWhitespace s with
      | date :: tod :: _ => some (date, tod)
      | _ => none
    if date.length ≠ 6 ∨ ¬ date.all isAsciiDigit then none
    else
      let (hour, minute, second) ← match tod.splitOn (ch ':') with
        | hour :: minute :: second :: _ => some (hour, minute, second)
        | _ => none
      let hour ← parseUnsigned 255 (trim hour)
      let minute ← parseUnsigned 255 minute
      let second ← parseUnsigned 255 second
      let micros ← crate.calendar (2000 + digitsValue (date.take 2))
        (digitsValue ((date.drop 2).take 2)) (digitsValue (date.drop 4)) hour minute second
      some (micros, .mysql56OrOlder)

/-! ## The parser -/

namespace SlowLogParser

/-- A restart banner states the server's version, and the first one wins. -/
def observeBannerDialect (p : SlowLogParser) (d : Dialect) : SlowLogParser :=
  if p.dialectFromBanner then p else { p with dialect := some d, dialectFromBanner := true }

/-- The format of a `# Time:` header never overrides an earlier observation. -/
def observeTimeDialect (p : SlowLogParser) (d : Dialect) : SlowLogParser :=
  if p.dialect = none then { p with dialect := some d } else p

/-- The fields of `log_slow_extra` refine a guess. -/
def observeLogSlowExtra (p : SlowLogParser) : SlowLogParser :=
  if !p.dialectFromBanner && (p.dialect = none || p.dialect = some .mysql57OrNewer) then
    { p with dialect := some .mysql80 }
  else p

def resetEntry (p : SlowLogParser) : SlowLogParser :=
  { p with setTsMicros := none, schema := none, queryTimeS := .zero }

/-- The user of a `# User@Host:` header. -/
def userOf (rest : Bytes) : Bytes :=
  let beforeAt := trim (rest.takeWhile (· ≠ ch '@'))
  match beforeAt.findIdx? (· = ch '[') with
  | some 0 =>
    match beforeAt.findIdx? (· = ch ']') with
    | some close => (beforeAt.take close).drop 1
    | none => []
  | some open_ => beforeAt.take open_
  | none => beforeAt

/-- The connection id of a `# User@Host:` header. -/
def idOf (rest : Bytes) : Option ℕ := do
  let pos ← rfind (ascii "Id:") rest
  let tok ← (splitWhitespace (rest.drop (pos + 3))).head?
  parseUnsigned (2 ^ 64 - 1) tok

def handleUserHost (p : SlowLogParser) (rest : Bytes) : SlowLogParser :=
  { p with
    user := if userOf rest = [] then p.user else some (userOf rest)
    threadId := (idOf rest).or p.threadId }

/-- One pair of a `Key: value` line. -/
def handleKv (p : SlowLogParser) (key value : Bytes) : SlowLogParser :=
  if key = ascii "Query_time" then { p with queryTimeS := (parseF64 value).getD p.queryTimeS }
  else if key = ascii "Thread_id" then
    { p with threadId := (parseUnsigned (2 ^ 64 - 1) value).or p.threadId }
  else if key = ascii "Schema" then { p with schema := some value }
  else p

/-- The loop of `handle_kv_line`. A value is missing when the next token is itself a key. -/
def handleKvTokens (p : SlowLogParser) : List Bytes → SlowLogParser
  | [] => p
  | [_] => p
  | tok :: value :: toks =>
    match stripSuffix tok (ch ':') with
    | none => p.handleKvTokens (value :: toks)
    | some key =>
      if value.getLast? = some (ch ':') then p.handleKvTokens (value :: toks)
      else (p.handleKv key value).handleKvTokens toks

def handleKvLine (p : SlowLogParser) (line : Bytes) : SlowLogParser :=
  p.handleKvTokens (splitWhitespace (trimStart (line.dropWhile (· = ch '#'))))

def handleTime (p : SlowLogParser) (crate : TimeCrate) (rest : Bytes) : SlowLogParser :=
  match parseTimeValue crate (trim rest) with
  | some (micros, dialect) => { p with timeMicros := some micros }.observeTimeDialect dialect
  | none => p

def handleHeader (p : SlowLogParser) (crate : TimeCrate) (line : Bytes) : SlowLogParser :=
  if startsWith (ascii "# Time: ") line then p.handleTime crate (line.drop 8)
  else if startsWith (ascii "# User@Host: ") line then p.handleUserHost (line.drop 13)
  else if startsWith (ascii "# administrator command:") line then
    { p with stats.adminCommands := p.stats.adminCommands + 1 }.resetEntry
  else
    let p :=
      if startsWith (ascii "# Query_time:") line &&
          (contains (ascii "Thread_id:") line || contains (ascii "Errno:") line) then
        p.observeLogSlowExtra
      else p
    p.handleKvLine line

/-- The dialect that the version of a restart banner stands for. -/
def bannerDialect (line : Bytes) : Option Dialect :=
  (find (ascii ", Version: ") line).bind fun pos ↦
    let ver := line.drop (pos + 11)
    if contains (ascii "MariaDB") ver then some .mariaDb
    else if startsWith (ascii "5.7") ver then some .mysql57
    else if startsWith (ascii "5") ver then some .mysql56OrOlder
    else if startsWith (ascii "8") ver then some .mysql80
    else none

/-- A server that restarts begins a fresh log. -/
def restart (p : SlowLogParser) (line : Bytes) : SlowLogParser :=
  let p := { p with
    stats.restarts := p.stats.restarts + 1
    currentDb := none
    setTsMicros := none }
  match bannerDialect line with
  | some d => p.observeBannerDialect d
  | none => p

/-- `handle_banner`, and whether the line was one. -/
def handleBanner (p : SlowLogParser) (line : Bytes) : SlowLogParser × Bool :=
  if isRestartBanner line then (p.restart line, true)
  else (p, isPortLine line || isColumnHeader line)

def appendQueryLine (p : SlowLogParser) (line : Bytes) : SlowLogParser :=
  { p with
    buf := (if p.buf = [] then [] else p.buf ++ [newline]) ++ line
    sqlState := scanSqlState p.sqlState line }

/-- Statement text begins. -/
def beginQuery (p : SlowLogParser) (line : Bytes) : SlowLogParser :=
  { p with inQuery := true, buf := [], sqlState := .normal }.appendQueryLine line

/-- `consume_meta_line`: a line outside of statement text. -/
def consumeMetaLine (p : SlowLogParser) (crate : TimeCrate) (line : Bytes) : SlowLogParser :=
  if line.head? = some (ch '#') then p.handleHeader crate line
  else if (p.handleBanner line).2 then (p.handleBanner line).1
  else
    let t := trim line
    if t = [] then p
    else
      match if p.setTsMicros = none then parseUseLine t else none with
      | some db => { p with currentDb := some db }
      | none =>
        match parseSetTimestamp t with
        | some ts => { p with setTsMicros := some ts }
        | none => p.beginQuery line

/-- The text of a statement without its terminator. -/
def statementText (buf : Bytes) : Bytes :=
  let q := trimEnd buf
  if q.getLast? = some (ch ';') then trimEnd q.dropLast else q

/-- `take_query`. -/
def takeQuery (p : SlowLogParser) : SlowLogParser × Option ParsedQuery :=
  if !p.inQuery then (p, none)
  else
    let q := statementText p.buf
    ({ p with inQuery := false, sqlState := .normal, buf := [] }.resetEntry,
      if q = [] then none
      else some
        { tsMicros := (p.setTsMicros.or p.timeMicros).getD 0
          threadId := p.threadId.getD 0
          user := p.user
          db := p.schema.or p.currentDb
          query := q
          queryTimeS := p.queryTimeS })

/-- A line without the carriage return at its end. -/
def stripCr (line : Bytes) : Bytes := (stripSuffix line 13).getD line

/-- `push_line`. -/
def pushLine (p : SlowLogParser) (crate : TimeCrate) (line : Bytes) :
    SlowLogParser × Option ParsedQuery :=
  let line := stripCr line
  if p.inQuery then
    if p.sqlState = .normal && (isEntryHeader line || isRestartBanner line) then
      let r := p.takeQuery
      (r.1.consumeMetaLine crate line, r.2)
    else (p.appendQueryLine line, none)
  else (p.consumeMetaLine crate line, none)

/-- The lines of a log, one after the other. -/
def pushLines (p : SlowLogParser) (crate : TimeCrate) :
    List Bytes → SlowLogParser × List ParsedQuery
  | [] => (p, [])
  | line :: lines =>
    let r := p.pushLine crate line
    ((r.1.pushLines crate lines).1, r.2.toList ++ (r.1.pushLines crate lines).2)

/-- `finish`. -/
def finish (p : SlowLogParser) : Option ParsedQuery := p.takeQuery.2

end SlowLogParser

/-- The queries of a log. -/
def parseLog (crate : TimeCrate) (lines : List Bytes) : List ParsedQuery :=
  let r := SlowLogParser.pushLines {} crate lines
  r.2 ++ r.1.finish.toList

end SqlReplay
