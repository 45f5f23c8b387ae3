import Mathlib.Data.Finset.Card
import Mathlib.Data.Finset.Dedup
import SqlReplay.Capture.Registry
import SqlReplay.Slowlog.Parser

/-!
# Capturing a slow log

`runCapture` feeds the lines of a slow log to the parser and writes a capture: the header, one event
for each query, with the id of its fingerprint, and the summary, whose counts and texts are known
only at the end. Reading and writing succeed here, and the version of the tool and the time of the
capture, which only the header names, are given.

The log need not be UTF-8: each line is converted by itself, replacing what is ill-formed.
-/

namespace SqlReplay

structure CaptureWriter where
  enc : Bytes

def CaptureWriter.write (serde : SerdeJson) (w : CaptureWriter) (rec : Record) : CaptureWriter :=
  ⟨w.enc ++ serde.toWriter rec ++ [newline]⟩

structure EventEmitter where
  registry : FingerprintRegistry
  writer : CaptureWriter
  sessions : Finset ℕ
  eventCount : ℕ

namespace EventEmitter

variable (serde : SerdeJson)

def create (toolVersion createdAt : Bytes) : EventEmitter :=
  ⟨.new, CaptureWriter.write serde ⟨[]⟩ (.header ⟨FORMAT_VERSION, toolVersion, createdAt⟩), ∅, 0⟩

def emit (em : EventEmitter) (event : Event) : EventEmitter :=
  let r := em.registry.intern event.query
  let event := { event with fingerprintId := r.2 }
  { registry := r.1
    writer := em.writer.write serde (.event event)
    sessions := insert event.sessionId em.sessions
    eventCount := em.eventCount + 1 }

/-- `finish`: the summary as it is written, and the file. -/
def finish (em : EventEmitter) (summary : Summary) : Summary × Bytes :=
  let summary := { summary with
    eventCount := em.eventCount
    sessionCount := em.sessions.card
    fingerprints := FingerprintRegistry.table em.registry.texts }
  (summary, (em.writer.write serde (.summary summary)).enc)

end EventEmitter

def Dialect.asStr : Dialect → Bytes
  | .mysql56OrOlder => ascii "mysql-5.6-or-older"
  | .mysql57 => ascii "mysql-5.7"
  | .mysql57OrNewer => ascii "mysql-5.7-or-newer"
  | .mysql80 => ascii "mysql-8.0"
  | .mariaDb => ascii "mariadb"

/-- The event of a query; the emitter interns its fingerprint. -/
def ParsedQuery.toEvent (pq : ParsedQuery) : Event where
  tsMicros := pq.tsMicros
  sessionId := pq.threadId
  user := pq.user
  db := pq.db
  query := pq.query
  origQueryTimeS := pq.queryTimeS
  fingerprintId := 0

/-- `trim_end_matches(['\n', '\r'])`. -/
def trimLineEndings (line : Bytes) : Bytes :=
  (line.reverse.dropWhile fun c ↦ c = newline ∨ c = 13).reverse

/-- The lines of a log. -/
def logLines (log : Bytes) : List Bytes :=
  (readUntil log).map fun raw ↦ trimLineEndings (fromUtf8Lossy raw)

/-- `run_capture`: the summary it returns, and the file it writes. -/
def runCapture (serde : SerdeJson) (crate : TimeCrate) (toolVersion createdAt : Bytes)
    (log : Bytes) (dialectOverride : Option Bytes) : Summary × Bytes :=
  let r := SlowLogParser.pushLines {} crate (logLines log)
  let em := (r.2 ++ r.1.finish.toList).foldl (fun em pq ↦ em.emit serde pq.toEvent)
    (EventEmitter.create serde toolVersion createdAt)
  let parser := r.1.takeQuery.1
  em.finish serde
    { sourceDialect :=
        (dialectOverride.or (parser.dialect.map Dialect.asStr)).getD (ascii "unknown")
      eventCount := 0
      sessionCount := 0
      adminCommandsIgnored := parser.stats.adminCommands
      serverRestartsSeen := parser.stats.restarts
      pcap := none
      fingerprints := [] }

/-- The queries of a log. -/
def logQueries (crate : TimeCrate) (log : Bytes) : List ParsedQuery :=
  parseLog crate (logLines log)

/-! ## What is written -/

/-- The lines of some records. -/
def linesOf (serde : SerdeJson) (rs : List Record) : Bytes :=
  rs.flatMap fun r ↦ serde.toWriter r ++ [newline]

theorem linesOf_append (serde : SerdeJson) (rs rs' : List Record) :
    linesOf serde (rs ++ rs') = linesOf serde rs ++ linesOf serde rs' := List.flatMap_append

theorem CaptureWriter.write_linesOf (serde : SerdeJson) (rs : List Record) (r : Record) :
    CaptureWriter.write serde ⟨linesOf serde rs⟩ r = ⟨linesOf serde (rs ++ [r])⟩ := by
  rw [write, linesOf_append, linesOf, linesOf, List.flatMap_singleton, List.append_assoc]

/-- An event with the id of its fingerprint, among the fingerprints of a log. -/
def Event.interned (event : Event) (fps : List Bytes) : Event :=
  { event with fingerprintId := FingerprintRegistry.idOf fps (fingerprint event.query) }

/-- The fingerprints of some events. -/
def fingerprints (events : List Event) : List Bytes := events.map fun e ↦ fingerprint e.query

namespace EventEmitter

variable {serde : SerdeJson}

/-- Ids do not change when more events come. -/
theorem map_interned_append (events : List Event) (more : List Bytes) :
    (events.map fun e ↦ e.interned (fingerprints events ++ more)) =
      events.map fun e ↦ e.interned (fingerprints events) := by
  apply List.map_congr_left
  intro e he
  have hmem : fingerprint e.query ∈ fingerprints events := List.mem_map_of_mem he
  rw [Event.interned, Event.interned, FingerprintRegistry.idOf_append hmem]

/-- The emitter after some events: what it has written, and what it has counted. -/
theorem foldl_emit (events : List Event) (toolVersion createdAt : Bytes) :
    events.foldl (emit serde) (create serde toolVersion createdAt) =
      { registry := .of (fingerprints events)
        writer := ⟨linesOf serde (.header ⟨FORMAT_VERSION, toolVersion, createdAt⟩ ::
          (events.map fun e ↦ e.interned (fingerprints events)).map .event)⟩
        sessions := (events.map (·.sessionId)).toFinset
        eventCount := events.length } := by
  induction events using List.reverseRecOn with
  | nil =>
    rw [List.foldl_nil, create, FingerprintRegistry.new_eq_of]
    refine congrArg (fun w ↦ EventEmitter.mk _ w _ _) ?_
    exact CaptureWriter.write_linesOf serde [] _
  | append_singleton events e ih =>
    have hfps : fingerprints (events ++ [e]) = fingerprints events ++ [fingerprint e.query] := by
      rw [fingerprints, List.map_append]
      rfl
    rw [List.foldl_concat, ih, emit]
    dsimp only
    rw [FingerprintRegistry.intern_of, CaptureWriter.write_linesOf, hfps, List.map_append,
      map_interned_append, List.map_append, List.map_append, List.toFinset_append,
      List.length_append, ← List.cons_append]
    refine congrArg (fun s ↦ EventEmitter.mk _ _ s _) ?_
    rw [Finset.insert_eq, Finset.union_comm]
    rfl

end EventEmitter

section Written

variable (crate : TimeCrate) (log : Bytes)

/-- The events of a log, with their fingerprint ids. -/
def loggedEvents : List Event :=
  let events := (logQueries crate log).map ParsedQuery.toEvent
  events.map fun e ↦ e.interned (fingerprints events)

/-- The records of a capture with a summary. -/
def recordsWritten (toolVersion createdAt : Bytes) (summary : Summary) : List Record :=
  .header ⟨FORMAT_VERSION, toolVersion, createdAt⟩ :: (loggedEvents crate log).map .event ++
    [.summary summary]

/-- The file holds the header, the events and the summary; the summary counts the events and the
sessions, and lists the fingerprints. -/
theorem runCapture_spec (serde : SerdeJson) (toolVersion createdAt : Bytes)
    (dialectOverride : Option Bytes) :
    let r := runCapture serde crate toolVersion createdAt log dialectOverride
    r.2 = linesOf serde (recordsWritten crate log toolVersion createdAt r.1) ∧
      r.1.eventCount = (loggedEvents crate log).length ∧
      r.1.sessionCount = ((loggedEvents crate log).map (·.sessionId)).toFinset.card ∧
      r.1.fingerprints = FingerprintRegistry.table
        ((logQueries crate log).map fun q ↦ fingerprint q.query).eraseDups := by
  intro r
  have hfold : (logQueries crate log).foldl (fun em pq ↦ em.emit serde pq.toEvent)
      (EventEmitter.create serde toolVersion createdAt) =
      ((logQueries crate log).map ParsedQuery.toEvent).foldl (EventEmitter.emit serde)
        (EventEmitter.create serde toolVersion createdAt) := List.foldl_map.symm
  have hr : r = (EventEmitter.finish serde ((logQueries crate log).foldl
      (fun em pq ↦ em.emit serde pq.toEvent)
      (EventEmitter.create serde toolVersion createdAt)) _) := rfl
  rw [hfold, EventEmitter.foldl_emit] at hr
  rw [hr, EventEmitter.finish]
  dsimp only
  rw [CaptureWriter.write_linesOf]
  refine ⟨rfl, ?_, ?_, ?_⟩
  · simp only [loggedEvents, List.length_map]
  · rw [loggedEvents, List.map_map, List.map_map, List.map_map]
    rfl
  · rw [fingerprints, List.map_map]
    rfl

/-- The other fields of the summary are the parser's. -/
theorem runCapture_stats (serde : SerdeJson) (toolVersion createdAt : Bytes)
    (dialectOverride : Option Bytes) :
    let r := runCapture serde crate toolVersion createdAt log dialectOverride
    let parser := (SlowLogParser.pushLines {} crate (logLines log)).1.takeQuery.1
    r.1.sourceDialect =
        (dialectOverride.or (parser.dialect.map Dialect.asStr)).getD (ascii "unknown") ∧
      r.1.adminCommandsIgnored = parser.stats.adminCommands ∧
      r.1.serverRestartsSeen = parser.stats.restarts ∧ r.1.pcap = none :=
  ⟨rfl, rfl, rfl, rfl⟩

end Written

end SqlReplay
