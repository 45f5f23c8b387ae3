import SqlReplay.Capture.Event
import SqlReplay.Proto.Text
import SqlReplay.Replay.Metrics
import SqlReplay.Sql.Classify
import SqlReplay.Task.Program

/-!
# Session tasks

One task replays one session of the capture: it reads the session's events one by one, waits until
each is due, sends what the write gate lets through and records every event once. The two bodies,
on a connection of its own (`runSessionDedicated`) and on connections checked out of a pool for
each event (`runSessionPooled`), are programs over the operations of `Op`. Operations that look at
the shutdown flag, the semaphore or the pool have their responses from the shared state, and the
target may respond as it likes.

A `select!` between the shutdown flag and something else is one operation with two responses.
Spool reads succeed, so a session's events are a list. The gauge of waiting sessions, which only
the saturation sampler reads, is left out, and so are the pacer's lag statistics.
-/

namespace SqlReplay

/-- Per-session scheduling metadata. -/
structure SessionMeta where
  sessionId : ℕ
  /-- Whether any event passes the write gate. -/
  hasExecutable : Bool
  deriving DecidableEq, Repr

/-- What a pass reads of the options. -/
structure ReplayOptions where
  maxConnections : ℕ
  allowWrites : Bool
  dbOverride : Option Bytes
  /-- The database named in the target's URL. -/
  urlDb : Option Bytes
  pool : Option ℕ
  checksum : Bool
  deriving DecidableEq, Repr

namespace ReplayOptions

/-- `connection_cap`. -/
def connectionCap (o : ReplayOptions) : ℕ := max (o.pool.getD o.maxConnections) 1

def useEventDb (o : ReplayOptions) : Bool := o.dbOverride.isNone

/-- The database new connections start in. -/
def defaultDb (o : ReplayOptions) : Option Bytes := o.dbOverride.orElse fun _ ↦ o.urlDb

end ReplayOptions

/-! ## Operations -/

/-- A query-execution error; a fatal one means that the connection is dead. -/
structure TargetError where
  message : Bytes
  fatal : Bool
  deriving DecidableEq, Repr

abbrev ConnId := ℕ

/-- A pooled connection and the database it is in. -/
structure IdleConn where
  conn : ConnId
  db : Option Bytes
  deriving DecidableEq, Repr

/-- The response of a `select!` with the shutdown flag. -/
inductive Wake where
  | aborted
  | ready
  deriving DecidableEq, Repr

/-- The statement that moves a connection to a database. -/
def useStatement (db : Bytes) : Bytes :=
  ascii "USE " ++ backtick :: doubleBackticks db ++ [backtick]

inductive Op where
  /-- Wait until an event is due. -/
  | waitUntilDue (ev : Event)
  /-- Take a permit of the semaphore. -/
  | acquire
  /-- Give it back. -/
  | release
  | connect
  /-- `*shutdown.borrow()`. -/
  | shutdownFlag
  /-- Wait until an event is due and record the lag. -/
  | pace (ev : Event)
  /-- `query` with the statement that moves a connection to a database (`useStatement`). -/
  | use (conn : ConnId) (db : Bytes)
  | query (conn : ConnId) (sql : Bytes)
  | queryChecksum (conn : ConnId) (sql : Bytes)
  /-- The microseconds since a statement was sent. -/
  | elapsed
  | recordOk (fp : UInt32) (micros : ℕ) (outcome : ExecOutcome)
  | recordErr (fp : UInt32) (msg : Bytes)
  | recordSkip (fp : UInt32)
  | recordNotRun (fp : UInt32)
  | connectFailure
  /-- `idle.pop()`. -/
  | popIdle
  | checkin (pc : IdleConn)
  | disconnect (conn : ConnId)
  /-- A connection goes out of scope. -/
  | dropConn (conn : ConnId)

/-- The type of responses of an operation. -/
@[reducible]
def Op.Res : Op → Type
  | .waitUntilDue _ | .acquire | .pace _ => Wake
  | .connect => Except TargetError ConnId
  | .shutdownFlag => Bool
  | .use _ _ | .query _ _ => Except TargetError ℕ
  | .queryChecksum _ _ => Except TargetError (Option ResultChecksum)
  | .elapsed => ℕ
  | .popIdle => Option IdleConn
  | _ => Unit

instance (op : Op) : Nonempty op.Res := by
  cases op with
  | waitUntilDue _ | acquire | pace _ => exact ⟨.ready⟩
  | connect => exact ⟨.ok 0⟩
  | shutdownFlag => exact ⟨false⟩
  | use _ _ | query _ _ => exact ⟨.ok 0⟩
  | queryChecksum _ _ => exact ⟨.ok none⟩
  | elapsed => exact ⟨0⟩
  | popIdle => exact ⟨none⟩
  | _ => exact ⟨()⟩

namespace Replay

open Program

abbrev Task := Program Op.Res

abbrev waitUntilDue (ev : Event) : Task Wake := perform (Op.waitUntilDue ev)

abbrev acquire : Task Wake := perform Op.acquire

abbrev release : Task Unit := perform Op.release

abbrev connect : Task (Except TargetError ConnId) := perform Op.connect

abbrev shutdownFlag : Task Bool := perform Op.shutdownFlag

abbrev pace (ev : Event) : Task Wake := perform (Op.pace ev)

abbrev use (conn : ConnId) (db : Bytes) : Task (Except TargetError ℕ) := perform (Op.use conn db)

abbrev query (conn : ConnId) (sql : Bytes) : Task (Except TargetError ℕ) :=
  perform (Op.query conn sql)

abbrev queryChecksum (conn : ConnId) (sql : Bytes) :
    Task (Except TargetError (Option ResultChecksum)) :=
  perform (Op.queryChecksum conn sql)

abbrev elapsed : Task ℕ := perform Op.elapsed

abbrev popIdle : Task (Option IdleConn) := perform Op.popIdle

/-- An operation without a response. -/
abbrev tell (op : Op) : Task Unit :=
  .call op fun _ ↦ .done ()

/-! ## Statements -/

/-- The message of a `USE` that failed. -/
def useFailure (db : Bytes) (e : TargetError) : Bytes :=
  ascii "USE " ++ backtick :: db ++ backtick :: ascii ": " ++ e.message

/-- `execute_event`: reads are checksummed when the pass runs with `--checksum`. -/
def executeEvent (conn : ConnId) (sql : Bytes) (checksum : Bool) :
    Task (Except TargetError ExecOutcome) :=
  if checksum && shouldExecute sql false then do
    match ← queryChecksum conn sql with
    | .ok (some cs) => pure (.ok ⟨cs.bytesTotal, .set cs⟩)
    | .ok none => pure (.ok ⟨0, .noResult⟩)
    | .error e => pure (.error e)
  else do
    match ← query conn sql with
    | .ok bytes => pure (.ok ⟨bytes, .off⟩)
    | .error e => pure (.error e)

/-- The database of a connection moved to that of an event, when the pass uses the events'
databases: the database it is in then, or the error of the `USE`, which is recorded. -/
def reconcile (o : ReplayOptions) (conn : ConnId) (current : Option Bytes) (ev : Event) :
    Task (Except TargetError (Option Bytes)) :=
  match if o.useEventDb then ev.db else none with
  | none => pure (.ok current)
  | some db =>
    if current = some db then pure (.ok current)
    else do
      match ← use conn db with
      | .ok _ => pure (.ok (some db))
      | .error e =>
        tell (.recordErr ev.fingerprintId (useFailure db e))
        pure (.error e)

/-! ## Draining -/

inductive DrainAs where
  | skipped
  | notRun
  deriving DecidableEq, Repr

/-- The record of a drained event. -/
def DrainAs.record (how : DrainAs) (ev : Event) : Op :=
  match how with
  | .skipped => .recordSkip ev.fingerprintId
  | .notRun => .recordNotRun ev.fingerprintId

/-- `drain_recording`. -/
def drainRecording (how : DrainAs) : List Event → Task Unit
  | [] => pure ()
  | ev :: events =>
    .call (how.record ev) fun _ ↦ drainRecording how events

/-! ## Sessions on a connection of their own -/

/-- How the event loop of a dedicated session ends. -/
inductive LoopEnd where
  /-- By `break`, or with the last event. -/
  | finished
  /-- By `return`, the connection being dead. -/
  | lost
  deriving DecidableEq, Repr

/-- The event loop of `run_session_dedicated`. -/
def dedicatedLoop (o : ReplayOptions) (conn : ConnId) :
    Option Bytes → List Event → Task LoopEnd
  | _, [] => pure .finished
  | current, ev :: events => do
    if ← shutdownFlag then
      drainRecording .notRun (ev :: events)
      pure .finished
    else
      match ← pace ev with
      | .aborted =>
        drainRecording .notRun (ev :: events)
        pure .finished
      | .ready =>
        if !shouldExecute ev.query o.allowWrites then
          tell (.recordSkip ev.fingerprintId)
          dedicatedLoop o conn current events
        else if !o.useEventDb && isUseStatement ev.query then
          tell (.recordSkip ev.fingerprintId)
          dedicatedLoop o conn current events
        else
          match ← reconcile o conn current ev with
          | .error e =>
            if e.fatal then
              drainRecording .notRun events
              pure .lost
            else dedicatedLoop o conn current events
          | .ok current =>
            match ← executeEvent conn ev.query o.checksum with
            | .ok outcome =>
              let micros ← elapsed
              tell (.recordOk ev.fingerprintId micros outcome)
              dedicatedLoop o conn current events
            | .error e =>
              tell (.recordErr ev.fingerprintId e.message)
              if e.fatal then
                drainRecording .notRun events
                pure .lost
              else dedicatedLoop o conn current events

/-- `run_session_dedicated` under its permit. -/
def dedicatedConnected (o : ReplayOptions) (events : List Event) : Task Unit := do
  match ← connect with
  | .error _ =>
    tell .connectFailure
    drainRecording .notRun events
  | .ok conn =>
    match ← dedicatedLoop o conn none events with
    | .finished => tell (.disconnect conn)
    | .lost => tell (.dropConn conn)

/-- `run_session_dedicated`. -/
def runSessionDedicated (o : ReplayOptions) : List Event → Task Unit
  | [] => pure ()
  | first :: events => do
    match ← waitUntilDue first with
    | .aborted => drainRecording .notRun (first :: events)
    | .ready =>
      match ← acquire with
      | .aborted => drainRecording .notRun (first :: events)
      | .ready =>
        dedicatedConnected o (first :: events)
        release

/-! ## Sessions on pooled connections -/

/-- `ConnPool::checkout`. -/
def checkout (o : ReplayOptions) : Task (Except TargetError IdleConn) := do
  match ← popIdle with
  | some idle => pure (.ok idle)
  | none =>
    match ← connect with
    | .ok conn => pure (.ok ⟨conn, o.defaultDb⟩)
    | .error e => pure (.error e)

/-- A connection goes back to the pool, unless it is dead. -/
def giveBack (pc : IdleConn) (e : TargetError) : Task Unit :=
  if e.fatal then tell (.dropConn pc.conn) else tell (.checkin pc)

/-- One event of a pooled session under its permit. -/
def pooledEvent (o : ReplayOptions) (ev : Event) : Task Unit := do
  match ← checkout o with
  | .error _ =>
    tell .connectFailure
    tell (.recordNotRun ev.fingerprintId)
  | .ok pc =>
    match ← reconcile o pc.conn pc.db ev with
    | .error e => giveBack pc e
    | .ok db =>
      match ← executeEvent pc.conn ev.query o.checksum with
      | .ok outcome =>
        let micros ← elapsed
        tell (.recordOk ev.fingerprintId micros outcome)
        tell (.checkin ⟨pc.conn, db⟩)
      | .error e =>
        tell (.recordErr ev.fingerprintId e.message)
        giveBack ⟨pc.conn, db⟩ e

/-- `run_session_pooled`. -/
def runSessionPooled (o : ReplayOptions) : List Event → Task Unit
  | [] => pure ()
  | ev :: events => do
    if ← shutdownFlag then drainRecording .notRun (ev :: events)
    else
      match ← pace ev with
      | .aborted => drainRecording .notRun (ev :: events)
      | .ready =>
        if !shouldExecute ev.query o.allowWrites then
          tell (.recordSkip ev.fingerprintId)
          runSessionPooled o events
        else if isUseStatement ev.query then
          tell (.recordSkip ev.fingerprintId)
          runSessionPooled o events
        else
          match ← acquire with
          | .aborted => drainRecording .notRun (ev :: events)
          | .ready =>
            pooledEvent o ev
            release
            runSessionPooled o events

/-- `run_session`: a session without an executable statement is skipped before it can reach the
target. -/
def runSession (o : ReplayOptions) (m : SessionMeta) (events : List Event) :
    Task Unit :=
  if !m.hasExecutable then drainRecording .skipped events
  else if o.pool.isSome then runSessionPooled o events
  else runSessionDedicated o events

end Replay

end SqlReplay
