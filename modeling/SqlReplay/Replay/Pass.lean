import SqlReplay.Replay.Handling
import SqlReplay.Task.Interleave

/-!
# A pass over all sessions

One task for each session, over what they share: the shutdown flag, the semaphore, the shelf of idle
connections, the metrics, and at the other end of the wire the database each connection is in. A
session comes with its metadata, in which the shortcut of the write gate agrees with its events;
both ways to read a capture make sessions like that.

What the target answers is not determined, and neither is who comes next or when the flag flips. The
target is trusted in one respect only: it moves a connection to another database when a `USE`
statement succeeds there, and not otherwise (`TargetDb`).
-/

namespace SqlReplay

/-- A session as it is handed to a pass. -/
structure ReplaySession (o : ReplayOptions) where
  info : SessionMeta
  events : List Event
  hasExecutable_eq :
    info.hasExecutable = events.any fun ev ↦ shouldExecute ev.query o.allowWrites

/-- The session of a list of events. -/
def ReplaySession.ofEvents (o : ReplayOptions) (sessionId : ℕ) (events : List Event) :
    ReplaySession o :=
  ⟨⟨sessionId, events.any fun ev ↦ shouldExecute ev.query o.allowWrites⟩, events, rfl⟩

/-- How a target reads `USE` statements: the database a statement moves its connection to. Only what
`is_use_statement` takes for one does. A server moves on `/*!99999 SELECT */ USE b` as well, whose
first word is another one, when it is older than the version in the comment. -/
structure TargetDb where
  useDb : Bytes → Option Bytes
  useDb_useStatement : ∀ db, useDb (useStatement db) = some db
  isUseStatement_of_useDb : ∀ sql db, useDb sql = some db → isUseStatement sql = true

/-- What the sessions of a pass share. -/
structure PassState where
  shutdown : Bool
  permits : ℕ
  /-- The idle connections of the pool, the next one to be taken first. -/
  idle : List IdleConn
  /-- The connections opened. -/
  opened : ℕ
  /-- The database a connection is in, at the target. -/
  database : ConnId → Option Bytes
  metrics : Metrics

/-- What an operation does to the metrics. -/
def Metrics.tally (m : Metrics) (e : (op : Op) × op.Res) : Metrics :=
  match e.1 with
  | .recordOk fp micros outcome => m.recordOk fp micros outcome
  | .recordErr fp msg => m.recordErr fp msg
  | .recordSkip fp => m.recordSkip fp
  | .recordNotRun fp => m.recordNotRun fp
  | .connectFailure => m.connectFailure
  | _ => m

namespace PassState

/-- The start of `run_pass`. -/
def new (o : ReplayOptions) (shutdown : Bool) : PassState :=
  ⟨shutdown, o.connectionCap, [], 0, fun _ ↦ none, .new⟩

/-- What the shared state can respond: an abort takes the flag, a permit takes one to be left, and
the shelf hands out what was put there last. -/
def possible (s : PassState) : (op : Op) → op.Res → Bool
  | .waitUntilDue _, .aborted | .pace _, .aborted | .acquire, .aborted => s.shutdown
  | .acquire, .ready => 0 < s.permits
  | .connect, .ok conn => conn == s.opened
  | .shutdownFlag, flag => flag == s.shutdown
  | .popIdle, idle => idle == s.idle.head?
  | _, _ => true

/-- The databases behind a statement that has succeeded. -/
def moved (T : TargetDb) (s : PassState) (conn : ConnId) (sql : Bytes) : ConnId → Option Bytes :=
  match T.useDb sql with
  | some db => Function.update s.database conn (some db)
  | none => s.database

/-- The state behind an operation and its response. -/
def after (o : ReplayOptions) (T : TargetDb) (s : PassState) (op : Op) (r : op.Res) :
    PassState where
  shutdown := s.shutdown
  permits :=
    match op, r with
    | .acquire, .ready => s.permits - 1
    | .release, _ => s.permits + 1
    | _, _ => s.permits
  idle :=
    match op, r with
    | .popIdle, _ => s.idle.tail
    | .checkin pc, _ => pc :: s.idle
    | _, _ => s.idle
  opened :=
    match op, r with
    | .connect, .ok _ => s.opened + 1
    | _, _ => s.opened
  database :=
    match op, r with
    | .connect, .ok conn => Function.update s.database conn o.defaultDb
    | .use conn db, .ok _ => s.moved T conn (useStatement db)
    | .query conn sql, .ok _ => s.moved T conn sql
    | .queryChecksum conn sql, .ok _ => s.moved T conn sql
    | _, _ => s.database
  metrics := s.metrics.tally ⟨op, r⟩

/-- A step of a session, as the others see it. -/
def Responds (o : ReplayOptions) (T : TargetDb) (s : PassState) (op : Op) (r : op.Res)
    (s' : PassState) : Prop :=
  s.possible op r = true ∧ s' = s.after o T op r

/-- The flag flips. -/
def Flips (s s' : PassState) : Prop := s' = { s with shutdown := true }

end PassState

/-- The sessions of a pass and what they share. -/
abbrev Pass (n : ℕ) := Tasks Op.Res PassState (Fin n)

namespace Pass

variable {n : ℕ}

/-- The start of a pass, the flag being set or not. -/
def new (o : ReplayOptions) (shutdown : Bool) (sessions : Fin n → ReplaySession o) : Pass n :=
  .start (.new o shutdown) fun i ↦ Replay.runSession o (sessions i).info (sessions i).events

/-- What a pass can come to. -/
def Reaches (o : ReplayOptions) (T : TargetDb) (sessions : Fin n → ReplaySession o) (c : Pass n) :
    Prop :=
  ∃ shutdown, Tasks.Reachable (PassState.Responds o T) PassState.Flips (new o shutdown sessions) c

end Pass

/-! ## An obliging target -/

/-- The name in backquotes at the head of a text, behind the first backquote. -/
def unquoteName : Bytes → Bytes
  | [] => []
  | c :: rest =>
    if c = backtick then
      match rest with
      | [] => []
      | d :: rest => if d = backtick then backtick :: unquoteName rest else []
    else c :: unquoteName rest

theorem unquoteName_doubleBackticks (db : Bytes) :
    unquoteName (doubleBackticks db ++ [backtick]) = db := by
  induction db with
  | nil => rfl
  | cons c db ih =>
    rw [doubleBackticks, List.flatMap_cons, ← doubleBackticks]
    by_cases hc : c = backtick
    · rw [if_pos hc, hc]
      change unquoteName (backtick :: backtick :: (doubleBackticks db ++ [backtick])) = _
      unfold unquoteName
      dsimp only
      rw [if_pos rfl, if_pos rfl, ih]
    · rw [if_neg hc]
      change unquoteName (c :: (doubleBackticks db ++ [backtick])) = _
      unfold unquoteName
      rw [if_neg hc, ih]

theorem isUseStatement_useStatement (db : Bytes) : isUseStatement (useStatement db) = true := by
  have htext : useStatement db =
      ch 'U' :: ch 'S' :: ch 'E' :: ch ' ' :: backtick :: (doubleBackticks db ++ [backtick]) := rfl
  have hword : isWordStart (ch 'U') = true := rfl
  rw [isUseStatement, TokenScanner.nextWord, TokenScanner.new, htext, TokenScanner.nextWordFrom]
  simp only [hword]
  rfl

/-- A target that reads the name behind a leading keyword, in backquotes or plain. -/
def TargetDb.plain : TargetDb where
  useDb sql :=
    if isUseStatement sql then
      match sql.drop 4 with
      | [] => none
      | c :: rest => some (if c = backtick then unquoteName rest else c :: rest)
    else none
  useDb_useStatement db := by
    rw [if_pos (isUseStatement_useStatement db)]
    exact congrArg some (unquoteName_doubleBackticks db)
  isUseStatement_of_useDb sql db h := by
    by_contra hno
    rw [if_neg hno] at h
    exact nomatch h

namespace PassState

/-- The answers of a target on which everything succeeds in no time. -/
def obligingAnswer (s : PassState) : (op : Op) → op.Res
  | .waitUntilDue _ | .pace _ | .acquire => .ready
  | .connect => .ok s.opened
  | .shutdownFlag => s.shutdown
  | .use _ _ | .query _ _ => .ok 0
  | .queryChecksum _ _ => .ok none
  | .elapsed => 0
  | .popIdle => s.idle.head?
  | .release | .recordOk .. | .recordErr .. | .recordSkip _ | .recordNotRun _
  | .connectFailure | .checkin _ | .disconnect _ | .dropConn _ => ()

/-- A step against such a target. Without a permit left, a task waits for one. -/
def oblige (o : ReplayOptions) (T : TargetDb) (s : PassState) (op : Op) :
    Option (op.Res × PassState) :=
  if s.possible op (s.obligingAnswer op) then
    some (s.obligingAnswer op, s.after o T op (s.obligingAnswer op))
  else none

theorem responds_of_oblige {o : ReplayOptions} {T : TargetDb} (s : PassState) (op : Op)
    (r : op.Res) (s' : PassState) (h : s.oblige o T op = some (r, s')) :
    s.Responds o T op r s' := by
  unfold oblige at h
  split_ifs at h with hpossible
  obtain ⟨rfl, rfl⟩ := Prod.mk.inj (Option.some.inj h)
  exact ⟨hpossible, rfl⟩

end PassState

/-- The run of a pass by a schedule, against an obliging target. -/
def Pass.run (o : ReplayOptions) {n : ℕ} (sessions : Fin n → ReplaySession o)
    (is : List (Fin n)) : Pass n :=
  Tasks.schedule (PassState.oblige o .plain) is (Pass.new o false sessions)

theorem Pass.reaches_run (o : ReplayOptions) {n : ℕ} (sessions : Fin n → ReplaySession o)
    (is : List (Fin n)) : Reaches o .plain sessions (run o sessions is) :=
  ⟨false, Tasks.reachable_schedule PassState.responds_of_oblige is _⟩

end SqlReplay
