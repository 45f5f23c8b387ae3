import SqlReplay.Capture.Format
import SqlReplay.Data.FirstSeen
import SqlReplay.Data.Regions
import SqlReplay.Proto.Binary
import SqlReplay.Replay.Session

/-!
# The replay spool

A replay does not keep a capture in memory. It streams the capture twice: the first pass sizes a
region for each session, the second one writes each event's record into the region of its session,
in one file. Every session then reads its own region, record by record.

Nothing holds the capture still between the passes, so `Spool.build` takes what each of them reads.
The second pass writes wherever the cursors of the regions are, and only at its end are the cursors
compared with the plan. `build_eq_ok` says what this comes to: the two passes agree on the sessions
and on the number of bytes of each, and the file is what appending the records to the regions gives.
Positions are natural numbers, since a file is far shorter than `2 ^ 64` bytes; the `expect`s are
errors.
-/

namespace SqlReplay

/-! ## Filters -/

/-- A time window, its start included and its end not. -/
structure TimeWindow where
  startMicros : Option ℤ
  endMicros : Option ℤ
  deriving DecidableEq, Repr

def TimeWindow.contains (w : TimeWindow) (tsMicros : ℤ) : Bool :=
  w.startMicros.all (· ≤ tsMicros) && w.endMicros.all (tsMicros < ·)

structure Filters where
  db : Option Bytes := none
  user : Option Bytes := none
  window : Option TimeWindow := none
  deriving DecidableEq, Repr

/-- `Filters::matches`. -/
def Filters.matchesEvent (f : Filters) (event : Event) : Bool :=
  f.db.all (event.db = some ·) && f.user.all (event.user = some ·) &&
    f.window.all (·.contains event.tsMicros)

/-! ## Records -/

section Records

variable (serde : SerdeJson)

/-- `u32::to_le_bytes`. -/
def u32ToLeBytes (n : UInt32) : Bytes :=
  [n.toUInt8, (n >>> 8).toUInt8, (n >>> 16).toUInt8, (n >>> 24).toUInt8]

def recordSize (event : Event) : ℕ := 4 + (serde.toVec event).length

def encodeRecord (event : Event) : Bytes :=
  u32ToLeBytes (serde.toVec event).length.toUInt32 ++ serde.toVec event

end Records

/-! ## Building -/

/-- A session, and its region of the file. -/
structure SpoolSession where
  sessionId : ℕ
  start : ℕ
  stop : ℕ
  eventCount : ℕ
  hasExecutable : Bool
  deriving DecidableEq, Repr

structure Spool where
  file : Bytes
  sessions : List SpoolSession
  header : Header
  summary : Summary
  baseTsMicros : ℤ
  eventCount : ℕ
  filtered : ℕ
  bytes : ℕ
  deriving DecidableEq, Repr

structure SessionBuild where
  sessionId : ℕ
  bytes : ℕ
  eventCount : ℕ
  hasExecutable : Bool
  writePos : ℕ

def i64Max : ℤ := 2 ^ 63 - 1

/-- The variables of the first pass. -/
structure PassA extends Groups ℕ SessionBuild where
  baseTsMicros : ℤ := i64Max
  included : ℕ := 0
  filtered : ℕ := 0

/-- The variables of the layout. -/
structure Layout where
  offset : ℕ
  sessions : ℕ → Option SessionBuild
  index : List SpoolSession

/-- The variables of the second pass. -/
structure PassB where
  sessions : ℕ → Option SessionBuild
  file : Bytes

/-- U+2014. -/
def emDash : Bytes := [0xE2, 0x80, 0x94]

namespace Spool

variable (serde : SerdeJson) (path : Bytes) (filters : Filters) (allowWrites : Bool)

def freshSession (sessionId : ℕ) : SessionBuild := ⟨sessionId, 0, 0, false, 0⟩

def addEvent (s : SessionBuild) (event : Event) : SessionBuild :=
  { s with
    bytes := s.bytes + recordSize serde event
    eventCount := s.eventCount + 1
    hasExecutable := s.hasExecutable || shouldExecute event.query allowWrites }

/-- The callback of the first pass. -/
def passA (a : PassA) (event : Event) : PassA :=
  if filters.matchesEvent event = false then { a with filtered := a.filtered + 1 }
  else
    { a.toGroups.gather freshSession (·.sessionId) (addEvent serde allowWrites) event with
      baseTsMicros := min a.baseTsMicros event.tsMicros
      included := a.included + 1
      filtered := a.filtered }

/-- Lays out the region of one session. -/
def layoutSession (l : Layout) (sid : ℕ) : Except Bytes Layout :=
  match l.sessions sid with
  | none => .error (ascii "session recorded in order")
  | some s => .ok
    { offset := l.offset + s.bytes
      sessions := Function.update l.sessions sid (some { s with writePos := l.offset })
      index := l.index ++
        [⟨s.sessionId, l.offset, l.offset + s.bytes, s.eventCount, s.hasExecutable⟩] }

/-- The callback of the second pass. -/
def passB (b : PassB) (event : Event) : Except Bytes PassB :=
  if filters.matchesEvent event = false then .ok b
  else
    match b.sessions event.sessionId with
    | none =>
      .error (ascii "capture " ++ path ++ ascii " changed while being spooled (session " ++
        decimal event.sessionId ++ ascii " appeared between passes)")
    | some s => .ok
      { sessions := Function.update b.sessions event.sessionId
          (some { s with writePos := s.writePos + (encodeRecord serde event).length })
        file := writeAllAt b.file (encodeRecord serde event) s.writePos }

/-- Whether a region is exactly full. -/
def checkRegion (sessions : ℕ → Option SessionBuild) (planned : SpoolSession) :
    Except Bytes Unit :=
  match sessions planned.sessionId with
  | none => .error (ascii "indexed session was seen in pass A")
  | some s =>
    if s.writePos ≠ planned.stop then
      .error (ascii "capture " ++ path ++ ascii " changed while being spooled (session " ++
        decimal planned.sessionId ++ ascii " wrote " ++ decimal (s.writePos - planned.start) ++
        ascii " of " ++ decimal (planned.stop - planned.start) ++ ascii " bytes)")
    else .ok ()

/-- `Spool::build`, with what each of its passes reads. -/
def build (first second : Bytes) : Except Bytes Spool :=
  streamCapture serde (fun a event ↦ .ok (passA serde filters allowWrites a event))
      { Groups.empty with } first >>= fun r ↦
    let a := r.2
    if a.included = 0 ∧ 0 < a.filtered then
      .error (ascii "filters excluded all " ++ decimal a.filtered ++ ascii " events of " ++ path ++
        ascii " " ++ emDash ++ ascii " nothing to replay")
    else
      a.order.foldlM layoutSession ⟨0, a.groups, []⟩ >>= fun l ↦
        streamCapture serde (passB serde path filters)
            ⟨l.sessions, List.replicate l.offset 0⟩ second >>= fun r' ↦
          (l.index.forM (checkRegion path r'.2.sessions)).map fun _ ↦
            { file := r'.2.file
              sessions := l.index
              header := r.1.1
              summary := r.1.2
              baseTsMicros := if 0 < a.included then a.baseTsMicros else 0
              eventCount := a.included
              filtered := a.filtered
              bytes := l.offset }

end Spool

/-! ## Reading -/

/-- A reader of one region. -/
structure SpoolCursor where
  file : Bytes
  pos : ℕ
  stop : ℕ

def Spool.cursor (spool : Spool) (session : SpoolSession) : SpoolCursor :=
  ⟨spool.file, session.start, session.stop⟩

namespace SpoolCursor

variable (serde : SerdeJson)

def nextEvent (c : SpoolCursor) : Except Bytes (Option Event) × SpoolCursor :=
  if c.stop ≤ c.pos then (.ok none, c)
  else
    match readExactAt c.file 4 c.pos with
    | none => (.error (ascii "reading spool record length"), c)
    | some lenBuf =>
      if c.stop < c.pos + 4 + leNat lenBuf then
        (.error (ascii "corrupt spool: record overruns its session region"), c)
      else
        match readExactAt c.file (leNat lenBuf) (c.pos + 4) with
        | none => (.error (ascii "reading spool record"), c)
        | some buf =>
          match serde.fromSlice buf with
          | none =>
            (.error (ascii "corrupt spool record"), { c with pos := c.pos + 4 + leNat lenBuf })
          | some event => (.ok (some event), { c with pos := c.pos + 4 + leNat lenBuf })

/-- A record takes its place in the region. -/
theorem nextEvent_pos {c c' : SpoolCursor} {event : Event}
    (h : c.nextEvent serde = (.ok (some event), c')) : c'.stop - c'.pos < c.stop - c.pos := by
  rw [nextEvent] at h
  split_ifs at h with hend
  · cases h
  · split at h
    · cases h
    · split_ifs at h
      · cases h
      · split at h
        · cases h
        · split at h
          · cases h
          · obtain rfl := (Prod.mk.inj h).2
            dsimp only
            omega

/-- What reading to the end gives. -/
def readEvents (c : SpoolCursor) : Except Bytes (List Event) :=
  match _h : c.nextEvent serde with
  | (.error e, _) => .error e
  | (.ok none, _) => .ok []
  | (.ok (some event), c') => (c'.readEvents).map (event :: ·)
  termination_by c.stop - c.pos
  decreasing_by exact nextEvent_pos serde _h

end SpoolCursor

end SqlReplay
