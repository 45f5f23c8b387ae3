import Mathlib.Algebra.Order.Ring.Int
import SqlReplay.Bytes
import SqlReplay.Data.Float64

/-!
# Events of a capture

The records a capture file holds one for each statement, and the two things that read them: a
session replays its events in the order of the file, and the filters of a run decide which events
take part.
-/

namespace SqlReplay

/-- `Event`. -/
structure Event where
  tsMicros : ℤ
  /-- The thread id of the original connection. -/
  sessionId : ℕ
  user : Option Bytes
  db : Option Bytes
  query : Bytes
  origQueryTimeS : F64
  fingerprintId : UInt32
  deriving DecidableEq, Repr

end SqlReplay
