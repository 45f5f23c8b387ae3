import SqlReplay.Replay.Pass

/-!
# Every event is counted once, and sent once at most

The two statements about a whole pass that follow from what each session does with its events. The
metrics are a fold over all operations of the pass, each record weighs one, and the weights of a
session add up to its events: `run_conserves`, for a pass in which all sessions have finished. What
a session has sent is read off its handlings at any moment, finished or not, since every beginning
of such a list of observations is faithful to the events (`Faithful.of_append`): `session_sends`.
-/

namespace SqlReplay

open Program Replay

/-! ## Records -/

namespace Replay

variable {o : ReplayOptions}

/-- The fingerprint of a record. -/
def Act.recorded? : Act → Option UInt32
  | .recorded _ fp => some fp
  | _ => none

/-- The captured statement sent. -/
def Act.sent? : Act → Option Bytes
  | .sent sql => some sql
  | _ => none

/-- The fingerprints recorded on a trace. -/
def recorded (t : Trace Op.Res) : List UInt32 := (observe act t).filterMap Act.recorded?

/-- The captured statements sent on a trace. -/
def sent (t : Trace Op.Res) : List Bytes := (observe act t).filterMap Act.sent?

theorem Handling.record {ev : Event} {l : List Act} (h : Handling o ev l) :
    l.filterMap Act.recorded? = [ev.fingerprintId] := by
  cases h <;> rfl

theorem Handlings.recorded {events : List Event} {l : List Act} (h : Handlings o events l) :
    l.filterMap Act.recorded? = events.map Event.fingerprintId := by
  induction h with
  | nil => rfl
  | cons hev _ ih => rw [List.filterMap_append, hev.record, ih, List.map_cons]; rfl

theorem recorded_length (t : Trace Op.Res) :
    (Replay.recorded t).length =
      (t.map fun e ↦ ((act e.1 e.2).filterMap Act.recorded?).length).sum := by
  rw [Replay.recorded, observe, List.filterMap_flatMap, List.length_flatMap]

theorem recorded_count (t : Trace Op.Res) (fp : UInt32) :
    (Replay.recorded t).count fp =
      (t.map fun e ↦ ((act e.1 e.2).filterMap Act.recorded?).count fp).sum := by
  rw [Replay.recorded, observe, List.filterMap_flatMap, List.count_flatMap]
  rfl

end Replay

namespace Metrics

theorem total_tally (m : Metrics) (op : Op) (r : op.Res) :
    (m.tally ⟨op, r⟩).total = m.total + ((act op r).filterMap Act.recorded?).length := by
  cases op with
  | recordOk fp micros outcome => exact total_recordOk m fp micros outcome
  | recordErr fp msg => exact total_recordErr m fp msg
  | recordSkip fp => exact total_recordSkip m fp
  | recordNotRun fp => exact total_recordNotRun m fp
  | _ => rfl

theorem totalOf_tally (m : Metrics) (fp : UInt32) (op : Op) (r : op.Res) :
    (m.tally ⟨op, r⟩).totalOf fp =
      m.totalOf fp + ((act op r).filterMap Act.recorded?).count fp := by
  have hone (fp' : UInt32) : [fp'].count fp = if fp' = fp then 1 else 0 := by
    rw [List.count_singleton]
    exact if_congr beq_iff_eq rfl rfl
  cases op with
  | recordOk fp' micros outcome =>
    exact (totalOf_recordOk m fp' micros outcome fp).trans (by rw [← hone]; rfl)
  | recordErr fp' msg => exact (totalOf_recordErr m fp' msg fp).trans (by rw [← hone]; rfl)
  | recordSkip fp' => exact (totalOf_recordSkip m fp' fp).trans (by rw [← hone]; rfl)
  | recordNotRun fp' => exact (totalOf_recordNotRun m fp' fp).trans (by rw [← hone]; rfl)
  | _ => rfl

end Metrics

/-! ## Conservation -/

namespace Pass

variable {o : ReplayOptions} {T : TargetDb} {n : ℕ} {sessions : Fin n → ReplaySession o}
  {c : Pass n}

theorem Reaches.metrics (h : Reaches o T sessions c) :
    c.shared.metrics = (c.log.map Prod.snd).foldl Metrics.tally .new := by
  obtain ⟨shutdown, hrun⟩ := h
  refine Tasks.Reachable.foldl_log ?_ ?_ hrun
  · rintro s op r s' ⟨-, rfl⟩
    rfl
  · rintro s s' rfl
    rfl

/-- What every operation adds to a measure of the metrics adds up over the sessions. -/
theorem Reaches.measure (h : Reaches o T sessions c) (μ : Metrics → ℕ) (hnew : μ .new = 0)
    {w : (op : Op) × op.Res → ℕ} (hμ : ∀ m e, μ (m.tally e) = μ m + w e) :
    μ c.shared.metrics = ∑ i, ((c.logOf i).map w).sum := by
  rw [h.metrics, foldl_measure μ w hμ, hnew, Nat.zero_add, List.map_map]
  exact Tasks.sum_log c w

/-- The observations of a session are the beginning of handlings of its events. -/
theorem Reaches.handles (h : Reaches o T sessions c) (i : Fin n) :
    ∃ l', Handlings o (sessions i).events (observe act (c.logOf i) ++ l') := by
  obtain ⟨shutdown, hrun⟩ := h
  obtain ⟨l', -, hl'⟩ := exists_of_ensures
    ((hrun.steps i).ensures (runSession_handles o (sessions i).hasExecutable_eq))
  exact ⟨l', hl'⟩

/-- When a session has finished, every event is recorded, in order. -/
theorem Reaches.recorded (h : Reaches o T sessions c) {i : Fin n} (hi : (c.task i).isDone = true) :
    recorded (c.logOf i) = (sessions i).events.map Event.fingerprintId := by
  obtain ⟨shutdown, hrun⟩ := h
  obtain ⟨a, ha⟩ := eq_done_of_isDone hi
  have hsteps := hrun.steps i
  rw [ha] at hsteps
  exact (hsteps.ensures_done (runSession_handles o (sessions i).hasExecutable_eq)).recorded

/-- Options of a read-only pass on connections of their own. -/
def sampleOptions : ReplayOptions where
  maxConnections := 2
  allowWrites := false
  dbOverride := none
  urlDb := none
  pool := none
  checksum := false

def sampleEvent (query : Bytes) (fp : UInt32) : Event := ⟨0, 1, none, none, query, .zero, fp⟩

/-- When all sessions have finished, the counters add up to the events of the pass, and those of a
fingerprint to its events; each session has recorded its events once. -/
theorem run_conserves (h : Reaches o T sessions c) (hfinished : c.Finished) :
    let m := c.shared.metrics
    m.executed + m.skipped + m.errors + m.notRun = ∑ i, (sessions i).events.length ∧
      (∀ fp, let a := (m.perFp fp).getD {}
        a.executed + a.errors + a.skipped + a.notRun =
          ∑ i, (sessions i).events.countP (·.fingerprintId = fp)) ∧
      ∀ i, recorded (c.logOf i) = (sessions i).events.map Event.fingerprintId := by
  have hrecorded (i : Fin n) := h.recorded (hfinished i)
  refine ⟨?_, fun fp ↦ ?_, hrecorded⟩
  · change c.shared.metrics.total = _
    refine (h.measure Metrics.total rfl fun m e ↦ m.total_tally e.1 e.2).trans ?_
    refine Finset.sum_congr rfl fun i _ ↦ ?_
    rw [← recorded_length, hrecorded, List.length_map]
  · change c.shared.metrics.totalOf fp = _
    refine (h.measure (Metrics.totalOf · fp) rfl fun m e ↦ m.totalOf_tally fp e.1 e.2).trans ?_
    refine Finset.sum_congr rfl fun i _ ↦ ?_
    rw [← recorded_count, hrecorded, List.count, List.countP_map]
    rfl

/-- A run of two sessions: a read beside a write that is kept back, and a session without a read. -/
theorem run_conserves_sample :
    let sessions : Fin 2 → ReplaySession sampleOptions :=
      ![.ofEvents _ 1 [sampleEvent (ascii "SELECT 1") 7, sampleEvent (ascii "DROP TABLE t") 8],
        .ofEvents _ 2 [sampleEvent (ascii "DROP TABLE t") 8]]
    ∃ c, Reaches sampleOptions .plain sessions c ∧ c.Finished ∧ c.shared.metrics.executed = 1 ∧
      c.shared.metrics.executed + c.shared.metrics.skipped + c.shared.metrics.errors +
        c.shared.metrics.notRun = 3 := by
  intro sessions
  have hreaches := reaches_run sampleOptions sessions (List.replicate 16 0 ++ [1])
  have hfinished : (run sampleOptions sessions (List.replicate 16 0 ++ [1])).Finished := by
    unfold Tasks.Finished
    decide +kernel
  exact ⟨_, hreaches, hfinished, by decide +kernel, (run_conserves hreaches hfinished).1⟩

end Pass

/-! ## What reaches the target -/

/-- The text an operation sends. -/
def Op.text? : Op → Option Bytes
  | .use _ db => some (useStatement db)
  | .query _ sql | .queryChecksum _ sql => some sql
  | _ => none

/-- A connection is opened, or one of the pool's is taken. -/
def Op.takesConnection : Op → Bool
  | .connect | .popIdle => true
  | _ => false

namespace Replay

variable {o : ReplayOptions} {events : List Event}

/-- The captured statements among the observations are those of some of the events, in order, all of
which pass the gate; and the databases moved to are databases of events. -/
structure Faithful (o : ReplayOptions) (events : List Event) (l : List Act) : Prop where
  sent : ∃ kept : List Event, kept.Sublist events ∧ (∀ ev ∈ kept, gate o ev = true) ∧
    l.filterMap Act.sent? = kept.map Event.query
  moved : ∀ db, .moved db ∈ l → ∃ ev ∈ events, ev.db = some db

/-- Faithful at the end, faithful at any moment. -/
theorem Faithful.of_append {l l' : List Act} (h : Faithful o events (l ++ l')) :
    Faithful o events l := by
  obtain ⟨⟨kept, hsub, hgate, hsent⟩, hmoved⟩ := h
  refine ⟨⟨kept.take (l.filterMap Act.sent?).length, (List.take_sublist _ _).trans hsub,
    fun ev hev ↦ hgate ev (List.mem_of_mem_take hev), ?_⟩,
    fun db hdb ↦ hmoved db (List.mem_append_left l' hdb)⟩
  rw [List.map_take, ← hsent, List.filterMap_append, List.take_left]

theorem Handling.statement {ev : Event} {l : List Act} (h : Handling o ev l) :
    l.filterMap Act.sent? = [] ∨ gate o ev = true ∧ l.filterMap Act.sent? = [ev.query] := by
  cases h with
  | notRun | skipped _ | useFailed _ _ _ => exact .inl rfl
  | sent _ hgate | sentBehindUse _ hgate _ _ => exact .inr ⟨hgate, rfl⟩

theorem Handling.database {ev : Event} {l : List Act} (h : Handling o ev l) {db : Bytes}
    (hdb : .moved db ∈ l) : ev.db = some db := by
  cases h with
  | notRun | skipped _ | sent _ _ => simp at hdb
  | useFailed _ _ hev | sentBehindUse _ _ _ hev =>
    obtain rfl : db = _ := by simpa using hdb
    exact hev

theorem Handlings.faithful {l : List Act} (h : Handlings o events l) : Faithful o events l := by
  induction h with
  | nil => exact ⟨⟨[], .slnil, nofun, rfl⟩, nofun⟩
  | @cons ev events l l' hev _ ih =>
    obtain ⟨⟨kept, hsub, hgate, hsent⟩, hmoved⟩ := ih
    constructor
    · rw [List.filterMap_append, hsent]
      rcases hev.statement with hnone | ⟨hev, hone⟩
      · exact ⟨kept, hsub.cons ev, hgate, by rw [hnone, List.nil_append]⟩
      · refine ⟨ev :: kept, hsub.cons_cons ev, ?_, by rw [hone]; rfl⟩
        rintro ev' (_ | hev')
        · exact hev
        · exact hgate ev' ‹_›
    · intro db hdb
      rcases List.mem_append.mp hdb with hdb | hdb
      · exact ⟨ev, List.mem_cons_self, hev.database hdb⟩
      · obtain ⟨ev', hev', hdb'⟩ := hmoved db hdb
        exact ⟨ev', List.mem_cons_of_mem ev hev', hdb'⟩

/-- The operations that take a connection. -/
def takes (op : Op) (_ : op.Res) : List Op := if op.takesConnection then [op] else []

theorem drainRecording_takes (how : DrainAs) (events : List Event) :
    (drainRecording how events).Ensures takes fun l _ ↦ l = [] := by
  induction events with
  | nil => exact rfl
  | cons ev events ih =>
    intro r
    refine ih.mono fun l _ hl ↦ ?_
    rw [hl]
    cases how <;> rfl

end Replay

namespace Pass

variable {o : ReplayOptions} {T : TargetDb} {n : ℕ} {sessions : Fin n → ReplaySession o}
  {c : Pass n}

/-- At any moment of a pass: the captured statements a session has sent are those of some of its
events, in order, each of which passes the gate of the pass; any other text is the `USE` of the
database of one of its events; and a session without a statement that passes the write gate takes no
connection. -/
theorem session_sends (h : Reaches o T sessions c) (i : Fin n) :
    (∃ kept : List Event, kept.Sublist (sessions i).events ∧
      sent (c.logOf i) = kept.map Event.query ∧
      ∀ ev ∈ kept, shouldExecute ev.query o.allowWrites = true ∧
        (o.dbOverride.isSome ∨ o.pool.isSome → isUseStatement ev.query = false)) ∧
      (∀ e ∈ c.logOf i, ∀ sql, e.1.text? = some sql →
        act e.1 e.2 = [.sent sql] ∨
          ∃ ev ∈ (sessions i).events, ∃ db, ev.db = some db ∧ sql = useStatement db) ∧
      ((∀ ev ∈ (sessions i).events, shouldExecute ev.query o.allowWrites = false) →
        ∀ e ∈ c.logOf i, e.1.takesConnection = false) := by
  obtain ⟨l', hhandled⟩ := h.handles i
  have hfaithful := hhandled.faithful.of_append
  refine ⟨?_, fun e he sql hsql ↦ ?_, fun hno e he ↦ ?_⟩
  · obtain ⟨kept, hsub, hgate, hsent⟩ := hfaithful.sent
    refine ⟨kept, hsub, hsent, fun ev hev ↦ ?_⟩
    exact ⟨(Bool.and_eq_true_iff.mp (hgate ev hev)).1, not_use_of_gate (hgate ev hev)⟩
  · obtain ⟨op, r⟩ := e
    cases op with
    | query conn sql' | queryChecksum conn sql' =>
      obtain rfl := Option.some.inj hsql
      exact .inl rfl
    | use conn db =>
      obtain rfl := Option.some.inj hsql
      have hmoved : .moved db ∈ observe act (c.logOf i) :=
        List.mem_flatMap.mpr ⟨_, he, List.mem_singleton_self _⟩
      obtain ⟨ev, hev, hdb⟩ := hfaithful.moved db hmoved
      exact .inr ⟨ev, hev, db, hdb, rfl⟩
    | _ => exact nomatch hsql
  · -- such a session records its events as skipped and does nothing else
    obtain ⟨shutdown, hrun⟩ := h
    have hdrain : runSession o (sessions i).info (sessions i).events =
        drainRecording .skipped (sessions i).events := by
      have hflag : (sessions i).info.hasExecutable = false := by
        rw [(sessions i).hasExecutable_eq, List.any_eq_false]
        exact fun ev hev ↦ Bool.eq_false_iff.mp (hno ev hev)
      rw [runSession, hflag]
      rfl
    have hsteps := hrun.steps i
    rw [hdrain] at hsteps
    have hfront (l l' : List Op) (hl : l ++ l' = []) : l = [] := (List.append_eq_nil_iff.mp hl).1
    have hnone := hsteps.observe_of_front hfront (drainRecording_takes .skipped _)
    by_contra htakes
    have hmem : e.1 ∈ observe takes (c.logOf i) := by
      refine List.mem_flatMap.mpr ⟨e, he, ?_⟩
      rw [takes, if_pos (Bool.not_eq_false _ ▸ htakes)]
      exact List.mem_singleton_self _
    rw [hnone] at hmem
    exact absurd hmem List.not_mem_nil

/-- A session in the middle of a run, with a write kept back before its read. -/
theorem session_sends_sample :
    let sessions : Fin 1 → ReplaySession sampleOptions :=
      ![.ofEvents _ 1 [sampleEvent (ascii "DROP TABLE t") 8, sampleEvent (ascii "SELECT 1") 7]]
    ∃ c, Reaches sampleOptions .plain sessions c ∧ sent (c.logOf 0) = [ascii "SELECT 1"] ∧
      ∃ kept : List Event, kept.Sublist (sessions 0).events ∧
        sent (c.logOf 0) = kept.map Event.query ∧
        ∀ ev ∈ kept, shouldExecute ev.query sampleOptions.allowWrites = true ∧
          (sampleOptions.dbOverride.isSome ∨ sampleOptions.pool.isSome →
            isUseStatement ev.query = false) := by
  intro sessions
  have hreaches := reaches_run sampleOptions sessions (List.replicate 10 0)
  exact ⟨_, hreaches, by decide +kernel, (session_sends hreaches 0).1⟩

end Pass

end SqlReplay
