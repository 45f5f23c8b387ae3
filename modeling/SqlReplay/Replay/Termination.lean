import SqlReplay.Replay.ConnectionCap
import SqlReplay.Task.Progress

/-!
# A pass comes to its end

Each session performs a number of operations that its events bound, so no pass goes on for ever,
whatever the target answers and whoever comes next. What could keep a pass from its end is that
sessions wait for each other. There is one thing they wait for, a permit; and a session that holds
one is not waiting for another (`tenancy`), and does not return with it. So when no permit is left,
the holders can go on (`Pass.Reaches.canAct`).
-/

namespace SqlReplay

open Program Replay

/-! ## Bounds -/

namespace Replay

variable (o : ReplayOptions) (conn : ConnId)

theorem drainRecording_within (how : DrainAs) (events : List Event) :
    (drainRecording how events).Within events.length := by
  induction events with
  | nil => exact within_done _
  | cons ev events ih => exact fun _ ↦ ih

/-- A drain, and then a result. -/
theorem drainThen_within {α : Type} (how : DrainAs) (events : List Event) (a : α) :
    (do drainRecording how events; pure a).Within events.length :=
  (drainRecording_within how events).bind (n := 0) fun _ ↦ within_done a

theorem executeEvent_within (sql : Bytes) (checksum : Bool) :
    (executeEvent conn sql checksum).Within 1 := by
  unfold executeEvent
  split_ifs
  · refine within_perform fun r ↦ ?_
    rcases r with e | _ | cs <;> exact within_done _
  · refine within_perform fun r ↦ ?_
    rcases r with e | bytes <;> exact within_done _

theorem reconcile_within (current : Option Bytes) (ev : Event) :
    (reconcile o conn current ev).Within 2 := by
  unfold reconcile
  split
  · exact within_done _
  · split_ifs
    · exact within_done _
    · refine within_perform fun r ↦ ?_
      rcases r with e | bytes
      · exact within_perform fun _ ↦ within_done _
      · exact within_done _

/-- Seven operations for an event: the flag, the pace, a `USE` that may have its failure recorded,
the statement, its time and its record. -/
theorem dedicatedLoop_within (events : List Event) (current : Option Bytes) :
    (dedicatedLoop o conn current events).Within (7 * events.length) := by
  induction events generalizing current with
  | nil => exact within_done _
  | cons ev events ih =>
    have hdrain : (do drainRecording .notRun (ev :: events); pure LoopEnd.finished).Within
        (7 * events.length + 5) := by
      refine (drainThen_within .notRun (ev :: events) LoopEnd.finished).mono ?_
      rw [List.length_cons]
      omega
    have hlost : (do drainRecording .notRun events; pure LoopEnd.lost).Within
        (7 * events.length) :=
      (drainThen_within .notRun events LoopEnd.lost).mono (by omega)
    have hskip :
        (do tell (.recordSkip ev.fingerprintId); dedicatedLoop o conn current events).Within
        (7 * events.length + 5) :=
      (within_perform fun _ ↦ ih current).mono (by omega)
    rw [dedicatedLoop, List.length_cons, Nat.mul_succ]
    -- the flag and the pace are two of the seven
    refine within_perform fun aborted ↦ ?_
    by_cases habort : aborted = true
    · rw [if_pos habort]
      exact hdrain.mono (Nat.le_succ _)
    rw [if_neg habort]
    refine within_perform fun wake ↦ ?_
    rcases wake with _ | _
    · exact hdrain
    dsimp only
    split_ifs
    · exact hskip
    · exact hskip
    · have hbound : 7 * events.length + 5 = 2 + (1 + (7 * events.length + 2)) := by omega
      rw [hbound]
      refine (reconcile_within o conn current ev).bind fun r ↦ ?_
      rcases r with e | db
      · dsimp only
        split_ifs
        · exact hlost.mono (by omega)
        · exact (ih current).mono (by omega)
      · refine (executeEvent_within conn ev.query o.checksum).bind fun r ↦ ?_
        rcases r with e | outcome
        · refine within_perform (n := 7 * events.length + 1) fun _ ↦ ?_
          split_ifs
          · exact hlost.mono (by omega)
          · exact (ih db).mono (by omega)
        · exact within_perform fun _ ↦ within_perform fun _ ↦ ih db

theorem dedicatedConnected_within (events : List Event) :
    (dedicatedConnected o events).Within (7 * events.length + 2) := by
  unfold dedicatedConnected
  refine within_perform fun r ↦ ?_
  rcases r with e | conn
  · exact within_perform fun _ ↦ (drainRecording_within .notRun events).mono (by omega)
  · refine (dedicatedLoop_within o conn events none).bind fun stop ↦ ?_
    rcases stop with _ | _ <;> exact within_perform fun _ ↦ within_done _

theorem runSessionDedicated_within (events : List Event) :
    (runSessionDedicated o events).Within (7 * events.length + 5) := by
  rcases events with _ | ⟨first, events⟩
  · exact within_done _
  · have hdrain : (drainRecording .notRun (first :: events)).Within
        (7 * (first :: events).length + 3) :=
      (drainRecording_within .notRun _).mono (by omega)
    unfold runSessionDedicated
    refine within_perform fun wake ↦ ?_
    rcases wake with _ | _
    · exact hdrain.mono (Nat.le_succ _)
    · refine within_perform fun wake ↦ ?_
      rcases wake with _ | _
      · exact hdrain
      · exact (dedicatedConnected_within o _).bind (n := 1) fun _ ↦
          within_perform fun _ ↦ within_done _

theorem checkout_within : (checkout o).Within 2 := by
  unfold checkout
  refine within_perform fun idle ↦ ?_
  rcases idle with _ | idle
  · refine within_perform fun r ↦ ?_
    rcases r with e | conn <;> exact within_done _
  · exact within_done _

theorem giveBack_within (pc : IdleConn) (e : TargetError) : (giveBack pc e).Within 1 := by
  unfold giveBack
  split_ifs <;> exact within_perform fun _ ↦ within_done _

theorem pooledEvent_within (ev : Event) : (pooledEvent o ev).Within 8 := by
  unfold pooledEvent
  refine (checkout_within o).bind (n := 6) fun r ↦ ?_
  rcases r with e | pc
  · exact within_perform (n := 5) fun _ ↦ within_perform (n := 4) fun _ ↦ within_done _
  · refine (reconcile_within o pc.conn pc.db ev).bind (n := 4) fun r ↦ ?_
    rcases r with e | db
    · exact (giveBack_within pc e).mono (by omega)
    · refine (executeEvent_within pc.conn ev.query o.checksum).bind (n := 3) fun r ↦ ?_
      rcases r with e | outcome
      · exact within_perform fun _ ↦ (giveBack_within _ e).mono (Nat.le_succ 1)
      · exact within_perform fun _ ↦ within_perform fun _ ↦ within_perform fun _ ↦ within_done _

/-- Twelve operations for an event: those of a dedicated session, the permit taken and given back,
and the connection taken, opened and put back. -/
theorem runSessionPooled_within (events : List Event) :
    (runSessionPooled o events).Within (12 * events.length) := by
  induction events with
  | nil => exact within_done _
  | cons ev events ih =>
    have hdrain : (drainRecording .notRun (ev :: events)).Within (12 * events.length + 9) := by
      refine (drainRecording_within .notRun (ev :: events)).mono ?_
      rw [List.length_cons]
      omega
    have hskip : (do tell (.recordSkip ev.fingerprintId); runSessionPooled o events).Within
        (12 * events.length + 10) :=
      (within_perform fun _ ↦ ih).mono (by omega)
    rw [runSessionPooled, List.length_cons, Nat.mul_succ]
    refine within_perform fun aborted ↦ ?_
    by_cases habort : aborted = true
    · rw [if_pos habort]
      exact hdrain.mono (by omega)
    rw [if_neg habort]
    refine within_perform fun wake ↦ ?_
    rcases wake with _ | _
    · exact hdrain.mono (Nat.le_succ _)
    dsimp only
    split_ifs
    · exact hskip
    · exact hskip
    · refine within_perform fun wake ↦ ?_
      rcases wake with _ | _
      · exact hdrain
      · have hbound : 12 * events.length + 9 = 8 + (12 * events.length + 1) := by omega
        rw [hbound]
        exact (pooledEvent_within o ev).bind fun _ ↦ within_perform fun _ ↦ ih

/-- The operations that a session has at most. -/
def opBound (events : List Event) : ℕ := 12 * events.length + 5

theorem runSession_within (info : SessionMeta) (events : List Event) :
    (runSession o info events).Within (opBound events) := by
  unfold runSession opBound
  split_ifs
  · exact (drainRecording_within .skipped events).mono (by omega)
  · exact (runSessionPooled_within o events).mono (by omega)
  · exact (runSessionDedicated_within o events).mono (by omega)

end Replay

/-! ## No session waits for ever -/

/-- Every operation has a response at every moment, but for a permit when none is left. -/
theorem PassState.possible_obligingAnswer (s : PassState) {op : Op}
    (h : op = .acquire → 0 < s.permits) : s.possible op (s.obligingAnswer op) = true := by
  cases op with
  | acquire => exact decide_eq_true (h rfl)
  | connect | shutdownFlag | popIdle => exact beq_self_eq_true _
  | _ => rfl

namespace Pass

variable {o : ReplayOptions} {T : TargetDb} {n : ℕ} {sessions : Fin n → ReplaySession o}
  {c : Pass n}

/-- A session that has returned has no permit. -/
theorem Reaches.stage_of_isDone (h : Reaches o T sessions c) {i : Fin n}
    (hi : (c.task i).isDone = true) : (tenancies o T c i).stage = .outside := by
  obtain ⟨shutdown, hrun⟩ := h
  obtain ⟨a, ha⟩ := eq_done_of_isDone hi
  have hobeys := hrun.obeys
    (fun j ↦ runSession_tenancy (T := T) (sessions j).info (sessions j).events) i
  rw [ha] at hobeys
  exact hobeys

/-- A session that cannot go on waits for a permit, and there is none. -/
theorem waits_of_not_canAct {i : Fin n} (hi : (c.task i).isDone = false)
    (hstuck : ¬c.CanAct (PassState.Responds o T) i) :
    ∃ next, c.task i = .call .acquire next ∧ c.shared.permits = 0 := by
  rcases htask : c.task i with a | ⟨op, next⟩
  · rw [htask] at hi
    exact absurd hi (by simp [isDone])
  · by_cases hwaits : op = .acquire → 0 < c.shared.permits
    · exact absurd ⟨op, next, _, _, htask, c.shared.possible_obligingAnswer hwaits, rfl⟩ hstuck
    · rw [Classical.not_imp] at hwaits
      obtain ⟨rfl, hpermits⟩ := hwaits
      exact ⟨next, rfl, Nat.eq_zero_of_not_pos hpermits⟩

/-- In every reachable state all sessions have returned, or one of them can go on. -/
theorem Reaches.canAct (h : Reaches o T sessions c) :
    c.Finished ∨ ∃ i, c.CanAct (PassState.Responds o T) i := by
  by_contra hnot
  obtain ⟨hunfinished, hstuck⟩ := not_or.mp hnot
  have hstuck' (i : Fin n) : ¬c.CanAct (PassState.Responds o T) i := fun hi ↦ hstuck ⟨i, hi⟩
  obtain ⟨i, hi⟩ := not_forall.mp hunfinished
  obtain ⟨-, -, hpermits⟩ := waits_of_not_canAct (Bool.eq_false_of_not_eq_true hi) (hstuck' i)
  -- the permits are all with sessions, but each of these has returned or waits for one itself
  have houtside (j : Fin n) : (tenancies o T c j).stage.permit = 0 := by
    have hstage : (tenancies o T c j).stage = .outside := by
      by_cases hj : (c.task j).isDone = true
      · exact h.stage_of_isDone hj
      · obtain ⟨next, htask, -⟩ := waits_of_not_canAct (Bool.eq_false_of_not_eq_true hj) (hstuck' j)
        exact h.allows htask
    rw [hstage]
    rfl
  have hsum := h.tenure.permits_eq
  rw [hpermits, Finset.sum_eq_zero fun j _ ↦ houtside j] at hsum
  have hcap : 1 ≤ o.connectionCap := le_max_right _ _
  omega

/-- Every run can be brought to its end by the sessions alone. -/
theorem Reaches.exists_finished (h : Reaches o T sessions c) :
    ∃ c', Tasks.Reachable (PassState.Responds o T) (fun _ _ ↦ False) c c' ∧ c'.Finished := by
  obtain ⟨shutdown, hrun⟩ := h
  exact hrun.exists_finished (fun i ↦ runSession_within o (sessions i).info (sessions i).events)
    fun c hc ↦ Reaches.canAct ⟨shutdown, hc⟩

/-- What the sessions do without the flag being touched, they do in a pass. -/
theorem Reaches.of_acts {c' : Pass n} (h : Reaches o T sessions c)
    (hrun : Tasks.Reachable (PassState.Responds o T) (fun _ _ ↦ False) c c') :
    Reaches o T sessions c' := by
  obtain ⟨shutdown, h⟩ := h
  exact ⟨shutdown, h.trans (Tasks.Reachable.of_tasks hrun)⟩

/-- **A pass comes to its end.** Whatever the target answers, whenever the flag flips and whoever
comes next: no run is longer than its events allow; unless all sessions have returned, one can go
on, and one that cannot waits for a permit; and every run can be brought to its end. -/
theorem comes_to_end (h : Reaches o T sessions c) :
    c.log.length ≤ ∑ i, opBound (sessions i).events ∧
      (c.Finished ∨ ∃ i, c.CanAct (PassState.Responds o T) i) ∧
      (∀ i, (c.task i).isDone = false → ¬c.CanAct (PassState.Responds o T) i →
        ∃ next, c.task i = .call .acquire next ∧ c.shared.permits = 0) ∧
      ∃ c', Tasks.Reachable (PassState.Responds o T) (fun _ _ ↦ False) c c' ∧ c'.Finished := by
  refine ⟨?_, h.canAct, fun i ↦ waits_of_not_canAct, h.exists_finished⟩
  obtain ⟨shutdown, hrun⟩ := h
  exact hrun.length_log_le fun i ↦ runSession_within o (sessions i).info (sessions i).events

/-- Two pooled sessions with room for one connection, before the first step. -/
theorem comes_to_end_sample :
    let sessions : Fin 2 → ReplaySession pooledOptions :=
      ![.ofEvents _ 1 [eventIn none (ascii "SELECT 1")],
        .ofEvents _ 2 [eventIn (some (ascii "b")) (ascii "SELECT 2")]]
    let c := run pooledOptions sessions []
    c.log.length ≤ 34 ∧
      (c.Finished ∨ ∃ i, c.CanAct (PassState.Responds pooledOptions .plain) i) ∧
      ∃ c', Tasks.Reachable (PassState.Responds pooledOptions .plain) (fun _ _ ↦ False) c c' ∧
        c'.Finished := by
  intro sessions c
  obtain ⟨hlength, hact, -, hend⟩ := comes_to_end (reaches_run pooledOptions sessions [])
  exact ⟨hlength, hact, hend⟩

end Pass

end SqlReplay
