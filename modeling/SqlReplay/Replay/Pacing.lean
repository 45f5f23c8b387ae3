import SqlReplay.Replay.Conservation
import SqlReplay.Replay.Database
import SqlReplay.Replay.Schedule
import SqlReplay.Task.SharedState

/-!
# Pacing

A replay at a speed factor honours the timeline of the capture: a session waits until its event is
due before it goes on. What the sessions share then has a clock, and the pacer's record of how late
events were let through (`PacedState`).

The clock changes nothing but time. Forgetting it, the runs of a paced pass are the runs of a pass,
and any of these can be had at any speed, since time goes by (`reaches_untimed_iff`).

What pacing is for is `keeps_time`: no statement is sent before its event is due, nor before all
events that were captured earlier are due, and between any two events as much time goes by as in
the capture, scaled, up to the largest lag of the report. Two things go into it: each session lets
its events through one after the other and sends nothing but the statement of the last one
(`timing`), and the schedule keeps the order of the capture and is hardly off.
-/

namespace SqlReplay

/-! ## A pass with a clock -/

/-- What the sessions of a pass share, with the clock and the accumulator. The history field `fired`
has the events that were let through, each with its moment; no operation reads it. -/
structure PacedState where
  pass : PassState
  now : ℕ
  lag : LagAgg
  fired : List (Event × ℕ)

namespace PacedState

protected def new (o : ReplayOptions) (shutdown : Bool) (now : ℕ) : PacedState :=
  ⟨.new o shutdown, now, {}, []⟩

/-- `sleep_until`: an event is not let through before it is due. -/
def awake (p : Pacer) (s : PacedState) (op : Op) (r : op.Res) : Bool :=
  match op, r with
  | .waitUntilDue ev, .ready | .pace ev, .ready => (p.due ev).all (· ≤ s.now)
  | _, _ => true

/-- The state behind an operation and its response. -/
def after (o : ReplayOptions) (T : TargetDb) (p : Pacer) (s : PacedState) (op : Op) (r : op.Res) :
    PacedState where
  pass := s.pass.after o T op r
  now := s.now
  lag :=
    match op, r with
    | .pace ev, .ready => p.recordLag s.lag ev s.now
    | _, _ => s.lag
  fired := s.fired ++ (Replay.due op r).map fun ev ↦ (ev, s.now)

/-- A step of a session. -/
def Responds (o : ReplayOptions) (T : TargetDb) (p : Pacer) (s : PacedState) (op : Op) (r : op.Res)
    (s' : PacedState) : Prop :=
  (s.pass.possible op r = true ∧ s.awake p op r = true) ∧ s' = s.after o T p op r

/-- The flag flips, or time goes by. -/
def Elapses (s s' : PacedState) : Prop :=
  (∃ pass, s.pass.Flips pass ∧ s' = { s with pass := pass }) ∨
    ∃ later, s.now ≤ later ∧ s' = { s with now := later }

end PacedState

/-- The sessions of a paced pass and what they share. -/
abbrev PacedPass (n : ℕ) := Tasks Op.Res PacedState (Fin n)

namespace PacedPass

variable {n : ℕ}

/-- The start of a pass at a moment. -/
def new (o : ReplayOptions) (shutdown : Bool) (start : ℕ) (sessions : Fin n → ReplaySession o) :
    PacedPass n :=
  .start (.new o shutdown start) fun i ↦ Replay.runSession o (sessions i).info (sessions i).events

/-- What a pass that began at a moment can come to. -/
def Reaches (o : ReplayOptions) (T : TargetDb) (speed : Speed) (base : ℤ) (start : ℕ)
    (sessions : Fin n → ReplaySession o) (c : PacedPass n) : Prop :=
  ∃ shutdown, Tasks.Reachable (PacedState.Responds o T (.new speed base start)) PacedState.Elapses
    (new o shutdown start sessions) c

/-- The pass without the clock. -/
def untimed (c : PacedPass n) : Pass n := c.mapShared PacedState.pass

end PacedPass

/-! ## The clock forgotten -/

namespace PacedPass

variable {o : ReplayOptions} {T : TargetDb} {speed : Speed} {base : ℤ} {start n : ℕ}
  {sessions : Fin n → ReplaySession o} {c : PacedPass n}

/-- Without the clock, a run of a paced pass is one of a pass. -/
theorem Reaches.untimed (h : Reaches o T speed base start sessions c) :
    Pass.Reaches o T sessions c.untimed := by
  obtain ⟨shutdown, hrun⟩ := h
  refine ⟨shutdown, Tasks.Reachable.mapShared (g := PacedState.pass) ?_ ?_ hrun⟩
  · rintro s op r s' ⟨⟨hpossible, -⟩, rfl⟩
    exact ⟨hpossible, rfl⟩
  · rintro s s' (⟨pass, hflips, rfl⟩ | ⟨later, -, rfl⟩)
    · exact Or.inl hflips
    · exact Or.inr rfl

/-- At some time, what an operation waits for is due. -/
theorem exists_awake (p : Pacer) (s : PacedState) (op : Op) :
    ∃ later, s.now ≤ later ∧ ∀ r, PacedState.awake p { s with now := later } op r = true := by
  have hwait (ev : Event) : (p.due ev).all (· ≤ max s.now ((p.due ev).getD 0)) = true := by
    cases p.due ev with
    | none => rfl
    | some due => exact decide_eq_true (le_max_right _ _)
  cases op with
  | waitUntilDue ev | pace ev =>
    refine ⟨max s.now ((p.due ev).getD 0), le_max_left _ _, fun r ↦ ?_⟩
    cases r with
    | aborted => rfl
    | ready => exact hwait ev
  | _ => exact ⟨s.now, le_rfl, fun _ ↦ rfl⟩

/-- Every run of a pass can be had at any speed. -/
theorem exists_paced (speed : Speed) (base : ℤ) (start : ℕ) {d : Pass n}
    (h : Pass.Reaches o T sessions d) :
    ∃ c, Reaches o T speed base start sessions c ∧ c.untimed = d := by
  obtain ⟨shutdown, hrun⟩ := h
  obtain ⟨c, hreach, hc⟩ : ∃ c : PacedPass n,
      Tasks.Reachable (PacedState.Responds o T (.new speed base start)) PacedState.Elapses
        (new o shutdown start sessions) c ∧ c.mapShared PacedState.pass = d := by
    refine Tasks.Reachable.exists_mapShared ?_ ?_ hrun
    · rintro s op r t ⟨hpossible, rfl⟩
      obtain ⟨later, hle, hawake⟩ := exists_awake (.new speed base start) s op
      exact ⟨_, _, .single (Or.inr ⟨later, hle, rfl⟩), ⟨⟨hpossible, hawake r⟩, rfl⟩, rfl⟩
    · exact fun s t hflips ↦ ⟨_, Or.inl ⟨t, hflips, rfl⟩, rfl⟩
  exact ⟨c, ⟨shutdown, hreach⟩, hc⟩

/-- **Pacing changes nothing but time.** At any speed, the runs of a paced pass are the runs of a
pass. -/
theorem reaches_untimed_iff (o : ReplayOptions) (T : TargetDb) (speed : Speed) (base : ℤ)
    (start : ℕ) (sessions : Fin n → ReplaySession o) (d : Pass n) :
    Pass.Reaches o T sessions d ↔
      ∃ c : PacedPass n, Reaches o T speed base start sessions c ∧ c.untimed = d := by
  constructor
  · exact exists_paced speed base start
  · rintro ⟨c, hreaches, rfl⟩
    exact hreaches.untimed

end PacedPass

/-! ## What a session sends when -/

namespace Replay

open Program

/-- The protocol of a session that sends in time. It knows the events it has let through; it takes
them in order, and what it sends is for the last one. -/
def timing (events : List Event) : Protocol Op.Res (List Event) where
  allows g
    | .pace ev => g ++ [ev] <+: events
    | .use _ db => ∃ ev, g.getLast? = some ev ∧ ev.db = some db
    | .query _ sql | .queryChecksum _ sql => ∃ ev, g.getLast? = some ev ∧ ev.query = sql
    | _ => True
  learn g op r := g ++ due op r

variable {o : ReplayOptions} {events g : List Event} {ev : Event}

theorem timing_learn {op : Op} {r : op.Res} (h : due op r = []) :
    (timing events).learn g op r = g := by
  change g ++ due op r = g
  rw [h, List.append_nil]

/-- An operation that lets no event through. -/
theorem obeys_untimed {α : Type} {op : Op} {f : op.Res → Task α} {Q : List Event → α → Prop}
    (hallows : (timing events).allows g op) (hdue : ∀ r, due op r = [])
    (h : ∀ r, (f r).Obeys (timing events) g Q) :
    (perform op >>= f).Obeys (timing events) g Q :=
  obeys_hidden hallows (fun r ↦ timing_learn (hdue r)) h

theorem drainRecording_timing (how : DrainAs) (rest : List Event) :
    (drainRecording how rest).Obeys (timing events) g fun g' _ ↦ g' = g := by
  induction rest with
  | nil => exact rfl
  | cons ev rest ih =>
    cases how <;> exact obeys_untimed trivial (fun _ ↦ rfl) fun _ ↦ ih

theorem executeEvent_timing (hlast : g.getLast? = some ev) (conn : ConnId) (checksum : Bool) :
    (executeEvent conn ev.query checksum).Obeys (timing events) g fun g' _ ↦ g' = g := by
  unfold executeEvent
  split_ifs
  · refine obeys_untimed ⟨ev, hlast, rfl⟩ (fun _ ↦ rfl) ?_
    rintro (e | cs | cs) <;> exact rfl
  · refine obeys_untimed ⟨ev, hlast, rfl⟩ (fun _ ↦ rfl) ?_
    rintro (e | bytes) <;> exact rfl

theorem reconcile_timing (hlast : g.getLast? = some ev) (conn : ConnId) (current : Option Bytes) :
    (reconcile o conn current ev).Obeys (timing events) g fun g' _ ↦ g' = g := by
  unfold reconcile
  split
  · exact rfl
  · next db hdb =>
    have hev : ev.db = some db := by
      split_ifs at hdb
      exact hdb
    split_ifs
    · exact rfl
    · refine obeys_untimed ⟨ev, hlast, hev⟩ (fun _ ↦ rfl) ?_
      rintro (e | bytes)
      · exact obeys_untimed trivial (fun _ ↦ rfl) fun _ ↦ rfl
      · exact rfl

theorem checkout_timing (o : ReplayOptions) :
    (checkout o).Obeys (timing events) g fun g' _ ↦ g' = g := by
  refine obeys_untimed trivial (fun _ ↦ rfl) ?_
  rintro (_ | idle)
  · refine obeys_untimed trivial (fun _ ↦ rfl) ?_
    rintro (e | conn) <;> exact rfl
  · exact rfl

theorem giveBack_timing (pc : IdleConn) (e : TargetError) :
    (giveBack pc e).Obeys (timing events) g fun g' _ ↦ g' = g := by
  unfold giveBack
  split_ifs <;> exact obeys_untimed trivial (fun _ ↦ rfl) fun _ ↦ rfl

theorem pooledEvent_timing (hlast : g.getLast? = some ev) :
    (pooledEvent o ev).Obeys (timing events) g fun g' _ ↦ g' = g := by
  unfold pooledEvent
  refine obeys_bind ((checkout_timing o).mono ?_)
  rintro _ (e | pc) rfl
  · exact obeys_untimed trivial (fun _ ↦ rfl) fun _ ↦
      obeys_untimed trivial (fun _ ↦ rfl) fun _ ↦ rfl
  refine obeys_bind ((reconcile_timing hlast pc.conn pc.db).mono ?_)
  rintro _ (e | db) rfl
  · exact giveBack_timing pc e
  refine obeys_bind ((executeEvent_timing hlast pc.conn o.checksum).mono ?_)
  rintro _ (e | outcome) rfl
  · exact obeys_untimed trivial (fun _ ↦ rfl) fun _ ↦ giveBack_timing _ e
  · exact obeys_untimed trivial (fun _ ↦ rfl) fun _ ↦
      obeys_untimed trivial (fun _ ↦ rfl) fun _ ↦ obeys_untimed trivial (fun _ ↦ rfl) fun _ ↦ rfl

/-- The next event has been let through. -/
theorem timing_ready (ev : Event) :
    (timing events).learn g (.pace ev) Wake.ready = g ++ [ev] := rfl

theorem drain_timing {α : Type} (how : DrainAs) (rest : List Event) (a : α) :
    (drainRecording how rest >>= fun _ ↦ (pure a : Task α)).Obeys (timing events) g
      fun _ _ ↦ True :=
  obeys_bind ((drainRecording_timing how rest).mono fun _ _ _ ↦ trivial)

theorem runSessionPooled_timing (rest : List Event) (hrest : g ++ rest = events) :
    (runSessionPooled o rest).Obeys (timing events) g fun _ _ ↦ True := by
  induction rest generalizing g with
  | nil => exact trivial
  | cons ev rest ih =>
    have hdrain (g : List Event) : (drainRecording .notRun (ev :: rest)).Obeys (timing events) g
        fun _ _ ↦ True := (drainRecording_timing .notRun _).mono fun _ _ _ ↦ trivial
    have hfront : g ++ [ev] ++ rest = events := by
      rw [List.append_assoc]
      exact hrest
    rw [runSessionPooled]
    refine obeys_untimed trivial (fun _ ↦ rfl) ?_
    rintro (_ | _)
    swap
    · exact hdrain g
    rw [if_neg Bool.false_ne_true]
    -- letting the next event through is allowed, since it is the next one
    refine ⟨⟨rest, hfront⟩, ?_⟩
    rintro (_ | _)
    · rw [timing_learn rfl]
      exact hdrain g
    rw [timing_ready]
    dsimp only
    -- an event that is not executed was let through all the same
    split_ifs
    · exact obeys_untimed trivial (fun _ ↦ rfl) fun _ ↦ ih hfront
    · exact obeys_untimed trivial (fun _ ↦ rfl) fun _ ↦ ih hfront
    refine obeys_untimed trivial (fun _ ↦ rfl) ?_
    rintro (_ | _)
    · exact hdrain _
    refine obeys_bind ((pooledEvent_timing List.getLast?_concat).mono ?_)
    rintro _ _ rfl
    exact obeys_untimed trivial (fun _ ↦ rfl) fun _ ↦ ih hfront

theorem dedicatedLoop_timing (conn : ConnId) (current : Option Bytes) (rest : List Event)
    (hrest : g ++ rest = events) :
    (dedicatedLoop o conn current rest).Obeys (timing events) g fun _ _ ↦ True := by
  induction rest generalizing g current with
  | nil => exact trivial
  | cons ev rest ih =>
    have hfront : g ++ [ev] ++ rest = events := by
      rw [List.append_assoc]
      exact hrest
    rw [dedicatedLoop]
    refine obeys_untimed trivial (fun _ ↦ rfl) ?_
    rintro (_ | _)
    swap
    · exact drain_timing _ _ _
    rw [if_neg Bool.false_ne_true]
    refine ⟨⟨rest, hfront⟩, ?_⟩
    rintro (_ | _)
    · exact drain_timing _ _ _
    rw [timing_ready]
    dsimp only
    split_ifs
    · exact obeys_untimed trivial (fun _ ↦ rfl) fun _ ↦ ih current hfront
    · exact obeys_untimed trivial (fun _ ↦ rfl) fun _ ↦ ih current hfront
    -- from here on the event is the last one let through
    change Obeys _ (reconcile o conn current ev >>= _) _ _
    refine obeys_bind ((reconcile_timing List.getLast?_concat conn current).mono ?_)
    rintro _ (e | current) rfl
    · dsimp only
      split_ifs
      · exact drain_timing _ _ _
      · exact ih current hfront
    refine obeys_bind ((executeEvent_timing List.getLast?_concat conn o.checksum).mono ?_)
    rintro _ (e | outcome) rfl
    · refine obeys_untimed trivial (fun _ ↦ rfl) fun _ ↦ ?_
      split_ifs
      · exact drain_timing _ _ _
      · exact ih current hfront
    · exact obeys_untimed trivial (fun _ ↦ rfl) fun _ ↦
        obeys_untimed trivial (fun _ ↦ rfl) fun _ ↦ ih current hfront

theorem runSessionDedicated_timing (events : List Event) :
    (runSessionDedicated o events).Obeys (timing events) [] fun _ _ ↦ True := by
  have hdrain (rest : List Event) : (drainRecording .notRun rest).Obeys (timing events) []
      fun _ _ ↦ True := (drainRecording_timing .notRun rest).mono fun _ _ _ ↦ trivial
  rcases events with _ | ⟨first, rest⟩
  · exact trivial
  -- the wait before the first event lets none through: the loop paces that one again
  refine obeys_untimed trivial (fun _ ↦ rfl) ?_
  rintro (_ | _)
  · exact hdrain _
  refine obeys_untimed trivial (fun _ ↦ rfl) ?_
  rintro (_ | _)
  · exact hdrain _
  refine obeys_bind (Obeys.mono (Q := fun _ _ ↦ True) ?_ fun _ _ _ ↦
    obeys_untimed trivial (fun _ ↦ rfl) fun _ ↦ trivial)
  refine obeys_untimed trivial (fun _ ↦ rfl) ?_
  rintro (e | conn)
  · exact obeys_untimed trivial (fun _ ↦ rfl) fun _ ↦ hdrain _
  refine obeys_bind ((dedicatedLoop_timing (g := []) conn none (first :: rest) rfl).mono
    fun g stop _ ↦ ?_)
  cases stop <;> exact obeys_untimed trivial (fun _ ↦ rfl) fun _ ↦ trivial

/-- A session lets its events through one after the other, and sends the statement of the last
one. -/
theorem runSession_timing (session : ReplaySession o) :
    (runSession o session.info session.events).Obeys (timing session.events) [] fun _ _ ↦ True := by
  unfold runSession
  split_ifs
  · exact (drainRecording_timing .skipped _).mono fun _ _ _ ↦ trivial
  · exact runSessionPooled_timing session.events rfl
  · exact runSessionDedicated_timing session.events

end Replay

/-! ## On schedule -/

/-- The moment an event is due. -/
def dueAt (f : SpeedFactor) (base : ℤ) (start : ℕ) (ev : Event) : ℕ :=
  start + 1000 * dueOffsetMicros ev.tsMicros base f.value

/-- How late an event was let through. -/
def lagOf (f : SpeedFactor) (base : ℤ) (start : ℕ) (e : Event × ℕ) : ℕ :=
  e.2 - dueAt f base start e.1

/-- What holds of a paced pass: the events let through are the first ones of their sessions and due,
and the accumulator is that of their lags. -/
structure OnSchedule {n : ℕ} (f : SpeedFactor) (base : ℤ) (start : ℕ) (events : Fin n → List Event)
    (s : PacedState) (k : Fin n → List Event) : Prop where
  front : ∀ i, k i <+: events i
  due : ∀ i, ∀ ev ∈ k i, dueAt f base start ev ≤ s.now
  fired : ∀ e ∈ s.fired, (∃ i, e.1 ∈ events i) ∧ dueAt f base start e.1 ≤ e.2 ∧ e.2 ≤ s.now
  lag : s.lag.Holds (s.fired.map (lagOf f base start))

namespace OnSchedule

variable {o : ReplayOptions} {T : TargetDb} {f : SpeedFactor} {base : ℤ} {start n : ℕ}
  {events : Fin n → List Event} {s s' : PacedState} {k : Fin n → List Event}

/-- A step that lets no event through. -/
theorem quiet (h : OnSchedule f base start events s k) (hnow : s.now ≤ s'.now)
    (hfired : s'.fired = s.fired) (hlag : s'.lag = s.lag) :
    OnSchedule f base start events s' k := by
  constructor
  · exact h.front
  · exact fun i ev hev ↦ (h.due i ev hev).trans hnow
  · intro e he
    rw [hfired] at he
    obtain ⟨hevent, hdue, hbefore⟩ := h.fired e he
    exact ⟨hevent, hdue, hbefore.trans hnow⟩
  · rw [hlag, hfired]
    exact h.lag

/-- An event is let through. -/
theorem pace (h : OnSchedule f base start events s k) {i : Fin n} {ev : Event}
    (hfront : k i ++ [ev] <+: events i) (hdue : dueAt f base start ev ≤ s.now)
    (hnow : s'.now = s.now) (hfired : s'.fired = s.fired ++ [(ev, s.now)])
    (hlag : s'.lag = s.lag.record (s.now - dueAt f base start ev)) :
    OnSchedule f base start events s' (Function.update k i (k i ++ [ev])) := by
  have hmem : ev ∈ events i := hfront.subset (List.mem_append_right _ (List.mem_singleton_self ev))
  constructor
  · intro j
    by_cases hj : j = i
    · subst hj
      rw [Function.update_self]
      exact hfront
    · rw [Function.update_of_ne hj]
      exact h.front j
  · intro j ev' hev'
    rw [hnow]
    by_cases hj : j = i
    · subst hj
      rw [Function.update_self] at hev'
      rcases List.mem_append.mp hev' with hev' | hev'
      · exact h.due j ev' hev'
      · rw [List.mem_singleton.mp hev']
        exact hdue
    · rw [Function.update_of_ne hj] at hev'
      exact h.due j ev' hev'
  · intro e he
    rw [hfired] at he
    rw [hnow]
    rcases List.mem_append.mp he with he | he
    · exact h.fired e he
    · rw [List.mem_singleton.mp he]
      exact ⟨⟨i, hmem⟩, hdue, le_rfl⟩
  · rw [hlag, hfired, List.map_append]
    exact h.lag.record _

/-- What every operation of a session keeps. -/
theorem step (h : OnSchedule f base start events s k) {i : Fin n} {op : Op} {r : op.Res}
    (hallows : (Replay.timing (events i)).allows (k i) op)
    (hresponds : s.Responds o T (.paced f base start) op r s') :
    OnSchedule f base start events s'
      (Function.update k i ((Replay.timing (events i)).learn (k i) op r)) := by
  obtain ⟨⟨-, hawake⟩, rfl⟩ := hresponds
  -- all operations but one let no event through and leave the lags alone
  have hother (hdue : Replay.due op r = [])
      (hlag : (s.after o T (.paced f base start) op r).lag = s.lag) :
      OnSchedule f base start events (s.after o T (.paced f base start) op r)
        (Function.update k i ((Replay.timing (events i)).learn (k i) op r)) := by
    rw [Replay.timing_learn hdue, Function.update_eq_self]
    refine h.quiet le_rfl ?_ hlag
    change s.fired ++ (Replay.due op r).map _ = s.fired
    rw [hdue, List.map_nil, List.append_nil]
  cases op with
  | pace ev =>
    cases r with
    | aborted => exact hother rfl rfl
    | ready => exact h.pace hallows (of_decide_eq_true hawake) rfl rfl rfl
  | _ => exact hother rfl rfl

end OnSchedule

namespace PacedPass

variable {o : ReplayOptions} {T : TargetDb} {f : SpeedFactor} {base : ℤ} {start n : ℕ}
  {sessions : Fin n → ReplaySession o} {c : PacedPass n}

/-- What the sessions of a paced pass know are the events they have let through. -/
theorem known_timing (sessions : Fin n → ReplaySession o) (c : PacedPass n) :
    c.known (fun i ↦ Replay.timing (sessions i).events) [] = fun i ↦ Replay.paced (c.logOf i) := by
  funext i
  rw [Tasks.known, Protocol.after, Replay.paced, Program.observe]
  have hfold (g : List Event) (t : Trace Op.Res) :
      t.foldl (fun g e ↦ (Replay.timing (sessions i).events).learn g e.1 e.2) g =
        g ++ t.flatMap fun e ↦ Replay.due e.1 e.2 := by
    induction t generalizing g with
    | nil => exact (List.append_nil _).symm
    | cons e t ih =>
      rw [List.foldl_cons, ih, List.flatMap_cons, ← List.append_assoc]
      rfl
  rw [hfold, List.nil_append]

theorem Reaches.onSchedule (h : Reaches o T (.factor f) base start sessions c) :
    OnSchedule f base start (fun i ↦ (sessions i).events) c.shared
      fun i ↦ Replay.paced (c.logOf i) := by
  obtain ⟨shutdown, hrun⟩ := h
  rw [← known_timing sessions]
  refine hrun.invariant (OnSchedule f base start fun i ↦ (sessions i).events)
    (fun i ↦ Replay.runSession_timing (sessions i)) ?_ ?_ ?_
  · exact ⟨fun i ↦ List.nil_prefix, fun i ev hev ↦ absurd hev List.not_mem_nil,
      fun e he ↦ absurd he List.not_mem_nil, LagAgg.holds_new⟩
  · exact fun s k i op r s' hinv hallows hresponds ↦ hinv.step hallows hresponds
  · rintro s k s' hinv (⟨pass, -, rfl⟩ | ⟨later, hle, rfl⟩)
    · exact hinv.quiet le_rfl rfl rfl
    · exact hinv.quiet hle rfl rfl

/-- The captured statement a session is about to send is that of the event it has let through
last. -/
theorem Reaches.sends (h : Reaches o T (.factor f) base start sessions c) {i : Fin n}
    {conn : ConnId} {sql : Bytes} (hsends : c.untimed.sending i = some (conn, sql)) :
    ∃ ev, (Replay.paced (c.logOf i)).getLast? = some ev ∧ ev.query = sql := by
  obtain ⟨shutdown, hrun⟩ := h
  have hobeys := hrun.obeys (fun j ↦ Replay.runSession_timing (sessions j)) i
  rw [known_timing sessions] at hobeys
  unfold Pass.sending at hsends
  split at hsends
  · exact absurd hsends.symm (Option.some_ne_none _)
  · next op next hop =>
    have hop' : c.task i = .call op next := hop
    rw [hop'] at hobeys
    cases op with
    | query conn' sql' | queryChecksum conn' sql' =>
      obtain ⟨-, rfl⟩ := Prod.mk.inj (Option.some.inj hsends)
      exact hobeys.1
    | _ => exact absurd hsends.symm (Option.some_ne_none _)

/-! ## Keeping time -/

/-- A paced pass keeps to the timeline of the capture. -/
structure KeepsTime (f : SpeedFactor) (base : ℤ) (start : ℕ) (sessions : Fin n → ReplaySession o)
    (c : PacedPass n) : Prop where
  /-- A captured statement is sent when its event and all that were captured before it are due. -/
  sends : ∀ i conn sql, c.untimed.sending i = some (conn, sql) →
    ∃ ev, (Replay.paced (c.logOf i)).getLast? = some ev ∧ ev.query = sql ∧
      ∀ j, ∀ ev' ∈ (sessions j).events, ev'.tsMicros ≤ ev.tsMicros →
        dueAt f base start ev' ≤ c.shared.now
  front : ∀ i, Replay.paced (c.logOf i) <+: (sessions i).events
  /-- The history is that of the log. -/
  logged : c.shared.fired.map Prod.fst = Replay.paced (c.log.map Prod.snd)
  /-- No event is let through before it is due, or later than the largest lag. -/
  late : ∀ e ∈ c.shared.fired, dueAt f base start e.1 ≤ e.2 ∧
    e.2 < dueAt f base start e.1 + 1000 * (c.shared.lag.maxLagUs + 1)
  lag : c.shared.lag.Holds (c.shared.fired.map (lagOf f base start))
  /-- The report is that of the history: the sum of the lags is one of 64 bits. -/
  reported : ∀ r, (Pacer.paced f base start).report c.shared.lag = some r →
    r.speed = f.value ∧ r.pacedEvents = c.shared.fired.length ∧
      r.maxLagUs = c.shared.lag.maxLagUs ∧
      r.meanLagUs = if 0 < c.shared.fired.length then
          F64.ofNat (((c.shared.fired.map (lagOf f base start)).map lagMicros).sum % 2 ^ 64) /
            F64.ofNat c.shared.fired.length
        else .zero
  /-- The time between two events is that of the capture, scaled. -/
  timeline : ∀ e ∈ c.shared.fired, ∀ e' ∈ c.shared.fired,
    |((e'.2 : ℚ) - e.2) / 1000 - (scaledOffset f base e'.1 - scaledOffset f base e.1)| ≤
      c.shared.lag.maxLagUs + 3 +
        (scaledOffset f base e.1 + scaledOffset f base e'.1) / 2 ^ 51

/-- **A paced replay keeps time.** The clock of the pass has not gone round. -/
theorem keeps_time (hrange : ∀ i, ∀ ev ∈ (sessions i).events, InRange f base ev)
    (h : Reaches o T (.factor f) base start sessions c)
    (hclock : c.shared.now < start + 1000 * 2 ^ 64) : KeepsTime f base start sessions c := by
  have hschedule := h.onSchedule
  have hlate : ∀ e ∈ c.shared.fired, dueAt f base start e.1 ≤ e.2 ∧
      e.2 < dueAt f base start e.1 + 1000 * (c.shared.lag.maxLagUs + 1) := by
    intro e he
    obtain ⟨-, hdue, hbefore⟩ := hschedule.fired e he
    have hle := hschedule.lag.le _ (List.mem_map_of_mem he)
    have hstart : start ≤ dueAt f base start e.1 := Nat.le_add_right _ _
    rw [lagMicros, lagOf] at hle
    omega
  constructor
  · intro i conn sql hsends
    obtain ⟨ev, hlast, hquery⟩ := h.sends hsends
    refine ⟨ev, hlast, hquery, fun j ev' _ hle ↦ ?_⟩
    refine le_trans ?_ (hschedule.due i ev (List.mem_of_getLast? hlast))
    exact Nat.add_le_add_left (Nat.mul_le_mul_left _ (dueOffset_mono f base hle)) start
  · exact hschedule.front
  · obtain ⟨shutdown, hrun⟩ := h
    have hlog := hrun.foldl_log (f := fun s : PacedState ↦ s.fired.map Prod.fst)
      (g := fun l e ↦ l ++ Replay.due e.1 e.2) ?_ ?_
    · rw [hlog, List.foldl_append_eq_append]
      rfl
    · rintro s op r s' ⟨-, rfl⟩
      change (s.fired ++ (Replay.due op r).map _).map Prod.fst = _
      rw [List.map_append, List.map_map]
      exact congrArg _ (List.map_id _)
    · rintro s s' (⟨pass, -, rfl⟩ | ⟨later, -, rfl⟩) <;> rfl
  · exact hlate
  · exact hschedule.lag
  · intro r hr
    obtain rfl := Option.some.inj hr
    have hcount : c.shared.lag.pacedEvents = c.shared.fired.length :=
      hschedule.lag.count.trans (List.length_map _)
    refine ⟨rfl, hcount, rfl, ?_⟩
    rw [← hschedule.lag.sum, ← hcount]
    rfl
  · intro e he e' he'
    obtain ⟨⟨i, hi⟩, -, -⟩ := hschedule.fired e he
    obtain ⟨⟨i', hi'⟩, -, -⟩ := hschedule.fired e' he'
    have herror := abs_le.mp (dueOffset_error (hrange i e.1 hi))
    have herror' := abs_le.mp (dueOffset_error (hrange i' e'.1 hi'))
    obtain ⟨hlow, hhigh⟩ := hlate e he
    obtain ⟨hlow', hhigh'⟩ := hlate e' he'
    -- both moments, in microseconds
    have hq : (start : ℚ) + 1000 * dueOffsetMicros e.1.tsMicros base f.value ≤ e.2 := by
      exact_mod_cast hlow
    have hq' : (start : ℚ) + 1000 * dueOffsetMicros e'.1.tsMicros base f.value ≤ e'.2 := by
      exact_mod_cast hlow'
    have hu : (e.2 : ℚ) < start + 1000 * dueOffsetMicros e.1.tsMicros base f.value +
        1000 * (c.shared.lag.maxLagUs + 1) := by exact_mod_cast hhigh
    have hu' : (e'.2 : ℚ) < start + 1000 * dueOffsetMicros e'.1.tsMicros base f.value +
        1000 * (c.shared.lag.maxLagUs + 1) := by exact_mod_cast hhigh'
    rw [add_div, abs_le]
    constructor <;> linarith

end PacedPass

/-! ## Two queries at double speed -/

/-- A step against a target that answers at once; what is not due has to wait. -/
def obligePaced (o : ReplayOptions) (T : TargetDb) (p : Pacer) (s : PacedState) (op : Op) :
    Option (op.Res × PacedState) :=
  if s.pass.possible op (s.pass.obligingAnswer op) && s.awake p op (s.pass.obligingAnswer op) then
    some (s.pass.obligingAnswer op, s.after o T p op (s.pass.obligingAnswer op))
  else none

theorem responds_of_obligePaced {o : ReplayOptions} {T : TargetDb} {p : Pacer} (s : PacedState)
    (op : Op) (r : op.Res) (s' : PacedState) (h : obligePaced o T p s op = some (r, s')) :
    s.Responds o T p op r s' := by
  unfold obligePaced at h
  split_ifs at h with hpossible
  obtain ⟨rfl, rfl⟩ := Prod.mk.inj (Option.some.inj h)
  exact ⟨Bool.and_eq_true_iff.mp hpossible, rfl⟩

theorem two_finite : (F64.ofNat 2).magnitude < F64.infinityBits := by decide

theorem two_sign : (F64.ofNat 2).isNegative = false := by decide

theorem two_positive : (F64.ofNat 2).magnitude ≠ 0 := by decide

theorem absValue_two : (F64.ofNat 2).absValue = 2 := by
  have hsignificand : (F64.ofNat 2).significand = 2 ^ 52 := by decide
  have hexponent : (F64.ofNat 2).exponent = -51 := by decide
  rw [F64.absValue, hsignificand, hexponent]
  norm_num

/-- `--speed 2`. -/
def doubleSpeed : SpeedFactor := ⟨F64.ofNat 2, two_finite, two_sign, two_positive⟩

def queryAt (tsMicros : ℤ) (query : Bytes) : Event := ⟨tsMicros, 1, none, none, query, .zero, 0⟩

/-- A session with two queries, three microseconds apart. -/
def twoQueries : Fin 1 → ReplaySession Pass.sampleOptions := fun _ ↦
  .ofEvents _ 1 [queryAt 0 (ascii "SELECT 1"), queryAt 3 (ascii "SELECT 2")]

/-- The run up to where the second query has to wait. -/
def waitingRun : PacedPass 1 :=
  Tasks.schedule (obligePaced Pass.sampleOptions .plain (.paced doubleSpeed 0 0))
    (List.replicate 10 0) (PacedPass.new Pass.sampleOptions false 0 twoQueries)

/-- Two microseconds later it is due. -/
def wokenRun : PacedPass 1 :=
  Tasks.schedule (obligePaced Pass.sampleOptions .plain (.paced doubleSpeed 0 0)) [0]
    { waitingRun with shared := { waitingRun.shared with now := 2000 } }

theorem reaches_wokenRun :
    PacedPass.Reaches Pass.sampleOptions .plain (.factor doubleSpeed) 0 0 twoQueries wokenRun := by
  have hnow : waitingRun.shared.now = 0 := by decide +kernel
  have hwaiting : Tasks.Reachable
      (PacedState.Responds Pass.sampleOptions .plain (.paced doubleSpeed 0 0)) PacedState.Elapses
      (PacedPass.new Pass.sampleOptions false 0 twoQueries) waitingRun :=
    Tasks.reachable_schedule responds_of_obligePaced _ _
  have hwoken := hwaiting.tail (.env (Or.inr ⟨2000, hnow ▸ Nat.zero_le _, rfl⟩))
  exact ⟨false, hwoken.trans (Tasks.reachable_schedule responds_of_obligePaced _ _)⟩

/-- The second query is sent at last, in time. -/
theorem PacedPass.keeps_time_sample :
    wokenRun.untimed.sending 0 = some (0, ascii "SELECT 2") ∧
      KeepsTime doubleSpeed 0 0 twoQueries wokenRun := by
  refine ⟨by decide +kernel, keeps_time (fun i ev hev ↦ ?_) reaches_wokenRun (by decide +kernel)⟩
  have hvalue : doubleSpeed.value.absValue = 2 := absValue_two
  rcases List.mem_pair.mp hev with rfl | rfl
  · exact ⟨by decide, by decide, by rw [hvalue]; norm_num [queryAt]⟩
  · exact ⟨by decide, by decide, by rw [hvalue]; norm_num [queryAt]⟩

end SqlReplay
