import SqlReplay.Replay.Session

/-!
# What a session does with its events

The specification of a session task, whichever of the two bodies runs: it handles its events in
order, and handling an event is one of four things (`Handling`). The event is not run; it is kept
back by the gate; the `USE` of its database fails; or its statement is sent, behind the `USE` of its
database or without. Each ends in exactly one record.

What is observed of a task are the statements it sends and the records it makes (`act`). For every
response of the target, every time of the abort and every state of the pool, the observations of a
session are such handlings of its events, one after the other (`runSession_handles`).

A session looks at the shutdown flag first when an event's turn comes, and this look is observed as
well (`mark`): a session with an executable statement takes its events in turn, and drains those
whose turn does not come (`runSession_turns`). The handlings are what is left when the looks are
forgotten.
-/

namespace SqlReplay.Replay

open Program

/-- The four records of an event. -/
inductive Tally where
  | executed
  | failed
  | skipped
  | notRun
  deriving DecidableEq, Repr

/-- An observation of a task. -/
inductive Act where
  /-- The `USE` of a database. -/
  | moved (db : Bytes)
  /-- A captured statement. -/
  | sent (sql : Bytes)
  | recorded (tally : Tally) (fp : UInt32)
  deriving DecidableEq, Repr

/-- The statements and the records of a task. -/
def act (op : Op) (_ : op.Res) : List Act :=
  match op with
  | .use _ db => [.moved db]
  | .query _ sql | .queryChecksum _ sql => [.sent sql]
  | .recordOk fp _ _ => [.recorded .executed fp]
  | .recordErr fp _ => [.recorded .failed fp]
  | .recordSkip fp => [.recorded .skipped fp]
  | .recordNotRun fp => [.recorded .notRun fp]
  | _ => []

/-- Whether a pass may send an event's statement: it passes the write gate, and it is no `USE` in a
pass where one would not last, with an override database or on pooled connections. -/
def gate (o : ReplayOptions) (ev : Event) : Bool :=
  shouldExecute ev.query o.allowWrites &&
    !((!o.useEventDb || o.pool.isSome) && isUseStatement ev.query)

theorem not_use_of_gate {o : ReplayOptions} {ev : Event} (h : gate o ev = true)
    (hpinned : o.dbOverride.isSome = true ∨ o.pool.isSome = true) :
    isUseStatement ev.query = false := by
  have hpinned : (!o.useEventDb || o.pool.isSome) = true := by
    rcases hpinned with hoverride | hpool
    · rw [ReplayOptions.useEventDb, ← Option.not_isSome, hoverride]
      rfl
    · rw [hpool, Bool.or_true]
  rw [gate, hpinned, Bool.true_and, Bool.and_eq_true] at h
  exact Bool.eq_false_of_not_eq_true' h.2

/-- What is done with one event. -/
inductive Handling (o : ReplayOptions) (ev : Event) : List Act → Prop
  | notRun : Handling o ev [.recorded .notRun ev.fingerprintId]
  | skipped : gate o ev = false → Handling o ev [.recorded .skipped ev.fingerprintId]
  | useFailed {db : Bytes} : gate o ev = true → o.useEventDb = true → ev.db = some db →
      Handling o ev [.moved db, .recorded .failed ev.fingerprintId]
  | sent (tally : Tally) : gate o ev = true →
      Handling o ev [.sent ev.query, .recorded tally ev.fingerprintId]
  | sentBehindUse {db : Bytes} (tally : Tally) : gate o ev = true → o.useEventDb = true →
      ev.db = some db → Handling o ev
        [.moved db, .sent ev.query, .recorded tally ev.fingerprintId]

/-- What is done with the events of a session. -/
inductive Handlings (o : ReplayOptions) : List Event → List Act → Prop
  | nil : Handlings o [] []
  | cons {ev : Event} {events : List Event} {l l' : List Act} :
      Handling o ev l → Handlings o events l' → Handlings o (ev :: events) (l ++ l')

/-! ## Turns -/

/-- What is seen of the turns of a session: an event's turn comes, the flag being found not set, or
something is done. -/
inductive Mark where
  | begun
  | did (a : Act)
  deriving DecidableEq, Repr

/-- The turns of a task, with its statements and records. -/
def mark (op : Op) (r : op.Res) : List Mark :=
  match op, r with
  | .shutdownFlag, false => [.begun]
  | op, r => (act op r).map .did

def Mark.act? : Mark → Option Act
  | .begun => none
  | .did a => some a

theorem filterMap_act?_map (l : List Act) : (l.map Mark.did).filterMap Mark.act? = l := by
  rw [List.filterMap_map]
  exact List.filterMap_some

theorem act_eq_mark : act = fun op r ↦ (mark op r).filterMap Mark.act? := by
  funext op r
  cases op with
  | shutdownFlag => cases r <;> rfl
  | _ => exact (filterMap_act?_map _).symm

/-- The records of events whose turn does not come. -/
def notRuns (events : List Event) : List Mark :=
  events.map fun ev ↦ .did (.recorded .notRun ev.fingerprintId)

/-- Some events are handled, each in its turn, and those behind them are drained. -/
inductive Turns (o : ReplayOptions) : List Event → List Mark → Prop
  | drained (events : List Event) : Turns o events (notRuns events)
  | turn {ev : Event} {events : List Event} {l : List Act} {l' : List Mark} :
      Handling o ev l → Turns o events l' →
        Turns o (ev :: events) (.begun :: (l.map .did ++ l'))

variable {o : ReplayOptions}

theorem Turns.handlings {events : List Event} {l : List Mark} (h : Turns o events l) :
    Handlings o events (l.filterMap Mark.act?) := by
  induction h with
  | drained events =>
    induction events with
    | nil => exact .nil
    | cons ev events ih => exact .cons .notRun ih
  | turn hev _ ih =>
    rw [List.filterMap_cons, Mark.act?, List.filterMap_append, filterMap_act?_map]
    exact .cons hev ih

/-! ## The parts of a session -/

theorem drainRecording_skipped {events : List Event} (h : ∀ ev ∈ events, gate o ev = false) :
    (drainRecording .skipped events).Ensures act fun l _ ↦ Handlings o events l := by
  induction events with
  | nil => exact .nil
  | cons ev events ih =>
    intro r
    refine (ih fun ev' hev' ↦ h ev' (List.mem_cons_of_mem _ hev')).mono fun l _ hl ↦ ?_
    exact .cons (.skipped (h ev List.mem_cons_self)) hl

theorem executeEvent_sends (conn : ConnId) (sql : Bytes) (checksum : Bool) :
    (executeEvent conn sql checksum).Ensures act fun l _ ↦ l = [.sent sql] := by
  unfold executeEvent
  split_ifs
  · intro r
    rcases r with e | cs | cs <;> exact rfl
  · intro r
    rcases r with e | bytes <;> exact rfl

/-- The observations of a reconciliation: none, or a `USE` of the event's database, recorded when
it fails. -/
def Reconciled (o : ReplayOptions) (ev : Event) (l : List Act) :
    Except TargetError (Option Bytes) → Prop
  | .ok _ => l = [] ∨ ∃ db, o.useEventDb = true ∧ ev.db = some db ∧ l = [.moved db]
  | .error _ => ∃ db, o.useEventDb = true ∧ ev.db = some db ∧
      l = [.moved db, .recorded .failed ev.fingerprintId]

theorem reconcile_reconciled (conn : ConnId) (current : Option Bytes) (ev : Event) :
    (reconcile o conn current ev).Ensures act (Reconciled o ev) := by
  unfold reconcile
  split
  · exact Or.inl rfl
  · next db hdb =>
    have huse : o.useEventDb = true ∧ ev.db = some db := by
      split_ifs at hdb with huse
      exact ⟨huse, hdb⟩
    split_ifs
    · exact Or.inl rfl
    · intro r
      rcases r with e | bytes
      · exact fun _ ↦ ⟨db, huse.1, huse.2, rfl⟩
      · exact Or.inr ⟨db, huse.1, huse.2, rfl⟩

/-- Sending a statement behind its reconciliation, and recording it. -/
theorem Handling.of_reconciled {ev : Event} {l : List Act} {current : Option Bytes}
    (hgate : gate o ev = true) (h : Reconciled o ev l (.ok current)) (tally : Tally) :
    Handling o ev (l ++ [.sent ev.query, .recorded tally ev.fingerprintId]) := by
  rcases h with rfl | ⟨db, huse, hdb, rfl⟩
  · exact .sent tally hgate
  · exact .sentBehindUse tally hgate huse hdb

/-- Making a record. -/
theorem ensures_tell {V β : Type} {view : (op : Op) → op.Res → List V} (op : Op)
    {f : Unit → Task β} {Q : List V → β → Prop} :
    (tell op >>= f).Ensures view Q ↔ ∀ r, (f ()).Ensures view fun l b ↦ Q (view op r ++ l) b :=
  Iff.rfl

theorem checkout_quiet (o : ReplayOptions) :
    (checkout o).Ensures act fun l _ ↦ l = [] := by
  unfold checkout
  refine (ensures_hidden fun _ ↦ rfl).mpr fun idle ↦ ?_
  cases idle with
  | some idle => exact rfl
  | none =>
    refine (ensures_hidden fun _ ↦ rfl).mpr fun r ↦ ?_
    cases r <;> exact rfl

theorem giveBack_quiet (pc : IdleConn) (e : TargetError) :
    (giveBack pc e).Ensures act fun l _ ↦ l = [] := by
  unfold giveBack
  split_ifs <;> exact fun _ ↦ rfl

theorem pooledEvent_handles {ev : Event} (hgate : gate o ev = true) :
    (pooledEvent o ev).Ensures act fun l _ ↦ Handling o ev l := by
  unfold pooledEvent
  refine ensures_bind.mpr ((checkout_quiet o).mono fun l r hl ↦ ?_)
  subst hl
  cases r with
  | error e => exact fun _ _ ↦ .notRun
  | ok pc =>
    refine ensures_bind.mpr ((reconcile_reconciled pc.conn pc.db ev).mono fun l₁ r hr ↦ ?_)
    cases r with
    | error e =>
      obtain ⟨db, huse, hdb, rfl⟩ := hr
      refine (giveBack_quiet pc e).mono fun l _ hl ↦ ?_
      rw [hl]
      exact .useFailed hgate huse hdb
    | ok db =>
      refine ensures_bind.mpr
        ((executeEvent_sends pc.conn ev.query o.checksum).mono fun l₂ r hl₂ ↦ ?_)
      subst hl₂
      cases r with
      | ok outcome => exact fun _ _ _ ↦ .of_reconciled hgate hr .executed
      | error e =>
        refine (ensures_tell _).mpr fun _ ↦ (giveBack_quiet ⟨pc.conn, db⟩ e).mono fun l _ hl ↦ ?_
        rw [hl]
        exact .of_reconciled hgate hr .failed

/-! ## Programs without a look at the flag -/

/-- No operation of the program is a look at the flag. -/
def NeverPolls {α : Type} : Task α → Prop
  | .done _ => True
  | .call op next => op ≠ .shutdownFlag ∧ ∀ r, NeverPolls (next r)

theorem mark_of_ne {op : Op} (h : op ≠ .shutdownFlag) (r : op.Res) :
    mark op r = (act op r).map .did := by
  cases op with
  | shutdownFlag => exact absurd rfl h
  | _ => rfl

namespace NeverPolls

variable {α β : Type}

theorem bind {p : Task α} {f : α → Task β} (hp : NeverPolls p) (hf : ∀ a, NeverPolls (f a)) :
    NeverPolls (p >>= f) := by
  induction p with
  | done a => exact hf a
  | call op next ih => exact ⟨hp.1, fun r ↦ ih r (hp.2 r)⟩

/-- All that is seen of such a program are its statements and records. -/
theorem lift {p : Task α} (h : NeverPolls p) {Q : List Act → α → Prop} (hQ : p.Ensures act Q) :
    p.Ensures mark fun l a ↦ ∃ l₀, l = l₀.map .did ∧ Q l₀ a := by
  induction p generalizing Q with
  | done a => exact ⟨[], rfl, hQ⟩
  | call op next ih =>
    intro r
    refine (ih r (h.2 r) (hQ r)).mono ?_
    rintro l a ⟨l₀, rfl, hl₀⟩
    refine ⟨act op r ++ l₀, ?_, hl₀⟩
    rw [mark_of_ne h.1, List.map_append]

theorem tell {op : Op} (h : op ≠ .shutdownFlag) : NeverPolls (Replay.tell op) :=
  ⟨h, fun _ ↦ trivial⟩

theorem drainRecording (how : DrainAs) (events : List Event) :
    NeverPolls (drainRecording how events) := by
  induction events with
  | nil => trivial
  | cons ev events ih =>
    refine ⟨?_, fun _ ↦ ih⟩
    cases how <;> simp [DrainAs.record]

theorem executeEvent (conn : ConnId) (sql : Bytes) (checksum : Bool) :
    NeverPolls (executeEvent conn sql checksum) := by
  unfold Replay.executeEvent
  split_ifs
  · refine ⟨by simp, ?_⟩
    rintro (e | cs | cs) <;> trivial
  · refine ⟨by simp, ?_⟩
    rintro (e | bytes) <;> trivial

theorem reconcile (conn : ConnId) (current : Option Bytes) (ev : Event) :
    NeverPolls (reconcile o conn current ev) := by
  unfold Replay.reconcile
  split
  · trivial
  · split_ifs
    · trivial
    · refine ⟨by simp, ?_⟩
      rintro (e | bytes)
      · exact ⟨by simp, fun _ ↦ trivial⟩
      · trivial

theorem checkout (o : ReplayOptions) : NeverPolls (checkout o) := by
  refine ⟨by simp, ?_⟩
  rintro (_ | idle)
  · refine ⟨by simp, ?_⟩
    rintro (e | conn) <;> trivial
  · trivial

theorem giveBack (pc : IdleConn) (e : TargetError) : NeverPolls (giveBack pc e) := by
  unfold Replay.giveBack
  split_ifs <;> exact tell (by simp)

theorem pooledEvent (ev : Event) : NeverPolls (pooledEvent o ev) := by
  unfold Replay.pooledEvent
  refine (checkout o).bind ?_
  rintro (e | pc)
  · exact (tell (by simp)).bind fun _ ↦ tell (by simp)
  refine (reconcile _ _ _).bind ?_
  rintro (e | db)
  · exact giveBack _ _
  refine (executeEvent _ _ _).bind ?_
  rintro (e | outcome)
  · exact (tell (by simp)).bind fun _ ↦ giveBack _ _
  · exact ⟨by simp, fun _ ↦ (tell (by simp)).bind fun _ ↦ tell (by simp)⟩

end NeverPolls

/-! ## The two bodies -/

theorem drainRecording_notRun (events : List Event) :
    (drainRecording .notRun events).Ensures mark fun l _ ↦ l = notRuns events := by
  induction events with
  | nil => exact rfl
  | cons ev events ih =>
    intro r
    refine ih.mono fun l _ hl ↦ ?_
    rw [hl]
    rfl

theorem drainRecording_turns (events : List Event) :
    (drainRecording .notRun events).Ensures mark fun l _ ↦ Turns o events l :=
  (drainRecording_notRun events).mono fun _ _ hl ↦ hl ▸ .drained events

/-- A turn that ends with the abort: its event is drained with the others. -/
theorem drainRecording_turn (ev : Event) (events : List Event) :
    (drainRecording .notRun (ev :: events)).Ensures mark fun l _ ↦
      Turns o (ev :: events) (.begun :: l) :=
  (drainRecording_notRun (ev :: events)).mono fun _ _ hl ↦ hl ▸ .turn .notRun (.drained events)

/-- A program that takes the events behind the first one in turn takes them all in turn, the first
one having had its turn before. -/
theorem ensures_turn {β : Type} {ev : Event} {events : List Event} {l₀ : List Act} {p : Task β}
    (h₀ : Handling o ev l₀) (h : p.Ensures mark fun l _ ↦ Turns o events l) :
    p.Ensures mark fun l _ ↦ Turns o (ev :: events) (.begun :: (l₀.map .did ++ l)) :=
  h.mono fun _ _ hl ↦ .turn h₀ hl

theorem dedicatedLoop_turns (hpool : o.pool = none) (conn : ConnId) (current : Option Bytes)
    (events : List Event) :
    (dedicatedLoop o conn current events).Ensures mark fun l _ ↦ Turns o events l := by
  -- whatever the loop ends with, draining is the last thing seen of it
  have hend {events : List Event} {P : List Mark → Prop} (stop : LoopEnd)
      (h : (drainRecording .notRun events).Ensures mark fun l _ ↦ P l) :
      (drainRecording .notRun events >>= fun _ ↦ (pure stop : Task LoopEnd)).Ensures mark
        fun l _ ↦ P l := by
    refine ensures_bind.mpr (h.mono fun l _ hl ↦ ?_)
    rwa [pure_eq, ensures_done, List.append_nil]
  induction events generalizing current with
  | nil => exact .drained []
  | cons ev events ih =>
    have hgate : gate o ev = (shouldExecute ev.query o.allowWrites &&
        !(!o.useEventDb && isUseStatement ev.query)) := by
      rw [gate, hpool, Option.isSome_none, Bool.or_false]
    rw [dedicatedLoop]
    refine ensures_perform.mpr ?_
    rintro (_ | _)
    swap
    · exact hend .finished (drainRecording_turns (ev :: events))
    rw [if_neg Bool.false_ne_true]
    refine (ensures_hidden fun _ ↦ rfl).mpr ?_
    rintro (_ | _)
    · exact hend .finished (drainRecording_turn ev events)
    dsimp only
    split_ifs with hwrite huse
    · have hskip : Handling o ev [.recorded .skipped ev.fingerprintId] := .skipped (by
        rw [hgate, Bool.eq_false_of_not_eq_true' hwrite, Bool.false_and])
      exact (ensures_tell _).mpr fun _ ↦ ensures_turn hskip (ih current)
    · have hskip : Handling o ev [.recorded .skipped ev.fingerprintId] := .skipped (by
        rw [hgate, huse, Bool.not_true, Bool.and_false])
      exact (ensures_tell _).mpr fun _ ↦ ensures_turn hskip (ih current)
    replace hgate : gate o ev = true := by simp_all
    refine ensures_bind.mpr (((NeverPolls.reconcile conn current ev).lift
      (reconcile_reconciled conn current ev)).mono ?_)
    rintro _ r ⟨l₁, rfl, hr⟩
    rcases r with e | current
    · obtain ⟨db, huse, hdb, rfl⟩ := hr
      dsimp only
      split_ifs
      · exact ensures_turn (.useFailed hgate huse hdb) (hend .lost (drainRecording_turns events))
      · exact ensures_turn (.useFailed hgate huse hdb) (ih current)
    dsimp only
    refine ensures_bind.mpr (((NeverPolls.executeEvent conn ev.query o.checksum).lift
      (executeEvent_sends conn ev.query o.checksum)).mono ?_)
    rintro _ r ⟨l₂, rfl, rfl⟩
    rcases r with e | outcome
    · refine (ensures_tell _).mpr fun _ ↦ ?_
      have hhandled := Handling.of_reconciled hgate hr .failed
      split_ifs
      · refine (ensures_turn hhandled (hend .lost (drainRecording_turns events))).mono
          fun l _ hl ↦ ?_
        rwa [List.map_append, List.append_assoc] at hl
      · refine (ensures_turn hhandled (ih current)).mono fun l _ hl ↦ ?_
        rwa [List.map_append, List.append_assoc] at hl
    · refine (ensures_hidden fun _ ↦ rfl).mpr fun micros ↦ (ensures_tell _).mpr fun _ ↦ ?_
      have hhandled := Handling.of_reconciled hgate hr .executed
      refine (ensures_turn hhandled (ih current)).mono fun l _ hl ↦ ?_
      rwa [List.map_append, List.append_assoc] at hl

theorem dedicatedConnected_turns (hpool : o.pool = none) (events : List Event) :
    (dedicatedConnected o events).Ensures mark fun l _ ↦ Turns o events l := by
  unfold dedicatedConnected
  refine (ensures_hidden fun _ ↦ rfl).mpr ?_
  rintro (e | conn)
  · exact (ensures_hidden fun _ ↦ rfl).mpr fun _ ↦ drainRecording_turns events
  refine ensures_bind.mpr ((dedicatedLoop_turns hpool conn none events).mono fun l stop hl ↦ ?_)
  rw [← List.append_nil l] at hl
  cases stop <;> exact fun _ ↦ hl

theorem runSessionDedicated_turns (hpool : o.pool = none) (events : List Event) :
    (runSessionDedicated o events).Ensures mark fun l _ ↦ Turns o events l := by
  rcases events with _ | ⟨first, events⟩
  · exact .drained []
  refine (ensures_hidden fun _ ↦ rfl).mpr ?_
  rintro (_ | _)
  · exact drainRecording_turns (first :: events)
  refine (ensures_hidden fun _ ↦ rfl).mpr ?_
  rintro (_ | _)
  · exact drainRecording_turns (first :: events)
  refine ensures_bind.mpr
    ((dedicatedConnected_turns hpool (first :: events)).mono fun l _ hl ↦ ?_)
  rw [← List.append_nil l] at hl
  exact fun _ ↦ hl

theorem runSessionPooled_turns (hpool : o.pool.isSome = true) (events : List Event) :
    (runSessionPooled o events).Ensures mark fun l _ ↦ Turns o events l := by
  induction events with
  | nil => exact .drained []
  | cons ev events ih =>
    have hgate : gate o ev =
        (shouldExecute ev.query o.allowWrites && !isUseStatement ev.query) := by
      rw [gate, hpool, Bool.or_true, Bool.true_and]
    rw [runSessionPooled]
    refine ensures_perform.mpr ?_
    rintro (_ | _)
    swap
    · exact drainRecording_turns (ev :: events)
    rw [if_neg Bool.false_ne_true]
    refine (ensures_hidden fun _ ↦ rfl).mpr ?_
    rintro (_ | _)
    · exact drainRecording_turn ev events
    dsimp only
    split_ifs with hwrite huse
    · have hskip : Handling o ev [.recorded .skipped ev.fingerprintId] := .skipped (by
        rw [hgate, Bool.eq_false_of_not_eq_true' hwrite, Bool.false_and])
      exact (ensures_tell _).mpr fun _ ↦ ensures_turn hskip ih
    · have hskip : Handling o ev [.recorded .skipped ev.fingerprintId] := .skipped (by
        rw [hgate, huse, Bool.not_true, Bool.and_false])
      exact (ensures_tell _).mpr fun _ ↦ ensures_turn hskip ih
    replace hgate : gate o ev = true := by simp_all
    refine (ensures_hidden fun _ ↦ rfl).mpr ?_
    rintro (_ | _)
    · exact drainRecording_turn ev events
    refine ensures_bind.mpr (((NeverPolls.pooledEvent ev).lift (pooledEvent_handles hgate)).mono ?_)
    rintro _ _ ⟨l₀, rfl, h₀⟩
    exact (ensures_hidden fun _ ↦ rfl).mpr fun _ ↦ ensures_turn h₀ ih

/-- A session with an executable statement takes its events in turn. -/
theorem runSession_turns (o : ReplayOptions) {m : SessionMeta} (events : List Event)
    (hmeta : m.hasExecutable = true) :
    (runSession o m events).Ensures mark fun l _ ↦ Turns o events l := by
  rw [runSession, hmeta, if_neg (by decide)]
  split_ifs with hpool
  · exact runSessionPooled_turns hpool events
  · exact runSessionDedicated_turns (Option.not_isSome_iff_eq_none.mp hpool) events

/-- Whatever the target, the abort and the other sessions do, a session handles its events one after
the other. -/
theorem runSession_handles (o : ReplayOptions) {m : SessionMeta} {events : List Event}
    (hmeta : m.hasExecutable = events.any fun ev ↦ shouldExecute ev.query o.allowWrites) :
    (runSession o m events).Ensures act fun l _ ↦ Handlings o events l := by
  by_cases hexec : m.hasExecutable = true
  · have hturns := (runSession_turns o events hexec).mono fun _ _ hl ↦ hl.handlings
    rw [act_eq_mark]
    exact ensures_filterMap.mpr hturns
  · rw [runSession, Bool.eq_false_of_not_eq_true hexec, Bool.not_false, if_pos rfl]
    refine drainRecording_skipped fun ev hev ↦ ?_
    rw [hmeta, List.any_eq_true] at hexec
    rw [gate, Bool.eq_false_iff.mpr fun hev' ↦ hexec ⟨ev, hev, hev'⟩, Bool.false_and]

end SqlReplay.Replay
