import Mathlib.Algebra.BigOperators.Fin
import SqlReplay.Replay.Custody

/-!
# The connection cap

A session opens a connection under a permit, and gives the permit back when the connection is on the
shelf or closed. The permits alone do not bound the connections, since those on the shelf have none:
a session may find the shelf empty and connect while others put connections back. What bounds them
is that the shelf was empty when it looked. From then on the session has a seat, and at that moment
all seats had a permit each (`Tenure.seats`); afterwards seats only move, from a session to the
shelf and back.

A session passes through stages (`Stage`), and what it may do is determined by the stage and the
connection it holds (`tenancy`). A connection on which an operation has failed fatally makes the
stage `broken`, in which nothing is left to do but to drop it; so it is never used again.
-/

namespace SqlReplay

open Program

/-! ## Operations on connections -/

namespace Op

/-- The connection an operation uses. -/
def on : Op → Option ConnId
  | .use conn _ | .query conn _ | .queryChecksum conn _ | .disconnect conn => some conn
  | .checkin pc => some pc.conn
  | _ => none

/-- The connection an operation closes. -/
def closes : Op → Option ConnId
  | .disconnect conn | .dropConn conn => some conn
  | _ => none

/-- The connection on which an operation has returned a fatal error. -/
def lost (op : Op) (r : op.Res) : Option ConnId :=
  match op, r with
  | .use conn _, .error e => if e.fatal then some conn else none
  | .query conn _, .error e => if e.fatal then some conn else none
  | .queryChecksum conn _, .error e => if e.fatal then some conn else none
  | _, _ => none

end Op

namespace Replay

/-! ## The protocol -/

/-- How far a session is with its permit and its connection. -/
inductive Stage where
  /-- Without a permit. -/
  | outside
  /-- With a permit, before a look at the shelf. -/
  | permitted
  /-- Bound to connect. -/
  | connecting
  | connected
  /-- On a connection that is dead. -/
  | broken
  /-- The connection has gone, the permit has not. -/
  | leaving
  deriving DecidableEq, Repr

namespace Stage

/-- The permits held. -/
def permit : Stage → ℕ
  | .outside => 0
  | _ => 1

/-- The connections open, one in the making included. -/
def seat : Stage → ℕ
  | .connecting | .connected | .broken => 1
  | _ => 0

/-- The session holds a connection. -/
def holding : Stage → Bool
  | .connected | .broken => true
  | _ => false

theorem seat_le_permit (stage : Stage) : stage.seat ≤ stage.permit := by cases stage <;> decide

/-- The stage behind an operation. -/
def next (o : ReplayOptions) (stage : Stage) (op : Op) (r : op.Res) : Stage :=
  match op, r with
  | .acquire, .ready => if o.pool.isSome then .permitted else .connecting
  | .popIdle, some _ => .connected
  | .popIdle, none => .connecting
  | .connect, .ok _ => .connected
  | .connect, .error _ => .leaving
  | .use _ _, .error e => if e.fatal then .broken else stage
  | .query _ _, .error e => if e.fatal then .broken else stage
  | .queryChecksum _ _, .error e => if e.fatal then .broken else stage
  | .checkin _, _ => .leaving
  | .disconnect _, _ => .leaving
  | .dropConn _, _ => .leaving
  | .release, _ => .outside
  | _, _ => stage

end Stage

/-- What a session has come to: its stage, the connection it holds with the database this is in, and
the connections it has lost and closed. -/
structure Tenancy where
  stage : Stage
  held : Option IdleConn
  lost : List ConnId
  closed : List ConnId

/-- A session before its first operation. -/
def Tenancy.new : Tenancy := ⟨.outside, none, [], []⟩

/-- The session holds a connection that is alive. -/
def Tenancy.Has (g : Tenancy) (pc : IdleConn) : Prop := g.stage = .connected ∧ g.held = some pc

/-- The protocol of permits and connections. -/
def tenancy (o : ReplayOptions) (T : TargetDb) : Protocol Op.Res Tenancy where
  allows g
    | .acquire => g.stage = .outside
    | .release => g.stage = .leaving
    | .popIdle => g.stage = .permitted
    | .connect => g.stage = .connecting
    | .use conn _ | .query conn _ | .queryChecksum conn _ | .disconnect conn =>
      ∃ pc, g.Has pc ∧ pc.conn = conn
    | .checkin pc => o.pool.isSome = true ∧ g.Has pc
    | .dropConn conn => ∃ pc, g.held = some pc ∧ pc.conn = conn
    | _ => True
  learn g op r := ⟨g.stage.next o op r, holds o T g.held op r, (op.lost r).toList ++ g.lost,
    op.closes.toList ++ g.closed⟩

/-! ## The parts of a session -/

variable {o : ReplayOptions} {T : TargetDb} {g : Tenancy} {pc : IdleConn} {ev : Event}

theorem drainRecording_tenancy (how : DrainAs) (rest : List Event) :
    (drainRecording how rest).Obeys (tenancy o T) g fun g' _ ↦ g' = g := by
  induction rest with
  | nil => exact rfl
  | cons ev rest ih => cases how <;> exact obeys_hidden trivial (fun _ ↦ rfl) fun _ ↦ ih

/-- Behind an error the session holds its connection, dead or alive. -/
def AfterError (pc : IdleConn) (e : TargetError) (g : Tenancy) : Prop :=
  if e.fatal then g.held = some pc else g.Has pc

theorem afterError (h : g.Has pc) (e : TargetError) (lost closed : List ConnId) :
    AfterError pc e ⟨if e.fatal then .broken else g.stage, g.held, lost, closed⟩ := by
  rw [AfterError]
  split_ifs
  · exact h.2
  · exact h

/-- Behind an operation on a connection: `ok` relates the result to where the connection is. -/
def Left (pc : IdleConn) (g : Tenancy) {α : Type} (ok : α → IdleConn → Prop) :
    Except TargetError α → Prop
  | .ok a => ∃ pc', pc'.conn = pc.conn ∧ ok a pc' ∧ g.Has pc'
  | .error e => AfterError pc e g

theorem executeEvent_tenancy (h : g.Has pc) (sql : Bytes) (checksum : Bool) :
    (executeEvent pc.conn sql checksum).Obeys (tenancy o T) g fun g' r ↦
      Left pc g' (fun _ pc' ↦ pc' = pc.moved T sql) r := by
  have hok (g' : Tenancy) (hstage : g'.stage = g.stage)
      (hheld : g'.held = g.held.map (·.moved T sql)) : g'.Has (pc.moved T sql) := by
    refine ⟨hstage.trans h.1, ?_⟩
    rw [hheld, h.2, Option.map_some]
  unfold executeEvent
  split_ifs
  · refine ⟨⟨pc, h, rfl⟩, fun r ↦ ?_⟩
    rcases r with e | cs | cs
    · exact afterError h e _ _
    · exact ⟨_, IdleConn.moved_conn T pc sql, rfl, hok _ rfl rfl⟩
    · exact ⟨_, IdleConn.moved_conn T pc sql, rfl, hok _ rfl rfl⟩
  · refine ⟨⟨pc, h, rfl⟩, fun r ↦ ?_⟩
    rcases r with e | bytes
    · exact afterError h e _ _
    · exact ⟨_, IdleConn.moved_conn T pc sql, rfl, hok _ rfl rfl⟩

/-- Where the session takes its connection to be where it is, it goes on doing so. -/
theorem reconcile_tenancy (h : g.Has pc) (current : Option Bytes) :
    (reconcile o pc.conn current ev).Obeys (tenancy o T) g fun g' r ↦
      Left pc g' (fun db pc' ↦ current = pc.db → db = pc'.db) r := by
  unfold reconcile
  split
  · exact ⟨pc, rfl, id, h⟩
  · next db _ =>
    split_ifs
    · exact ⟨pc, rfl, id, h⟩
    · refine ⟨⟨pc, h, rfl⟩, fun r ↦ ?_⟩
      rcases r with e | bytes
      · exact obeys_hidden trivial (fun _ ↦ rfl) fun _ ↦ afterError h e _ _
      · refine ⟨pc.moved T (useStatement db), IdleConn.moved_conn T pc _, fun _ ↦ ?_, h.1, ?_⟩
        · rw [IdleConn.moved, T.useDb_useStatement]
        · exact congrArg (Option.map (·.moved T (useStatement db))) h.2

/-! ## Sessions -/

theorem checkout_tenancy (hstage : g.stage = .permitted) :
    (checkout o).Obeys (tenancy o T) g fun g' r ↦
      match r with
      | .ok pc => g'.Has pc
      | .error _ => g'.stage = .leaving := by
  unfold checkout
  refine ⟨hstage, fun idle ↦ ?_⟩
  cases idle with
  | some pc => exact ⟨rfl, rfl⟩
  | none =>
    refine ⟨rfl, fun r ↦ ?_⟩
    cases r with
    | ok conn => exact ⟨rfl, rfl⟩
    | error e => exact rfl

/-- A pooled session gives its connection up, one way or the other. -/
theorem giveBack_tenancy (hpool : o.pool.isSome = true) {e : TargetError}
    (h : AfterError pc e g) :
    (giveBack pc e).Obeys (tenancy o T) g fun g' _ ↦ g'.stage = .leaving := by
  rw [AfterError] at h
  unfold giveBack
  split_ifs at h ⊢
  · exact ⟨⟨pc, h, rfl⟩, fun _ ↦ rfl⟩
  · exact ⟨⟨hpool, h⟩, fun _ ↦ rfl⟩

theorem pooledEvent_tenancy (hpool : o.pool.isSome = true)
    (huse : isUseStatement ev.query = false) (hstage : g.stage = .permitted) :
    (pooledEvent o ev).Obeys (tenancy o T) g fun g' _ ↦ g'.stage = .leaving := by
  unfold pooledEvent
  refine obeys_bind ((checkout_tenancy hstage).mono fun g₁ r hg₁ ↦ ?_)
  cases r with
  | error e =>
    exact obeys_hidden trivial (fun _ ↦ rfl) fun _ ↦ obeys_hidden trivial (fun _ ↦ rfl) fun _ ↦ hg₁
  | ok pc =>
    refine obeys_bind ((reconcile_tenancy hg₁ pc.db).mono fun g₂ r hg₂ ↦ ?_)
    cases r with
    | error e => exact giveBack_tenancy hpool hg₂
    | ok db =>
      obtain ⟨⟨conn, db'⟩, hconn, hdb, hhas⟩ := hg₂
      -- the session takes the connection to be where it is
      obtain rfl : db = db' := hdb rfl
      obtain rfl : conn = pc.conn := hconn
      refine obeys_bind ((executeEvent_tenancy hhas ev.query o.checksum).mono fun g₃ r hg₃ ↦ ?_)
      cases r with
      | ok outcome =>
        obtain ⟨pc', -, rfl, hhas'⟩ := hg₃
        rw [IdleConn.moved_of_not_use huse] at hhas'
        exact obeys_hidden trivial (fun _ ↦ rfl) fun micros ↦
          obeys_hidden trivial (fun _ ↦ rfl) fun _ ↦ ⟨⟨hpool, hhas'⟩, fun _ ↦ rfl⟩
      | error e => exact obeys_hidden trivial (fun _ ↦ rfl) fun _ ↦ giveBack_tenancy hpool hg₃

theorem runSessionPooled_tenancy (hpool : o.pool.isSome = true) (events : List Event)
    (hstage : g.stage = .outside) :
    (runSessionPooled o events).Obeys (tenancy o T) g fun g' _ ↦ g'.stage = .outside := by
  induction events generalizing g with
  | nil => exact hstage
  | cons ev rest ih =>
    have hdrain : (drainRecording .notRun (ev :: rest)).Obeys (tenancy o T) g fun g' _ ↦
        g'.stage = .outside :=
      (drainRecording_tenancy .notRun _).mono fun g' _ hg' ↦ hg' ▸ hstage
    rw [runSessionPooled]
    refine obeys_hidden trivial (fun _ ↦ rfl) fun aborted ↦ ?_
    by_cases habort : aborted = true
    · rw [if_pos habort]
      exact hdrain
    rw [if_neg habort]
    refine obeys_hidden trivial (fun wake ↦ by cases wake <;> rfl) fun wake ↦ ?_
    cases wake with
    | aborted => exact hdrain
    | ready =>
      dsimp only
      split_ifs with hwrite huse
      · exact obeys_hidden trivial (fun _ ↦ rfl) fun _ ↦ ih hstage
      · exact obeys_hidden trivial (fun _ ↦ rfl) fun _ ↦ ih hstage
      · refine obeys_perform hstage fun wake ↦ ?_
        cases wake with
        | aborted => exact hdrain
        | ready =>
          have hpermitted : ((tenancy o T).learn g .acquire .ready).stage = .permitted :=
            if_pos hpool
          refine obeys_bind ((pooledEvent_tenancy hpool (Bool.eq_false_iff.mpr huse)
            hpermitted).mono fun g' _ hg' ↦ ?_)
          exact ⟨hg', fun _ ↦ ih rfl⟩

/-- The loop of a session on a connection of its own ends on this connection, which is alive unless
the session has lost it. -/
def Ended (conn : ConnId) (g : Tenancy) : LoopEnd → Prop
  | .finished => ∃ pc, g.Has pc ∧ pc.conn = conn
  | .lost => ∃ pc, g.held = some pc ∧ pc.conn = conn

theorem drainThenFinish_tenancy (h : g.Has pc) (rest : List Event) :
    (do drainRecording .notRun rest; pure LoopEnd.finished).Obeys (tenancy o T) g
      (Ended pc.conn) := by
  refine obeys_bind ((drainRecording_tenancy .notRun rest).mono fun g' _ hg' ↦ ?_)
  subst hg'
  exact ⟨pc, h, rfl⟩

theorem drainThenLost_tenancy (h : g.held = some pc) (rest : List Event) :
    (do drainRecording .notRun rest; pure LoopEnd.lost).Obeys (tenancy o T) g
      (Ended pc.conn) := by
  refine obeys_bind ((drainRecording_tenancy .notRun rest).mono fun g' _ hg' ↦ ?_)
  subst hg'
  exact ⟨pc, h, rfl⟩

theorem dedicatedLoop_tenancy (conn : ConnId) (events : List Event) (current : Option Bytes)
    (h : ∃ pc, g.Has pc ∧ pc.conn = conn) :
    (dedicatedLoop o conn current events).Obeys (tenancy o T) g (Ended conn) := by
  induction events generalizing current g with
  | nil => exact h
  | cons ev rest ih =>
    obtain ⟨pc, hhas, rfl⟩ := h
    rw [dedicatedLoop]
    refine obeys_hidden trivial (fun _ ↦ rfl) fun aborted ↦ ?_
    by_cases habort : aborted = true
    · rw [if_pos habort]
      exact drainThenFinish_tenancy hhas _
    rw [if_neg habort]
    refine obeys_hidden trivial (fun wake ↦ by cases wake <;> rfl) fun wake ↦ ?_
    cases wake with
    | aborted => exact drainThenFinish_tenancy hhas _
    | ready =>
      dsimp only
      split_ifs with hwrite huse
      · exact obeys_hidden trivial (fun _ ↦ rfl) fun _ ↦ ih current ⟨pc, hhas, rfl⟩
      · exact obeys_hidden trivial (fun _ ↦ rfl) fun _ ↦ ih current ⟨pc, hhas, rfl⟩
      · refine obeys_bind ((reconcile_tenancy hhas current).mono fun g₁ r hg₁ ↦ ?_)
        -- behind a fatal error the rest is drained, behind another one the loop goes on
        cases r with
        | error e =>
          change AfterError pc e g₁ at hg₁
          rw [AfterError] at hg₁
          dsimp only
          split_ifs at hg₁ ⊢
          · exact drainThenLost_tenancy hg₁ _
          · exact ih current ⟨pc, hg₁, rfl⟩
        | ok db =>
          obtain ⟨pc₁, hconn, -, hhas₁⟩ := hg₁
          dsimp only
          rw [← hconn] at ih ⊢
          refine obeys_bind ((executeEvent_tenancy hhas₁ ev.query o.checksum).mono
            fun g₂ r hg₂ ↦ ?_)
          cases r with
          | ok outcome =>
            obtain ⟨pc₂, hconn₂, -, hhas₂⟩ := hg₂
            exact obeys_hidden trivial (fun _ ↦ rfl) fun micros ↦
              obeys_hidden trivial (fun _ ↦ rfl) fun _ ↦ ih db ⟨pc₂, hhas₂, hconn₂⟩
          | error e =>
            change AfterError pc₁ e g₂ at hg₂
            rw [AfterError] at hg₂
            refine obeys_hidden trivial (fun _ ↦ rfl) fun _ ↦ ?_
            split_ifs at hg₂ ⊢
            · exact drainThenLost_tenancy hg₂ _
            · exact ih db ⟨pc₁, hg₂, rfl⟩

theorem dedicatedConnected_tenancy (events : List Event) (hstage : g.stage = .connecting) :
    (dedicatedConnected o events).Obeys (tenancy o T) g fun g' _ ↦ g'.stage = .leaving := by
  unfold dedicatedConnected
  refine obeys_perform hstage fun r ↦ ?_
  cases r with
  | error e =>
    refine obeys_hidden trivial (fun _ ↦ rfl) fun _ ↦ ?_
    exact (drainRecording_tenancy .notRun events).mono fun g' _ hg' ↦ hg' ▸ rfl
  | ok conn =>
    refine obeys_bind ((dedicatedLoop_tenancy conn events none ⟨_, ⟨rfl, rfl⟩, rfl⟩).mono
      fun g' stop hg' ↦ ?_)
    cases stop <;> exact ⟨hg', fun _ ↦ rfl⟩

theorem runSessionDedicated_tenancy (hpool : o.pool.isSome = false) (events : List Event)
    (hstage : g.stage = .outside) :
    (runSessionDedicated o events).Obeys (tenancy o T) g fun g' _ ↦ g'.stage = .outside := by
  have hdrain (rest : List Event) : (drainRecording .notRun rest).Obeys (tenancy o T) g
      fun g' _ ↦ g'.stage = .outside :=
    (drainRecording_tenancy .notRun rest).mono fun g' _ hg' ↦ hg' ▸ hstage
  cases events with
  | nil => exact hstage
  | cons first rest =>
    refine obeys_hidden trivial (fun wake ↦ by cases wake <;> rfl) fun wake ↦ ?_
    cases wake with
    | aborted => exact hdrain _
    | ready =>
      refine obeys_perform hstage fun wake ↦ ?_
      cases wake with
      | aborted => exact hdrain _
      | ready =>
        have hconnecting : ((tenancy o T).learn g .acquire .ready).stage = .connecting :=
          if_neg (Bool.eq_false_iff.mp hpool)
        refine obeys_bind ((dedicatedConnected_tenancy _ hconnecting).mono fun g' _ hg' ↦ ?_)
        exact ⟨hg', fun _ ↦ rfl⟩

/-- Every session keeps to the protocol of permits and connections, and returns without a permit. -/
theorem runSession_tenancy (info : SessionMeta) (events : List Event) :
    (runSession o info events).Obeys (tenancy o T) .new fun g _ ↦ g.stage = .outside := by
  unfold runSession
  split_ifs with hnone hpool
  · exact (drainRecording_tenancy .skipped _).mono fun g _ hg ↦ hg ▸ rfl
  · exact runSessionPooled_tenancy hpool events rfl
  · exact runSessionDedicated_tenancy (Bool.eq_false_iff.mpr hpool) events rfl

end Replay

end SqlReplay
