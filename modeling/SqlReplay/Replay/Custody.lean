import SqlReplay.Replay.Pass
import SqlReplay.Task.Protocol

/-!
# Who holds a connection

A connection is with one session, or on the shelf, or gone; only the session that holds it sends
statements on it. So what a session knows of the connection it holds, the database its own
statements have moved it to, is the truth about it, and what is written on the shelf is as well.
This is an invariant of all interleavings (`Custody`), and what it needs of a session is that it
keeps to a protocol (`custody`): it takes a connection when it holds none, sends on the one it
holds, and puts back the one it holds with its database.

The protocol says also what is sent when: the statements of the event last paced, behind the gate.
Where a session is `strict`, a captured statement other than a `USE` is sent on a connection that is
in the database of its event.
-/

namespace SqlReplay

open Program

/-! ## The protocol -/

/-- The connection behind a statement that has succeeded on it. -/
def IdleConn.moved (T : TargetDb) (pc : IdleConn) (sql : Bytes) : IdleConn :=
  match T.useDb sql with
  | some db => ⟨pc.conn, some db⟩
  | none => pc

namespace Replay

/-- What a session has come to: the events it has paced, and the connection it holds with the
database this is in. -/
structure Progress where
  paced : List Event
  held : Option IdleConn

/-- The database an event asks for. -/
def wanted (o : ReplayOptions) (ev : Event) : Option Bytes := if o.useEventDb then ev.db else none

/-- The events paced. -/
def due (op : Op) (r : op.Res) : List Event :=
  match op, r with
  | .pace ev, .ready => [ev]
  | _, _ => []

/-- What becomes of the connection held. -/
def holds (o : ReplayOptions) (T : TargetDb) (held : Option IdleConn) (op : Op) (r : op.Res) :
    Option IdleConn :=
  match op, r with
  | .connect, .ok conn => some ⟨conn, o.defaultDb⟩
  | .popIdle, idle => idle
  | .use _ db, .ok _ => held.map (·.moved T (useStatement db))
  | .query _ sql, .ok _ => held.map (·.moved T sql)
  | .queryChecksum _ sql, .ok _ => held.map (·.moved T sql)
  | .checkin _, _ => none
  | .disconnect _, _ => none
  | .dropConn _, _ => none
  | _, _ => held

/-- The statement of the event last paced may be sent on a connection. -/
def MaySend (o : ReplayOptions) (strict : Prop) (g : Progress) (conn : ConnId) (sql : Bytes) :
    Prop :=
  ∃ pc ev, g.held = some pc ∧ pc.conn = conn ∧ g.paced.getLast? = some ev ∧ gate o ev = true ∧
    ev.query = sql ∧
    (strict → isUseStatement sql = false → ∀ db, wanted o ev = some db → pc.db = some db)

/-- The protocol of a session with these events. -/
def custody (o : ReplayOptions) (T : TargetDb) (events : List Event) (strict : Prop) :
    Protocol Op.Res Progress where
  allows g
    | .pace ev => (g.paced ++ [ev]) <+: events
    | .connect | .popIdle => g.held = none
    | .use conn db => ∃ pc ev, g.held = some pc ∧ pc.conn = conn ∧ g.paced.getLast? = some ev ∧
        gate o ev = true ∧ wanted o ev = some db
    | .query conn sql | .queryChecksum conn sql => MaySend o strict g conn sql
    | .checkin pc => g.held = some pc
    | _ => True
  learn g op r := ⟨g.paced ++ due op r, holds o T g.held op r⟩

/-! ## The parts of a session -/

variable {o : ReplayOptions} {T : TargetDb} {events : List Event} {strict : Prop} {g : Progress}
  {pc : IdleConn} {ev : Event}

theorem learn_of_due {op : Op} {r : op.Res} (h : due op r = []) :
    (custody o T events strict).learn g op r = ⟨g.paced, holds o T g.held op r⟩ := by
  change (⟨g.paced ++ due op r, holds o T g.held op r⟩ : Progress) = _
  rw [h, List.append_nil]

/-- An operation without consequences for a connection. -/
theorem obeys_quiet {α : Type} {op : Op} {f : op.Res → Task α} {Q : Progress → α → Prop}
    (hallows : (custody o T events strict).allows g op) (hdue : ∀ r, due op r = [])
    (hholds : ∀ r, holds o T g.held op r = g.held)
    (h : ∀ r, (f r).Obeys (custody o T events strict) g Q) :
    (perform op >>= f).Obeys (custody o T events strict) g Q :=
  obeys_hidden hallows (fun r ↦ by rw [learn_of_due (hdue r), hholds]) h

theorem drainRecording_obeys (how : DrainAs) (rest : List Event) :
    (drainRecording how rest).Obeys (custody o T events strict) g fun g' _ ↦ g' = g := by
  induction rest with
  | nil => exact rfl
  | cons ev rest ih =>
    cases how <;> exact obeys_quiet trivial (fun _ ↦ rfl) (fun _ ↦ rfl) fun _ ↦ ih

/-- What is known behind a captured statement. -/
def Executed (T : TargetDb) (g : Progress) (pc : IdleConn) (sql : Bytes) (g' : Progress)
    {α : Type} :
    Except TargetError α → Prop
  | .ok _ => g' = ⟨g.paced, some (pc.moved T sql)⟩
  | .error _ => g' = g

theorem executeEvent_obeys (pc : IdleConn) (hheld : g.held = some pc) {sql : Bytes}
    (hsend : MaySend o strict g pc.conn sql) (checksum : Bool) :
    (executeEvent pc.conn sql checksum).Obeys (custody o T events strict) g fun g' r ↦
      Executed T g pc sql g' r := by
  have hok : (⟨g.paced, g.held.map (·.moved T sql)⟩ : Progress) =
      ⟨g.paced, some (pc.moved T sql)⟩ := by
    rw [hheld, Option.map_some]
  unfold executeEvent
  split_ifs
  · refine ⟨hsend, fun r ↦ ?_⟩
    rcases r with e | cs | cs <;> rw [learn_of_due rfl]
    · exact rfl
    · exact hok
    · exact hok
  · refine ⟨hsend, fun r ↦ ?_⟩
    rcases r with e | bytes <;> rw [learn_of_due rfl]
    · exact rfl
    · exact hok

/-- What is known behind a reconciliation: after a `USE` the session takes the connection to be
where it is, and without one both are as they were. -/
def Moved (o : ReplayOptions) (ev : Event) (g : Progress) (pc : IdleConn) (current : Option Bytes)
    (g' : Progress) : Except TargetError (Option Bytes) → Prop
  | .ok db =>
    (db = current ∧ g' = g ∧ ∀ d, wanted o ev = some d → current = some d) ∨
      ∃ d, wanted o ev = some d ∧ db = some d ∧ g' = ⟨g.paced, some ⟨pc.conn, some d⟩⟩
  | .error _ => g' = g

theorem reconcile_obeys (hheld : g.held = some pc) (hev : g.paced.getLast? = some ev)
    (hgate : gate o ev = true) (current : Option Bytes) :
    (reconcile o pc.conn current ev).Obeys (custody o T events strict) g fun g' r ↦
      Moved o ev g pc current g' r := by
  unfold reconcile
  split
  · next hnone =>
    refine .inl ⟨rfl, rfl, fun d hd ↦ ?_⟩
    cases hnone.symm.trans hd
  · next db hdb =>
    split_ifs with hcurrent
    · refine .inl ⟨rfl, rfl, fun d hd ↦ ?_⟩
      rw [hcurrent, ← hd]
      exact hdb.symm
    · refine ⟨⟨pc, ev, hheld, rfl, hev, hgate, hdb⟩, fun r ↦ ?_⟩
      rcases r with e | bytes <;> rw [learn_of_due rfl]
      · exact obeys_quiet trivial (fun _ ↦ rfl) (fun _ ↦ rfl) fun _ ↦ rfl
      · refine .inr ⟨db, hdb, rfl, ?_⟩
        rw [holds, hheld, Option.map_some, IdleConn.moved, T.useDb_useStatement]

/-! ## Pooled sessions -/

theorem checkout_obeys (hheld : g.held = none) :
    (checkout o).Obeys (custody o T events strict) g fun g' r ↦
      match r with
      | .ok pc => g' = ⟨g.paced, some pc⟩
      | .error _ => g' = g := by
  unfold checkout
  refine ⟨hheld, fun idle ↦ ?_⟩
  rw [learn_of_due rfl]
  cases idle with
  | some pc => exact rfl
  | none =>
    refine ⟨rfl, fun r ↦ ?_⟩
    rw [learn_of_due rfl]
    cases r with
    | ok conn => exact rfl
    | error e => exact congrArg (Progress.mk g.paced) hheld.symm

theorem giveBack_obeys (hheld : g.held = some pc) (e : TargetError) :
    (giveBack pc e).Obeys (custody o T events strict) g fun g' _ ↦ g' = ⟨g.paced, none⟩ := by
  unfold giveBack
  split_ifs
  · refine ⟨trivial, fun _ ↦ ?_⟩
    rw [learn_of_due rfl]
    exact rfl
  · refine ⟨hheld, fun _ ↦ ?_⟩
    rw [learn_of_due rfl]
    exact rfl

/-- A statement that is no `USE` leaves a connection where it is. -/
theorem IdleConn.moved_of_not_use {sql : Bytes} (h : isUseStatement sql = false) :
    pc.moved T sql = pc := by
  have hnone : T.useDb sql = none := by
    rw [Option.eq_none_iff_forall_ne_some]
    intro db hdb
    rw [T.isUseStatement_of_useDb sql db hdb] at h
    exact nomatch h
  rw [IdleConn.moved, hnone]

theorem pooledEvent_obeys (hheld : g.held = none) (hev : g.paced.getLast? = some ev)
    (hgate : gate o ev = true) (huse : isUseStatement ev.query = false) :
    (pooledEvent o ev).Obeys (custody o T events strict) g fun g' _ ↦ g' = ⟨g.paced, none⟩ := by
  have hend : g = ⟨g.paced, none⟩ := congrArg (Progress.mk g.paced) hheld
  unfold pooledEvent
  refine obeys_bind ((checkout_obeys hheld).mono fun g₁ r hg₁ ↦ ?_)
  cases r with
  | error e =>
    obtain rfl := hg₁
    exact obeys_quiet trivial (fun _ ↦ rfl) (fun _ ↦ rfl) fun _ ↦
      obeys_quiet trivial (fun _ ↦ rfl) (fun _ ↦ rfl) fun _ ↦ hend
  | ok pc =>
    obtain rfl := hg₁
    refine obeys_bind ((reconcile_obeys (g := ⟨g.paced, some pc⟩) rfl hev hgate pc.db).mono
      fun g₂ r hg₂ ↦ ?_)
    cases r with
    | error e =>
      obtain rfl := hg₂
      exact giveBack_obeys rfl e
    | ok db =>
      -- the connection with its database, as it is held and as it goes back
      obtain ⟨rfl, hwanted⟩ : g₂ = ⟨g.paced, some ⟨pc.conn, db⟩⟩ ∧
          ∀ d, wanted o ev = some d → db = some d := by
        rcases hg₂ with ⟨rfl, rfl, hwanted⟩ | ⟨d, hd, rfl, rfl⟩
        · exact ⟨rfl, hwanted⟩
        · exact ⟨rfl, fun d' hd' ↦ hd ▸ hd'⟩
      have hsend : MaySend o strict ⟨g.paced, some ⟨pc.conn, db⟩⟩ pc.conn ev.query :=
        ⟨_, ev, rfl, rfl, hev, hgate, rfl, fun _ _ ↦ hwanted⟩
      refine obeys_bind ((executeEvent_obeys ⟨pc.conn, db⟩ rfl hsend o.checksum).mono
        fun g₃ r hg₃ ↦ ?_)
      cases r with
      | ok outcome =>
        obtain rfl : g₃ = ⟨g.paced, some ⟨pc.conn, db⟩⟩ :=
          hg₃.trans (by rw [IdleConn.moved_of_not_use huse])
        refine obeys_quiet trivial (fun _ ↦ rfl) (fun _ ↦ rfl) fun micros ↦
          obeys_quiet trivial (fun _ ↦ rfl) (fun _ ↦ rfl) fun _ ↦ ⟨rfl, fun _ ↦ ?_⟩
        rw [learn_of_due rfl]
        exact rfl
      | error e =>
        obtain rfl := hg₃
        exact obeys_quiet trivial (fun _ ↦ rfl) (fun _ ↦ rfl) fun _ ↦ giveBack_obeys rfl e

/-- A pooled session keeps to the protocol, whatever its events. -/
theorem runSessionPooled_obeys (hpool : o.pool.isSome = true) (rest : List Event)
    (hrest : g.paced ++ rest = events) (hheld : g.held = none) :
    (runSessionPooled o rest).Obeys (custody o T events strict) g fun _ _ ↦ True := by
  induction rest generalizing g with
  | nil => exact trivial
  | cons ev rest ih =>
    have hdrain : (drainRecording .notRun (ev :: rest)).Obeys (custody o T events strict) g
        fun _ _ ↦ True := (drainRecording_obeys .notRun _).mono fun _ _ _ ↦ trivial
    rw [runSessionPooled]
    refine obeys_quiet trivial (fun _ ↦ rfl) (fun _ ↦ rfl) fun aborted ↦ ?_
    by_cases habort : aborted = true
    · rw [if_pos habort]
      exact hdrain
    rw [if_neg habort]
    have hfront : g.paced ++ [ev] ++ rest = events := by
      rw [List.append_assoc]
      exact hrest
    refine ⟨⟨rest, hfront⟩, fun wake ↦ ?_⟩
    cases wake with
    | aborted =>
      rw [learn_of_due rfl]
      exact hdrain
    | ready =>
      -- from here on the event is paced
      have hnext : (runSessionPooled o rest).Obeys (custody o T events strict)
          ⟨g.paced ++ [ev], none⟩ fun _ _ ↦ True := ih hfront rfl
      have hlearn : (custody o T events strict).learn g (.pace ev) .ready =
          ⟨g.paced ++ [ev], none⟩ := congrArg (Progress.mk _) hheld
      rw [hlearn]
      dsimp only
      split_ifs with hwrite huse
      · exact obeys_quiet trivial (fun _ ↦ rfl) (fun _ ↦ rfl) fun _ ↦ hnext
      · exact obeys_quiet trivial (fun _ ↦ rfl) (fun _ ↦ rfl) fun _ ↦ hnext
      · have hgate : gate o ev = true := by
          rw [gate, hpool, Bool.or_true, Bool.true_and]
          simp_all
        refine obeys_quiet trivial (fun _ ↦ rfl) (fun _ ↦ rfl) fun wake ↦ ?_
        cases wake with
        | aborted => exact (drainRecording_obeys .notRun _).mono fun _ _ _ ↦ trivial
        | ready =>
          refine obeys_bind ((pooledEvent_obeys rfl List.getLast?_concat hgate
            (Bool.eq_false_iff.mpr huse)).mono fun g' _ hg' ↦ ?_)
          obtain rfl := hg'
          exact obeys_quiet trivial (fun _ ↦ rfl) (fun _ ↦ rfl) fun _ ↦ hnext

/-! ## Sessions on connections of their own -/

/-- No captured `USE` of a session leads away from a database that the session takes itself to be
in and that a later statement asks for. The session takes itself to be in the database of the last
event that has one, so it is the database the `USE` was logged in, or else, a `USE` logged without
one, that of some event before. -/
def Stays (o : ReplayOptions) (T : TargetDb) (events : List Event) : Prop :=
  ∀ before use after, events = before ++ use :: after → gate o use = true →
    ∀ db db', T.useDb use.query = some db' →
      (use.db = some db ∨
        use.db = none ∧ ∃ ev ∈ before, gate o ev = true ∧ ev.db = some db) →
      (∃ ev ∈ after, gate o ev = true ∧ isUseStatement ev.query = false ∧ ev.db = some db) →
      db' = db

/-- What a session may rely on of the database it takes itself to be in: an event has asked for it,
and unless the connection is there, no event to come will. -/
def Believes (o : ReplayOptions) (before rest : List Event) (current real : Option Bytes) : Prop :=
  ∀ db, current = some db → (∃ ev ∈ before, gate o ev = true ∧ ev.db = some db) ∧
    (real = some db ∨
      ∀ ev ∈ rest, gate o ev = true → isUseStatement ev.query = false → ev.db ≠ some db)

theorem Believes.next {before rest : List Event} {current real : Option Bytes}
    (h : Believes o before (ev :: rest) current real) :
    Believes o (before ++ [ev]) rest current real := by
  intro db hdb
  obtain ⟨⟨ev', hev', hasked⟩, hreal⟩ := h db hdb
  exact ⟨⟨ev', List.mem_append_left _ hev', hasked⟩,
    hreal.imp_right fun hnone ev' hev' ↦ hnone ev' (List.mem_cons_of_mem _ hev')⟩

/-- Behind the reconciliation with an event: the session takes itself to be in the event's database,
by the belief it had or because the `USE` has just succeeded. -/
structure Placed (o : ReplayOptions) (before rest : List Event) (ev : Event)
    (current real : Option Bytes) : Prop where
  current_eq : ∀ db, ev.db = some db → current = some db
  believes : Believes o before (ev :: rest) current real ∨
    ∃ db, ev.db = some db ∧ current = some db ∧ real = some db

namespace Placed

variable {before rest : List Event} {current real : Option Bytes}

/-- A captured statement other than a `USE` finds the database of its event. -/
theorem real_eq (h : Placed o before rest ev current real) (hgate : gate o ev = true)
    (huse : isUseStatement ev.query = false) {db : Bytes} (hdb : ev.db = some db) :
    real = some db := by
  rcases h.believes with hbelieves | ⟨db', hdb', -, hreal⟩
  · refine ((hbelieves db (h.current_eq db hdb)).2).resolve_right fun hnone ↦ ?_
    exact hnone ev List.mem_cons_self hgate huse hdb
  · rwa [hreal, ← hdb']

/-- When the statement fails, the session goes on believing. -/
theorem next (h : Placed o before rest ev current real) (hgate : gate o ev = true) :
    Believes o (before ++ [ev]) rest current real := by
  rcases h.believes with hbelieves | ⟨db, hdb, hcurrent, hreal⟩
  · exact hbelieves.next
  · intro db' hdb'
    obtain rfl : db = db' := Option.some.inj (hcurrent.symm.trans hdb')
    exact ⟨⟨ev, List.mem_append_right _ List.mem_cons_self, hgate, hdb⟩, .inl hreal⟩

/-- When it succeeds and is a `USE`, the connection moves behind the session's back, and no event
to come will ask for the database it is no longer in. -/
theorem moved (h : Placed o before rest ev current real) (hgate : gate o ev = true)
    (hstays : Stays o T (before ++ ev :: rest)) (conn : ConnId) :
    Believes o (before ++ [ev]) rest current ((IdleConn.mk conn real).moved T ev.query).db := by
  cases hmoved : T.useDb ev.query with
  | none =>
    rw [IdleConn.moved, hmoved]
    exact h.next hgate
  | some db' =>
    rw [IdleConn.moved, hmoved]
    intro db hdb
    refine ⟨(h.next hgate db hdb).1, ?_⟩
    by_contra! hleads
    obtain ⟨hne, later, hlater, hgate', huse, hasks⟩ := hleads
    refine hne (congrArg some (hstays before ev rest rfl hgate db db' hmoved ?_
      ⟨later, hlater, hgate', huse, hasks⟩))
    cases hev : ev.db with
    | some db₁ => exact .inl ((h.current_eq db₁ hev).symm.trans hdb)
    | none =>
      rcases h.believes with hbelieves | ⟨db₁, hdb₁, -, -⟩
      · exact .inr ⟨rfl, (hbelieves db hdb).1⟩
      · cases hev.symm.trans hdb₁

end Placed

theorem dedicatedLoop_obeys (hpool : o.pool = none) (huse : o.useEventDb = true) (conn : ConnId)
    (rest : List Event) (current real : Option Bytes) (hrest : g.paced ++ rest = events)
    (hheld : g.held = some ⟨conn, real⟩)
    (hbelieves : strict → Stays o T events ∧ Believes o g.paced rest current real) :
    (dedicatedLoop o conn current rest).Obeys (custody o T events strict) g fun _ _ ↦ True := by
  induction rest generalizing g current real with
  | nil => exact trivial
  | cons ev rest ih =>
    have hdrain (rest : List Event) (stop : LoopEnd) (g : Progress) :
        (drainRecording .notRun rest >>= fun _ ↦ (pure stop : Task LoopEnd)).Obeys
          (custody o T events strict) g fun _ _ ↦ True :=
      obeys_bind ((drainRecording_obeys .notRun rest).mono fun _ _ _ ↦ trivial)
    rw [dedicatedLoop]
    refine obeys_quiet trivial (fun _ ↦ rfl) (fun _ ↦ rfl) fun aborted ↦ ?_
    by_cases habort : aborted = true
    · rw [if_pos habort]
      exact hdrain _ _ _
    rw [if_neg habort]
    have hfront : g.paced ++ [ev] ++ rest = events := by
      rw [List.append_assoc]
      exact hrest
    refine ⟨⟨rest, hfront⟩, fun wake ↦ ?_⟩
    cases wake with
    | aborted =>
      rw [learn_of_due rfl]
      exact hdrain _ _ _
    | ready =>
      have hlearn : (custody o T events strict).learn g (.pace ev) .ready =
          ⟨g.paced ++ [ev], some ⟨conn, real⟩⟩ := congrArg (Progress.mk _) hheld
      rw [hlearn]
      -- the loop goes on with the belief as it was
      have hnext : (dedicatedLoop o conn current rest).Obeys (custody o T events strict)
          ⟨g.paced ++ [ev], some ⟨conn, real⟩⟩ fun _ _ ↦ True :=
        ih current real hfront rfl fun hs ↦ ⟨(hbelieves hs).1, (hbelieves hs).2.next⟩
      dsimp only
      split_ifs with hwrite hskip
      · exact obeys_quiet trivial (fun _ ↦ rfl) (fun _ ↦ rfl) fun _ ↦ hnext
      · exact obeys_quiet trivial (fun _ ↦ rfl) (fun _ ↦ rfl) fun _ ↦ hnext
      · have hgate : gate o ev = true := by
          rw [gate, hpool, Option.isSome_none, Bool.or_false]
          simp_all
        change Obeys _ (reconcile o conn current ev >>= _) _ _
        refine obeys_bind ((reconcile_obeys (g := ⟨g.paced ++ [ev], some ⟨conn, real⟩⟩) rfl
          List.getLast?_concat hgate current).mono fun g₁ r hg₁ ↦ ?_)
        cases r with
        | error e =>
          obtain rfl := hg₁
          dsimp only
          split_ifs
          · exact hdrain _ _ _
          · exact hnext
        | ok current' =>
          have hwanted (db : Bytes) : wanted o ev = some db ↔ ev.db = some db := by
            rw [wanted, if_pos huse]
          -- where the connection is now, and what the session believes
          obtain ⟨real', rfl, hplaced⟩ : ∃ real', g₁ = ⟨g.paced ++ [ev], some ⟨conn, real'⟩⟩ ∧
              (strict → Placed o g.paced rest ev current' real') := by
            rcases hg₁ with ⟨rfl, rfl, hsame⟩ | ⟨db, hdb, rfl, rfl⟩
            · exact ⟨real, rfl, fun hs ↦ ⟨fun db hdb ↦ hsame db ((hwanted db).mpr hdb),
                .inl (hbelieves hs).2⟩⟩
            · refine ⟨some db, rfl, fun _ ↦ ⟨fun db' hdb' ↦ ?_, ?_⟩⟩
              · rw [← hdb, ← hdb', wanted, if_pos huse]
              · exact .inr ⟨db, (hwanted db).mp hdb, rfl, rfl⟩
          have hsend : MaySend o strict ⟨g.paced ++ [ev], some ⟨conn, real'⟩⟩ conn ev.query :=
            ⟨_, ev, rfl, rfl, List.getLast?_concat, hgate, rfl, fun hs hno db hdb ↦
              (hplaced hs).real_eq hgate hno ((hwanted db).mp hdb)⟩
          refine obeys_bind ((executeEvent_obeys ⟨conn, real'⟩ rfl hsend o.checksum).mono
            fun g₂ r hg₂ ↦ ?_)
          cases r with
          | ok outcome =>
            obtain rfl := hg₂
            refine obeys_quiet trivial (fun _ ↦ rfl) (fun _ ↦ rfl) fun micros ↦
              obeys_quiet trivial (fun _ ↦ rfl) (fun _ ↦ rfl) fun _ ↦ ?_
            refine ih current' ((IdleConn.mk conn real').moved T ev.query).db hfront ?_ fun hs ↦ ?_
            · rw [IdleConn.moved]
              split <;> rfl
            · have hstays := (hbelieves hs).1
              exact ⟨hstays, (hplaced hs).moved hgate (hrest ▸ hstays) conn⟩
          | error e =>
            obtain rfl := hg₂
            refine obeys_quiet trivial (fun _ ↦ rfl) (fun _ ↦ rfl) fun _ ↦ ?_
            split_ifs
            · exact hdrain _ _ _
            · exact ih current' real' hfront rfl fun hs ↦
                ⟨(hbelieves hs).1, (hplaced hs).next hgate⟩

/-- A dedicated session keeps to the protocol, and to its strict form when its captured `USE`
statements do not lead away from the databases it asks for. -/
theorem runSessionDedicated_obeys (hpool : o.pool = none) (huse : o.useEventDb = true)
    {events : List Event} (hstrict : strict → Stays o T events) :
    (runSessionDedicated o events).Obeys (custody o T events strict) ⟨[], none⟩
      fun _ _ ↦ True := by
  have hdrain (rest : List Event) (g : Progress) :
      (drainRecording .notRun rest).Obeys (custody o T events strict) g
        fun _ _ ↦ True := (drainRecording_obeys .notRun rest).mono fun _ _ _ ↦ trivial
  cases events with
  | nil => exact trivial
  | cons first rest =>
    refine obeys_quiet trivial (fun _ ↦ rfl) (fun _ ↦ rfl) fun wake ↦ ?_
    cases wake with
    | aborted => exact hdrain _ _
    | ready =>
      refine obeys_quiet trivial (fun _ ↦ rfl) (fun _ ↦ rfl) fun wake ↦ ?_
      cases wake with
      | aborted => exact hdrain _ _
      | ready =>
        refine obeys_bind ?_
        refine Obeys.mono (Q := fun _ _ ↦ True) ?_ fun g _ _ ↦
          obeys_quiet trivial (fun _ ↦ rfl) (fun _ ↦ rfl) fun _ ↦ trivial
        unfold dedicatedConnected
        refine ⟨rfl, fun r ↦ ?_⟩
        rw [learn_of_due rfl]
        cases r with
        | error e => exact obeys_quiet trivial (fun _ ↦ rfl) (fun _ ↦ rfl) fun _ ↦ hdrain _ _
        | ok conn =>
          change Obeys _ (dedicatedLoop o conn none (first :: rest) >>= _) _ _
          refine obeys_bind ((dedicatedLoop_obeys (g := ⟨[], some ⟨conn, o.defaultDb⟩⟩) hpool huse
            conn (first :: rest) none o.defaultDb rfl rfl
            fun hs ↦ ⟨hstrict hs, nofun⟩).mono fun g stop _ ↦ ?_)
          cases stop <;> exact ⟨trivial, fun _ ↦ trivial⟩

/-- A session keeps to the protocol: a pooled one to its strict form, and one on a connection of its
own when its captured `USE` statements let it. -/
theorem runSession_obeys (session : ReplaySession o)
    (hmode : o.pool.isSome = true ∨ o.useEventDb = true ∧ (strict → Stays o T session.events)) :
    (runSession o session.info session.events).Obeys (custody o T session.events strict)
      ⟨[], none⟩ fun _ _ ↦ True := by
  unfold runSession
  split_ifs with hnone hpool
  · exact (drainRecording_obeys .skipped _).mono fun _ _ _ ↦ trivial
  · exact runSessionPooled_obeys hpool session.events rfl rfl
  · obtain ⟨huse, hstrict⟩ := hmode.resolve_left hpool
    exact runSessionDedicated_obeys (Option.not_isSome_iff_eq_none.mp hpool) huse hstrict

end Replay

/-! ## The invariant -/

/-- Connections on the shelf and with sessions are all different, and each is in the database that
the shelf or the session has for it. -/
structure Custody {ι : Type} (s : PassState) (held : ι → Option IdleConn) : Prop where
  idle_lt : ∀ pc ∈ s.idle, pc.conn < s.opened
  idle_nodup : (s.idle.map IdleConn.conn).Nodup
  idle_db : ∀ pc ∈ s.idle, s.database pc.conn = pc.db
  held_lt : ∀ i pc, held i = some pc → pc.conn < s.opened
  held_db : ∀ i pc, held i = some pc → s.database pc.conn = pc.db
  held_ne_idle : ∀ i pc, held i = some pc → ∀ pc' ∈ s.idle, pc'.conn ≠ pc.conn
  held_inj : ∀ i j pc pc', held i = some pc → held j = some pc' → pc.conn = pc'.conn → i = j

theorem PassState.moved_self {T : TargetDb} {s : PassState} {pc : IdleConn}
    (h : s.database pc.conn = pc.db) (sql : Bytes) :
    s.moved T pc.conn sql pc.conn = (pc.moved T sql).db := by
  unfold moved IdleConn.moved
  cases T.useDb sql with
  | some db => exact Function.update_self _ _ _
  | none => exact h

theorem PassState.moved_of_ne {T : TargetDb} {s : PassState} {conn conn' : ConnId}
    (h : conn' ≠ conn) (sql : Bytes) : s.moved T conn sql conn' = s.database conn' := by
  unfold moved
  cases T.useDb sql with
  | some db => exact Function.update_of_ne h _ _
  | none => rfl

theorem IdleConn.moved_conn (T : TargetDb) (pc : IdleConn) (sql : Bytes) :
    (pc.moved T sql).conn = pc.conn := by
  unfold moved
  cases T.useDb sql <;> rfl

/-- What an operation needs of the connection that the session holds. -/
def Suits (held : Option IdleConn) : Op → Prop
  | .connect | .popIdle => held = none
  | .use conn _ | .query conn _ | .queryChecksum conn _ => ∃ pc, held = some pc ∧ pc.conn = conn
  | .checkin pc => held = some pc
  | _ => True

/-- A connection is neither on the shelf nor with a session. -/
structure Free {ι : Type} (s : PassState) (held : ι → Option IdleConn) (conn : ConnId) : Prop where
  idle : ∀ pc ∈ s.idle, pc.conn ≠ conn
  held : ∀ i pc, held i = some pc → pc.conn ≠ conn

namespace Custody

open Replay

section

variable {ι : Type} {s s' : PassState} {held : ι → Option IdleConn} {pc : IdleConn}

theorem new (o : ReplayOptions) (shutdown : Bool) :
    Custody (PassState.new o shutdown) fun _ : ι ↦ none :=
  ⟨nofun, .nil, nofun, nofun, nofun, nofun, nofun⟩

/-- Only the shelf, the number of connections and their databases matter, and of the databases only
those of connections that are somewhere. -/
theorem congr (h : Custody s held) (hidle : s'.idle = s.idle) (hopened : s.opened ≤ s'.opened)
    (hdatabase : ∀ conn, ¬Free s held conn → s'.database conn = s.database conn) :
    Custody s' held := by
  refine ⟨?_, hidle ▸ h.idle_nodup, ?_, fun i pc hi ↦ (h.held_lt i pc hi).trans_le hopened,
    fun i pc hi ↦ ?_, hidle ▸ h.held_ne_idle, h.held_inj⟩
  · exact fun pc hpc ↦ (h.idle_lt pc (hidle ▸ hpc)).trans_le hopened
  · intro pc hpc
    rw [hidle] at hpc
    rw [hdatabase pc.conn fun hfree ↦ hfree.idle pc hpc rfl, h.idle_db pc hpc]
  · rw [hdatabase pc.conn fun hfree ↦ hfree.held i pc hi rfl, h.held_db i pc hi]

/-- A connection not opened yet is free. -/
theorem free_opened (h : Custody s held) : Free s held s.opened :=
  ⟨fun pc hpc ↦ (h.idle_lt pc hpc).ne, fun i pc hi ↦ (h.held_lt i pc hi).ne⟩

/-- A free connection is put on the shelf. -/
theorem put (h : Custody s held) (hfree : Free s held pc.conn) (hlt : pc.conn < s.opened)
    (hdb : s.database pc.conn = pc.db) : Custody { s with idle := pc :: s.idle } held := by
  refine ⟨List.forall_mem_cons.mpr ⟨hlt, h.idle_lt⟩, ?_, List.forall_mem_cons.mpr ⟨hdb, h.idle_db⟩,
    h.held_lt, h.held_db, fun i pc' hi ↦ ?_, h.held_inj⟩
  · refine List.nodup_cons.mpr ⟨fun hmem ↦ ?_, h.idle_nodup⟩
    obtain ⟨pc', hpc', heq⟩ := List.mem_map.mp hmem
    exact hfree.idle pc' hpc' heq
  · exact List.forall_mem_cons.mpr ⟨(hfree.held i pc' hi).symm, h.held_ne_idle i pc' hi⟩

/-- The next connection of the shelf is taken off it, and is free. -/
theorem pop (h : Custody s held) {rest : List IdleConn} (hidle : s.idle = pc :: rest) :
    Custody { s with idle := rest } held ∧ Free { s with idle := rest } held pc.conn := by
  obtain ⟨h₁, h₂, h₃, h₄, h₅, h₆, h₇⟩ := h
  rw [hidle] at h₁ h₂ h₃ h₆
  obtain ⟨hnot, hnodup⟩ := List.nodup_cons.mp h₂
  refine ⟨⟨(List.forall_mem_cons.mp h₁).2, hnodup, (List.forall_mem_cons.mp h₃).2, h₄, h₅,
    fun i pc' hi ↦ (List.forall_mem_cons.mp (h₆ i pc' hi)).2, h₇⟩, ⟨fun pc' hpc' heq ↦ ?_, ?_⟩⟩
  · exact hnot (List.mem_map.mpr ⟨pc', hpc', heq⟩)
  · exact fun i pc' hi ↦ ((List.forall_mem_cons.mp (h₆ i pc' hi)).1).symm

end

variable {ι : Type} [DecidableEq ι] {o : ReplayOptions} {T : TargetDb} {s s' : PassState}
  {held : ι → Option IdleConn} {i : ι} {pc : IdleConn}

/-- What the sessions hold when one of them has changed. -/
theorem eq_of_update {x : Option IdleConn} {j : ι} {pc' : IdleConn}
    (h : Function.update held i x j = some pc') :
    j = i ∧ x = some pc' ∨ j ≠ i ∧ held j = some pc' := by
  by_cases hj : j = i
  · rw [hj, Function.update_self] at h
    exact .inl ⟨hj, h⟩
  · rw [Function.update_of_ne hj] at h
    exact .inr ⟨hj, h⟩

theorem eq_of_drop {j : ι} (h : Function.update held i none j = some pc) : held j = some pc :=
  (eq_of_update h).elim (fun hi ↦ nomatch hi.2) And.right

/-- A session lets its connection go. -/
theorem drop (h : Custody s held) (i : ι) : Custody s (Function.update held i none) :=
  ⟨h.idle_lt, h.idle_nodup, h.idle_db, fun j pc hj ↦ h.held_lt j pc (eq_of_drop hj),
    fun j pc hj ↦ h.held_db j pc (eq_of_drop hj),
    fun j pc hj ↦ h.held_ne_idle j pc (eq_of_drop hj),
    fun j j' pc pc' hj hj' ↦ h.held_inj j j' pc pc' (eq_of_drop hj) (eq_of_drop hj')⟩

/-- And then it is free. -/
theorem free_of_drop (h : Custody s held) (hi : held i = some pc) :
    Free s (Function.update held i none) pc.conn := by
  refine ⟨h.held_ne_idle i pc hi, fun j pc' hj heq ↦ ?_⟩
  rcases eq_of_update hj with ⟨-, hnone⟩ | ⟨hne, hj⟩
  · exact nomatch hnone
  · exact hne (h.held_inj j i pc' pc hj hi heq)

/-- A session takes a free connection. -/
theorem take (h : Custody s held) (hfree : Free s held pc.conn) (hlt : pc.conn < s.opened)
    (hdb : s.database pc.conn = pc.db) : Custody s (Function.update held i (some pc)) := by
  refine ⟨h.idle_lt, h.idle_nodup, h.idle_db, fun j pc' hj ↦ ?_, fun j pc' hj ↦ ?_,
    fun j pc' hj ↦ ?_, fun j j' pc₁ pc₂ hj hj' heq ↦ ?_⟩
  · rcases eq_of_update hj with ⟨-, hpc⟩ | ⟨-, hj⟩
    · obtain rfl := Option.some.inj hpc
      exact hlt
    · exact h.held_lt j pc' hj
  · rcases eq_of_update hj with ⟨-, hpc⟩ | ⟨-, hj⟩
    · obtain rfl := Option.some.inj hpc
      exact hdb
    · exact h.held_db j pc' hj
  · rcases eq_of_update hj with ⟨-, hpc⟩ | ⟨-, hj⟩
    · obtain rfl := Option.some.inj hpc
      exact hfree.idle
    · exact h.held_ne_idle j pc' hj
  · rcases eq_of_update hj with ⟨hi, hpc⟩ | ⟨-, hj₁⟩ <;>
      rcases eq_of_update hj' with ⟨hi', hpc'⟩ | ⟨-, hj₂⟩
    · exact hi.trans hi'.symm
    · obtain rfl := Option.some.inj hpc
      exact absurd heq.symm (hfree.held j' pc₂ hj₂)
    · obtain rfl := Option.some.inj hpc'
      exact absurd heq (hfree.held j pc₁ hj₁)
    · exact h.held_inj j j' pc₁ pc₂ hj₁ hj₂ heq

/-- A statement has succeeded on the connection a session holds. -/
theorem statement (h : Custody s held) (hi : held i = some pc) (sql : Bytes)
    (hidle : s'.idle = s.idle) (hopened : s'.opened = s.opened)
    (hdatabase : s'.database = s.moved T pc.conn sql) :
    Custody s' (Function.update held i ((held i).map (·.moved T sql))) := by
  have hfree := h.free_of_drop hi
  have hdropped : Custody s' (Function.update held i none) := by
    refine (h.drop i).congr hidle hopened.ge fun conn hconn ↦ ?_
    rw [hdatabase, PassState.moved_of_ne]
    rintro rfl
    exact hconn hfree
  have htaken : Custody s' (Function.update (Function.update held i none) i
      (some (pc.moved T sql))) := by
    refine hdropped.take ⟨?_, ?_⟩ ?_ ?_ <;> rw [IdleConn.moved_conn]
    · exact hidle ▸ hfree.idle
    · exact hfree.held
    · exact hopened ▸ h.held_lt i pc hi
    · rw [hdatabase, PassState.moved_self (h.held_db i pc hi)]
  rw [hi]
  rwa [Function.update_idem] at htaken

/-- An operation without consequences for a connection. -/
theorem quiet (h : Custody s held) {x : Option IdleConn} (hx : x = held i)
    (hidle : s'.idle = s.idle) (hopened : s'.opened = s.opened)
    (hdatabase : s'.database = s.database) : Custody s' (Function.update held i x) := by
  rw [hx, Function.update_eq_self]
  exact h.congr hidle hopened.ge fun conn _ ↦ congrFun hdatabase conn

/-- What an operation needs of the connection held keeps the invariant. -/
theorem step_of_suits (h : Custody s held) {op : Op} {r : op.Res} (hsuits : Suits (held i) op)
    (hresponds : s.Responds o T op r s') :
    Custody s' (Function.update held i (holds o T (held i) op r)) := by
  obtain ⟨hpossible, rfl⟩ := hresponds
  cases op with
  | connect =>
    have hnone : held i = none := hsuits
    cases r with
    | error e => exact h.quiet rfl rfl rfl rfl
    | ok conn =>
      obtain rfl : conn = s.opened := by simpa [PassState.possible] using hpossible
      -- the new connection is in no one's hands, so the session can take it
      have hfree := h.free_opened
      have hopened : Custody (s.after o T .connect (.ok s.opened)) held := by
        refine h.congr rfl (Nat.le_succ _) fun conn hconn ↦ ?_
        refine Function.update_of_ne ?_ _ _
        rintro rfl
        exact hconn hfree
      have htaken : Custody (s.after o T .connect (.ok s.opened))
          (Function.update held i (some ⟨s.opened, o.defaultDb⟩)) :=
        hopened.take ⟨hfree.idle, hfree.held⟩ (Nat.lt_succ_self _) (Function.update_self _ _ _)
      exact htaken
  | popIdle =>
    have hnone : held i = none := hsuits
    obtain rfl : r = s.idle.head? := by simpa [PassState.possible] using hpossible
    cases hidle : s.idle with
    | nil => exact h.quiet hnone.symm (by simp [PassState.after, hidle]) rfl rfl
    | cons pc rest =>
      obtain ⟨hrest, hfree⟩ := h.pop hidle
      have htail : (s.after o T .popIdle s.idle.head?).idle = rest := congrArg List.tail hidle
      have hafter : Custody (s.after o T .popIdle s.idle.head?) held :=
        hrest.congr htail le_rfl fun _ _ ↦ rfl
      have hpc : pc ∈ s.idle := hidle ▸ List.mem_cons_self
      have htaken := hafter.take (i := i) ⟨htail ▸ hfree.idle, hfree.held⟩ (h.idle_lt pc hpc)
        (h.idle_db pc hpc)
      rw [hidle] at htaken
      exact htaken
  | use conn db =>
    obtain ⟨pc, hpc, rfl⟩ := hsuits
    cases r with
    | error e => exact h.quiet rfl rfl rfl rfl
    | ok bytes => exact h.statement hpc _ rfl rfl rfl
  | query conn sql | queryChecksum conn sql =>
    obtain ⟨pc, hpc, rfl⟩ := hsuits
    cases r with
    | error e => exact h.quiet rfl rfl rfl rfl
    | ok result => exact h.statement hpc _ rfl rfl rfl
  | checkin pc =>
    have hpc : held i = some pc := hsuits
    exact (h.drop i).put (h.free_of_drop hpc) (h.held_lt i pc hpc) (h.held_db i pc hpc)
  | disconnect conn | dropConn conn => exact h.drop i
  | _ => exact h.quiet rfl rfl rfl rfl

/-- What the protocol allows keeps the invariant. -/
theorem step (h : Custody s held) {events : List Event} {strict : Prop} {g : Progress} {op : Op}
    {r : op.Res} (hheld : g.held = held i) (hallows : (custody o T events strict).allows g op)
    (hresponds : s.Responds o T op r s') :
    Custody s' (Function.update held i (holds o T (held i) op r)) := by
  refine h.step_of_suits ?_ hresponds
  rw [← hheld]
  cases op with
  | use conn db | query conn sql | queryChecksum conn sql =>
    obtain ⟨pc, ev, hpc, hconn, -⟩ := hallows
    exact ⟨pc, hpc, hconn⟩
  | connect | popIdle | checkin pc => exact hallows
  | _ => exact trivial

end Custody

end SqlReplay
