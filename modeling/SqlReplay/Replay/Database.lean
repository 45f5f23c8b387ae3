import SqlReplay.Replay.Conservation
import SqlReplay.Replay.Custody

/-!
# The database a statement runs in

A session keeps the database it takes its connection to be in and sends a `USE` when an event asks
for another. Two things make the connection be somewhere else. On a connection of its own, a
captured `USE` that passes the gate moves it and the session does not notice. On a pooled one there
are no captured `USE` statements, but an event without a database is taken as it comes, on a
connection left by another event.

Where neither can happen, every captured statement finds the database of its event
(`dedicated_database`), and on pooled connections the default database when it has none, whatever
the other sessions do (`pooled_database`).
-/

namespace SqlReplay

open Replay

/-- The connection and the text of a captured statement. -/
def Op.captured? : Op → Option (ConnId × Bytes)
  | .query conn sql | .queryChecksum conn sql => some (conn, sql)
  | _ => none

namespace Replay

/-- The events paced on a trace. -/
def paced (t : Trace Op.Res) : List Event := Program.observe due t

theorem after_paced (o : ReplayOptions) (T : TargetDb) (events : List Event) (strict : Prop)
    (g : Progress) (t : Trace Op.Res) :
    ((custody o T events strict).after g t).paced = g.paced ++ paced t := by
  unfold Protocol.after
  induction t generalizing g with
  | nil => exact (List.append_nil _).symm
  | cons e t ih =>
    rw [List.foldl_cons, ih, paced, paced, Program.observe, Program.observe, List.flatMap_cons,
      ← List.append_assoc]
    rfl

end Replay

namespace Pass

variable {o : ReplayOptions} {T : TargetDb} {n : ℕ} {sessions : Fin n → ReplaySession o}
  {c : Pass n}

/-- The captured statement a session is about to send, behind its connection. -/
def sending (c : Pass n) (i : Fin n) : Option (ConnId × Bytes) :=
  match c.task i with
  | .done _ => none
  | .call op _ => op.captured?

/-- What a session has come to. -/
def progress (o : ReplayOptions) (T : TargetDb) (sessions : Fin n → ReplaySession o)
    (strict : Fin n → Prop) (c : Pass n) : Fin n → Progress :=
  c.known (fun i ↦ custody o T (sessions i).events (strict i)) ⟨[], none⟩

theorem progress_paced (strict : Fin n → Prop) (i : Fin n) :
    (progress o T sessions strict c i).paced = paced (c.logOf i) := after_paced ..

variable (strict : Fin n → Prop)
  (hmode : ∀ i, o.pool.isSome = true ∨
    o.useEventDb = true ∧ (strict i → Stays o T (sessions i).events))

/-- What the sessions hold when one of them has come to know more. -/
theorem held_update (k : Fin n → Progress) (i : Fin n) (g : Progress) :
    (fun j ↦ (Function.update k i g j).held) =
      Function.update (fun j ↦ (k j).held) i g.held := by
  funext j
  exact Function.apply_update (fun _ ↦ Progress.held) k i g j

include hmode in
theorem Reaches.custody (h : Reaches o T sessions c) :
    Custody c.shared fun i ↦ (progress o T sessions strict c i).held := by
  obtain ⟨shutdown, hrun⟩ := h
  refine hrun.invariant (fun s k ↦ Custody s fun i ↦ (k i).held)
    (fun i ↦ runSession_obeys (sessions i) (hmode i)) (.new o shutdown) ?_ ?_
  · intro s k i op r s' hinv hallows hresponds
    rw [held_update]
    exact hinv.step (i := i) rfl hallows hresponds
  · rintro s k s' hinv rfl
    exact hinv.congr rfl le_rfl fun _ _ ↦ rfl

include hmode in
/-- A captured statement is sent under the protocol, and the connection is in the database the
session has for it. -/
theorem Reaches.sends (h : Reaches o T sessions c) {i : Fin n} {conn : ConnId} {sql : Bytes}
    (hsends : c.sending i = some (conn, sql)) :
    MaySend o (strict i) (progress o T sessions strict c i) conn sql ∧
      ∀ pc, (progress o T sessions strict c i).held = some pc →
        c.shared.database pc.conn = pc.db := by
  have hcustody := h.custody strict hmode
  obtain ⟨shutdown, hrun⟩ := h
  have hobeys := hrun.obeys (fun j ↦ runSession_obeys (sessions j) (hmode j)) i
  refine ⟨?_, hcustody.held_db i⟩
  unfold sending at hsends
  split at hsends
  · exact nomatch hsends
  · next op next hop =>
    rw [hop] at hobeys
    cases op with
    | query conn' sql' | queryChecksum conn' sql' =>
      obtain ⟨rfl, rfl⟩ := Prod.mk.inj (Option.some.inj hsends)
      exact hobeys.1
    | _ => exact nomatch hsends

end Pass

/-! ## On a connection of its own -/

namespace Pass

variable {o : ReplayOptions} {T : TargetDb} {n : ℕ} {sessions : Fin n → ReplaySession o}
  {c : Pass n}

/-- Where the captured `USE` statements of a session do not lead away from the databases its events
ask for, it sends every other statement in the database of its event. -/
theorem dedicated_database (huse : o.useEventDb = true) (h : Reaches o T sessions c) {i : Fin n}
    (hstays : Stays o T (sessions i).events) {conn : ConnId} {sql : Bytes}
    (hsends : c.sending i = some (conn, sql)) (hno : isUseStatement sql = false) :
    ∃ ev, (paced (c.logOf i)).getLast? = some ev ∧ ev.query = sql ∧
      ∀ db, ev.db = some db → c.shared.database conn = some db := by
  obtain ⟨⟨pc, ev, hpc, rfl, hev, hgate, hquery, hright⟩, hdatabase⟩ :=
    h.sends (fun j ↦ Stays o T (sessions j).events) (fun j ↦ .inr ⟨huse, id⟩) hsends
  rw [progress_paced] at hev
  refine ⟨ev, hev, hquery, fun db hdb ↦ ?_⟩
  rw [hdatabase pc hpc]
  refine hright hstays hno db ?_
  rwa [wanted, if_pos huse]

def eventIn (db : Option Bytes) (query : Bytes) : Event := ⟨0, 1, none, db, query, .zero, 0⟩

/-- A captured `USE` logged in the database it leaves: the connection is in the other one when the
next statement of the first is sent. -/
theorem captured_use_leads_away :
    let db := ascii "a"
    let sessions : Fin 1 → ReplaySession sampleOptions :=
      ![.ofEvents _ 1 [eventIn (some db) (ascii "SELECT 1"), eventIn (some db) (ascii "USE b"),
        eventIn (some db) (ascii "SELECT 2")]]
    ∃ c conn, Reaches sampleOptions .plain sessions c ∧
      c.sending 0 = some (conn, ascii "SELECT 2") ∧
      (paced (c.logOf 0)).getLast? = some (eventIn (some db) (ascii "SELECT 2")) ∧
      isUseStatement (ascii "SELECT 2") = false ∧ c.shared.database conn = some (ascii "b") := by
  intro db sessions
  have hreaches := reaches_run sampleOptions sessions (List.replicate 16 0)
  exact ⟨_, 0, hreaches, by decide +kernel, by decide +kernel, by decide +kernel,
    by decide +kernel⟩

/-- A `USE` as a capture has it that misses nothing: the statements behind it are logged in the
database it leads to. -/
theorem dedicated_database_sample :
    let sessions : Fin 1 → ReplaySession sampleOptions :=
      ![.ofEvents _ 1 [eventIn (some (ascii "a")) (ascii "USE b"),
        eventIn (some (ascii "b")) (ascii "SELECT 2")]]
    ∃ c conn, Reaches sampleOptions .plain sessions c ∧
      c.sending 0 = some (conn, ascii "SELECT 2") ∧
      c.shared.database conn = some (ascii "b") := by
  intro sessions
  have hreaches := reaches_run sampleOptions sessions (List.replicate 12 0)
  have hsending : (run sampleOptions sessions (List.replicate 12 0)).sending 0 =
      some (0, ascii "SELECT 2") := by decide +kernel
  have hpaced : (paced ((run sampleOptions sessions (List.replicate 12 0)).logOf 0)).getLast? =
      some (eventIn (some (ascii "b")) (ascii "SELECT 2")) := by decide +kernel
  have hstays : Stays sampleOptions .plain (sessions 0).events := by
    rintro before use after hevents - db db' hmoved - ⟨ev, hev, -, -, hdb⟩
    rcases before with _ | ⟨first, before⟩
    · obtain ⟨rfl, rfl⟩ := List.cons.inj hevents
      obtain rfl := List.mem_singleton.mp hev
      have hb : TargetDb.plain.useDb (ascii "USE b") = some (ascii "b") := by decide +kernel
      exact Option.some.inj (hmoved.symm.trans (hb.trans hdb))
    · -- nothing comes behind the second event
      have hlen := congrArg List.length hevents
      have hafter := List.length_pos_of_mem hev
      simp only [List.length_append, List.length_cons] at hlen
      change 2 = _ at hlen
      omega
  obtain ⟨ev, hev, -, hdatabase⟩ :=
    dedicated_database rfl hreaches hstays hsending (by decide +kernel)
  obtain rfl := Option.some.inj (hev.symm.trans hpaced)
  exact ⟨_, 0, hreaches, hsending, hdatabase _ rfl⟩

end Pass

/-! ## On pooled connections -/

/-- An event moves the connection it is replayed on away from the default database. -/
def Moves (o : ReplayOptions) (ev : Event) : Prop :=
  gate o ev = true ∧ ∃ db, wanted o ev = some db ∧ some db ≠ o.defaultDb

/-- Where a pooled connection is: in the default database, or where an event paced has moved it. -/
def Accounted {n : ℕ} (o : ReplayOptions) (k : Fin n → Progress) (db : Option Bytes) : Prop :=
  db = o.defaultDb ∨ ∃ i, ∃ ev ∈ (k i).paced, Moves o ev

/-- All pooled connections are accounted for by the events paced, which are the first ones of the
sessions. -/
structure AllAccounted {n : ℕ} (o : ReplayOptions) (events : Fin n → List Event) (s : PassState)
    (k : Fin n → Progress) : Prop where
  paced : ∀ i, (k i).paced <+: events i
  idle : ∀ pc ∈ s.idle, Accounted o k pc.db
  held : ∀ i pc, (k i).held = some pc → Accounted o k pc.db

namespace AllAccounted

variable {o : ReplayOptions} {T : TargetDb} {n : ℕ} {events : Fin n → List Event}
  {s s' : PassState} {k : Fin n → Progress}

/-- What a session lets its connection be, an operation that is allowed accounts for. -/
theorem holds_accounted (hpool : o.pool.isSome = true) {strict : Prop} {i : Fin n} {op : Op}
    {r : op.Res} (h : AllAccounted o events s k)
    (hallows : (custody o T (events i) strict).allows (k i) op)
    (hpossible : s.possible op r = true) {pc : IdleConn}
    (hpc : holds o T (k i).held op r = some pc) : Accounted o k pc.db := by
  -- a statement other than a `USE` leaves the connection where it is
  have hstays (sql : Bytes) (hno : isUseStatement sql = false)
      (hmoved : (k i).held.map (·.moved T sql) = some pc) : Accounted o k pc.db := by
    obtain ⟨pc', hpc', rfl⟩ := Option.map_eq_some_iff.mp hmoved
    rw [IdleConn.moved_of_not_use hno]
    exact h.held i pc' hpc'
  cases op with
  | connect =>
    cases r with
    | error e => exact h.held i pc hpc
    | ok conn =>
      obtain rfl := Option.some.inj hpc
      exact .inl rfl
  | popIdle =>
    obtain rfl : r = s.idle.head? := by simpa [PassState.possible] using hpossible
    exact h.idle pc (List.mem_of_mem_head? hpc)
  | use conn db =>
    cases r with
    | error e => exact h.held i pc hpc
    | ok bytes =>
      obtain ⟨pc', ev, hpc', -, hev, hgate, hwanted⟩ := hallows
      obtain rfl : pc = ⟨pc'.conn, some db⟩ := by
        rw [holds, hpc', Option.map_some, IdleConn.moved, T.useDb_useStatement] at hpc
        exact (Option.some.inj hpc).symm
      by_cases hdefault : some db = o.defaultDb
      · exact .inl hdefault
      · exact .inr ⟨i, ev, List.mem_of_getLast? hev, hgate, db, hwanted, hdefault⟩
  | query conn sql | queryChecksum conn sql =>
    cases r with
    | error e => exact h.held i pc hpc
    | ok result =>
      obtain ⟨-, ev, -, -, -, hgate, rfl, -⟩ := hallows
      exact hstays ev.query (not_use_of_gate hgate (.inr hpool)) hpc
  | checkin _ | disconnect _ | dropConn _ => cases hpc
  | _ => exact h.held i pc hpc

theorem mem_idle_after {op : Op} {r : op.Res} {pc : IdleConn}
    (hpc : pc ∈ (s.after o T op r).idle) : pc ∈ s.idle ∨ op = .checkin pc := by
  cases op with
  | popIdle => exact .inl (List.mem_of_mem_tail hpc)
  | checkin pc' =>
    rcases List.mem_cons.mp hpc with rfl | hpc
    · exact .inr rfl
    · exact .inl hpc
  | _ => exact .inl hpc

theorem paced_front {strict : Prop} {i : Fin n} {op : Op} {r : op.Res}
    (h : (k i).paced <+: events i) (hallows : (custody o T (events i) strict).allows (k i) op) :
    (k i).paced ++ due op r <+: events i := by
  cases op with
  | pace ev =>
    cases r with
    | ready => exact hallows
    | aborted => exact (List.append_nil _).symm ▸ h
  | _ => exact (List.append_nil _).symm ▸ h

theorem step (hpool : o.pool.isSome = true) {strict : Prop} {i : Fin n} {op : Op} {r : op.Res}
    (h : AllAccounted o events s k) (hallows : (custody o T (events i) strict).allows (k i) op)
    (hresponds : s.Responds o T op r s') :
    AllAccounted o events s'
      (Function.update k i ((custody o T (events i) strict).learn (k i) op r)) := by
  obtain ⟨hpossible, rfl⟩ := hresponds
  have hsub (j : Fin n) : (k j).paced ⊆
      (Function.update k i ((custody o T (events i) strict).learn (k i) op r) j).paced := by
    by_cases hj : j = i
    · rw [hj, Function.update_self]
      exact List.subset_append_left _ _
    · rw [Function.update_of_ne hj]
      exact List.Subset.refl _
  have hmono {db : Option Bytes} (hdb : Accounted o k db) : Accounted o
      (Function.update k i ((custody o T (events i) strict).learn (k i) op r)) db :=
    hdb.imp_right fun ⟨j, ev, hev, hmoves⟩ ↦ ⟨j, ev, hsub j hev, hmoves⟩
  refine ⟨fun j ↦ ?_, fun pc hpc ↦ hmono ?_, fun j pc hpc ↦ hmono ?_⟩
  · by_cases hj : j = i
    · obtain rfl := hj
      rw [Function.update_self]
      exact paced_front (h.paced j) hallows
    · rw [Function.update_of_ne hj]
      exact h.paced j
  · rcases mem_idle_after hpc with hpc | rfl
    · exact h.idle pc hpc
    · exact h.held i pc hallows
  · by_cases hj : j = i
    · obtain rfl := hj
      rw [Function.update_self] at hpc
      exact holds_accounted hpool h hallows hpossible hpc
    · rw [Function.update_of_ne hj] at hpc
      exact h.held j pc hpc

end AllAccounted

namespace Pass

variable {o : ReplayOptions} {T : TargetDb} {n : ℕ} {sessions : Fin n → ReplaySession o}
  {c c₁ c₂ : Pass n}

/-- No event without a database of its own can find a pooled connection where another event has
left it: no event before it in its session, and no event of another session, moves connections. -/
def Undisturbed (sessions : Fin n → ReplaySession o) : Prop :=
  ∀ i before ev after, (sessions i).events = before ++ ev :: after → gate o ev = true →
    wanted o ev = none →
    (∀ ev' ∈ before, ¬Moves o ev') ∧ ∀ j ≠ i, ∀ ev' ∈ (sessions j).events, ¬Moves o ev'

theorem Reaches.allAccounted (hpool : o.pool.isSome = true) (h : Reaches o T sessions c) :
    AllAccounted o (fun i ↦ (sessions i).events) c.shared
      (progress o T sessions (fun _ ↦ True) c) := by
  obtain ⟨shutdown, hrun⟩ := h
  refine hrun.invariant (AllAccounted o fun i ↦ (sessions i).events)
    (fun i ↦ runSession_obeys (sessions i) (.inl hpool))
    ⟨fun i ↦ ⟨_, List.nil_append _⟩, fun _ hpc ↦ absurd hpc List.not_mem_nil,
      fun _ _ hpc ↦ nomatch hpc⟩
    (fun s k i op r s' hinv hallows hresponds ↦ hinv.step hpool hallows hresponds) ?_
  rintro s k s' hinv rfl
  exact ⟨hinv.paced, hinv.idle, hinv.held⟩

/-- The database of a statement sent on a pooled connection. -/
theorem Reaches.pooled (hpool : o.pool.isSome = true) (hundisturbed : Undisturbed sessions)
    (h : Reaches o T sessions c) {i : Fin n} {conn : ConnId} {sql : Bytes}
    (hsends : c.sending i = some (conn, sql)) :
    ∃ ev, (paced (c.logOf i)).getLast? = some ev ∧ ev.query = sql ∧
      paced (c.logOf i) <+: (sessions i).events ∧
      c.shared.database conn = (wanted o ev).orElse fun _ ↦ o.defaultDb := by
  obtain ⟨⟨pc, ev, hpc, rfl, hev, hgate, hquery, hright⟩, hdatabase⟩ :=
    h.sends (fun _ ↦ True) (fun j ↦ .inl hpool) hsends
  have haccounted := h.allAccounted hpool
  have hfront := haccounted.paced i
  have hno : isUseStatement sql = false := hquery ▸ not_use_of_gate hgate (.inr hpool)
  rw [hdatabase pc hpc, ← progress_paced (T := T) (fun _ ↦ True)]
  refine ⟨ev, hev, hquery, hfront, ?_⟩
  cases hwanted : wanted o ev with
  | some db => exact hright trivial hno db hwanted
  | none =>
    refine (haccounted.held i pc hpc).resolve_right ?_
    rintro ⟨j, ev', hev', hmoves⟩
    obtain ⟨before, hbefore⟩ := List.getLast?_eq_some_iff.mp hev
    obtain ⟨after, hafter⟩ := hfront
    rw [hbefore, List.append_assoc] at hafter
    obtain ⟨hearlier, hothers⟩ := hundisturbed i before ev after hafter.symm hgate hwanted
    by_cases hj : j = i
    · rw [hj, hbefore] at hev'
      rcases List.mem_append.mp hev' with hev' | hev'
      · exact hearlier ev' hev' hmoves
      · obtain ⟨-, db, hdb, -⟩ := List.mem_singleton.mp hev' ▸ hmoves
        cases hwanted.symm.trans hdb
    · exact hothers j hj ev' ((haccounted.paced j).subset hev') hmoves

/-- In two runs of a pass on pooled connections, the statement of an event is sent in the same
database: that of the event, when the pass uses the events' databases and it has one, and otherwise
the default database. -/
theorem pooled_database (hpool : o.pool.isSome = true) (hundisturbed : Undisturbed sessions)
    (h₁ : Reaches o T sessions c₁) (h₂ : Reaches o T sessions c₂) {i : Fin n}
    {conn₁ conn₂ : ConnId} {sql₁ sql₂ : Bytes} (hsends₁ : c₁.sending i = some (conn₁, sql₁))
    (hsends₂ : c₂.sending i = some (conn₂, sql₂))
    (hsame : (paced (c₁.logOf i)).length = (paced (c₂.logOf i)).length) :
    ∃ ev, (paced (c₁.logOf i)).getLast? = some ev ∧ (paced (c₂.logOf i)).getLast? = some ev ∧
      sql₁ = ev.query ∧ sql₂ = ev.query ∧
      c₁.shared.database conn₁ = c₂.shared.database conn₂ ∧
      c₁.shared.database conn₁ =
        match (if o.useEventDb then ev.db else none) with
        | some db => some db
        | none => o.defaultDb := by
  obtain ⟨ev₁, hev₁, hquery₁, hfront₁, hdb₁⟩ := h₁.pooled hpool hundisturbed hsends₁
  obtain ⟨ev₂, hev₂, hquery₂, hfront₂, hdb₂⟩ := h₂.pooled hpool hundisturbed hsends₂
  have hpaced : paced (c₁.logOf i) = paced (c₂.logOf i) := by
    rw [List.prefix_iff_eq_take.mp hfront₁, hsame, ← List.prefix_iff_eq_take.mp hfront₂]
  obtain rfl : ev₁ = ev₂ := Option.some.inj (hev₁.symm.trans (hpaced ▸ hev₂))
  refine ⟨ev₁, hev₁, hev₂, hquery₁.symm, hquery₂.symm, hdb₁.trans hdb₂.symm, hdb₁.trans ?_⟩
  change (wanted o ev₁).orElse _ =
    match wanted o ev₁ with | some db => some db | none => o.defaultDb
  cases wanted o ev₁ <;> rfl

/-- No `USE` has failed. -/
def usesSucceed (c : Pass n) : Bool :=
  c.log.all fun e ↦
    match e.2 with
    | ⟨.use _ _, .error _⟩ => false
    | _ => true

/-- Options of a pass on one pooled connection. -/
def pooledOptions : ReplayOptions := { sampleOptions with pool := some 1 }

/-- An event without a database runs in the default one when its session comes first, and in the
database of the other session when that has left the connection there. -/
theorem pooled_leftover :
    let sessions : Fin 2 → ReplaySession pooledOptions :=
      ![.ofEvents _ 1 [eventIn none (ascii "SELECT 1")],
        .ofEvents _ 2 [eventIn (some (ascii "b")) (ascii "SELECT 2")]]
    ∃ c₁ c₂, Reaches pooledOptions .plain sessions c₁ ∧ Reaches pooledOptions .plain sessions c₂ ∧
      c₁.usesSucceed = true ∧ c₂.usesSucceed = true ∧
      c₁.sending 0 = some (0, ascii "SELECT 1") ∧ c₂.sending 0 = some (0, ascii "SELECT 1") ∧
      (paced (c₁.logOf 0)).length = (paced (c₂.logOf 0)).length ∧
      c₁.shared.database 0 = pooledOptions.defaultDb ∧
      c₂.shared.database 0 = some (ascii "b") ∧ pooledOptions.defaultDb ≠ some (ascii "b") := by
  intro sessions
  refine ⟨_, _, reaches_run pooledOptions sessions (List.replicate 5 0),
    reaches_run pooledOptions sessions (List.replicate 11 1 ++ List.replicate 4 0), ?_⟩
  decide +kernel

/-- Two sessions with databases of their own, in both orders on one connection. -/
theorem pooled_database_sample :
    let sessions : Fin 2 → ReplaySession pooledOptions :=
      ![.ofEvents _ 1 [eventIn (some (ascii "a")) (ascii "SELECT 1")],
        .ofEvents _ 2 [eventIn (some (ascii "b")) (ascii "SELECT 2")]]
    ∃ c₁ c₂, Reaches pooledOptions .plain sessions c₁ ∧ Reaches pooledOptions .plain sessions c₂ ∧
      c₁.sending 0 = some (0, ascii "SELECT 1") ∧ c₂.sending 0 = some (0, ascii "SELECT 1") ∧
      c₁.shared.database 0 = c₂.shared.database 0 := by
  intro sessions
  have hundisturbed : Undisturbed sessions := by
    intro i before ev after hevents _ hwanted
    have hasks : ∀ i, ∀ ev ∈ (sessions i).events, wanted pooledOptions ev ≠ none := by
      decide
    exact absurd hwanted (hasks i ev (hevents ▸ List.mem_append_right _ List.mem_cons_self))
  have hreaches₁ := reaches_run pooledOptions sessions (List.replicate 6 0)
  have hreaches₂ := reaches_run pooledOptions sessions
    (List.replicate 11 1 ++ List.replicate 5 0)
  have hsends₁ : (run pooledOptions sessions (List.replicate 6 0)).sending 0 =
      some (0, ascii "SELECT 1") := by decide +kernel
  have hsends₂ : (run pooledOptions sessions
      (List.replicate 11 1 ++ List.replicate 5 0)).sending 0 =
      some (0, ascii "SELECT 1") := by decide +kernel
  obtain ⟨-, -, -, -, -, hdatabase, -⟩ :=
    pooled_database rfl hundisturbed hreaches₁ hreaches₂ hsends₁ hsends₂ (by decide +kernel)
  exact ⟨_, _, hreaches₁, hreaches₂, hsends₁, hsends₂, hdatabase⟩

end Pass

end SqlReplay
