import Mathlib.Algebra.Order.Ring.Int
import SqlReplay.Data.Attribution
import SqlReplay.Pcap.Connections
import SqlReplay.Pcap.SynRetransmit

/-!
# Counters and session ids of a capture

What the engine adds up and hands out, stated about the connections of the capture. Each connection
is counted when it begins and classified when it ends, with the counters of its flushed decoder
(`Accounts`). The events it hands to the sink are those of its connections, each under an id of its
own, in the order in which the decoder brought them out (`Sessions`).

A frame does at most three things to that: it ends the connection whose port pair is reused, it
begins a connection, and it gives a segment to one, which may end it. Each is one of the lemmas
below; `Ledger` puts the two sides together with the table, and `Ledger.run` takes it through a
capture.
-/

namespace SqlReplay

/-! ## Counters -/

/-- The counters a decoder keeps. -/
inductive Counter where
  | expanded
  | inexpandable
  | ignored
  | missing
  deriving DecidableEq, Repr

def ConnStats.counter (s : ConnStats) : Counter → ℕ
  | .expanded => s.statementsExpanded
  | .inexpandable => s.statementsInexpandable
  | .ignored => s.commandsIgnored
  | .missing => s.responsesMissing

namespace PcapStats

def counter (s : PcapStats) : Counter → ℕ
  | .expanded => s.statementsExpanded
  | .inexpandable => s.statementsInexpandable
  | .ignored => s.commandsIgnored
  | .missing => s.responsesMissing

/-- The connections classified. -/
def classified (s : PcapStats) : ℕ :=
  s.connectionsDecoded + s.connectionsTlsSkipped + s.connectionsCompressedSkipped +
    s.connectionsMidstreamSkipped + s.connectionsBroken

/-- Both count the same connections, and the decoders are summed up alike. -/
structure Same (s s' : PcapStats) : Prop where
  connections : s'.connections = s.connections
  classified : s'.classified = s.classified
  counter : ∀ k, s'.counter k = s.counter k

theorem same_countPacket (s : PcapStats) (truncated : Bool) : Same s (s.countPacket truncated) :=
  ⟨rfl, rfl, fun k ↦ by cases k <;> rfl⟩

theorem same_recordVersion (s : PcapStats) (v : Bytes) : Same s (s.recordVersion v) := by
  unfold recordVersion
  split_ifs
  · exact ⟨rfl, rfl, fun k ↦ by cases k <;> rfl⟩
  · exact ⟨rfl, rfl, fun _ ↦ rfl⟩

/-- A connection is put in one class. -/
theorem classified_countDisposition (s : PcapStats) (d : Disposition) (lost : Bool) :
    (s.countDisposition d lost).classified = s.classified + 1 := by
  unfold countDisposition classified
  cases d <;> cases lost <;> simp only [if_true, if_false, Bool.false_eq_true] <;> omega

theorem connections_countDisposition (s : PcapStats) (d : Disposition) (lost : Bool) :
    (s.countDisposition d lost).connections = s.connections := by
  cases d <;> cases lost <;> rfl

theorem counter_countDisposition (s : PcapStats) (d : Disposition) (lost : Bool) (k : Counter) :
    (s.countDisposition d lost).counter k = s.counter k := by
  cases d <;> cases lost <;> cases k <;> rfl

theorem counter_accumulate (s : PcapStats) (c : ConnStats) (k : Counter) :
    (s.accumulate c).counter k = s.counter k + c.counter k := by
  cases k <;> rfl

end PcapStats

/-- The counters are those of the connections: each is counted, and each that has ended is in one
class and has its decoder's counters added once. -/
structure Accounts (s : PcapStats) (cs : List Connection) : Prop where
  connections : s.connections = cs.length
  classified : s.classified = cs.countP (!·.live)
  counter : ∀ k, s.counter k = (cs.map fun c ↦ if c.live then 0 else c.stats.counter k).sum

/-- What the counters of a capture are at its end. -/
structure Balanced (s : PcapStats) (cs : List Connection) : Prop where
  /-- Every connection is counted. -/
  connections : s.connections = cs.length
  /-- Every connection is classified once. -/
  classified : s.connections = s.connectionsDecoded + s.connectionsTlsSkipped +
    s.connectionsCompressedSkipped + s.connectionsMidstreamSkipped + s.connectionsBroken
  /-- The counters of every connection's decoder are added once. -/
  counter : ∀ k, s.counter k = (cs.map fun c ↦ c.stats.counter k).sum

namespace Accounts

variable {s s' : PcapStats} {cs before after : List Connection} {c c' : Connection}

theorem same (h : Accounts s cs) (hs : s.Same s') : Accounts s' cs :=
  ⟨hs.connections.trans h.connections, hs.classified.trans h.classified,
    fun k ↦ (hs.counter k).trans (h.counter k)⟩

/-- A connection begins. -/
theorem add (h : Accounts s cs) (key : FlowKey) :
    Accounts { s with connections := s.connections + 1 } (cs ++ [⟨key, [], true⟩]) := by
  refine ⟨?_, ?_, fun k ↦ ?_⟩
  · rw [List.length_append]
    exact congrArg (· + 1) h.connections
  · rw [List.countP_append]
    exact h.classified
  · rw [List.map_append, List.sum_append]
    refine Eq.trans ?_ (h.counter k)
    cases k <;> rfl

/-- A live connection has changed and is live. -/
theorem replace (h : Accounts s (before ++ c :: after)) (hlive : c.live = true)
    (hlive' : c'.live = true) : Accounts s (before ++ c' :: after) := by
  obtain ⟨hconnections, hclassified, hcounter⟩ := h
  refine ⟨?_, ?_, fun k ↦ ?_⟩
  · rw [hconnections, List.length_append, List.length_append]
    rfl
  · rw [hclassified, List.countP_append, List.countP_append, List.countP_cons, List.countP_cons,
      hlive, hlive']
  · rw [hcounter k]
    simp only [List.map_append, List.map_cons, hlive, hlive', if_true]

/-- A live connection ends. -/
theorem close (h : Accounts s (before ++ c :: after)) (hlive : c.live = true)
    (hended : c'.live = false) (d : Disposition) (lost : Bool) :
    Accounts ((s.countDisposition d lost).accumulate c'.stats) (before ++ c' :: after) := by
  obtain ⟨hconnections, hclassified, hcounter⟩ := h
  refine ⟨?_, ?_, fun k ↦ ?_⟩
  · refine (s.connections_countDisposition d lost).trans ?_
    rw [hconnections, List.length_append, List.length_append]
    rfl
  · refine (s.classified_countDisposition d lost).trans ?_
    rw [hclassified, List.countP_append, List.countP_append, List.countP_cons, List.countP_cons,
      hlive, hended]
    rfl
  · rw [PcapStats.counter_accumulate, PcapStats.counter_countDisposition, hcounter k]
    simp only [List.map_append, List.map_cons, List.sum_append, List.sum_cons, hlive, hended,
      if_true, Bool.false_eq_true, if_false]
    omega

theorem balanced {s : PcapStats} {cs : List Connection}
    (h : Accounts s (cs.map .ended)) : Balanced s cs := by
  have hclassified : s.classified = cs.length := by
    rw [h.classified, List.countP_map]
    exact List.countP_eq_length.mpr fun _ _ ↦ rfl
  have hconnections : s.connections = cs.length := by rw [h.connections, List.length_map]
  refine ⟨hconnections, hconnections.trans hclassified.symm, fun k ↦ ?_⟩
  rw [h.counter k, List.map_map]
  rfl

end Accounts

/-! ## Session ids -/

/-- The events handed out are attributed to their connections, and the ids in use are thread ids or
synthetic ones given out before. -/
structure Sessions (e : PcapEngine) (out : Emitted) (owners : List (Option ℕ × List ProtoEvent)) :
    Prop where
  attributed : Attributed e.usedSessionIds out owners
  ids : ∀ id ∈ e.usedSessionIds, id < 2 ^ 32 ∨ id < e.syntheticNext
  next : 2 ^ 32 ≤ e.syntheticNext

namespace Sessions

variable {e e' : PcapEngine} {out : Emitted}
  {owners before after : List (Option ℕ × List ProtoEvent)}
  {items : List ProtoEvent}

theorem same (h : Sessions e out owners) (e' : PcapEngine)
    (hused : e'.usedSessionIds = e.usedSessionIds)
    (hnext : e'.syntheticNext = e.syntheticNext) : Sessions e' out owners :=
  ⟨hused ▸ h.attributed, by rw [hused, hnext]; exact h.ids, hnext ▸ h.next⟩

/-- A fresh id is not in use, whether it is the server's or a synthetic one. -/
theorem fresh (h : Sessions e out owners) (threadId : Option UInt32) :
    (e.freshSessionId threadId).2 ∉ e.usedSessionIds ∧
      (e.freshSessionId threadId).1.usedSessionIds =
        (e.freshSessionId threadId).2 :: e.usedSessionIds ∧
      (∀ id ∈ (e.freshSessionId threadId).1.usedSessionIds,
        id < 2 ^ 32 ∨ id < (e.freshSessionId threadId).1.syntheticNext) ∧
      2 ^ 32 ≤ (e.freshSessionId threadId).1.syntheticNext := by
  have hsynthetic : e.syntheticNext ∉ e.usedSessionIds := by
    intro hmem
    have hnext := h.next
    rcases h.ids _ hmem with hlt | hlt
    · exact absurd hlt (Nat.not_lt.mpr hnext)
    · exact lt_irrefl _ hlt
  have hids : ∀ id ∈ e.syntheticNext :: e.usedSessionIds,
      id < 2 ^ 32 ∨ id < e.syntheticNext + 1 := by
    rintro id (_ | hid)
    · exact .inr (Nat.lt_succ_self _)
    · exact (h.ids id ‹_›).imp_right Nat.lt_succ_of_lt
  have hnext : 2 ^ 32 ≤ e.syntheticNext + 1 := h.next.trans (Nat.le_succ _)
  unfold PcapEngine.freshSessionId
  cases threadId with
  | none => exact ⟨hsynthetic, rfl, hids, hnext⟩
  | some t =>
    dsimp only
    split_ifs with hused
    · exact ⟨hsynthetic, rfl, hids, hnext⟩
    · refine ⟨fun hmem ↦ hused (List.contains_iff_mem.mpr hmem), rfl, ?_, h.next⟩
      exact List.forall_mem_cons.mpr ⟨.inl t.toNat_lt, h.ids⟩

/-- The buffered events are handed out under the id of their connection. -/
theorem drain {c : ConnState} (h : Sessions e out (before ++ (c.sessionId, items) :: after)) :
    Sessions (e.drainEvents c).engine (out ++ (e.drainEvents c).out)
      (before ++ ((e.drainEvents c).conn.sessionId, items ++ e.evbuf) :: after) := by
  unfold PcapEngine.drainEvents
  split_ifs with hempty
  · rw [hempty, List.append_nil, List.append_nil]
    exact h
  · cases hid : c.sessionId with
    | some id =>
      rw [hid] at h
      dsimp only
      rw [hid]
      exact ⟨h.attributed.emit e.evbuf, h.ids, h.next⟩
    | none =>
      rw [hid] at h
      obtain ⟨hfresh, hused, hids, hnext⟩ := h.fresh c.dec.threadId
      refine ⟨?_, hids, hnext⟩
      change Attributed (e.freshSessionId c.dec.threadId).1.usedSessionIds _ _
      rw [hused]
      exact h.attributed.assign hfresh e.evbuf

/-- So are the last events of a connection that ends. -/
theorem finalize {c : ConnState} (h : Sessions e out (before ++ (c.sessionId, items) :: after))
    (hopen : c.finished = false) :
    Sessions (e.finalize c).engine (out ++ (e.finalize c).out)
      (before ++ ((e.finalize c).conn.sessionId, items ++ (e.evbuf ++ c.dec.finish.2)) ::
        after) := by
  have hdrain := drain (e := { e with evbuf := e.evbuf ++ c.dec.finish.2 })
    (c := { c with finished := true, dec := c.dec.finish.1 }) (h.same _ rfl rfl)
  rw [PcapEngine.finalize, if_neg (Bool.eq_false_iff.mp hopen)]
  exact hdrain.same _ rfl rfl

end Sessions

namespace PcapEngine

theorem drainEvents_stats (e : PcapEngine) (c : ConnState) :
    (e.drainEvents c).engine.stats = e.stats := by
  unfold drainEvents freshSessionId
  split_ifs
  · rfl
  · cases c.sessionId with
    | some id => rfl
    | none =>
      cases c.dec.threadId with
      | none => rfl
      | some t =>
        dsimp only
        split_ifs <;> rfl

/-- The state a connection ends in, but for its session id. -/
theorem finalize_core (e : PcapEngine) {c : ConnState} (hopen : c.finished = false) :
    (e.finalize c).conn.core = c.core.flush := by
  obtain ⟨id, hconn⟩ := drainEvents_conn { e with evbuf := e.evbuf ++ c.dec.finish.2 }
    { c with finished := true, dec := c.dec.finish.1 }
  rw [finalize, if_neg (Bool.eq_false_iff.mp hopen)]
  dsimp only
  rw [hconn]
  rfl

/-- The counters of an ended connection are added once. -/
theorem finalize_stats (e : PcapEngine) {c : ConnState} (hopen : c.finished = false) :
    ∃ d lost, (e.finalize c).engine.stats =
      (e.stats.countDisposition d lost).accumulate c.dec.finish.1.stats := by
  obtain ⟨id, hconn⟩ := drainEvents_conn { e with evbuf := e.evbuf ++ c.dec.finish.2 }
    { c with finished := true, dec := c.dec.finish.1 }
  have hstats := drainEvents_stats { e with evbuf := e.evbuf ++ c.dec.finish.2 }
    { c with finished := true, dec := c.dec.finish.1 }
  rw [finalize, if_neg (Bool.eq_false_iff.mp hopen)]
  dsimp only
  rw [hstats, hconn]
  exact ⟨_, _, rfl⟩

end PcapEngine

/-! ## The ledger -/

/-- The session id of a connection and the events it is owed. -/
def owner (x : Connection × ConnState) : Option ℕ × List ProtoEvent := (x.2.sessionId, x.1.events)

/-- The engine's table, counters and session ids are those of its connections. -/
structure Ledger (e : PcapEngine) (out : Emitted) (l : List (Connection × ConnState)) : Prop where
  tracks : Tracks e.conns l
  accounts : Accounts e.stats (l.map Prod.fst)
  sessions : Sessions e out (l.map owner)

/-- A connection behind a segment: `k₁` has one more than `k`, and `c₁` has come from `c`, the
events `evs` being brought out. -/
structure Moved (k k₁ : Connection) (c c₁ : ConnState) (evs : List ProtoEvent) : Prop where
  key : k₁.key = k.key
  live : k₁.live = true
  opened : c₁.finished = false
  sessionId : c₁.sessionId = c.sessionId
  core : c₁.core = (lifeOf k₁.arrivals).1
  events : k₁.events = k.events ++ evs

namespace Ledger

variable {e : PcapEngine} {out : Emitted} {l before after : List (Connection × ConnState)}
  {key : FlowKey} {k k₁ : Connection} {c c₁ : ConnState} {evs : List ProtoEvent} {st : PcapStats}

theorem map_middle {β : Type} (f : Connection × ConnState → β) (x : Connection × ConnState) :
    (before ++ x :: after).map f = before.map f ++ f x :: after.map f := by
  rw [List.map_append, List.map_cons]

theorem same (h : Ledger e out l) (hst : e.stats.Same st) :
    Ledger { e with stats := st } out l :=
  ⟨h.tracks, h.accounts.same hst, h.sessions.same _ rfl rfl⟩

/-- The events of a segment are handed out, and the connection goes on. -/
theorem drain (h : Ledger e out (before ++ (k, c) :: after)) (hk : k.key = key)
    (hlive : k.live = true) (hothers : NoneLive key (before ++ after))
    (hmoved : Moved k k₁ c c₁ evs) (hst : e.stats.Same st) :
    let s := { e with stats := st, evbuf := evs }.drainEvents c₁
    Ledger (s.engine.insert key s.conn) (out ++ s.out) (before ++ (k₁, s.conn) :: after) := by
  intro s
  obtain ⟨id, hconn⟩ := PcapEngine.drainEvents_conn { e with stats := st, evbuf := evs } c₁
  have hemptied := PcapEngine.drainEvents_emptied { e with stats := st, evbuf := evs } c₁
  constructor
  · change Tracks (Function.update s.engine.conns key (some s.conn)) _
    rw [hemptied.conns]
    refine h.tracks.replace hk hothers (hmoved.key.trans hk)
      (fun _ ↦ ⟨rfl, ?_⟩) (fun hended ↦ ?_) ?_
    · rw [hconn]
      exact hmoved.opened
    · rw [hmoved.live] at hended
      cases hended
    · rw [hconn, hmoved.live, if_pos rfl]
      exact hmoved.core
  · change Accounts s.engine.stats _
    rw [PcapEngine.drainEvents_stats, map_middle]
    have haccounts := h.accounts.same hst
    rw [map_middle] at haccounts
    exact haccounts.replace hlive hmoved.live
  · have hsessions := h.sessions
    rw [map_middle, owner, ← hmoved.sessionId] at hsessions
    have hdrain := (hsessions.same { e with stats := st, evbuf := evs } rfl rfl).drain
    rw [map_middle, owner, hmoved.events]
    exact hdrain.same _ rfl rfl

/-- A connection ends, with a segment or without, and its table entry goes or becomes a
tombstone. -/
theorem finalize (h : Ledger e out (before ++ (k, c) :: after)) (hk : k.key = key)
    (hlive : k.live = true) (hothers : NoneLive key (before ++ after))
    (hmoved : Moved k k₁ c c₁ evs) (hst : e.stats.Same st) (conns : FlowKey → Option ConnState)
    {o : Option ConnState} (ho : ∀ c'', o = some c'' → c''.finished = true) :
    let s := { e with stats := st, evbuf := evs, conns := conns }.finalize c₁
    Ledger { s.engine with conns := Function.update e.conns key o } (out ++ s.out)
      (before ++ ({ k₁ with live := false }, s.conn) :: after) := by
  intro s
  have hdec : c₁.core.dec = (lifeOf k₁.arrivals).1.dec := congrArg ConnState.dec hmoved.core
  change c₁.dec = _ at hdec
  obtain ⟨d, lost, hstats⟩ := PcapEngine.finalize_stats
    { e with stats := st, evbuf := evs, conns := conns } hmoved.opened
  constructor
  · -- the table: the connection has seen its arrivals and is flushed
    have hlife : s.conn.core = (lifeOf k₁.arrivals).1.flush := by
      rw [PcapEngine.finalize_core _ hmoved.opened, hmoved.core]
    have htracks : Tracks (Function.update e.conns key o)
        (before ++ ({ k₁ with live := false }, s.conn) :: after) := by
      apply h.tracks.replace hk hothers
      · exact hmoved.key.trans hk
      · intro hl
        cases hl
      · exact fun _ ↦ ho
      · exact hlife
    exact htracks
  · -- the counters
    change Accounts s.engine.stats _
    rw [hstats, map_middle, hdec]
    have haccounts := h.accounts.same hst
    rw [map_middle] at haccounts
    have hclosed : Accounts _ (before.map Prod.fst ++ { k₁ with live := false } ::
        after.map Prod.fst) := haccounts.close hlive rfl d lost
    exact hclosed
  · -- the sink: what was buffered and what the flush adds belong to the connection
    have hsessions := h.sessions
    rw [map_middle, owner, ← hmoved.sessionId] at hsessions
    have hfinalize := (hsessions.same
      { e with stats := st, evbuf := evs, conns := conns } rfl rfl).finalize hmoved.opened
    have hevents : ({ k₁ with live := false } : Connection).events =
        k.events ++ (evs ++ c₁.dec.finish.2) := by
      have hk₁ := hmoved.events
      rw [Connection.events, hmoved.live, if_pos rfl, List.append_nil] at hk₁
      rw [Connection.events, if_neg Bool.false_ne_true, hk₁, hdec, List.append_assoc]
    rw [map_middle, owner, hevents]
    exact hfinalize.same _ rfl rfl

/-- A connection begins. -/
theorem add (h : Ledger e out l) (hkey : e.conns key = none) :
    Ledger ({ e with stats.connections := e.stats.connections + 1 }.insert key .new) out
      (l ++ [(⟨key, [], true⟩, .new)]) := by
  refine ⟨h.tracks.add hkey, ?_, ?_⟩
  · rw [List.map_append]
    exact h.accounts.add key
  · rw [List.map_append]
    exact ⟨h.sessions.attributed.add, h.sessions.ids, h.sessions.next⟩

end Ledger

/-! ## A frame -/

/-- What a segment leaves as it was. -/
theorem ConnState.process_frame (c : ConnState) (a : Arrival) :
    (c.process a).1.sessionId = c.sessionId ∧ (c.process a).1.finished = c.finished := by
  unfold process onSyn deliver onFin
  cases a.dir <;> dsimp only <;> split_ifs <;> exact ⟨rfl, rfl⟩

namespace PcapEngine

/-- Handing out events does not look at the table. -/
theorem drainEvents_conns (e : PcapEngine) (conns : FlowKey → Option ConnState) (c : ConnState) :
    { e with conns := conns }.drainEvents c =
      ⟨{ (e.drainEvents c).engine with conns := conns }, (e.drainEvents c).conn,
        (e.drainEvents c).out⟩ := by
  unfold drainEvents freshSessionId
  dsimp only
  split_ifs
  · rfl
  · cases c.sessionId with
    | some id => rfl
    | none =>
      cases c.dec.threadId with
      | none => rfl
      | some t =>
        dsimp only
        split_ifs <;> rfl

theorem finalize_conns (e : PcapEngine) (conns : FlowKey → Option ConnState) (c : ConnState) :
    { e with conns := conns }.finalize c =
      ⟨{ (e.finalize c).engine with conns := conns }, (e.finalize c).conn, (e.finalize c).out⟩ := by
  unfold finalize
  split_ifs
  · rfl
  · dsimp only
    rw [drainEvents_conns { e with evbuf := e.evbuf ++ c.dec.finish.2 } conns]

theorem insert_conns (e : PcapEngine) (key : FlowKey) (c : ConnState) :
    (e.insert key c).conns = Function.update e.conns key (some c) := rfl

theorem insert_of_conns {e : PcapEngine} {conns : FlowKey → Option ConnState} {key : FlowKey}
    {c : ConnState} (h : e.conns = conns) :
    e.insert key c = { e with conns := Function.update conns key (some c) } := by
  rw [← h]
  rfl

/-- Reusing a port pair does nothing, or finalizes the connection of the table. -/
theorem reusePort_cases (e : PcapEngine) (key : FlowKey) (dir : Dir) (seg : TcpSegment) :
    e.reusePort key dir seg = (e, []) ∨ ∃ old, e.conns key = some old ∧
      e.reusePort key dir seg =
        (((e.remove key).finalize old).engine, ((e.remove key).finalize old).out) := by
  unfold reusePort
  split_ifs
  · cases hkey : e.conns key with
    | none => exact .inl rfl
    | some old =>
      dsimp only
      split_ifs
      · exact .inl rfl
      · exact .inr ⟨old, rfl, rfl⟩
  · exact .inl rfl

/-- What recording the version changes. -/
theorem recordVersion_shape (e : PcapEngine) (c : ConnState) :
    ∃ st recorded, e.recordVersion c =
      ({ e with stats := st }, { c with versionRecorded := recorded }) ∧ e.stats.Same st := by
  unfold recordVersion
  split_ifs
  · exact ⟨e.stats, c.versionRecorded, rfl, rfl, rfl, fun _ ↦ rfl⟩
  · cases c.dec.serverVersion with
    | none => exact ⟨e.stats, c.versionRecorded, rfl, rfl, rfl, fun _ ↦ rfl⟩
    | some v => exact ⟨_, true, rfl, e.stats.same_recordVersion v⟩

/-- A segment of a live connection: the connection as the segment leaves it, and its events handed
out, with those of the flush when it ends. -/
theorem onConnSegment_cases (e : PcapEngine) (key : FlowKey) (c : ConnState) (a : Arrival) :
    ∃ st c₁ s, e.stats.Same st ∧ c₁.core = (c.process a).1.core ∧ c₁.sessionId = c.sessionId ∧
      c₁.finished = c.finished ∧
      e.onConnSegment key c a.dir a.tsMicros a.seg = (s.engine.insert key s.conn, s.out) ∧
      (s = { e with stats := st, evbuf := e.evbuf ++ (c.process a).2 }.finalize c₁ ∨
        s = { e with stats := st, evbuf := e.evbuf ++ (c.process a).2 }.drainEvents c₁) := by
  obtain ⟨st, recorded, hrecord, hsame⟩ := recordVersion_shape
    { e with evbuf := e.evbuf ++ (c.process a).2 }
    ((c.onSyn a.dir a.seg).deliver a.dir a.tsMicros a.seg).1
  have hfin (d : ConnState) : ({ d with versionRecorded := recorded }).onFin a.dir a.seg =
      { d.onFin a.dir a.seg with versionRecorded := recorded } := by
    cases a.dir <;> rfl
  refine ⟨st, { (c.process a).1 with versionRecorded := recorded }, _, hsame, rfl,
    (c.process_frame a).1, (c.process_frame a).2, rfl, ?_⟩
  unfold ConnState.process at hrecord ⊢
  rw [hrecord, hfin]
  split_ifs
  · exact .inl rfl
  · exact .inr rfl

end PcapEngine

namespace Ledger

variable {e : PcapEngine} {out : Emitted} {l before after : List (Connection × ConnState)}
  {key : FlowKey} {k : Connection} {c : ConnState}

theorem close_middle (hk : k.key = key) (hothers : NoneLive key (before ++ after)) :
    ((before ++ (k, c) :: after).map Prod.fst).map (.close key) =
      before.map Prod.fst ++ { k with live := false } :: after.map Prod.fst := by
  have hbefore : NoneLive key before := fun x hx ↦ hothers x (List.mem_append_left after hx)
  have hafter : NoneLive key after := fun x hx ↦ hothers x (List.mem_append_right before hx)
  rw [map_middle, List.map_append, List.map_cons, hbefore.map_close, hafter.map_close,
    Connection.close, if_pos hk]

theorem extend_middle (hk : k.key = key) (hlive : k.live = true)
    (hothers : NoneLive key (before ++ after)) (a : Arrival) :
    ((before ++ (k, c) :: after).map Prod.fst).map (.extend key a) =
      before.map Prod.fst ++ { k with arrivals := k.arrivals ++ [a] } :: after.map Prod.fst := by
  have hbefore : NoneLive key before := fun x hx ↦ hothers x (List.mem_append_left after hx)
  have hafter : NoneLive key after := fun x hx ↦ hothers x (List.mem_append_right before hx)
  rw [map_middle, List.map_append, List.map_cons, hbefore.map_extend, hafter.map_extend,
    Connection.extend, if_pos ⟨hk, hlive⟩]

/-- The connection under a key is taken out of the table and ends. -/
theorem removed (h : Ledger e out l) (hevbuf : e.evbuf = []) {old : ConnState}
    (hkey : e.conns key = some old) :
    ∃ l', Ledger ((e.remove key).finalize old).engine (out ++ ((e.remove key).finalize old).out)
        l' ∧
      l'.map Prod.fst = (l.map Prod.fst).map (.close key) ∧
      ((e.remove key).finalize old).engine.conns = Function.update e.conns key none := by
  have hconns : ((e.remove key).finalize old).engine.conns =
      Function.update e.conns key none := by
    rw [PcapEngine.remove, PcapEngine.finalize_conns]
  have hnone (c : ConnState) (hc : (none : Option ConnState) = some c) : c.finished = true := by
    cases hc
  by_cases hopen : old.finished = true
  · -- a tombstone: its connection has ended before
    have hfinalize : (e.remove key).finalize old = ⟨e.remove key, old, []⟩ := by
      rw [PcapEngine.finalize, if_pos hopen]
    have hold (c : ConnState) (hc : e.conns key = some c) : c.finished = true :=
      Option.some.inj (hkey.symm.trans hc) ▸ hopen
    rw [hfinalize]
    refine ⟨l, ⟨h.tracks.of_finished hold hnone, h.accounts, ?_⟩, ?_, rfl⟩
    · rw [List.append_nil]
      exact h.sessions.same _ rfl rfl
    · exact (NoneLive.map_close (h.tracks.noneLive hold)).symm
  · have hopen := Bool.eq_false_iff.mpr hopen
    obtain ⟨before, k, after, rfl, hk, hlive, hothers⟩ := h.tracks.split hkey hopen
    have hlife := h.tracks.life _ (List.mem_append_right before List.mem_cons_self)
    rw [hlive, if_pos rfl] at hlife
    have hmoved : Moved k k old old e.evbuf :=
      ⟨rfl, hlive, hopen, rfl, hlife, by rw [hevbuf, List.append_nil]⟩
    have hended := h.finalize hk hlive hothers hmoved ⟨rfl, rfl, fun _ ↦ rfl⟩
      (Function.update e.conns key none) hnone
    refine ⟨before ++ ({ k with live := false }, ((e.remove key).finalize old).conn) :: after,
      ?_, ?_, hconns⟩
    · have hengine : { ((e.remove key).finalize old).engine with
          conns := Function.update e.conns key none } =
          ((e.remove key).finalize old).engine := by rw [← hconns]
      rw [← hengine]
      exact hended
    · rw [map_middle, close_middle hk hothers]

/-- The predecessor under a port pair that is reused ends. -/
theorem reusePort (h : Ledger e out l) (hevbuf : e.evbuf = []) (key : FlowKey) (dir : Dir)
    (seg : TcpSegment) :
    ∃ l', Ledger (e.reusePort key dir seg).1 (out ++ (e.reusePort key dir seg).2) l' ∧
      l'.map Prod.fst =
        if ((e.reusePort key dir seg).1.conns key).isNone then (l.map Prod.fst).map (.close key)
        else l.map Prod.fst := by
  rcases e.reusePort_cases key dir seg with heq | ⟨old, hkey, heq⟩ <;> rw [heq]
  · refine ⟨l, by rwa [List.append_nil], ?_⟩
    by_cases hnone : (e.conns key).isNone = true
    · rw [if_pos hnone]
      refine (NoneLive.map_close (h.tracks.noneLive fun c hc ↦ ?_)).symm
      rw [hc] at hnone
      cases hnone
    · rw [if_neg hnone]
  · obtain ⟨l', hl', hfst, hconns⟩ := h.removed hevbuf hkey
    refine ⟨l', hl', ?_⟩
    rw [hconns, Function.update_self, Option.isNone_none, if_pos rfl]
    exact hfst

/-- A segment reaches the connection of its key. -/
theorem onConnSegment (h : Ledger (e.insert key c) out l) (hevbuf : e.evbuf = [])
    (hopen : c.finished = false) (a : Arrival) :
    ∃ l' c', Ledger (e.onConnSegment key c a.dir a.tsMicros a.seg).1
        (out ++ (e.onConnSegment key c a.dir a.tsMicros a.seg).2) l' ∧
      (e.onConnSegment key c a.dir a.tsMicros a.seg).1.conns key = some c' ∧
      l'.map Prod.fst =
        if c'.finished then ((l.map Prod.fst).map (.extend key a)).map (.close key)
        else (l.map Prod.fst).map (.extend key a) := by
  obtain ⟨before, k, after, rfl, hk, hlive, hothers⟩ :=
    h.tracks.split (Function.update_self _ _ _) hopen
  have hlife := h.tracks.life _ (List.mem_append_right before List.mem_cons_self)
  rw [hlive, if_pos rfl] at hlife
  obtain ⟨hcore, hevents⟩ := c.process_core a
  obtain ⟨st, c₁, s, hsame, hcore₁, hid, hfinished, hsegment, hs⟩ := e.onConnSegment_cases key c a
  have hmoved : Moved k { k with arrivals := k.arrivals ++ [a] } c c₁ (c.process a).2 := by
    refine ⟨rfl, hlive, hfinished.trans hopen, hid, ?_, ?_⟩
    · rw [hcore₁, hcore, hlife, lifeOf_append]
    · rw [Connection.events, Connection.events, hlive, if_pos rfl, if_pos rfl, List.append_nil,
        List.append_nil, lifeOf_append, hevents, hlife]
  rw [hevbuf, List.nil_append] at hs
  rw [hsegment]
  have hextend := extend_middle (c := c) hk hlive hothers a
  set e₁ : PcapEngine := { e with stats := st, evbuf := (c.process a).2 } with he₁
  rcases hs with rfl | rfl
  · -- the segment ends the connection, which leaves a tombstone
    have hconns := (PcapEngine.finalize_emptied (e := e₁) hmoved.opened).conns
    have htombstone := e₁.finalize_finished c₁
    have hended := h.finalize hk hlive hothers hmoved hsame e.conns
      (o := some (e₁.finalize c₁).conn) fun c'' hc'' ↦ Option.some.inj hc'' ▸ htombstone
    refine ⟨before ++ ({ k with arrivals := k.arrivals ++ [a], live := false },
      (e₁.finalize c₁).conn) :: after, _, ?_, Function.update_self _ _ _, ?_⟩
    · rw [PcapEngine.insert_of_conns hconns]
      rw [PcapEngine.insert_conns, Function.update_idem] at hended
      exact hended
    · rw [if_pos htombstone, hextend, ← map_middle Prod.fst (_, c),
        close_middle (hmoved.key.trans hk) hothers, map_middle]
  · -- the connection goes on
    have hconns := (e₁.drainEvents_emptied c₁).conns
    have hgoes := h.drain hk hlive hothers hmoved hsame
    obtain ⟨id, hconn⟩ := e₁.drainEvents_conn c₁
    have hopened : (e₁.drainEvents c₁).conn.finished = false := by
      rw [hconn]
      exact hmoved.opened
    refine ⟨before ++ ({ k with arrivals := k.arrivals ++ [a] }, (e₁.drainEvents c₁).conn) :: after,
      _, ?_, Function.update_self _ _ _, ?_⟩
    · have hdrain : { e.insert key c with stats := st, evbuf := (c.process a).2 }.drainEvents c₁ =
          ⟨{ (e₁.drainEvents c₁).engine with conns := (e.insert key c).conns },
            (e₁.drainEvents c₁).conn, (e₁.drainEvents c₁).out⟩ :=
        e₁.drainEvents_conns (e.insert key c).conns c₁
      rw [hdrain] at hgoes
      dsimp only at hgoes
      rw [PcapEngine.insert_of_conns rfl, PcapEngine.insert_conns,
        Function.update_idem] at hgoes
      rw [PcapEngine.insert_of_conns hconns]
      exact hgoes
    · rw [hopened, if_neg Bool.false_ne_true, hextend, map_middle]

/-- A segment on the server's port. -/
theorem onSegment (h : Ledger e out l) (hs : e.Settles) (key : FlowKey) (a : Arrival)
    (truncated : Bool) :
    let r := { e with stats := e.stats.countPacket truncated }.reusePort key a.dir a.seg
    let s := e.onSegment key a.dir a.tsMicros truncated a.seg
    let cs := if (r.1.conns key).isNone then (l.map Prod.fst).map (.close key) ++ [⟨key, [], true⟩]
      else l.map Prod.fst
    ∃ l', Ledger s.1 (out ++ s.2) l' ∧ l'.map Prod.fst =
      if (r.1.entry key).2.finished then cs
      else
        match s.1.conns key with
        | some c => if c.finished then (cs.map (.extend key a)).map (.close key)
          else cs.map (.extend key a)
        | none => cs.map (.extend key a) := by
  intro r s cs
  have hsettles : r.1.Settles := (hs.withStats (e.stats.countPacket truncated)).reusePort key a.dir
    a.seg
  obtain ⟨l₁, hl₁, hfst⟩ := (h.same (e.stats.same_countPacket truncated)).reusePort hs.evbuf
    key a.dir a.seg
  change Ledger r.1 (out ++ r.2) l₁ at hl₁
  -- the connection the segment belongs to stands in the table
  obtain ⟨l₂, hl₂, hfst₂, hevbuf⟩ : ∃ l₂, Ledger ((r.1.entry key).1.insert key (r.1.entry key).2)
      (out ++ r.2) l₂ ∧ l₂.map Prod.fst = cs ∧ (r.1.entry key).1.evbuf = [] := by
    cases hkey : r.1.conns key with
    | none =>
      have hentry : r.1.entry key =
          ({ r.1 with stats.connections := r.1.stats.connections + 1 }, .new) := by
        rw [PcapEngine.entry, hkey]
      rw [hentry]
      refine ⟨_, hl₁.add hkey, ?_, hsettles.evbuf⟩
      rw [List.map_append, hfst, hkey]
      exact (if_pos (by rw [hkey]; rfl)).symm
    | some c =>
      have hentry : r.1.entry key = (r.1, c) := by
        rw [PcapEngine.entry, hkey]
      have hinsert : r.1.insert key c = r.1 := by
        rw [PcapEngine.insert, ← hkey, Function.update_eq_self]
      rw [hentry, hinsert]
      refine ⟨_, hl₁, ?_, hsettles.evbuf⟩
      rw [hfst, hkey]
      exact (if_neg (by rw [hkey]; exact Bool.false_ne_true)).symm
  by_cases hfinished : (r.1.entry key).2.finished = true
  · have hs' : s = ((r.1.entry key).1.insert key (r.1.entry key).2, r.2) := if_pos hfinished
    rw [if_pos hfinished, hs']
    exact ⟨l₂, hl₂, hfst₂⟩
  · have hs' : s = (((r.1.entry key).1.onConnSegment key (r.1.entry key).2 a.dir a.tsMicros
        a.seg).1, r.2 ++ ((r.1.entry key).1.onConnSegment key (r.1.entry key).2 a.dir a.tsMicros
        a.seg).2) := if_neg hfinished
    obtain ⟨l₃, c', hl₃, hkey', hfst₃⟩ := hl₂.onConnSegment hevbuf
      (Bool.eq_false_iff.mpr hfinished) a
    rw [if_neg hfinished, hs']
    refine ⟨l₃, ?_, ?_⟩
    · rw [← List.append_assoc]
      exact hl₃
    · dsimp only
      rw [hkey', hfst₃, hfst₂]

/-- A frame. -/
theorem onPacket (h : Ledger e out l) (hs : e.Settles) (p : Packet) :
    ∃ l', Ledger (e.onPacket p).1 (out ++ (e.onPacket p).2) l' ∧
      l'.map Prod.fst = e.track (l.map Prod.fst) p := by
  have hsame (st : PcapStats) (hst : e.stats.Same st) :
      Ledger { e with stats := st } (out ++ []) l := by
    rw [List.append_nil]
    exact h.same hst
  have hskip : Ledger e (out ++ []) l := hsame e.stats ⟨rfl, rfl, fun _ ↦ rfl⟩
  unfold PcapEngine.track PcapEngine.arrival
  unfold PcapEngine.onPacket
  cases hlink : stripLink p.linktype p.frame with
  | none => exact ⟨l, hskip, rfl⟩
  | some ip =>
    dsimp only
    rw [Option.bind_some]
    cases hparse : parseIpTcp ip with
    | none =>
      refine ⟨l, ?_, rfl⟩
      dsimp only
      split_ifs
      · exact hsame _ ⟨rfl, rfl, fun k ↦ by cases k <;> rfl⟩
      · exact hskip
    | some seg =>
      dsimp only
      cases hclass : PcapEngine.classifySegment e.port seg with
      | none => exact ⟨l, hskip, rfl⟩
      | some kd =>
        obtain ⟨l', hl', hfst⟩ := h.onSegment hs kd.1 ⟨kd.2, p.tsMicros, seg⟩ p.truncated
        exact ⟨l', hl', hfst⟩

/-- The frames of a capture. -/
theorem run (h : Ledger e out l) (hs : e.Settles) (ps : List Packet) :
    ∃ l', Ledger (e.run ps).1 (out ++ (e.run ps).2) l' ∧
      l'.map Prod.fst = e.trackAll (l.map Prod.fst) ps := by
  induction ps generalizing e out l with
  | nil => exact ⟨l, by rwa [PcapEngine.run, List.append_nil], rfl⟩
  | cons p ps ih =>
    obtain ⟨l₁, hl₁, hfst₁⟩ := h.onPacket hs p
    obtain ⟨l₂, hl₂, hfst₂⟩ := ih hl₁ (hs.onPacket p)
    refine ⟨l₂, ?_, ?_⟩
    · rw [List.append_assoc] at hl₂
      exact hl₂
    · rw [hfst₂, hfst₁]
      rfl

/-- The end of the capture: no connection is live any more. -/
theorem finish (h : Ledger e out l) (hs : e.Settles) {keys : List FlowKey}
    (hkeys : ∀ key, (e.conns key).isSome → key ∈ keys) :
    ∃ l', Ledger (e.finish keys).1 (out ++ (e.finish keys).2) l' ∧
      l'.map Prod.fst = (l.map Prod.fst).map .ended := by
  induction keys generalizing e out l with
  | nil =>
    -- every live connection has its entry under one of the keys
    have hnone : ∀ x ∈ l, x.1.live = false := by
      intro x hx
      by_contra hlive
      have hconns := (h.tracks.live x hx (Bool.not_eq_false _ ▸ hlive)).1
      have hmem := hkeys x.1.key (hconns ▸ rfl)
      cases hmem
    refine ⟨l, by rwa [PcapEngine.finish, List.append_nil], ?_⟩
    rw [List.map_map]
    refine List.map_congr_left fun x hx ↦ ?_
    rw [Function.comp_apply, Connection.ended, ← hnone x hx]
  | cons key keys ih =>
    cases hkey : e.conns key with
    | none =>
      rw [PcapEngine.finish, hkey]
      refine ih h hs fun key' hkey' ↦ ?_
      rcases List.mem_cons.mp (hkeys key' hkey') with rfl | hmem
      · rw [hkey] at hkey'
        cases hkey'
      · exact hmem
    | some c =>
      rw [PcapEngine.finish, hkey]
      obtain ⟨l₁, hl₁, hfst₁, hconns⟩ := h.removed hs.evbuf hkey
      obtain ⟨l₂, hl₂, hfst₂⟩ := ih hl₁ ((hs.remove key).finalize c) fun key' hkey' ↦ by
        rw [hconns] at hkey'
        by_cases hne : key' = key
        · rw [hne, Function.update_self] at hkey'
          cases hkey'
        · rw [Function.update_of_ne hne] at hkey'
          exact (List.mem_cons.mp (hkeys key' hkey')).resolve_left hne
      refine ⟨l₂, ?_, ?_⟩
      · rw [List.append_assoc] at hl₂
        exact hl₂
      · rw [hfst₂, hfst₁, List.map_map]
        refine List.map_congr_left fun k _ ↦ ?_
        rw [Function.comp_apply, Connection.close, Connection.ended, Connection.ended]
        split_ifs <;> rfl

theorem new (port : ℕ) : Ledger (.new port) [] [] := by
  constructor
  · constructor
    · intro x hx
      cases hx
    · intro key c hkey
      cases hkey
    · exact .nil
    · intro x hx
      cases hx
  · exact ⟨rfl, rfl, fun k ↦ by cases k <;> rfl⟩
  · refine ⟨.nil, fun id hid ↦ ?_, ?_⟩
    · cases hid
    · exact Nat.pow_le_pow_right Nat.zero_lt_two (by omega)

end Ledger

/-! ## A capture -/

namespace PcapEngine

/-- A frame changes the table under its own key only. -/
theorem onSegment_conns (e : PcapEngine) {key key' : FlowKey} (hne : key' ≠ key) (dir : Dir)
    (tsMicros : ℤ) (truncated : Bool) (seg : TcpSegment) :
    (e.onSegment key dir tsMicros truncated seg).1.conns key' = e.conns key' := by
  unfold onSegment
  dsimp only
  generalize hr : { e with stats := e.stats.countPacket truncated }.reusePort key dir seg = r
  have hreuse : r.1.conns key' = e.conns key' := by
    rcases reusePort_cases { e with stats := e.stats.countPacket truncated } key dir seg with
      heq | ⟨old, hkey, heq⟩
    · rw [← hr, heq]
    · rw [← hr, heq, remove, finalize_conns]
      exact Function.update_of_ne hne _ _
  have hentry : (r.1.entry key).1.conns = r.1.conns := by
    unfold entry
    cases r.1.conns key <;> rfl
  split_ifs with hfinished
  · refine Eq.trans (Function.update_of_ne hne _ _) ?_
    rw [hentry, hreuse]
  · obtain ⟨st, c₁, s, -, -, -, hopen, heq, hs⟩ := (r.1.entry key).1.onConnSegment_cases key
      (r.1.entry key).2 ⟨dir, tsMicros, seg⟩
    have hopen := hopen.trans (Bool.eq_false_iff.mpr hfinished)
    have hconns : s.engine.conns = (r.1.entry key).1.conns := by
      rcases hs with rfl | rfl
      · exact (finalize_emptied hopen).conns
      · exact (drainEvents_emptied _ _).conns
    dsimp only at heq ⊢
    rw [heq]
    refine Eq.trans (Function.update_of_ne hne _ _) ?_
    rw [hconns, hentry, hreuse]

theorem onPacket_of_arrival {e : PcapEngine} {p : Packet} {key : FlowKey} {a : Arrival}
    (h : arrival e.port p = some (key, a)) :
    e.onPacket p = e.onSegment key a.dir a.tsMicros p.truncated a.seg := by
  unfold arrival at h
  unfold onPacket
  cases hlink : stripLink p.linktype p.frame with
  | none =>
    rw [hlink] at h
    cases h
  | some ip =>
    rw [hlink, Option.bind_some] at h
    dsimp only
    cases hparse : parseIpTcp ip with
    | none =>
      rw [hparse] at h
      cases h
    | some seg =>
      rw [hparse] at h
      dsimp only at h ⊢
      obtain ⟨kd, hclass, heq⟩ := Option.map_eq_some_iff.mp h
      rw [hclass]
      cases heq
      rfl

/-- A frame of no connection is counted at most. -/
theorem onPacket_of_no_arrival {e : PcapEngine} {p : Packet} (h : arrival e.port p = none) :
    (e.onPacket p).1.conns = e.conns := by
  unfold arrival at h
  unfold onPacket
  cases hlink : stripLink p.linktype p.frame with
  | none => rfl
  | some ip =>
    rw [hlink, Option.bind_some] at h
    dsimp only
    cases hparse : parseIpTcp ip with
    | none =>
      dsimp only
      split_ifs <;> rfl
    | some seg =>
      rw [hparse] at h
      dsimp only at h ⊢
      rw [Option.map_eq_none_iff.mp h]

/-- The keys of a capture's frames. -/
def keysOf (port : ℕ) (ps : List Packet) : List FlowKey :=
  ps.filterMap fun p ↦ (arrival port p).map Prod.fst

/-- The connections of the table are those of the frames. -/
theorem run_conns (e : PcapEngine) (ps : List Packet) (key : FlowKey) :
    ((e.run ps).1.conns key).isSome → (e.conns key).isSome ∨ key ∈ keysOf e.port ps := by
  induction ps generalizing e with
  | nil => exact .inl
  | cons p ps ih =>
    intro hsome
    rw [keysOf, List.filterMap_cons]
    have hport := onPacket_port e p
    rcases ih _ hsome with hconns | hmem
    · cases harrival : arrival e.port p with
      | none =>
        rw [onPacket_of_no_arrival harrival] at hconns
        exact .inl hconns
      | some ka =>
        by_cases hne : key = ka.1
        · exact .inr (hne ▸ List.mem_cons_self)
        · rw [onPacket_of_arrival harrival, onSegment_conns e hne] at hconns
          exact .inl hconns
    · rw [hport] at hmem
      right
      cases (arrival e.port p).map Prod.fst with
      | none => exact hmem
      | some key' => exact List.mem_cons_of_mem key' hmem

/-- A later frame of a connection that has ended is counted as a packet, and no more: it does not
open a connection, and no event and no counter comes of it. -/
theorem onPacket_of_finished {e : PcapEngine} {p : Packet} {key : FlowKey} {a : Arrival}
    {c : ConnState} (hp : arrival e.port p = some (key, a)) (hkey : e.conns key = some c)
    (hfinished : c.finished = true)
    (hreuse : (a.seg.syn && !a.seg.ack && a.dir == .client) = false) :
    e.onPacket p = ({ e with stats := e.stats.countPacket p.truncated }, []) := by
  have hinsert : { e with stats := e.stats.countPacket p.truncated }.insert key c =
      { e with stats := e.stats.countPacket p.truncated } := by
    rw [insert, ← hkey, Function.update_eq_self]
  rw [onPacket_of_arrival hp, onSegment, reusePort, hreuse, if_neg Bool.false_ne_true]
  dsimp only
  rw [entry, hkey, if_pos hfinished, hinsert]

/-- At the end of a capture, whatever its frames, each connection it ever began is counted and is in
one class, and the counters of its decoder, fed the segments of its life and flushed, are added
once. A frame of a connection that has ended adds to none of them.

`keys` are the keys of the table, in the order in which `finish` is handed them. -/
theorem balance (port : ℕ) (ps : List Packet) (keys : List FlowKey)
    (hkeys : ∀ key, (((new port).run ps).1.conns key).isSome → key ∈ keys) :
    Balanced (((new port).run ps).1.finish keys).1.stats (connections port ps) ∧
      ∀ before p key a c, arrival port p = some (key, a) →
        ((new port).run before).1.conns key = some c → c.finished = true →
        (a.seg.syn && !a.seg.ack && a.dir == .client) = false →
        (((new port).run before).1.onPacket p).1.stats =
          ((new port).run before).1.stats.countPacket p.truncated := by
  constructor
  · obtain ⟨l, hl, hfst⟩ := (Ledger.new port).run (new_settles port) ps
    obtain ⟨l', hl', hfst'⟩ := hl.finish ((new_settles port).run ps) hkeys
    have haccounts := hl'.accounts
    rw [hfst', hfst] at haccounts
    exact haccounts.balanced
  · intro before p key a c hp hkey hfinished hreuse
    rw [onPacket_of_finished (by rwa [run_port]) hkey hfinished hreuse]

/-- The table can be listed: by the keys of the frames. -/
theorem mem_keysOf {port : ℕ} (ps : List Packet) (key : FlowKey) :
    (((new port).run ps).1.conns key).isSome → key ∈ keysOf port ps :=
  fun h ↦ (run_conns _ _ key h).resolve_left Bool.false_ne_true

/-- A connection with one query, from its SYN to the response. -/
def conversation (client : Endpoint) : List Packet :=
  [rawPacket 1 client serverHost 0 0x02 [], rawPacket 2 serverHost client 1000 0x12 [],
    rawPacket 3 serverHost client 1001 0x10 (handshakeBytes .server),
    rawPacket 4 client serverHost 1 0x10 (handshakeBytes .client),
    rawPacket 6 client serverHost 42 0x10 (encodePacket 0 (COM_QUERY :: ascii "SELECT 1")),
    rawPacket 7 serverHost client 1041 0x10 (encodePacket 1 [0, 0, 0])]

/-- Two connections at a time, whose greetings have the same thread id, and then one more between
the hosts and ports of the first, which was reset. -/
def reusedPorts : List Packet :=
  ((conversation clientHost).zip (conversation ⟨clientHost.addr, 50001⟩)).flatMap
      (fun x ↦ [x.1, x.2]) ++
    rawPacket 8 clientHost serverHost 55 0x04 [] :: conversation clientHost

/-- The balance of three connections. -/
theorem balance_reusedPorts :
    (connections 3306 reusedPorts).length = 3 ∧
      Balanced (((new 3306).run reusedPorts).1.finish (keysOf 3306 reusedPorts)).1.stats
        (connections 3306 reusedPorts) :=
  ⟨by decide +kernel, (balance 3306 reusedPorts _ (mem_keysOf _)).1⟩

/-- Over a capture and its end, each connection has a session id, if it has any event, which no
other connection has. Under that id the sink is handed the events of the connection's decoder, all
of them and in order, and nothing else; and no event is left in the buffer by any frame. -/
theorem attribution (port : ℕ) (ps : List Packet) (keys : List FlowKey)
    (hkeys : ∀ key, (((new port).run ps).1.conns key).isSome → key ∈ keys) :
    let e := ((new port).run ps).1
    let out := ((new port).run ps).2 ++ (e.finish keys).2
    e.evbuf = [] ∧ (e.finish keys).1.evbuf = [] ∧
      ∃ owners : List (Option ℕ × List ProtoEvent),
        owners.map Prod.snd = (connections port ps).map (·.ended.events) ∧
        (owners.filterMap Prod.fst).Nodup ∧ (∀ o ∈ owners, Owns out o) ∧
        ∀ x ∈ out, ∃ o ∈ owners, o.1 = some x.1 ∧ x.2 ∈ o.2 := by
  intro e out
  have hsettles : e.Settles := (new_settles port).run ps
  obtain ⟨l, hl, hfst⟩ := (Ledger.new port).run (new_settles port) ps
  obtain ⟨l', hl', hfst'⟩ := hl.finish hsettles hkeys
  have hattributed : Attributed _ out (l'.map owner) := hl'.sessions.attributed
  refine ⟨hsettles.evbuf, (hsettles.finish keys).evbuf, l'.map owner, ?_, hattributed.nodup_ids,
    hattributed.owns, fun x hx ↦ ?_⟩
  · have hevents := congrArg (List.map Connection.events) hfst'
    rw [hfst] at hevents
    rw [List.map_map] at hevents ⊢
    rw [List.map_map] at hevents
    exact hevents
  · obtain ⟨o, ho, hid⟩ := hattributed.exists_owner hx
    exact ⟨o, ho, hid, (hattributed.owns o ho).mem hid hx⟩

/-- The attribution of three connections, which have a query each. -/
theorem attribution_reusedPorts :
    let e := ((new 3306).run reusedPorts).1
    ∃ owners : List (Option ℕ × List ProtoEvent),
      owners.map (List.map ProtoEvent.query ∘ Prod.snd) = List.replicate 3 [ascii "SELECT 1"] ∧
      (owners.filterMap Prod.fst).Nodup ∧
      ∀ o ∈ owners,
        Owns (((new 3306).run reusedPorts).2 ++ (e.finish (keysOf 3306 reusedPorts)).2) o := by
  obtain ⟨-, -, owners, hevents, hnodup, howns, -⟩ :=
    attribution 3306 reusedPorts _ (mem_keysOf _)
  refine ⟨owners, ?_, hnodup, howns⟩
  have hqueries :
      (connections 3306 reusedPorts).map (List.map ProtoEvent.query ∘ (·.ended.events)) =
        List.replicate 3 [ascii "SELECT 1"] := by decide +kernel
  rw [← List.map_map, hevents, List.map_map]
  exact hqueries

end PcapEngine

end SqlReplay
