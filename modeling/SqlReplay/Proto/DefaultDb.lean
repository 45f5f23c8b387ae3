import SqlReplay.Proto.Infile
import SqlReplay.Proto.UseStatement

/-!
# The recorded default database

An event carries the default database "at the time the statement was sent". A switch is seen in the
request, and whether it took effect only in the response: a COM_INIT_DB or a `USE` that the server
answers with an ERR packet leaves the session where it was. The decoder does not wait for that
answer. It moves its database when the request is sent, as `Session.query` does.

What the database really is behind a conversation is said by `Session.Current`: that of the last
switch that did not fail, or that of the login. A turn is read faithfully (`Session.Faithful`) if
what the decoder takes from its request is also what the server makes of it, and the run lemma says
that in a conversation of such turns every event carries the current database.

## No event but the turn's own

The run lemma has no bound on the size of a packet. A packet that the decoder does not take stops
it, possibly behind the first packet of a response, so which events a turn brings is not known from
its end. It is enough that an event is always that of a request in flight, and there is one.
-/

namespace SqlReplay

/-! ## Switches and their outcome -/

/-- The server turns the command down: its response is an ERR packet. -/
def Turn.Failed (t : Turn) : Prop :=
  (t.exchange.response.headD []).head? = some 0xFF ∨ ∃ u ∈ t.upload, u.verdict.head? = some 0xFF

namespace Session

variable (s : Session)

/-- The command is sent, behind the silent ones. -/
def request (e : Exchange) : Session × Pending :=
  (e.silent.foldl sendSilent s).send e.requestTs e.command

/-- The statement that the command sends as text, if it sends any. -/
def statement (e : Exchange) : Option Bytes :=
  if e.command.head? = some COM_INIT_DB then none
  else
    match (s.request e).2 with
    | .event ev => some ev.query
    | _ => none

/-- The command asks for a database: it is a COM_INIT_DB, or its statement is a `USE`. -/
inductive Selects (e : Exchange) : Bytes → Prop
  | initDb {args : Bytes} (h : e.command = COM_INIT_DB :: args) : Selects e (fromUtf8Lossy args)
  | use (u : UseStatement) (h : s.statement e = some u.text) : Selects e u.name

/-- The default database behind turns: that of the last switch that did not fail, or that of the
login. -/
inductive Current : List Turn → Option Bytes → Prop
  | login : Current [] s.db
  | switched {ts : List Turn} {t : Turn} {name : Bytes}
    (h : (s.turns ts).1.Selects t.exchange name) (hok : ¬t.Failed) : Current (ts ++ [t]) (some name)
  | kept {ts : List Turn} {t : Turn} {db : Option Bytes} (h : Current ts db)
    (hkeep : t.Failed ∨ ∀ name, ¬(s.turns ts).1.Selects t.exchange name) : Current (ts ++ [t]) db

/-- What the decoder reads of the request is what the server makes of it. -/
structure Faithful (t : Turn) : Prop where
  /-- A COM_INIT_DB that fails names the recorded database. -/
  initDb : ∀ args, t.exchange.command = COM_INIT_DB :: args → t.Failed →
    s.db = some (fromUtf8Lossy args)
  /-- A `USE` that does not fail is plain. -/
  use : ∀ u : UseStatement, s.statement t.exchange = some u.text → ¬t.Failed → u.Plain
  /-- From a statement that moves nothing, no name is read but that of the recorded database. -/
  other : ∀ text, s.statement t.exchange = some text →
    (t.Failed ∨ ∀ u : UseStatement, u.text ≠ text) →
      ∀ db, parseUseTarget text = some db → s.db = some db
  /-- No data packet of an upload does anything as a command. -/
  upload : ∀ u ∈ t.upload,
    (s.exchange t.exchange).1.statements.SparesPackets (u.body t.uploadSeq)

end Session

/-- Every event of a turn that is no switch carries the database that is current when the turn
starts. -/
def ConnDecoder.RecordsDb (d : ConnDecoder) (ts : List Turn) : Prop :=
  ∀ pre t post, ts = pre ++ t :: post →
    (∀ name, ¬(d.session.turns pre).1.Selects t.exchange name) →
      ∀ ev ∈ ((d.run (pre.flatMap Turn.calls)).1.run t.calls).2,
        ∀ db, d.session.Current pre db → ev.db = db

/-! ## What a request moves -/

/-- The name of a COM_INIT_DB is read back from the statement that stands for it. -/
theorem parseUseTarget_initDbStatement (db : Bytes) :
    ((parseUseTarget (initDbStatement db)).orElse fun _ ↦ some db) = some db := by
  by_cases hdb : db = []
  · subst hdb
    decide +kernel
  · have hblank : ∀ c ∈ ([] : Bytes), isAsciiWhitespace c = true :=
      fun c hc ↦ absurd hc List.not_mem_nil
    have hclosing : closing [] = [] :=
      closing_trimmed UseStatement.trimEnd_nil List.not_mem_nil (Or.inl rfl) hblank hblank
    have hname := (UseStatement.parseUseTarget_quoted (k := ascii "USE") (c := ch ' ') hblank
      (by decide) (by decide) hblank hdb []).mpr (by rw [hclosing, UseStatement.trimEnd_nil])
    rw [List.append_nil] at hname
    have htext : initDbStatement db =
        [] ++ (ascii "USE" ++ ch ' ' :: ([] ++ backtick :: (doubleBackticks db ++ [backtick]))) :=
      rfl
    rw [htext, hname]
    rfl

namespace Session

variable {s : Session}

theorem sendSilent_db (payload : Bytes) : (s.sendSilent payload).db = s.db := rfl

theorem foldl_sendSilent_db (payloads : List Bytes) :
    (payloads.foldl sendSilent s).db = s.db := by
  induction payloads generalizing s with
  | nil => rfl
  | cons payload payloads ih => rw [List.foldl_cons, ih, sendSilent_db]

theorem answer_db (pending : Pending) (tsMicros : ℤ) (payload : Bytes) :
    (s.answer pending tsMicros payload).1.db = s.db := by
  cases pending <;> rfl

/-- A command that is no COM_INIT_DB moves the database by what is read from its statement. -/
theorem send_db (tsMicros : ℤ) {command : Bytes} (hcmd : command.head? ≠ some COM_INIT_DB) :
    (∃ text, (s.send tsMicros command).2 =
        .event ⟨tsMicros, text, 0, false, (s.send tsMicros command).1.db, s.user⟩ ∧
        (s.send tsMicros command).1.db = (parseUseTarget text).orElse fun _ ↦ s.db) ∨
      (∀ ev, (s.send tsMicros command).2 ≠ .event ev) ∧
        (s.send tsMicros command).1.db = s.db := by
  cases command with
  | nil => exact Or.inr ⟨fun ev h ↦ (by cases h), rfl⟩
  | cons cmd args =>
    have hinit : cmd ≠ COM_INIT_DB := fun h ↦ hcmd (congrArg some h)
    rw [send]
    split_ifs
    · cases s.queryText args with
      | some text => exact Or.inl ⟨_, rfl, rfl⟩
      | none => exact Or.inr ⟨fun ev h ↦ (by cases h), rfl⟩
    · exact Or.inr ⟨fun ev h ↦ (by cases h), rfl⟩
    · rcases s.statements.decodeExecute s.queryAttrs args with ⟨statements, _ | text⟩
      · exact Or.inr ⟨fun ev h ↦ (by cases h), rfl⟩
      · exact Or.inl ⟨_, rfl, rfl⟩
    · exact Or.inr ⟨fun ev h ↦ (by cases h), rfl⟩
    · exact Or.inr ⟨fun ev h ↦ (by cases h), rfl⟩

theorem send_initDb_db (tsMicros : ℤ) (args : Bytes) :
    (s.send tsMicros (COM_INIT_DB :: args)).1.db = some (fromUtf8Lossy args) := by
  rw [send, if_neg (by decide), if_pos rfl, query]
  exact parseUseTarget_initDbStatement _

theorem exchange_db (e : Exchange) : (s.exchange e).1.db = (s.request e).1.db := by
  rw [exchange, answer_db, request]

/-- What an exchange does to the database, and what the event of its command carries, when it is no
COM_INIT_DB. -/
theorem exchange_spec {e : Exchange} (hcmd : e.command.head? ≠ some COM_INIT_DB) :
    (∃ text, s.statement e = some text ∧
        (s.exchange e).1.db = ((parseUseTarget text).orElse fun _ ↦ s.db) ∧
        ∀ ev, (s.request e).2 = .event ev → ev.db = (s.exchange e).1.db) ∨
      s.statement e = none ∧ (s.exchange e).1.db = s.db := by
  rw [statement, if_neg hcmd, exchange_db]
  rcases send_db (s := e.silent.foldl sendSilent s) e.requestTs hcmd with
    ⟨text, hevent, hdb⟩ | ⟨hevent, hdb⟩
  · rw [foldl_sendSilent_db] at hdb
    refine Or.inl ⟨text, ?_, hdb, fun ev hev ↦ ?_⟩
    · rw [request, hevent]
    · rw [request, hevent] at hev
      rw [← Pending.event.inj hev, request]
  · rw [foldl_sendSilent_db] at hdb
    refine Or.inr ⟨?_, hdb⟩
    split
    · next ev hev => exact absurd hev (hevent ev)
    · rfl

theorem head?_ne_of_statement {e : Exchange} {text : Bytes} (h : s.statement e = some text) :
    e.command.head? ≠ some COM_INIT_DB := by
  intro hinit
  rw [statement, if_pos hinit] at h
  cases h

theorem exchange_initDb {e : Exchange} {args : Bytes} (h : e.command = COM_INIT_DB :: args) :
    (s.exchange e).1.db = some (fromUtf8Lossy args) := by
  rw [exchange_db, request, h, send_initDb_db]

/-! ## Faithful turns -/

variable {t : Turn}

/-- A switch that does not fail moves the database to its name. -/
theorem Faithful.switched (h : s.Faithful t) {name : Bytes} (hsel : s.Selects t.exchange name)
    (hok : ¬t.Failed) : (s.exchange t.exchange).1.db = some name := by
  cases hsel with
  | initDb hcmd => exact exchange_initDb hcmd
  | use u hu =>
    rcases exchange_spec (head?_ne_of_statement hu) with ⟨text, htext, hdb, -⟩ | ⟨hnone, -⟩
    · obtain rfl : u.text = text := Option.some.inj (hu.symm.trans htext)
      rw [hdb, UseStatement.parseUseTarget_iff.mpr (h.use u hu hok)]
      rfl
    · rw [hu] at hnone
      cases hnone

/-- Any other turn leaves it. -/
theorem Faithful.kept (h : s.Faithful t)
    (hkeep : t.Failed ∨ ∀ name, ¬s.Selects t.exchange name) :
    (s.exchange t.exchange).1.db = s.db := by
  by_cases hcmd : t.exchange.command.head? = some COM_INIT_DB
  · obtain ⟨args, hargs⟩ := List.head?_eq_some_iff.mp hcmd
    rw [exchange_initDb hargs]
    refine (h.initDb args hargs (hkeep.resolve_right fun hnone ↦ ?_)).symm
    exact hnone _ (Selects.initDb hargs)
  · rcases exchange_spec hcmd with ⟨text, htext, hdb, -⟩ | ⟨-, hdb⟩
    · rw [hdb]
      cases hname : parseUseTarget text with
      | none => rfl
      | some name =>
        refine (h.other text htext (hkeep.imp_right fun hnone u hu ↦ ?_) name hname).symm
        exact hnone u.name (Selects.use u (hu ▸ htext))
    · exact hdb

theorem turns_append (s : Session) (ts : List Turn) (t : Turn) :
    (s.turns (ts ++ [t])).1 = ((s.turns ts).1.exchange t.exchange).1 := by
  induction ts generalizing s with
  | nil => rfl
  | cons t' ts ih => exact ih _

/-- Behind faithful turns the recorded database is the current one. -/
theorem Current.db_eq {ts : List Turn} {db : Option Bytes} (h : s.Current ts db)
    (hts : ∀ pre t post, ts = pre ++ t :: post → (s.turns pre).1.Faithful t) :
    (s.turns ts).1.db = db := by
  induction h with
  | login => rfl
  | @switched ts t name hsel hok =>
    rw [turns_append, (hts ts t [] rfl).switched hsel hok]
  | @kept ts t db _ hkeep ih =>
    rw [turns_append, (hts ts t [] rfl).kept hkeep]
    refine ih fun pre t' post hpre ↦ hts pre t' (post ++ [t]) ?_
    rw [hpre, List.append_assoc]
    rfl

end Session

/-! ## The events of a turn -/

theorem Pending.eq_event_of_statement? {p : Pending} {ev : ProtoEvent}
    (h : p.statement? = some ev) : p = .event ev := by
  cases p with
  | event ev' => exact congrArg Pending.event (Option.some.inj h)
  | prepare sql => cases h
  | silent => cases h

namespace ProtoState

/-- What a server packet reports was asked by a request in flight. -/
def Reports (s : ProtoState) (out : List ProtoEvent) : Prop :=
  ∀ ev ∈ out, asked ev ∈ (statementsOf s.pending).map asked

theorem Reports.nil (s : ProtoState) : s.Reports [] := fun _ hev ↦ absurd hev List.not_mem_nil

section Reports

variable {s t : ProtoState} {out : List ProtoEvent}

theorem Reports.of_suffix (h : t.pending <:+ s.pending) (hout : t.Reports out) :
    s.Reports out := by
  intro ev hev
  obtain ⟨p, hp⟩ := h
  rw [← hp, statementsOf_append, List.map_append]
  exact List.mem_append_right _ (hout ev hev)

theorem Answers.suffix_reports {q : List InFlight} (h : Answers s t q out) :
    t.pending <:+ s.pending ∧ s.Reports out := by
  refine ⟨⟨q, h.pending_eq.symm⟩, fun ev hev ↦ ?_⟩
  rw [h.pending_eq, statementsOf_append, List.map_append, ← h.out_eq]
  exact List.mem_append_left _ (List.mem_map_of_mem hev)

theorem onPackets_server_reports (s : ProtoState) (pkts : List LogicalPacket) :
    (s.onPackets .server pkts).1.pending <:+ s.pending ∧
      s.Reports (s.onPackets .server pkts).2 := by
  induction pkts generalizing s with
  | nil => exact ⟨List.suffix_rfl, Reports.nil s⟩
  | cons pkt pkts ih =>
    obtain ⟨hsuffix, hreports⟩ := (s.onServerPacket_answers pkt).choose_spec.suffix_reports
    rw [onPackets, onPacket]
    split_ifs
    · obtain ⟨hsuffix', hreports'⟩ := ih (s.onServerPacket pkt).1
      refine ⟨hsuffix'.trans hsuffix, List.forall_mem_append.mpr ⟨hreports, ?_⟩⟩
      exact hreports'.of_suffix hsuffix
    · exact ⟨hsuffix, hreports⟩

theorem onPackets_client_out (s : ProtoState) (pkts : List LogicalPacket) :
    (s.onPackets .client pkts).2 = [] := by
  induction pkts generalizing s with
  | nil => rfl
  | cons pkt pkts ih =>
    rw [onPackets, onPacket]
    split_ifs
    · rw [ih, List.append_nil]
    · rfl

end Reports

end ProtoState

namespace ConnDecoder

theorem run_server_reports (d : ConnDecoder) (chunks : List (ℤ × Bytes)) :
    (d.run (chunksOf .server chunks)).1.pending <:+ d.pending ∧
      d.Reports (d.run (chunksOf .server chunks)).2 := by
  induction chunks generalizing d with
  | nil => exact ⟨List.suffix_rfl, ProtoState.Reports.nil _⟩
  | cons c chunks ih =>
    have hstep : (d.onData ⟨.server, c.1, c.2⟩).1.pending <:+ d.pending ∧
        d.Reports (d.onData ⟨.server, c.1, c.2⟩).2 := by
      rw [onData]
      split_ifs
      · rw [onFed, ← d.feed_toProtoState ⟨.server, c.1, c.2⟩]
        split_ifs
        · exact ⟨List.suffix_rfl, ProtoState.Reports.nil _⟩
        · exact ProtoState.onPackets_server_reports _ _
      · exact ⟨List.suffix_rfl, ProtoState.Reports.nil _⟩
    obtain ⟨hsuffix, hreports⟩ := ih (d.onData ⟨.server, c.1, c.2⟩).1
    rw [chunksOf, List.map_cons, run]
    exact ⟨hsuffix.trans hstep.1,
      List.forall_mem_append.mpr ⟨hstep.2, hreports.of_suffix hstep.1⟩⟩

theorem run_client_out (d : ConnDecoder) (chunks : List (ℤ × Bytes)) :
    (d.run (chunksOf .client chunks)).2 = [] := by
  induction chunks generalizing d with
  | nil => rfl
  | cons c chunks ih =>
    rw [chunksOf, List.map_cons, run]
    have hstep : (d.onData ⟨.client, c.1, c.2⟩).2 = [] := by
      rw [onData]
      split_ifs
      · rw [onFed]
        split_ifs
        · rfl
        · exact ProtoState.onPackets_client_out _ _
      · rfl
    rw [hstep, List.nil_append]
    exact ih _

/-- An exchange brings no event but that of its own request. -/
theorem run_exchange_events {d : ConnDecoder} (hd : d.Ready) {e : Exchange} (he : e.WellFormed) :
    ∀ ev ∈ (d.run e.calls).2, ∃ ev₀, (d.session.request e).2 = .event ev₀ ∧ ev.db = ev₀.db := by
  rw [Exchange.calls, run_append, run_client_out, List.nil_append]
  intro ev hev
  by_cases hdecoding : (d.run (chunksOf .client e.clientChunks)).1.decoding
  · have hlimit := withinLimit_of_run (hd.idle .client) he.client_eq hdecoding
    obtain ⟨hest, -, -, hpending, -⟩ :=
      ProtoState.onPackets_command hd.quiet (tsAt e.clientChunks) he.silent_spec he.responds
    obtain ⟨hstate, -⟩ := run_packets hd.quiet.decoding hd.idle hlimit he.client_eq hest.decoding
    have hreport := (run_server_reports _ e.serverChunks).2 ev hev
    rw [hstate, Exchange.requests, hpending] at hreport
    obtain ⟨ev₀, hev₀, hasked⟩ := List.mem_map.mp hreport
    have hdb : (asked ev).db = (asked ev₀).db := congrArg ProtoEvent.db hasked.symm
    refine ⟨ev₀, ?_, hdb⟩
    obtain ⟨f, hf, hstatement⟩ := List.mem_filterMap.mp hev₀
    rw [List.mem_singleton.mp hf] at hstatement
    exact Pending.eq_event_of_statement? hstatement
  · rw [run_of_not_decoding (Bool.eq_false_of_not_eq_true hdecoding)] at hev
    cases hev

/-- A decoder that is still decoding behind a spared upload was sent no packet beyond the limit. -/
theorem upload_withinLimits {d : ConnDecoder} (hd : d.Ready) {u : Upload} {seq : UInt8}
    (hu : u.WellFormed seq) (hspares : d.statements.SparesPackets (u.body seq))
    (h : (d.run u.calls).1.decoding) : u.WithinLimits seq := by
  rw [Upload.calls, run_append] at h
  have hbody := withinLimit_of_run (hd.idle .client) hu.client_eq (decoding_of_run h)
  obtain ⟨hready, -⟩ := run_body hd hu hbody hspares
  exact ⟨hbody, withinLimit_of_run (hready.idle .server) hu.server_eq h⟩

/-- A spared upload brings no event. -/
theorem run_upload_events {d : ConnDecoder} (hd : d.Ready) {u : Upload} {seq : UInt8}
    (hu : u.WellFormed seq) (hspares : d.statements.SparesPackets (u.body seq)) :
    (d.run u.calls).2 = [] := by
  rw [Upload.calls, run_append, run_client_out, List.nil_append]
  by_cases hdecoding : (d.run (chunksOf .client u.dataChunks)).1.decoding
  · have hbody := withinLimit_of_run (hd.idle .client) hu.client_eq hdecoding
    obtain ⟨hready, -⟩ := run_body hd hu hbody hspares
    have hreports := (run_server_reports (d.run (chunksOf .client u.dataChunks)).1
      u.verdictChunks).2
    rw [ProtoState.Reports, hready.quiet.pending_eq] at hreports
    exact List.eq_nil_iff_forall_not_mem.mpr fun ev hev ↦ List.not_mem_nil (hreports ev hev)
  · rw [run_of_not_decoding (Bool.eq_false_of_not_eq_true hdecoding)]

section Turns

variable {d : ConnDecoder} (hd : d.Ready)
include hd

/-- Behind a turn, a decoder that is still decoding is where the session is. -/
theorem run_turn_of_decoding {t : Turn} (ht : t.WellFormed) (hfaithful : d.session.Faithful t)
    (h : (d.run t.calls).1.decoding) :
    (d.run t.calls).1.Ready ∧
      (d.run t.calls).1.session = (d.session.exchange t.exchange).1 := by
  have hturn := h
  rw [Turn.calls, run_append] at hturn
  have hlimits := exchange_withinLimits hd ht.exchange_spec (decoding_of_run hturn)
  obtain ⟨hready, hsession, -⟩ := run_exchange hd ht.exchange_spec hlimits
  have hwithin : t.WithinLimits := by
    refine ⟨hlimits, fun u hu ↦ upload_withinLimits hready (ht.upload_spec u hu) ?_ ?_⟩
    · have hspares := hfaithful.upload u hu
      rwa [← hsession] at hspares
    · rwa [Option.mem_def.mp hu] at hturn
  obtain ⟨hready', hsession', -⟩ := run_turn hd ht hwithin hfaithful.upload
  exact ⟨hready', hsession'⟩

theorem run_turn_events {t : Turn} (ht : t.WellFormed) (hfaithful : d.session.Faithful t) :
    ∀ ev ∈ (d.run t.calls).2,
      ∃ ev₀, (d.session.request t.exchange).2 = .event ev₀ ∧ ev.db = ev₀.db := by
  have hupload : ((d.run t.exchange.calls).1.run (t.upload.elim [] Upload.calls)).2 = [] := by
    by_cases hdecoding : (d.run t.exchange.calls).1.decoding
    · have hlimits := exchange_withinLimits hd ht.exchange_spec hdecoding
      obtain ⟨hready, hsession, -⟩ := run_exchange hd ht.exchange_spec hlimits
      cases hu : t.upload with
      | none => rfl
      | some u =>
        have hspares := hfaithful.upload u hu
        rw [← hsession] at hspares
        exact run_upload_events hready (ht.upload_spec u hu) hspares
    · rw [run_of_not_decoding (Bool.eq_false_of_not_eq_true hdecoding)]
  rw [Turn.calls, run_append, hupload, List.append_nil]
  exact run_exchange_events hd ht.exchange_spec

theorem run_turns_of_decoding {ts : List Turn} (hts : ∀ t ∈ ts, t.WellFormed)
    (hfaithful : ∀ pre t post, ts = pre ++ t :: post → (d.session.turns pre).1.Faithful t)
    (h : (d.run (ts.flatMap Turn.calls)).1.decoding) :
    (d.run (ts.flatMap Turn.calls)).1.Ready ∧
      (d.run (ts.flatMap Turn.calls)).1.session = (d.session.turns ts).1 := by
  induction ts using List.reverseRecOn with
  | nil => exact ⟨hd, rfl⟩
  | append_singleton ts t ih =>
    obtain ⟨hts, ht⟩ := List.forall_mem_append.mp hts
    rw [List.flatMap_append, run_append, List.flatMap_singleton] at h
    obtain ⟨hready, hsession⟩ := ih hts (fun pre t' post hpre ↦
      hfaithful pre t' (post ++ [t]) (by rw [hpre, List.append_assoc]; rfl)) (decoding_of_run h)
    have hlast := hfaithful ts t [] rfl
    rw [← hsession] at hlast
    obtain ⟨hready', hsession'⟩ :=
      run_turn_of_decoding hready (ht t List.mem_cons_self) hlast h
    rw [List.flatMap_append, run_append, List.flatMap_singleton]
    refine ⟨hready', hsession'.trans ?_⟩
    rw [hsession, Session.turns_append]

/-- **In a conversation of faithful turns every event carries the current database.** -/
theorem recordsDb_of_faithful {ts : List Turn} (hts : ∀ t ∈ ts, t.WellFormed)
    (hfaithful : ∀ pre t post, ts = pre ++ t :: post → (d.session.turns pre).1.Faithful t) :
    d.RecordsDb ts := by
  intro pre t post hsplit hnone ev hev db hcurrent
  have hpre : ∀ pre' t' post', pre = pre' ++ t' :: post' →
      (d.session.turns pre').1.Faithful t' := by
    intro pre' t' post' hpre'
    refine hfaithful pre' t' (post' ++ t :: post) ?_
    rw [hsplit, hpre', List.append_assoc]
    rfl
  by_cases hdecoding : (d.run (pre.flatMap Turn.calls)).1.decoding
  · have hmem (t' : Turn) (h : t' ∈ pre) : t'.WellFormed :=
      hts t' (hsplit ▸ List.mem_append_left _ h)
    obtain ⟨hready, hsession⟩ := run_turns_of_decoding hd hmem hpre hdecoding
    have hstep := hfaithful pre t post hsplit
    have ht := hts t (hsplit ▸ List.mem_append_right _ List.mem_cons_self)
    rw [← hsession] at hstep hnone
    obtain ⟨ev₀, hev₀, hdb⟩ := run_turn_events hready ht hstep ev hev
    have hkept := hstep.kept (Or.inr hnone)
    have hcmd : t.exchange.command.head? ≠ some COM_INIT_DB := by
      intro hinit
      obtain ⟨args, hargs⟩ := List.head?_eq_some_iff.mp hinit
      exact hnone _ (Session.Selects.initDb hargs)
    rw [← hcurrent.db_eq hpre, ← hsession, hdb]
    rcases Session.exchange_spec hcmd with ⟨text, -, -, hevent⟩ | ⟨hstatement, -⟩
    · rw [hevent ev₀ hev₀, hkept]
    · rw [Session.statement, if_neg hcmd, hev₀] at hstatement
      cases hstatement
  · rw [run_of_not_decoding (Bool.eq_false_of_not_eq_true hdecoding)] at hev
    cases hev

end Turns

end ConnDecoder

/-! ## A switch that fails -/

/-- A command and its response, each in one chunk. -/
def Turn.ofCommand (command : Bytes) (response : List Bytes) : Turn where
  exchange := {
    silent := []
    command := command
    response := response
    clientChunks := [(5, encodePackets (commandPackets [command]))]
    serverChunks := [(9, encodePackets (numbered (lastSeqOf 0 command + 1) response))] }
  upload := none

theorem Turn.ofCommand_wellFormed {command : Bytes} (h : Responds command) {response : List Bytes}
    (hne : response ≠ []) : (ofCommand command response).WellFormed where
  exchange_spec := ⟨fun _ h ↦ absurd h List.not_mem_nil, h, hne, List.append_nil _,
    List.append_nil _⟩
  infile_spec := nofun
  upload_spec := nofun

/-- A COM_INIT_DB. -/
def initDbTurn (db : Bytes) (response : Bytes) : Turn :=
  .ofCommand (COM_INIT_DB :: db) [response]

/-- A query that is answered with an OK packet. -/
def selectTurn : Turn := .ofCommand (COM_QUERY :: ascii "SELECT 1") [[0, 0, 0, 2, 0, 0, 0]]

theorem initDbTurn_wellFormed (db response : Bytes) : (initDbTurn db response).WellFormed :=
  Turn.ofCommand_wellFormed ⟨_, _, rfl, by decide, by decide, by decide⟩ (List.cons_ne_nil _ _)

theorem selectTurn_wellFormed : selectTurn.WellFormed :=
  Turn.ofCommand_wellFormed ⟨_, _, rfl, by decide, by decide, by decide⟩ (List.cons_ne_nil _ _)

/-- `SELECT 1` is no switch. -/
theorem text_ne_select (u : UseStatement) : u.text ≠ ascii "SELECT 1" := by
  intro h
  have huse := u.isUseStatement_text
  rw [h] at huse
  exact absurd huse (by decide +kernel)

theorem Session.not_selects_select {s : Session}
    (h : s.statement selectTurn.exchange = some (ascii "SELECT 1")) (name : Bytes) :
    ¬s.Selects selectTurn.exchange name := by
  intro hsel
  cases hsel with
  | initDb hcmd => exact absurd (List.cons.inj hcmd).1 (by decide)
  | use u hu => exact text_ne_select u (Option.some.inj (hu.symm.trans h))

namespace ConnDecoder

/-- The response to a switch to a database that is not there. -/
def unknownDatabase : Bytes := 0xFF :: 0x19 :: 0x04 :: ascii "#42000Unknown database"

/-- The switch fails, and the query behind it is recorded with its database. -/
theorem not_recordsDb : ¬∀ (d : ConnDecoder) (ts : List Turn), d.Ready →
    (∀ t ∈ ts, t.WellFormed) → d.RecordsDb ts := by
  intro h
  have hrecords := h _ [initDbTurn (ascii "b") unknownDatabase, selectTurn] handshake_ready
    (List.forall_mem_cons.mpr
      ⟨initDbTurn_wellFormed _ _, List.forall_mem_singleton.mpr selectTurn_wellFormed⟩)
    [initDbTurn (ascii "b") unknownDatabase] selectTurn [] rfl
    (Session.not_selects_select (by decide +kernel))
  have hevent : (⟨5, ascii "SELECT 1", 4, true, some (ascii "b"), some (ascii "app")⟩ :
      ProtoEvent) ∈ (((new.run handshake).1.run ([initDbTurn (ascii "b") unknownDatabase].flatMap
        Turn.calls)).1.run selectTurn.calls).2 := by
    decide +kernel
  have hcurrent : (new.run handshake).1.session.Current
      ([] ++ [initDbTurn (ascii "b") unknownDatabase]) (new.run handshake).1.session.db :=
    Session.Current.kept Session.Current.login (Or.inl (Or.inl rfl))
  have hlogin : (new.run handshake).1.session.db = none := by decide +kernel
  have hdb := hrecords _ hevent _ hcurrent
  rw [hlogin] at hdb
  cases hdb

/-- A switch that succeeds, and a query behind it. -/
theorem recordsDb_switched : (new.run handshake).1.RecordsDb
    [initDbTurn (ascii "b") [0, 0, 0, 2, 0, 0, 0], selectTurn] := by
  refine recordsDb_of_faithful handshake_ready (List.forall_mem_cons.mpr
    ⟨initDbTurn_wellFormed _ _, List.forall_mem_singleton.mpr selectTurn_wellFormed⟩) ?_
  intro pre t post hsplit
  have hok : ¬(initDbTurn (ascii "b") [0, 0, 0, 2, 0, 0, 0]).Failed := by
    rintro (h | ⟨u, hu, -⟩)
    · exact absurd h (by decide)
    · cases hu
  rcases pre with _ | ⟨t₁, _ | ⟨t₂, pre⟩⟩
  · obtain ⟨rfl, -⟩ := List.cons.inj hsplit
    exact ⟨fun args _ h ↦ absurd h hok, nofun, nofun, nofun⟩
  · obtain ⟨rfl, htail⟩ := List.cons.inj hsplit
    obtain ⟨rfl, -⟩ := List.cons.inj htail
    have hstatement : ((new.run handshake).1.session.turns
        [initDbTurn (ascii "b") [0, 0, 0, 2, 0, 0, 0]]).1.statement selectTurn.exchange =
          some (ascii "SELECT 1") := by decide +kernel
    refine ⟨fun args h ↦ absurd (List.cons.inj h).1 (by decide), fun u hu ↦ ?_,
      fun text htext _ db hdb ↦ ?_, nofun⟩
    · exact absurd (Option.some.inj (hu.symm.trans hstatement)) (text_ne_select u)
    · obtain rfl := Option.some.inj (htext.symm.trans hstatement)
      have hnone : parseUseTarget (ascii "SELECT 1") = none := by decide +kernel
      rw [hnone] at hdb
      cases hdb
  · have hlen := congrArg List.length hsplit
    simp only [List.length_cons, List.length_append, List.length_nil] at hlen
    omega

end ConnDecoder

end SqlReplay
