import SqlReplay.Pcap.Engine

/-!
# What holds of a running engine

The reassembler's byte count is the size of its buffer (`WellCounted`). Between two frames the
engine's event buffer is empty, and a connection that is not finished is live: its decoder still
decodes, no reassembler overflowed, one of the two FINs is missing, and the server's version, once
the greeting was read, is recorded (`PcapEngine.Settles`).
-/

namespace SqlReplay

namespace SeqStream

/-- The bytes that wait in the buffer. -/
def buffered (s : SeqStream) : ℕ := (s.pending.entries.map (·.2.2.length)).sum

/-- `pendingBytes` counts them. -/
def WellCounted (s : SeqStream) : Prop := s.pendingBytes = s.buffered

theorem wellCounted_of_empty {s : SeqStream} (h : s.pending = SortedMap.empty)
    (hbytes : s.pendingBytes = 0) : s.WellCounted := by
  rw [WellCounted, hbytes, buffered, h]
  rfl

theorem new_wellCounted : new.WellCounted := wellCounted_of_empty rfl rfl

theorem onSyn_wellCounted (s : SeqStream) (seq : UInt32) : (s.onSyn seq).WellCounted :=
  wellCounted_of_empty rfl rfl

theorem drain_wellCounted {s : SeqStream} (h : s.WellCounted) : s.drain.1.WellCounted := by
  -- what is popped leaves both the buffer and the count
  have hpop {s : SeqStream} {e : ℕ × ℤ × Bytes} {rest : SortedMap ℕ (ℤ × Bytes)}
      (hpop : s.pending.popFirst = some (e, rest)) (h : s.WellCounted) :
      s.pendingBytes - e.2.2.length = (rest.entries.map (·.2.2.length)).sum := by
    rw [WellCounted, buffered, SortedMap.entries_of_popFirst hpop, List.map_cons,
      List.sum_cons] at h
    rw [h, Nat.add_sub_cancel_left]
  fun_induction drain s with
  | case1 s _ => exact h
  | case2 s rel ts data rest _ _ => exact h
  | case3 s rel ts data rest hsome _ s' finish _ ih => exact ih (hpop hsome h)
  | case4 s rel ts data rest hsome _ s' finish _ r ih => exact ih (hpop hsome h)

theorem place_wellCounted {s : SeqStream} (h : s.WellCounted) (tsMicros : ℤ) (rel : ℕ)
    (payload : Bytes) : (s.place tsMicros rel payload).1.WellCounted := by
  unfold place
  dsimp only
  split_ifs with hdup hle hlimit hvacant
  · exact h
  · exact drain_wellCounted h
  · exact wellCounted_of_empty rfl rfl
  · have hperm := (SortedMap.insertVacant_perm hvacant (tsMicros, payload)).map (·.2.2.length)
    rw [WellCounted, buffered] at h ⊢
    rw [hperm.sum_nat, List.map_cons, List.sum_cons, h, Nat.add_comm]
  · exact h

theorem onData_wellCounted {s : SeqStream} (h : s.WellCounted) (tsMicros : ℤ) (seq : UInt32)
    (payload : Bytes) : (s.onData tsMicros seq payload).1.WellCounted := by
  have hstart : (s.startAt seq).WellCounted := by
    rw [startAt]
    split_ifs
    · exact h
    · exact h
  rw [onData]
  split_ifs
  · exact h
  · exact place_wellCounted hstart _ _ _

end SeqStream

/-! ## Live connections -/

/-- Nothing has ended the connection, and its version is recorded as soon as it is known. -/
structure ConnState.Live (c : ConnState) : Prop where
  active : c.dec.disposition = .active
  overflow : ∀ dir, (c.stream dir).overflow = false
  fins : (c.finClient && c.finServer) = false
  version : c.dec.serverVersion.isSome → c.versionRecorded = true
  counted : ∀ dir, (c.stream dir).WellCounted

namespace ConnState

@[simp]
theorem stream_setStream (c : ConnState) (dir : Dir) (s : SeqStream) :
    (c.setStream dir s).stream dir = s := by cases dir <;> rfl

theorem setStream_stream (c : ConnState) (dir : Dir) : c.setStream dir (c.stream dir) = c := by
  cases dir <;> rfl

theorem setStream_wellCounted {c : ConnState} (h : ∀ dir, (c.stream dir).WellCounted) (dir : Dir)
    {s : SeqStream} (hs : s.WellCounted) (dir' : Dir) :
    ((c.setStream dir s).stream dir').WellCounted := by
  have hc := h .client
  have hs' := h .server
  cases dir <;> cases dir' <;> assumption

theorem onSyn_wellCounted {c : ConnState} (h : ∀ dir, (c.stream dir).WellCounted) (dir : Dir)
    (seg : TcpSegment) (dir' : Dir) : ((c.onSyn dir seg).stream dir').WellCounted := by
  rw [onSyn]
  split_ifs
  · exact setStream_wellCounted h dir (SeqStream.onSyn_wellCounted _ _) dir'
  · exact h dir'

theorem deliver_wellCounted {c : ConnState} (h : ∀ dir, (c.stream dir).WellCounted) (dir : Dir)
    (tsMicros : ℤ) (seg : TcpSegment) (dir' : Dir) :
    ((c.deliver dir tsMicros seg).1.stream dir').WellCounted := by
  have hset := setStream_wellCounted h dir
    (SeqStream.onData_wellCounted (h dir) tsMicros seg.seq seg.payload) dir'
  cases dir' <;> exact hset

theorem onFin_stream (c : ConnState) (dir : Dir) (seg : TcpSegment) (dir' : Dir) :
    (c.onFin dir seg).stream dir' = c.stream dir' := by cases dir <;> cases dir' <;> rfl

theorem onFin_dec (c : ConnState) (dir : Dir) (seg : TcpSegment) :
    (c.onFin dir seg).dec = c.dec := by cases dir <;> rfl

end ConnState

/-! ## The engine between two frames -/

/-- The event buffer is empty, and every connection is finished or live. -/
structure PcapEngine.Settles (e : PcapEngine) : Prop where
  evbuf : e.evbuf = []
  live : ∀ key c, e.conns key = some c → c.finished = false → c.Live

namespace PcapEngine

/-- The connections are those of `e`, but for the one under `key`, and the event buffer is
empty. -/
structure Emptied (e e' : PcapEngine) : Prop where
  evbuf : e'.evbuf = []
  conns : e'.conns = e.conns

theorem drainEvents_emptied (e : PcapEngine) (c : ConnState) :
    Emptied e (e.drainEvents c).engine := by
  rw [drainEvents]
  split_ifs with hempty
  · exact ⟨hempty, rfl⟩
  · cases c.sessionId with
    | some sid => exact ⟨rfl, rfl⟩
    | none =>
      refine ⟨rfl, ?_⟩
      dsimp only [freshSessionId]
      split
      · split_ifs <;> rfl
      · rfl

/-- Only the session id of a connection changes when its events are handed over. -/
theorem drainEvents_conn (e : PcapEngine) (c : ConnState) :
    ∃ sid, (e.drainEvents c).conn = { c with sessionId := sid } := by
  rw [drainEvents]
  split_ifs
  · exact ⟨c.sessionId, rfl⟩
  · cases hsid : c.sessionId with
    | some sid => exact ⟨c.sessionId, rfl⟩
    | none => exact ⟨_, rfl⟩

theorem finalize_emptied {e : PcapEngine} {c : ConnState} (h : c.finished = false) :
    Emptied e (e.finalize c).engine := by
  rw [finalize, if_neg (by simp [h])]
  have hdrain := drainEvents_emptied { e with evbuf := e.evbuf ++ c.dec.finish.2 }
    { c with finished := true, dec := c.dec.finish.1 }
  exact ⟨hdrain.evbuf, hdrain.conns⟩

theorem finalize_finished (e : PcapEngine) (c : ConnState) :
    (e.finalize c).conn.finished = true := by
  rw [finalize]
  split_ifs with h
  · exact h
  · obtain ⟨sid, hconn⟩ := drainEvents_conn { e with evbuf := e.evbuf ++ c.dec.finish.2 }
      { c with finished := true, dec := c.dec.finish.1 }
    exact congrArg ConnState.finished hconn

theorem recordVersion_spec (e : PcapEngine) (c : ConnState) :
    (e.recordVersion c).1.evbuf = e.evbuf ∧ (e.recordVersion c).1.conns = e.conns ∧
      ∃ recorded, (e.recordVersion c).2 = { c with versionRecorded := recorded } ∧
        (c.dec.serverVersion.isSome → recorded = true) := by
  rw [recordVersion]
  split_ifs with h
  · exact ⟨rfl, rfl, c.versionRecorded, rfl, fun _ ↦ h⟩
  · cases hversion : c.dec.serverVersion with
    | none => exact ⟨rfl, rfl, c.versionRecorded, rfl, nofun⟩
    | some v => exact ⟨rfl, rfl, true, rfl, fun _ ↦ rfl⟩

/-- A connection that does not end with a segment is live after it. -/
theorem live_of_not_ends {c : ConnState} {seg : TcpSegment} (hends : c.ends seg = false)
    (hversion : c.dec.serverVersion.isSome → c.versionRecorded = true)
    (hcounted : ∀ dir, (c.stream dir).WellCounted) : c.Live := by
  simp only [ConnState.ends, Bool.or_eq_false_iff, bne_eq_false_iff_eq] at hends
  obtain ⟨⟨⟨⟨-, hfins⟩, hactive⟩, hc2s⟩, hs2c⟩ := hends
  refine ⟨hactive, fun dir ↦ ?_, hfins, hversion, hcounted⟩
  cases dir
  · exact hc2s
  · exact hs2c

theorem onConnSegment_settles {e : PcapEngine} (h : e.Settles) {key : FlowKey} {c : ConnState}
    (hc : c.finished = false) (hcounted : ∀ dir, (c.stream dir).WellCounted) (dir : Dir)
    (tsMicros : ℤ) (seg : TcpSegment) :
    (e.onConnSegment key c dir tsMicros seg).1.Settles := by
  rw [onConnSegment]
  dsimp only
  generalize hd : (c.onSyn dir seg).deliver dir tsMicros seg = d
  have hdcounted : ∀ dir', (d.1.stream dir').WellCounted := by
    intro dir'
    rw [← hd]
    exact ConnState.deliver_wellCounted (ConnState.onSyn_wellCounted hcounted dir seg) dir tsMicros
      seg dir'
  have hdfinished : d.1.finished = false := by
    rw [← hd, ConnState.onSyn]
    cases dir <;> split_ifs <;> exact hc
  obtain ⟨hevbuf, hconns, recorded, hr, hrecorded⟩ :=
    recordVersion_spec { e with evbuf := e.evbuf ++ d.2 } d.1
  generalize { e with evbuf := e.evbuf ++ d.2 }.recordVersion d.1 = r at hevbuf hconns hr ⊢
  generalize hc' : r.2.onFin dir seg = c'
  have hfinished : c'.finished = false := by
    rw [← hc', hr]
    cases dir <;> exact hdfinished
  have hversion : c'.dec.serverVersion.isSome → c'.versionRecorded = true := by
    rw [← hc', hr]
    cases dir <;> exact hrecorded
  have hcounted' : ∀ dir', (c'.stream dir').WellCounted := by
    intro dir'
    have hclient := hdcounted .client
    have hserver := hdcounted .server
    rw [← hc', ConnState.onFin_stream, hr]
    cases dir'
    · exact hclient
    · exact hserver
  have hlive {s : Settled} (hs : Emptied r.1 s.engine) (hconn : s.conn.finished = false →
      s.conn.Live) : (s.engine.insert key s.conn).Settles := by
    refine ⟨hs.evbuf, fun key' c'' hkey' hc'' ↦ ?_⟩
    change Function.update s.engine.conns key (some s.conn) key' = some c'' at hkey'
    rw [hs.conns, hconns] at hkey'
    by_cases heq : key' = key
    · rw [heq, Function.update_self] at hkey'
      obtain rfl := Option.some.inj hkey'
      exact hconn hc''
    · rw [Function.update_of_ne heq] at hkey'
      exact h.live key' c'' hkey' hc''
  split_ifs with hends
  · refine hlive (finalize_emptied hfinished) fun hopen ↦ ?_
    rw [finalize_finished] at hopen
    nomatch hopen
  · refine hlive (drainEvents_emptied _ _) fun _ ↦ ?_
    obtain ⟨sid, hconn⟩ := drainEvents_conn r.1 c'
    have hlive' := live_of_not_ends (Bool.eq_false_iff.mpr hends) hversion hcounted'
    rw [hconn]
    exact ⟨hlive'.active, hlive'.overflow, hlive'.fins, hlive'.version, hlive'.counted⟩

/-- Counting does not touch the connections. -/
theorem Settles.withStats {e : PcapEngine} (h : e.Settles) (stats : PcapStats) :
    { e with stats := stats }.Settles := ⟨h.evbuf, h.live⟩

theorem Settles.remove {e : PcapEngine} (h : e.Settles) (key : FlowKey) :
    (e.remove key).Settles := by
  refine ⟨h.evbuf, fun key' c hkey' ↦ ?_⟩
  change Function.update e.conns key none key' = some c at hkey'
  by_cases heq : key' = key
  · rw [heq, Function.update_self] at hkey'
    nomatch hkey'
  · rw [Function.update_of_ne heq] at hkey'
    exact h.live key' c hkey'

theorem Settles.finalize {e : PcapEngine} (h : e.Settles) (c : ConnState) :
    (e.finalize c).engine.Settles := by
  by_cases hfinished : c.finished = true
  · rw [PcapEngine.finalize, if_pos hfinished]
    exact h
  · have hemptied := finalize_emptied (e := e) (Bool.eq_false_iff.mpr hfinished)
    exact ⟨hemptied.evbuf, fun key c' hkey ↦ h.live key c' (hemptied.conns ▸ hkey)⟩

theorem Settles.reusePort {e : PcapEngine} (h : e.Settles) (key : FlowKey) (dir : Dir)
    (seg : TcpSegment) : (e.reusePort key dir seg).1.Settles := by
  rw [PcapEngine.reusePort]
  split_ifs
  · cases e.conns key with
    | none => exact h
    | some old =>
      dsimp only
      split_ifs
      · exact h
      · exact (h.remove key).finalize old
  · exact h

/-- The connection of a key is one of the table, or a new one. -/
theorem entry_eq (e : PcapEngine) (key : FlowKey) :
    e.conns key = some (e.entry key).2 ∧ (e.entry key).1 = e ∨
      (e.entry key).2 = .new ∧
        ∃ stats, (e.entry key).1 = { e with stats := stats } := by
  rw [entry]
  cases hkey : e.conns key with
  | some c => exact Or.inl ⟨rfl, rfl⟩
  | none => exact Or.inr ⟨rfl, _, rfl⟩

theorem new_counted (dir : Dir) : (ConnState.new.stream dir).WellCounted := by
  cases dir <;> exact SeqStream.new_wellCounted

theorem Settles.onSegment {e : PcapEngine} (h : e.Settles) (key : FlowKey) (dir : Dir)
    (tsMicros : ℤ) (truncated : Bool) (seg : TcpSegment) :
    (e.onSegment key dir tsMicros truncated seg).1.Settles := by
  have hreuse := (h.withStats (e.stats.countPacket truncated)).reusePort key dir seg
  rw [PcapEngine.onSegment]
  dsimp only
  generalize { e with stats := e.stats.countPacket truncated }.reusePort key dir seg = r
    at hreuse ⊢
  rcases entry_eq r.1 key with ⟨hkey, hengine⟩ | ⟨hconn, stats, hengine⟩
  · rw [hengine]
    split_ifs with hfinished
    · have hinsert : r.1.insert key (r.1.entry key).2 = r.1 := by
        rw [insert, ← hkey, Function.update_eq_self]
      rw [hinsert]
      exact hreuse
    · have hfinished := Bool.eq_false_iff.mpr hfinished
      exact onConnSegment_settles hreuse hfinished (hreuse.live key _ hkey hfinished).counted dir
        tsMicros seg
  · rw [hengine, hconn, if_neg (by decide)]
    exact onConnSegment_settles (hreuse.withStats stats) rfl new_counted dir tsMicros seg

theorem Settles.onPacket {e : PcapEngine} (h : e.Settles) (p : Packet) :
    (e.onPacket p).1.Settles := by
  rw [PcapEngine.onPacket]
  split
  · exact h
  · split
    · split_ifs
      · exact h.withStats { e.stats with ipFragmentsSkipped := e.stats.ipFragmentsSkipped + 1 }
      · exact h
    · split
      · exact h
      · exact h.onSegment _ _ _ _ _

theorem Settles.run {e : PcapEngine} (h : e.Settles) (ps : List Packet) :
    (e.run ps).1.Settles := by
  induction ps generalizing e with
  | nil => exact h
  | cons p ps ih => exact ih (h.onPacket p)

theorem Settles.finish {e : PcapEngine} (h : e.Settles) (keys : List FlowKey) :
    (e.finish keys).1.Settles := by
  induction keys generalizing e with
  | nil => exact h
  | cons key keys ih =>
    rw [PcapEngine.finish]
    cases e.conns key with
    | none => exact ih h
    | some c => exact ih ((h.remove key).finalize c)

theorem new_settles (port : ℕ) : (new port).Settles :=
  ⟨rfl, fun _ _ hkey ↦ absurd hkey.symm (Option.some_ne_none _)⟩

/-! ## The server's port -/

@[simp]
theorem drainEvents_port (e : PcapEngine) (c : ConnState) :
    (e.drainEvents c).engine.port = e.port := by
  unfold drainEvents freshSessionId
  split_ifs
  · rfl
  · cases c.sessionId with
    | some sid => rfl
    | none =>
      cases c.dec.threadId with
      | none => rfl
      | some id =>
        dsimp only
        split_ifs <;> rfl

@[simp]
theorem finalize_port (e : PcapEngine) (c : ConnState) :
    (e.finalize c).engine.port = e.port := by
  unfold finalize
  split_ifs
  · rfl
  · exact drainEvents_port _ _

theorem reusePort_port (e : PcapEngine) (key : FlowKey) (dir : Dir) (seg : TcpSegment) :
    (e.reusePort key dir seg).1.port = e.port := by
  unfold reusePort
  split_ifs
  · cases e.conns key with
    | none => rfl
    | some old =>
      dsimp only
      split_ifs
      · rfl
      · exact finalize_port _ _
  · rfl

theorem recordVersion_port (e : PcapEngine) (c : ConnState) :
    (e.recordVersion c).1.port = e.port := by
  unfold recordVersion
  split_ifs
  · rfl
  · cases c.dec.serverVersion <;> rfl

theorem onConnSegment_port (e : PcapEngine) (key : FlowKey) (c : ConnState) (dir : Dir)
    (tsMicros : ℤ) (seg : TcpSegment) :
    (e.onConnSegment key c dir tsMicros seg).1.port = e.port := by
  unfold onConnSegment
  dsimp only [insert]
  split_ifs
  · rw [finalize_port, recordVersion_port]
  · rw [drainEvents_port, recordVersion_port]

theorem onPacket_port (e : PcapEngine) (p : Packet) : (e.onPacket p).1.port = e.port := by
  unfold onPacket onSegment entry
  split
  · rfl
  · split
    · split_ifs <;> rfl
    · split
      · rfl
      · next seg _ _ key dir _ =>
        have hreuse :=
          reusePort_port { e with stats := e.stats.countPacket p.truncated } key dir seg
        dsimp only
        split_ifs
        · cases ({ e with stats := e.stats.countPacket p.truncated }.reusePort key dir seg).1.conns
            key <;> exact hreuse
        · rw [onConnSegment_port]
          cases ({ e with stats := e.stats.countPacket p.truncated }.reusePort key dir seg).1.conns
            key <;> exact hreuse

theorem run_port (e : PcapEngine) (ps : List Packet) : (e.run ps).1.port = e.port := by
  induction ps generalizing e with
  | nil => rfl
  | cons p ps ih => exact (ih _).trans (onPacket_port e p)

end PcapEngine

end SqlReplay
