import SqlReplay.Pcap.Invariant
import SqlReplay.Proto.Wire

/-!
# SYN segments seen twice

A copy of a connection's own SYN or SYN-ACK is not a new connection, but it still runs through
`on_syn`, which puts the reassembler of its direction back to the start of the stream. That does
nothing while the direction has delivered nothing and holds nothing back, and loses the rest of the
stream afterwards.

The proof has two halves. On a stream that is still at its start the copy leaves the engine as it
was, but for the count of packets (`onPacket_copy`); and that count is read by nothing, so two
engines that differ in it alone hand over the same events forever (`run_counted`).
-/

namespace SqlReplay

/-! ## The count of packets -/

namespace PcapStats

theorem countPacket_comm (s : PcapStats) (t t' : Bool) :
    (s.countPacket t).countPacket t' = (s.countPacket t').countPacket t := by
  simp only [countPacket, Nat.add_right_comm]

theorem recordVersion_countPacket (s : PcapStats) (v : Bytes) (t : Bool) :
    (s.countPacket t).recordVersion v = (s.recordVersion v).countPacket t := by
  unfold recordVersion countPacket
  dsimp only
  split_ifs <;> rfl

theorem countDisposition_countPacket (s : PcapStats) (d : Disposition) (lost t : Bool) :
    (s.countPacket t).countDisposition d lost = (s.countDisposition d lost).countPacket t := by
  cases d with
  | active => cases lost <;> rfl
  | tls | compressed | badHandshake | broken => rfl

end PcapStats

namespace PcapEngine

/-- The engine with one packet more on its count. -/
def counted (e : PcapEngine) (t : Bool) : PcapEngine := { e with stats := e.stats.countPacket t }

theorem freshSessionId_counted (e : PcapEngine) (threadId : Option UInt32) (t : Bool) :
    (e.counted t).freshSessionId threadId =
      ((e.freshSessionId threadId).1.counted t, (e.freshSessionId threadId).2) := by
  cases threadId with
  | none => rfl
  | some id =>
    unfold freshSessionId counted
    dsimp only
    split_ifs <;> rfl

theorem drainEvents_counted (e : PcapEngine) (c : ConnState) (t : Bool) :
    (e.counted t).drainEvents c =
      ⟨(e.drainEvents c).engine.counted t, (e.drainEvents c).conn, (e.drainEvents c).out⟩ := by
  have hevbuf : (e.counted t).evbuf = e.evbuf := rfl
  unfold drainEvents
  rw [hevbuf, freshSessionId_counted]
  split_ifs
  · rfl
  · cases c.sessionId <;> rfl

theorem finalize_counted (e : PcapEngine) (c : ConnState) (t : Bool) :
    (e.counted t).finalize c =
      ⟨(e.finalize c).engine.counted t, (e.finalize c).conn, (e.finalize c).out⟩ := by
  unfold finalize
  split_ifs
  · rfl
  · have hdrain := drainEvents_counted { e with evbuf := e.evbuf ++ c.dec.finish.2 }
      { c with finished := true, dec := c.dec.finish.1 } t
    dsimp only [counted] at hdrain ⊢
    rw [hdrain]
    dsimp only
    rw [PcapStats.countDisposition_countPacket]
    rfl

theorem reusePort_counted (e : PcapEngine) (key : FlowKey) (dir : Dir) (seg : TcpSegment)
    (t : Bool) :
    (e.counted t).reusePort key dir seg =
      ((e.reusePort key dir seg).1.counted t, (e.reusePort key dir seg).2) := by
  have hconns : (e.counted t).conns = e.conns := rfl
  unfold reusePort
  rw [hconns]
  split_ifs
  · cases e.conns key with
    | none => rfl
    | some old =>
      dsimp only
      split_ifs
      · rfl
      · have hremove : (e.counted t).remove key = (e.remove key).counted t := rfl
        rw [hremove, finalize_counted]
  · rfl

theorem entry_counted (e : PcapEngine) (key : FlowKey) (t : Bool) :
    (e.counted t).entry key = ((e.entry key).1.counted t, (e.entry key).2) := by
  have hconns : (e.counted t).conns = e.conns := rfl
  unfold entry
  rw [hconns]
  cases e.conns key <;> rfl

theorem recordVersion_counted (e : PcapEngine) (c : ConnState) (t : Bool) :
    (e.counted t).recordVersion c =
      ((e.recordVersion c).1.counted t, (e.recordVersion c).2) := by
  unfold recordVersion
  split_ifs
  · rfl
  · cases c.dec.serverVersion with
    | none => rfl
    | some v =>
      dsimp only [counted]
      rw [PcapStats.recordVersion_countPacket]

theorem onConnSegment_counted (e : PcapEngine) (key : FlowKey) (c : ConnState) (dir : Dir)
    (tsMicros : ℤ) (seg : TcpSegment) (t : Bool) :
    (e.counted t).onConnSegment key c dir tsMicros seg =
      ((e.onConnSegment key c dir tsMicros seg).1.counted t,
        (e.onConnSegment key c dir tsMicros seg).2) := by
  unfold onConnSegment
  dsimp only
  generalize (c.onSyn dir seg).deliver dir tsMicros seg = d
  have hrecord := recordVersion_counted { e with evbuf := e.evbuf ++ d.2 } d.1 t
  have hbuf : { e.counted t with evbuf := (e.counted t).evbuf ++ d.2 } =
      ({ e with evbuf := e.evbuf ++ d.2 } : PcapEngine).counted t := rfl
  rw [hbuf, hrecord]
  dsimp only
  split_ifs
  · rw [finalize_counted]
    rfl
  · rw [drainEvents_counted]
    rfl

theorem onSegment_counted (e : PcapEngine) (key : FlowKey) (dir : Dir) (tsMicros : ℤ)
    (truncated : Bool) (seg : TcpSegment) (t : Bool) :
    (e.counted t).onSegment key dir tsMicros truncated seg =
      ((e.onSegment key dir tsMicros truncated seg).1.counted t,
        (e.onSegment key dir tsMicros truncated seg).2) := by
  have hcount : { e.counted t with stats := (e.counted t).stats.countPacket truncated } =
      (e.counted truncated).counted t := by
    unfold counted
    dsimp only
    rw [PcapStats.countPacket_comm]
  have hcount' : { e with stats := e.stats.countPacket truncated } = e.counted truncated := rfl
  unfold onSegment
  dsimp only
  rw [hcount, hcount', reusePort_counted]
  dsimp only
  rw [entry_counted]
  dsimp only
  split_ifs
  · rfl
  · rw [onConnSegment_counted]

theorem onPacket_counted (e : PcapEngine) (p : Packet) (t : Bool) :
    (e.counted t).onPacket p = ((e.onPacket p).1.counted t, (e.onPacket p).2) := by
  have hport : (e.counted t).port = e.port := rfl
  unfold onPacket
  rw [hport]
  split
  · rfl
  · split
    · split_ifs <;> rfl
    · split
      · rfl
      · rw [onSegment_counted]

/-- The count of packets is read by nothing. -/
theorem run_counted (e : PcapEngine) (ps : List Packet) (t : Bool) :
    (e.counted t).run ps = ((e.run ps).1.counted t, (e.run ps).2) := by
  induction ps generalizing e with
  | nil => rfl
  | cons p ps ih => simp only [run, onPacket_counted, ih]

theorem finish_counted (e : PcapEngine) (keys : List FlowKey) (t : Bool) :
    (e.counted t).finish keys = ((e.finish keys).1.counted t, (e.finish keys).2) := by
  induction keys generalizing e with
  | nil => rfl
  | cons key keys ih =>
    have hconns : (e.counted t).conns = e.conns := rfl
    have hremove : (e.counted t).remove key = (e.remove key).counted t := rfl
    unfold finish
    rw [hconns]
    cases e.conns key with
    | none => exact ih e
    | some c =>
      dsimp only
      rw [hremove, finalize_counted, ih]

/-! ## A copy of a SYN -/

/-- The connection, direction and segment of a frame on the server's port. -/
def segmentOf (port : ℕ) (p : Packet) : Option (FlowKey × Dir × TcpSegment) := do
  let ip ← stripLink p.linktype p.frame
  let seg ← parseIpTcp ip
  let target ← classifySegment port seg
  pure (target.1, target.2, seg)

theorem onPacket_of_segmentOf {e : PcapEngine} {p : Packet} {key : FlowKey} {dir : Dir}
    {seg : TcpSegment} (h : segmentOf e.port p = some (key, dir, seg)) :
    e.onPacket p = e.onSegment key dir p.tsMicros p.truncated seg := by
  simp only [segmentOf, Option.bind_eq_bind, Option.bind_eq_some_iff, Option.pure_def,
    Option.some.injEq, Prod.mk.injEq] at h
  obtain ⟨ip, hip, seg', hseg, target, htarget, rfl, rfl, rfl⟩ := h
  unfold onPacket
  rw [hip]
  dsimp only
  rw [hseg]
  dsimp only
  rw [htarget]

/-- The FIN flag of a direction. -/
def finSeen (c : ConnState) : Dir → Bool
  | .client => c.finClient
  | .server => c.finServer

/-- The segment repeats the SYN that opened its direction of the connection: same initial sequence
number, no RST, and a FIN only where one was seen. -/
structure IsSynCopy (c : ConnState) (dir : Dir) (seg : TcpSegment) : Prop where
  syn : seg.syn = true
  started : (c.stream dir).started = true
  isn : (c.stream dir).isn = seg.seq + 1
  rst : seg.rst = false
  fin : seg.fin = true → finSeen c dir = true

theorem IsSynCopy.onFin_eq {c : ConnState} {dir : Dir} {seg : TcpSegment}
    (h : IsSynCopy c dir seg) : c.onFin dir seg = c := by
  have hfin : (finSeen c dir || seg.fin) = finSeen c dir := by
    cases hseg : seg.fin with
    | false => exact Bool.or_false _
    | true => rw [h.fin hseg, Bool.or_true]
  cases dir <;> (unfold ConnState.onFin; dsimp only [finSeen] at hfin ⊢; rw [hfin])

/-- Nothing was delivered and nothing waits. -/
structure AtStart (s : SeqStream) : Prop where
  nextRel : s.nextRel = 0
  pending : s.pending = SortedMap.empty

/-- At the start of the stream, its SYN changes nothing. -/
theorem onSyn_eq_self {s : SeqStream} (h : AtStart s) (hcounted : s.WellCounted)
    (hstarted : s.started = true) {seq : UInt32} (hisn : s.isn = seq + 1) : s.onSyn seq = s := by
  have hbytes : s.pendingBytes = 0 := by
    rw [hcounted, SeqStream.buffered, h.pending]
    rfl
  obtain ⟨started, isn, nextRel, pending, pendingBytes, overflow⟩ := s
  obtain ⟨rfl, rfl⟩ := h
  obtain rfl : pendingBytes = 0 := hbytes
  obtain rfl : started = true := hstarted
  obtain rfl : isn = seq + 1 := hisn
  rfl

/-- The copy's way through its connection: nothing is delivered, and nothing ends. -/
theorem onConnSegment_copy {e : PcapEngine} {key : FlowKey} {c : ConnState} {dir : Dir}
    {seg : TcpSegment} (hevbuf : e.evbuf = []) (hkey : e.conns key = some c) (hlive : c.Live)
    (hcopy : IsSynCopy c dir seg) (hstart : AtStart (c.stream dir)) (hpayload : seg.payload = [])
    (tsMicros : ℤ) : e.onConnSegment key c dir tsMicros seg = (e, []) := by
  have hsyn : c.onSyn dir seg = c := by
    rw [ConnState.onSyn, if_pos hcopy.syn,
      onSyn_eq_self hstart (hlive.counted dir) hcopy.started hcopy.isn, ConnState.setStream_stream]
  have hdeliver : c.deliver dir tsMicros seg = (c, []) := by
    have hdata : (c.stream dir).onData tsMicros seg.seq seg.payload = (c.stream dir, []) := by
      rw [hpayload, SeqStream.onData, if_pos (by simp)]
    rw [ConnState.deliver, hdata]
    dsimp only
    rw [ConnState.setStream_stream]
    rfl
  have hrecord : e.recordVersion c = (e, c) := by
    unfold recordVersion
    by_cases hrecorded : c.versionRecorded = true
    · rw [if_pos hrecorded]
    · cases hversion : c.dec.serverVersion with
      | none => rw [if_neg hrecorded]
      | some v => exact absurd (hlive.version (by rw [hversion]; rfl)) hrecorded
  have hends : c.ends seg = false := by
    have hc2s : c.c2s.overflow = false := hlive.overflow .client
    have hs2c : c.s2c.overflow = false := hlive.overflow .server
    rw [ConnState.ends, hcopy.rst, hlive.fins, hlive.active, hc2s, hs2c]
    rfl
  have hbuf : ({ e with evbuf := e.evbuf ++ [] } : PcapEngine) = e := by rw [List.append_nil]
  have hinsert : e.insert key c = e := by rw [insert, ← hkey, Function.update_eq_self]
  unfold onConnSegment
  rw [hsyn, hdeliver]
  dsimp only
  rw [hbuf, hrecord]
  dsimp only
  rw [hcopy.onFin_eq, if_neg (Bool.eq_false_iff.mp hends), drainEvents, if_pos hevbuf]
  dsimp only
  rw [hinsert]

/-- At the start of its stream, a copy of a connection's SYN is a packet more and nothing else. -/
theorem onPacket_copy {e : PcapEngine} (h : e.Settles) {p : Packet} {key : FlowKey} {dir : Dir}
    {seg : TcpSegment} {c : ConnState} (hp : segmentOf e.port p = some (key, dir, seg))
    (hkey : e.conns key = some c) (hopen : c.finished = false) (hcopy : IsSynCopy c dir seg)
    (hstart : AtStart (c.stream dir)) (hpayload : seg.payload = []) :
    e.onPacket p = (e.counted p.truncated, []) := by
  have hcounted : { e with stats := e.stats.countPacket p.truncated } = e.counted p.truncated :=
    rfl
  have hreuse : (e.counted p.truncated).reusePort key dir seg = (e.counted p.truncated, []) := by
    have hconn : (e.counted p.truncated).conns key = some c := hkey
    unfold reusePort
    split_ifs with hfresh
    · rw [hconn]
      dsimp only
      obtain rfl : dir = .client := eq_of_beq (Bool.and_elim_right hfresh)
      have hretransmit : isSynRetransmit c seg = true := by
        have hstarted : c.c2s.started = true := hcopy.started
        have hisn : c.c2s.isn = seg.seq + 1 := hcopy.isn
        rw [isSynRetransmit, hopen, hstarted, hisn, beq_self_eq_true]
        rfl
      rw [if_pos hretransmit]
    · rfl
  have hentry : (e.counted p.truncated).entry key = (e.counted p.truncated, c) := by
    have hconn : (e.counted p.truncated).conns key = some c := hkey
    unfold entry
    rw [hconn]
  rw [onPacket_of_segmentOf hp, onSegment]
  dsimp only
  rw [hcounted, hreuse]
  dsimp only
  rw [hentry]
  dsimp only
  have hcopied := onConnSegment_copy (e := e.counted p.truncated) h.evbuf hkey
    (h.live key c hkey hopen) hcopy hstart hpayload p.tsMicros
  rw [hopen, if_neg Bool.false_ne_true, hcopied]
  rfl

/-- In every reachable state, a copy of a live connection's SYN or SYN-ACK that comes before
anything was delivered or held back in its direction hands over no event, and neither the events
nor the counters of any later packets, nor of the end of the capture, depend on it, but for the
count of the packet itself. -/
theorem synCopy_harmless (port : ℕ) (before : List Packet) {p : Packet} {key : FlowKey} {dir : Dir}
    {seg : TcpSegment} {c : ConnState} (hp : segmentOf port p = some (key, dir, seg))
    (hkey : ((new port).run before).1.conns key = some c) (hopen : c.finished = false)
    (hcopy : IsSynCopy c dir seg) (hstart : AtStart (c.stream dir)) (hpayload : seg.payload = [])
    (later : List Packet) (keys : List FlowKey) :
    let e := ((new port).run before).1
    let e' := (e.onPacket p).1
    (e.onPacket p).2 = [] ∧ (e'.run later).2 = (e.run later).2 ∧
      ((e'.run later).1.finish keys).2 = ((e.run later).1.finish keys).2 ∧
      (e'.run later).1.stats = (e.run later).1.stats.countPacket p.truncated ∧
      ((e'.run later).1.finish keys).1.stats =
        ((e.run later).1.finish keys).1.stats.countPacket p.truncated := by
  intro e e'
  have hport : e.port = port := run_port _ _
  have hcopy' := onPacket_copy ((new_settles port).run before) (hport.symm ▸ hp) hkey hopen hcopy
    hstart hpayload
  have he' : e' = e.counted p.truncated := congrArg Prod.fst hcopy'
  have hrun := run_counted e later p.truncated
  have hfinish := finish_counted (e.run later).1 keys p.truncated
  rw [he', hrun, hfinish]
  exact ⟨congrArg Prod.snd hcopy', rfl, rfl, rfl, rfl⟩

/-! ## A copy that comes later -/

/-- The two bytes of a number, most significant first. -/
def beBytes (n : ℕ) : Bytes := [(n / 2 ^ 8).toUInt8, n.toUInt8]

/-- A raw IPv4 datagram from one host to another, with a TCP segment and no options. -/
def rawPacket (tsMicros : ℤ) (src dst : Endpoint) (seq : ℕ) (flags : UInt8) (payload : Bytes) :
    Packet where
  tsMicros := tsMicros
  linktype := LINKTYPE_RAW
  frame := [0x45, 0] ++ beBytes (40 + payload.length) ++ [0, 0, 0x40, 0, 64, 6, 0, 0] ++
    src.addr ++ dst.addr ++ beBytes src.port ++ beBytes dst.port ++ beBytes (seq / 2 ^ 16) ++
    beBytes seq ++ [0, 0, 0, 0, 0x50, flags, 0xff, 0xff, 0, 0, 0, 0] ++ payload
  truncated := false

/-- A client's host and port. -/
def clientHost : Endpoint := ⟨[10, 0, 0, 1], 50000⟩

/-- The server. -/
def serverHost : Endpoint := ⟨[10, 0, 0, 2], 3306⟩

/-- The greeting or the login packet. -/
def handshakeBytes (dir : Dir) : Bytes :=
  ConnDecoder.handshake.flatMap fun c ↦ if c.dir = dir then c.data else []

/-- The client's SYN. -/
def synPacket (tsMicros : ℤ) : Packet := rawPacket tsMicros clientHost serverHost 0 0x02 []

/-- A connection up to its login: the two SYNs, the greeting and the login packet. -/
def openingPackets : List Packet :=
  [synPacket 1, rawPacket 2 serverHost clientHost 1000 0x12 [],
    rawPacket 3 serverHost clientHost 1001 0x10 (handshakeBytes .server),
    rawPacket 4 clientHost serverHost 1 0x10 (handshakeBytes .client)]

/-- A query and its response. -/
def queryPackets : List Packet :=
  [rawPacket 6 clientHost serverHost 42 0x10 (encodePacket 0 (COM_QUERY :: ascii "SELECT 1")),
    rawPacket 7 serverHost clientHost 1041 0x10 (encodePacket 1 [0, 0, 0])]

/-- The key of the connection. -/
def hostsKey : FlowKey :=
  ⟨⟨v4mapped clientHost.addr, clientHost.port⟩, ⟨v4mapped serverHost.addr, serverHost.port⟩⟩

/-- The segment of `synPacket`. -/
def synSegment : TcpSegment :=
  ⟨hostsKey.client, hostsKey.server, 0, true, false, false, false, []⟩

theorem segmentOf_synPacket (tsMicros : ℤ) :
    segmentOf 3306 (synPacket tsMicros) = some (hostsKey, .client, synSegment) := by
  have h : segmentOf 3306 (synPacket 0) = some (hostsKey, .client, synSegment) := by
    decide
  exact h

/-- A live connection that was opened by `synPacket`, in a state that meets `q`. -/
theorem exists_synCopy (before : List Packet) (q : ConnState → Bool)
    (h : (((new 3306).run before).1.conns hostsKey).any (fun c ↦
      !c.finished && c.c2s.started && c.c2s.isn == 1 && q c) = true) :
    ∃ c, ((new 3306).run before).1.conns hostsKey = some c ∧ c.finished = false ∧
      IsSynCopy c .client synSegment ∧ q c = true := by
  obtain ⟨c, hkey, hc⟩ := (Option.any_eq_true _ _).mp h
  simp only [Bool.and_eq_true, Bool.not_eq_true', beq_iff_eq] at hc
  obtain ⟨⟨⟨hopen, hstarted⟩, hisn⟩, hq⟩ := hc
  exact ⟨c, hkey, hopen, ⟨rfl, hstarted, hisn, rfl, nofun⟩, hq⟩

/-- A copy of the client's SYN before the greeting. -/
theorem synCopy_harmless_beforeGreeting :
    let e := ((new 3306).run [synPacket 1]).1
    let later := openingPackets.tail ++ queryPackets
    ((e.onPacket (synPacket 5)).1.run later).2 = (e.run later).2 := by
  obtain ⟨c, hkey, hopen, hcopy, hq⟩ := exists_synCopy [synPacket 1]
    (fun c ↦ c.c2s.nextRel == 0 && c.c2s.pending.entries.isEmpty) (by decide)
  rw [Bool.and_eq_true, beq_iff_eq, List.isEmpty_iff] at hq
  have hstart : AtStart (c.stream .client) := ⟨hq.1, SortedMap.ext hq.2⟩
  exact (synCopy_harmless 3306 [synPacket 1] (segmentOf_synPacket 5) hkey hopen hcopy hstart rfl
    (openingPackets.tail ++ queryPackets) []).2.1

/-- A copy of the client's SYN behind the login packet loses the query that follows. -/
theorem synCopy_loses_query :
    let e := ((new 3306).run openingPackets).1
    (∃ c, e.conns hostsKey = some c ∧ c.finished = false ∧ IsSynCopy c .client synSegment) ∧
    segmentOf 3306 (synPacket 5) = some (hostsKey, .client, synSegment) ∧
    (e.run queryPackets).2.map (·.2.query) = [ascii "SELECT 1"] ∧
    ((e.onPacket (synPacket 5)).1.run queryPackets).2 = [] := by
  obtain ⟨c, hkey, hopen, hcopy, -⟩ := exists_synCopy openingPackets (fun _ ↦ true)
    (by decide +kernel)
  exact ⟨⟨c, hkey, hopen, hcopy⟩, segmentOf_synPacket 5, by decide +kernel, by decide +kernel⟩

end PcapEngine

end SqlReplay
