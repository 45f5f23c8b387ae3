import SqlReplay.Pcap.Frame
import SqlReplay.Pcap.SeqStream
import SqlReplay.Proto.Decoder

/-!
# The packet engine

`PcapEngine` takes captured frames one by one. A frame that parses to a segment on the server's
port belongs to a connection, its bytes go through the reassembler of its direction into the
connection's decoder, and the events that come out are handed to the sink under the connection's
session id. A connection that ended stays in the table as a tombstone.

The sink is a list here: every operation returns the pairs it hands over. The table of connections
is a function from keys, so the order in which `finish` visits the connections, which the source
leaves to its hash map, is an argument.
-/

namespace SqlReplay

structure ConnState where
  dec : ConnDecoder
  c2s : SeqStream
  s2c : SeqStream
  sessionId : Option ℕ
  finClient : Bool
  finServer : Bool
  /-- Finished, and kept as a tombstone against late retransmissions. -/
  finished : Bool
  versionRecorded : Bool

namespace ConnState

/-- `ConnState::new`. -/
def new : ConnState := ⟨.new, .new, .new, none, false, false, false, false⟩

/-- The reassembler of a direction. -/
def stream (c : ConnState) : Dir → SeqStream
  | .client => c.c2s
  | .server => c.s2c

/-- The connection with another reassembler for a direction. -/
def setStream (c : ConnState) (dir : Dir) (s : SeqStream) : ConnState :=
  match dir with
  | .client => { c with c2s := s }
  | .server => { c with s2c := s }

/-- The SYN arm of `on_packet`. -/
def onSyn (c : ConnState) (dir : Dir) (seg : TcpSegment) : ConnState :=
  if seg.syn then c.setStream dir ((c.stream dir).onSyn seg.seq) else c

/-- The segment's bytes go through the reassembler into the decoder. -/
def deliver (c : ConnState) (dir : Dir) (tsMicros : ℤ) (seg : TcpSegment) :
    ConnState × List ProtoEvent :=
  let r := (c.stream dir).onData tsMicros seg.seq seg.payload
  let d := c.dec.run (r.2.map fun d ↦ ⟨dir, d.1, d.2⟩)
  ({ c.setStream dir r.1 with dec := d.1 }, d.2)

/-- The FIN flag of a segment. -/
def onFin (c : ConnState) (dir : Dir) (seg : TcpSegment) : ConnState :=
  match dir with
  | .client => { c with finClient := c.finClient || seg.fin }
  | .server => { c with finServer := c.finServer || seg.fin }

/-- `closed || done_decoding`: the connection ended, the decoder gave up, or a reassembler
overflowed. -/
def ends (c : ConnState) (seg : TcpSegment) : Bool :=
  seg.rst || (c.finClient && c.finServer) || c.dec.disposition != .active ||
    c.c2s.overflow || c.s2c.overflow

end ConnState

/-- Decode counters, aggregated over the whole file. -/
structure PcapStats where
  packets : ℕ := 0
  truncatedPackets : ℕ := 0
  ipFragmentsSkipped : ℕ := 0
  connections : ℕ := 0
  connectionsDecoded : ℕ := 0
  connectionsTlsSkipped : ℕ := 0
  connectionsCompressedSkipped : ℕ := 0
  connectionsMidstreamSkipped : ℕ := 0
  connectionsBroken : ℕ := 0
  statementsExpanded : ℕ := 0
  statementsInexpandable : ℕ := 0
  commandsIgnored : ℕ := 0
  responsesMissing : ℕ := 0
  serverVersions : List Bytes := []
  deriving DecidableEq, Repr

namespace PcapStats

/-- The counters of a packet on the server's port. -/
def countPacket (s : PcapStats) (truncated : Bool) : PcapStats :=
  { s with
    packets := s.packets + 1
    truncatedPackets := s.truncatedPackets + truncated.toNat }

/-- A server version is kept once, up to eight of them. -/
def recordVersion (s : PcapStats) (v : Bytes) : PcapStats :=
  if !s.serverVersions.contains v && s.serverVersions.length < 8 then
    { s with serverVersions := s.serverVersions ++ [v] }
  else s

/-- How `finalize` classifies a connection. -/
def countDisposition (s : PcapStats) (disposition : Disposition) (lostPackets : Bool) :
    PcapStats :=
  match disposition with
  | .active =>
    if lostPackets then { s with connectionsBroken := s.connectionsBroken + 1 }
    else { s with connectionsDecoded := s.connectionsDecoded + 1 }
  | .tls => { s with connectionsTlsSkipped := s.connectionsTlsSkipped + 1 }
  | .compressed => { s with connectionsCompressedSkipped := s.connectionsCompressedSkipped + 1 }
  | .badHandshake => { s with connectionsMidstreamSkipped := s.connectionsMidstreamSkipped + 1 }
  | .broken => { s with connectionsBroken := s.connectionsBroken + 1 }

/-- `accumulate`. -/
def accumulate (s : PcapStats) (c : ConnStats) : PcapStats :=
  { s with
    statementsExpanded := s.statementsExpanded + c.statementsExpanded
    statementsInexpandable := s.statementsInexpandable + c.statementsInexpandable
    commandsIgnored := s.commandsIgnored + c.commandsIgnored
    responsesMissing := s.responsesMissing + c.responsesMissing }

end PcapStats

structure PcapEngine where
  port : ℕ
  conns : FlowKey → Option ConnState
  /-- Session ids already assigned. -/
  usedSessionIds : List ℕ
  syntheticNext : ℕ
  stats : PcapStats
  evbuf : List ProtoEvent

/-- What the sink is handed. -/
abbrev Emitted := List (ℕ × ProtoEvent)

/-- One captured frame. -/
structure Packet where
  tsMicros : ℤ
  linktype : ℤ
  frame : Bytes
  /-- The capture's snaplen cut the frame short. -/
  truncated : Bool
  deriving DecidableEq, Repr

/-- The engine and a connection taken out of its table, with what the sink was handed. -/
structure Settled where
  engine : PcapEngine
  conn : ConnState
  out : Emitted

namespace PcapEngine

/-- `PcapEngine::new`. -/
def new (port : ℕ) : PcapEngine := ⟨port, fun _ ↦ none, [], 2 ^ 48, {}, []⟩

/-- The connection under a key is replaced. -/
def insert (e : PcapEngine) (key : FlowKey) (c : ConnState) : PcapEngine :=
  { e with conns := Function.update e.conns key (some c) }

/-- The connection under a key is taken out. -/
def remove (e : PcapEngine) (key : FlowKey) : PcapEngine :=
  { e with conns := Function.update e.conns key none }

/-- The session id of a connection that has none: the server's thread id, or a synthetic one when
that is unknown or taken. -/
def freshSessionId (e : PcapEngine) (threadId : Option UInt32) : PcapEngine × ℕ :=
  match threadId with
  | some t =>
    if e.usedSessionIds.contains t.toNat then
      ({ e with
          usedSessionIds := e.syntheticNext :: e.usedSessionIds
          syntheticNext := e.syntheticNext + 1 }, e.syntheticNext)
    else ({ e with usedSessionIds := t.toNat :: e.usedSessionIds }, t.toNat)
  | none =>
    ({ e with
        usedSessionIds := e.syntheticNext :: e.usedSessionIds
        syntheticNext := e.syntheticNext + 1 }, e.syntheticNext)

/-- `drain_events`: the buffered events go to the sink under the connection's session id. -/
def drainEvents (e : PcapEngine) (c : ConnState) : Settled :=
  if e.evbuf = [] then ⟨e, c, []⟩
  else
    match c.sessionId with
    | some sid => ⟨{ e with evbuf := [] }, c, e.evbuf.map (sid, ·)⟩
    | none =>
      let r := e.freshSessionId c.dec.threadId
      ⟨{ r.1 with evbuf := [] }, { c with sessionId := some r.2 }, e.evbuf.map (r.2, ·)⟩

/-- `finalize`: flush the decoder, hand over what is left, count the connection and mark it
finished. -/
def finalize (e : PcapEngine) (c : ConnState) : Settled :=
  if c.finished then ⟨e, c, []⟩
  else
    let d := c.dec.finish
    let r := { e with evbuf := e.evbuf ++ d.2 }.drainEvents { c with finished := true, dec := d.1 }
    let stats := (r.engine.stats.countDisposition r.conn.dec.disposition
      (r.conn.c2s.overflow || r.conn.s2c.overflow)).accumulate r.conn.dec.stats
    ⟨{ r.engine with stats := stats }, r.conn, r.out⟩

/-- The key and direction of a segment, from the server's port. When both ports are the server's,
the sender is taken to be the server. -/
def classifySegment (port : ℕ) (seg : TcpSegment) : Option (FlowKey × Dir) :=
  if seg.src.port = port then some (⟨seg.dst, seg.src⟩, .server)
  else if seg.dst.port = port then some (⟨seg.src, seg.dst⟩, .client)
  else none

/-- A SYN of the current connection seen again: it is live, and has this initial sequence
number. -/
def isSynRetransmit (c : ConnState) (seg : TcpSegment) : Bool :=
  !c.finished && c.c2s.started && c.c2s.isn == seg.seq + 1

/-- A fresh SYN on a known key: the port pair is being reused, and the predecessor is finalized. -/
def reusePort (e : PcapEngine) (key : FlowKey) (dir : Dir) (seg : TcpSegment) :
    PcapEngine × Emitted :=
  if seg.syn && !seg.ack && dir == .client then
    match e.conns key with
    | none => (e, [])
    | some old =>
      if isSynRetransmit old seg then (e, [])
      else
        let r := (e.remove key).finalize old
        (r.engine, r.out)
  else (e, [])

/-- The connection of a key, a new one when there is none. -/
def entry (e : PcapEngine) (key : FlowKey) : PcapEngine × ConnState :=
  match e.conns key with
  | some c => (e, c)
  | none => ({ e with stats.connections := e.stats.connections + 1 }, .new)

/-- The version of the server is recorded once for a connection. -/
def recordVersion (e : PcapEngine) (c : ConnState) : PcapEngine × ConnState :=
  if c.versionRecorded then (e, c)
  else
    match c.dec.serverVersion with
    | none => (e, c)
    | some v => ({ e with stats := e.stats.recordVersion v }, { c with versionRecorded := true })

/-- The rest of `on_packet`, on the live connection of a segment. -/
def onConnSegment (e : PcapEngine) (key : FlowKey) (c : ConnState) (dir : Dir) (tsMicros : ℤ)
    (seg : TcpSegment) : PcapEngine × Emitted :=
  let d := (c.onSyn dir seg).deliver dir tsMicros seg
  let r := { e with evbuf := e.evbuf ++ d.2 }.recordVersion d.1
  let c' := r.2.onFin dir seg
  let s := if c'.ends seg then r.1.finalize c' else r.1.drainEvents c'
  (s.engine.insert key s.conn, s.out)

/-- `on_packet` once the frame is parsed. -/
def onSegment (e : PcapEngine) (key : FlowKey) (dir : Dir) (tsMicros : ℤ) (truncated : Bool)
    (seg : TcpSegment) : PcapEngine × Emitted :=
  let r := { e with stats := e.stats.countPacket truncated }.reusePort key dir seg
  let q := r.1.entry key
  if q.2.finished then (q.1.insert key q.2, r.2)
  else
    let t := q.1.onConnSegment key q.2 dir tsMicros seg
    (t.1, r.2 ++ t.2)

/-- `on_packet`. -/
def onPacket (e : PcapEngine) (p : Packet) : PcapEngine × Emitted :=
  match stripLink p.linktype p.frame with
  | none => (e, [])
  | some ip =>
    match parseIpTcp ip with
    | none =>
      if isIpFragment ip then
        ({ e with stats.ipFragmentsSkipped := e.stats.ipFragmentsSkipped + 1 }, [])
      else (e, [])
    | some seg =>
      match classifySegment e.port seg with
      | none => (e, [])
      | some (key, dir) => e.onSegment key dir p.tsMicros p.truncated seg

/-- The frames of a capture, one after the other. -/
def run (e : PcapEngine) : List Packet → PcapEngine × Emitted
  | [] => (e, [])
  | p :: ps => (((e.onPacket p).1.run ps).1, (e.onPacket p).2 ++ ((e.onPacket p).1.run ps).2)

/-- `finish`, with the keys in the order in which the table hands them out. -/
def finish (e : PcapEngine) : List FlowKey → PcapEngine × Emitted
  | [] => (e, [])
  | key :: keys =>
    match e.conns key with
    | none => e.finish keys
    | some c =>
      let r := (e.remove key).finalize c
      ((r.engine.finish keys).1, r.out ++ (r.engine.finish keys).2)

end PcapEngine

end SqlReplay
