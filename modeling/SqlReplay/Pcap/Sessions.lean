import SqlReplay.Pcap.Encode
import SqlReplay.Pcap.Transport
import SqlReplay.Proto.Handshake

/-!
# From frames to sessions

The layers of the wire, put together. A frame is a TCP segment behind an IP header and a link layer;
the segments of a key, less what they repeat, are the bytes of a connection; the bytes are packets;
and the packets are a handshake and a conversation. Each of these has its own round trip, and the
table of connections keeps them apart. So a capture in which any number of clients talk to the
server, in whatever order their frames come, gives the sink one session for each client that says
anything, with its statements, their latencies, the user and the default database
(`dialogues_captured`).

It needs nothing of the rest of the traffic: connections that cannot be decoded, or were open before
the capture began, are sessions of their own or none.
-/

namespace SqlReplay

/-! ## Frames -/

/-- A segment in a frame. -/
structure WireFrame where
  link : LinkLayer
  ip : IpHeader
  tcp : TcpHeader
  payload : Bytes
  padding : Bytes
  fits : ip.Fits (tcp.encode payload)

namespace WireFrame

/-- The segment as it was sent. -/
def segment (f : WireFrame) : TcpSegment := f.tcp.segment f.ip.src f.ip.dst f.payload

/-- The frame as it is captured. -/
def packet (f : WireFrame) (tsMicros : ℤ) (truncated : Bool) : Packet where
  tsMicros := tsMicros
  linktype := f.link.linktype
  frame := f.link.encode f.ip.etherType (f.ip.encode (f.tcp.encode f.payload) ++ f.padding)
  truncated := truncated

/-- The engine finds the segment in it. -/
theorem arrival_packet (f : WireFrame) (port : ℕ) (tsMicros : ℤ) (truncated : Bool) :
    PcapEngine.arrival port (f.packet tsMicros truncated) =
      (PcapEngine.classifySegment port f.segment).map fun k ↦
        (k.1, ⟨k.2, tsMicros, f.segment⟩) := by
  have hether : isIpEthertype f.ip.etherType = true := by
    cases f.ip <;> rfl
  have hparse : (stripLink (f.packet tsMicros truncated).linktype
      (f.packet tsMicros truncated).frame).bind parseIpTcp = some f.segment := by
    rw [packet, f.link.stripLink_encode hether]
    exact IpHeader.parseIpTcp_encode f.fits f.padding
  rw [PcapEngine.arrival, hparse]
  rfl

end WireFrame

/-! ## Sessions -/

/-- Segments that carry a dialogue: what is new in them is what its two sides say. -/
structure Transport.Carries (t : Transport) (g : Dialogue) : Prop where
  transport : t.WellFormed
  dialogue : g.WellFormed
  calls_eq : t.calls = g.calls

/-- The connection that carries a dialogue has its statements as events. -/
theorem Transport.Carries.connection {t : Transport} {g : Dialogue} (h : t.Carries g)
    (key : FlowKey) :
    (connectionsUnder key t.arrivals).map (·.ended.events) = [g.events] := by
  obtain ⟨hevents, hflush, hactive⟩ := ConnDecoder.run_dialogue h.dialogue
  rw [← h.calls_eq] at hevents hflush hactive
  rw [h.transport.connectionsUnder_arrivals hactive, List.map_singleton, h.transport.events,
    hevents, hflush, List.append_nil]

namespace PcapEngine

/-- Whose connections are known: those of some keys, and the rest. -/
theorem connections_keys (port : ℕ) (ps : List Packet) {ks : List FlowKey} (hks : ks.Nodup) :
    (connections port ps).Perm
      (ks.flatMap (fun key ↦ connectionsUnder key (arrivalsOf port key ps)) ++
        (connections port ps).filter fun k ↦ !decide (k.key ∈ ks)) := by
  have hsplit := (List.filter_append_perm (·.key ∈ ks) (connections port ps)).symm
  have hkeys := filter_mem_perm (·.key) hks (connections port ps)
  have hunder (key : FlowKey) : (connections port ps).filter (·.key = key) =
      connectionsUnder key (arrivalsOf port key ps) := connections_filter port ps key
  simp only [hunder] at hkeys
  exact hsplit.trans (hkeys.append_right _)

/-- **A capture has the sessions of its clients.** Whatever else is in it, the sink is handed one
session for each dialogue in which anything is said, with what is to be reported of it; and if there
is nothing else, no other. -/
theorem dialogues_captured {port : ℕ} {ps : List Packet} {keys ks : List FlowKey}
    {t : FlowKey → Transport} {g : FlowKey → Dialogue}
    (hkeys : ∀ key, (((new port).run ps).1.conns key).isSome → key ∈ keys) (hks : ks.Nodup)
    (hcarries : ∀ key ∈ ks, (t key).Carries (g key))
    (hframes : ∀ key ∈ ks, arrivalsOf port key ps = (t key).arrivals) :
    (∀ key ∈ ks, (g key).Reports (g key).events) ∧
    ∃ others, (sections (((new port).run ps).2 ++ (((new port).run ps).1.finish keys).2)).Perm
        ((ks.map fun key ↦ (g key).events).filter (fun events ↦ !events.isEmpty) ++ others) ∧
      ((∀ key ∉ ks, arrivalsOf port key ps = []) → others = []) := by
  refine ⟨fun key _ ↦ (g key).reports_events,
    (((connections port ps).filter fun k ↦ !decide (k.key ∈ ks)).map (·.ended.events)).filter
      fun events ↦ !events.isEmpty, ?_, fun hnone ↦ ?_⟩
  · have hperm := ((connections_keys port ps hks).map (·.ended.events)).filter
      fun events ↦ !events.isEmpty
    have hevents : (ks.flatMap fun key ↦ connectionsUnder key (arrivalsOf port key ps)).map
        (·.ended.events) = ks.map fun key ↦ (g key).events := by
      rw [List.map_flatMap, ← List.flatMap_singleton' (ks.map fun key ↦ (g key).events),
        List.flatMap_map]
      refine List.flatMap_congr fun key hkey ↦ ?_
      rw [hframes key hkey]
      exact (hcarries key hkey).connection key
    rw [List.map_append, List.filter_append, hevents] at hperm
    exact (sections_perm port ps hkeys).trans hperm
  · -- a connection has a frame with its key
    have hempty : ((connections port ps).filter fun k ↦ !decide (k.key ∈ ks)) = [] := by
      rw [List.filter_eq_nil_iff]
      intro k hk hkey
      rw [Bool.not_eq_true', decide_eq_false_iff_not] at hkey
      have hunder := connections_filter port ps k.key
      rw [hnone k.key hkey] at hunder
      have hmem : k ∈ (connections port ps).filter (·.key = k.key) :=
        List.mem_filter.mpr ⟨hk, decide_eq_true rfl⟩
      rw [hunder] at hmem
      exact absurd hmem List.not_mem_nil
    rw [hempty]
    rfl

end PcapEngine

/-! ## Captures of a dialogue -/

open DataSegment

/-- Segments that send chunks, one for each. -/
def segmentsOf (pos : Positions) : List Chunk → List DataSegment
  | [] => []
  | c :: cs =>
    ⟨c.dir, c.tsMicros, pos c.dir, c.data, false⟩ ::
      segmentsOf (advance ⟨c.dir, c.tsMicros, pos c.dir, c.data, false⟩ pos) cs

theorem segmentsOf_fin (pos : Positions) (cs : List Chunk) :
    ∀ s ∈ segmentsOf pos cs, s.fin = false := by
  induction cs generalizing pos with
  | nil => exact fun s hs ↦ absurd hs List.not_mem_nil
  | cons c cs ih => exact List.forall_mem_cons.mpr ⟨rfl, ih _⟩

theorem delivered_segmentsOf (pos : Positions) {cs : List Chunk} (h : ∀ c ∈ cs, c.data ≠ []) :
    delivered pos (segmentsOf pos cs) = cs := by
  induction cs generalizing pos with
  | nil => rfl
  | cons c cs ih =>
    obtain ⟨hc, hcs⟩ := List.forall_mem_cons.mp h
    have hnew : ¬pos c.dir + c.data.length ≤ pos c.dir := by
      have hlength := List.length_pos_iff.mpr hc
      omega
    rw [segmentsOf, delivered, ih _ hcs, news, stop, if_neg hnew, Nat.sub_self, List.drop_zero]
    rfl

theorem inOrder_segmentsOf {pos : Positions} {cs : List Chunk}
    (h : ∀ dir, pos dir + (cs.map (·.data.length)).sum < 2 ^ 64) :
    InOrder pos (segmentsOf pos cs) := by
  induction cs generalizing pos with
  | nil => trivial
  | cons c cs ih =>
    have hdir := h c.dir
    rw [List.map_cons, List.sum_cons] at hdir
    refine ⟨⟨le_rfl, Nat.lt_add_of_pos_right (by decide), ?_, ?_⟩, ih fun dir ↦ ?_⟩
    · exact (Nat.le_add_right _ _).trans_lt hdir
    · change pos c.dir + c.data.length < 2 ^ 64
      omega
    · have hother := h dir
      rw [List.map_cons, List.sum_cons] at hother
      by_cases heq : dir = c.dir
      · rw [heq, advance, Function.update_self]
        change max (pos c.dir) (pos c.dir + c.data.length) + _ < 2 ^ 64
        rw [max_eq_right (Nat.le_add_right _ _)]
        omega
      · rw [advance, Function.update_of_ne heq]
        omega

namespace PcapEngine

/-- A port of the client host and that of the server, the sender's first. -/
def hostPorts (client : UInt16) : Dir → UInt16 × UInt16
  | .client => (client, 3306)
  | .server => (3306, client)

/-- The key of a connection from that port. -/
def hostKey (client : UInt16) : FlowKey :=
  ⟨⟨v4mapped clientHost.addr, client.toNat⟩, ⟨v4mapped serverHost.addr, serverHost.port⟩⟩

/-- The addresses of a direction between the two hosts. -/
def hostAddrs : Dir → Bytes × Bytes
  | .client => (clientHost.addr, serverHost.addr)
  | .server => (serverHost.addr, clientHost.addr)

theorem hostAddrs_src (dir : Dir) : (hostAddrs dir).1.length = 4 := by cases dir <;> rfl

theorem hostAddrs_dst (dir : Dir) : (hostAddrs dir).2.length = 4 := by cases dir <;> rfl

theorem noWords_lt : 0 < 11 := by decide

theorem noBits_lt : 0 < 16 := by decide

theorem noOptions_length : ([] : Bytes).length = 4 * 0 := rfl

/-- A segment between the two hosts, in a raw IPv4 datagram. -/
def hostFrame (client : UInt16) (dir : Dir) (seq : UInt32) (syn ack : Bool) (payload : Bytes)
    (h : payload.length < 2 ^ 15) : WireFrame where
  link := .raw
  ip := .v4
    { tos := 0, ident := 0, reservedBit := false, dontFragment := true, ttl := 64, checksum := 0
      src := (hostAddrs dir).1, dst := (hostAddrs dir).2, options := [], words := ⟨0, noWords_lt⟩
      src_length := hostAddrs_src dir, dst_length := hostAddrs_dst dir
      options_length := noOptions_length }
  tcp :=
    { srcPort := (hostPorts client dir).1, dstPort := (hostPorts client dir).2
      seq := seq, ackSeq := 0
      reserved := ⟨0, noBits_lt⟩, fin := false, syn := syn, rst := false, psh := true, ack := ack
      urg := false, ece := false, cwr := false, window := 0xffff, checksum := 0, urgent := 0
      options := [], words := ⟨0, noWords_lt⟩, options_length := noOptions_length }
  payload := payload
  padding := []
  fits := by
    change 20 + 0 + (TcpHeader.encode _ payload).length < 2 ^ 16
    rw [TcpHeader.length_encode]
    dsimp only [List.length_nil]
    omega

section Hosts

variable {client : UInt16}

theorem arrival_hostFrame (hclient : client ≠ 3306) (dir : Dir) (seq : UInt32) (syn ack : Bool)
    {payload : Bytes} (h : payload.length < 2 ^ 15) (ts : ℤ) :
    arrival 3306 ((hostFrame client dir seq syn ack payload h).packet ts false) =
      some (hostKey client, ⟨dir, ts, (hostFrame client dir seq syn ack payload h).segment⟩) := by
  have hport : client.toNat ≠ 3306 := fun heq ↦ hclient (UInt16.toNat_inj.mp heq)
  rw [WireFrame.arrival_packet]
  cases dir with
  | client =>
    have hkey : classifySegment 3306 (hostFrame client .client seq syn ack payload h).segment =
        some (hostKey client, .client) := (if_neg hport).trans (if_pos rfl)
    rw [hkey]
    rfl
  | server => rfl

theorem length_hostFrame (client : UInt16) (dir : Dir) (seq : UInt32) (syn ack : Bool)
    {payload : Bytes} (h : payload.length < 2 ^ 15) (ts : ℤ) :
    ((hostFrame client dir seq syn ack payload h).packet ts false).frame.length < 2 ^ 16 := by
  have hfits := (hostFrame client dir seq syn ack payload h).fits
  rw [WireFrame.packet]
  change (Ipv4Header.encode _ _ ++ []).length < 2 ^ 16
  rw [List.append_nil, Ipv4Header.length_encode]
  exact hfits

/-- A segment that fits a datagram. -/
abbrev Small (s : DataSegment) : Prop := s.payload.length < 2 ^ 15

/-- A data segment between the two hosts, whose SYNs have sequence number 0. -/
def dataFrame (client : UInt16) (s : DataSegment) (h : Small s) : WireFrame :=
  hostFrame client s.dir (1 + UInt32.ofNat s.offset) false true s.payload h

/-- What the engine sees of it. -/
def dataArrival (client : UInt16) (s : DataSegment) (h : Small s) : Arrival :=
  ⟨s.dir, s.tsMicros, (dataFrame client s h).segment⟩

/-- The SYN of a direction. -/
def synFrame (client : UInt16) (dir : Dir) : WireFrame :=
  hostFrame client dir 0 true (dir == .server) [] (by decide)

def synArrival (client : UInt16) (dir : Dir) : Arrival := ⟨dir, 0, (synFrame client dir).segment⟩

/-- The frames of a connection between the two hosts. -/
def hostPackets (client : UInt16) (ss : List DataSegment) (h : ∀ s ∈ ss, Small s) : List Packet :=
  (synFrame client .client).packet 0 false :: (synFrame client .server).packet 0 false ::
    ss.pmap (fun s hs ↦ (dataFrame client s hs).packet s.tsMicros false) h

/-- The connection as it is seen in them. -/
def hostTransport (client : UInt16) (ss : List DataSegment) (h : ∀ s ∈ ss, Small s) :
    Transport where
  syn := synArrival client .client
  synAck := synArrival client .server
  data := ss.pmap (dataArrival client) h
  segments := ss
  late := []

theorem arrivalsOf_hostPackets (hclient : client ≠ 3306) (ss : List DataSegment)
    (h : ∀ s ∈ ss, Small s) (key : FlowKey) :
    arrivalsOf 3306 key (hostPackets client ss h) =
      if hostKey client = key then (hostTransport client ss h).arrivals else [] := by
  have hone (a : Arrival) : (some (hostKey client, a)).bind
      (fun ka ↦ if ka.1 = key then some ka.2 else none) =
        if hostKey client = key then some a else none := rfl
  have hdata : arrivalsOf 3306 key
      (ss.pmap (fun s hs ↦ (dataFrame client s hs).packet s.tsMicros false) h) =
        if hostKey client = key then ss.pmap (dataArrival client) h else [] := by
    induction ss with
    | nil =>
      split_ifs <;> rfl
    | cons s ss ih =>
      have hs := arrival_hostFrame hclient s.dir (1 + UInt32.ofNat s.offset) false true
        (h s List.mem_cons_self) s.tsMicros
      have hrest := ih fun x hx ↦ h x (List.mem_cons_of_mem s hx)
      rw [arrivalsOf] at hrest ⊢
      rw [List.pmap, List.filterMap_cons, dataFrame, hs, hone, hrest]
      split_ifs <;> rfl
  have hnil : ([] : Bytes).length < 2 ^ 15 := by decide
  have hsyn (dir : Dir) := arrival_hostFrame hclient dir 0 true (dir == .server) hnil 0
  rw [arrivalsOf] at hdata ⊢
  rw [hostPackets, List.filterMap_cons, synFrame, hsyn, hone, List.filterMap_cons, synFrame, hsyn,
    hone, hdata, Transport.arrivals, Transport.seen]
  split_ifs
  · exact (List.append_nil _).symm
  · rfl

theorem carried_hostTransport (client : UInt16) (ss : List DataSegment) (h : ∀ s ∈ ss, Small s)
    (hfin : ∀ s ∈ ss, s.fin = false) :
    List.Forall₂ (Carried fun _ ↦ 1) (ss.pmap (dataArrival client) h) ss := by
  induction ss with
  | nil => exact .nil
  | cons s ss ih =>
    obtain ⟨hs, hrest⟩ := List.forall_mem_cons.mp hfin
    exact .cons ⟨rfl, rfl, rfl, rfl, hs.symm, rfl, rfl⟩
      (ih (fun x hx ↦ h x (List.mem_cons_of_mem s hx)) hrest)

/-- Segments between the two hosts, none of which is the last, are a connection. -/
theorem hostTransport_wellFormed (client : UInt16) {ss : List DataSegment}
    (h : ∀ s ∈ ss, Small s) (hfin : ∀ s ∈ ss, s.fin = false) (horder : InOrder (fun _ ↦ 0) ss) :
    (hostTransport client ss h).WellFormed where
  syn := ⟨rfl, rfl, rfl, rfl, rfl⟩
  synAck := ⟨rfl, rfl, rfl, rfl, rfl⟩
  carried := by
    have hisn : (hostTransport client ss h).isn = fun _ ↦ 1 := by
      funext dir
      cases dir <;> rfl
    rw [hisn]
    exact carried_hostTransport client ss h hfin
  inOrder := horder
  before_end := by
    intro n _
    have hnone : ended .client (ss.take n) = false := by
      rw [ended, List.any_eq_false]
      intro s hs
      rw [hfin s (List.mem_of_mem_take hs), Bool.and_false]
      exact Bool.false_ne_true
    change (ended .client (ss.take n) && ended .server (ss.take n)) = false
    rw [hnone, Bool.false_and]
  late := fun a ha ↦ absurd ha List.not_mem_nil

end Hosts

theorem segmentsOf_small {pos : Positions} {cs : List Chunk}
    (h : ∀ c ∈ cs, c.data.length < 2 ^ 15) :
    ∀ s ∈ segmentsOf pos cs, Small s := by
  induction cs generalizing pos with
  | nil => exact fun s hs ↦ absurd hs List.not_mem_nil
  | cons c cs ih =>
    obtain ⟨hc, hcs⟩ := List.forall_mem_cons.mp h
    exact List.forall_mem_cons.mpr ⟨hc, ih hcs⟩

theorem segmentsOf_tsMicros {pos : Positions} {cs : List Chunk} {s : DataSegment}
    (h : s ∈ segmentsOf pos cs) : ∃ c ∈ cs, c.tsMicros = s.tsMicros := by
  induction cs generalizing pos with
  | nil => exact absurd h List.not_mem_nil
  | cons c cs ih =>
    rcases List.mem_cons.mp h with rfl | h
    · exact ⟨c, List.mem_cons_self, rfl⟩
    · obtain ⟨c', hc', hts⟩ := ih h
      exact ⟨c', List.mem_cons_of_mem c hc', hts⟩

/-- Every dialogue can be captured, from any port, if its chunks fit a datagram each. -/
theorem exists_capture {client : UInt16} (hclient : client ≠ 3306) {g : Dialogue}
    (hg : g.WellFormed) (hsmall : ∀ c ∈ g.calls, c.data ≠ [] ∧ c.data.length < 2 ^ 15)
    (htotal : (g.calls.map (·.data.length)).sum < 2 ^ 64) :
    ∃ (ps : List Packet) (t : Transport), t.Carries g ∧
      (∀ key, arrivalsOf 3306 key ps = if hostKey client = key then t.arrivals else []) ∧
      ∀ p ∈ ps, p.linktype = LINKTYPE_RAW ∧ p.frame.length < 2 ^ 16 ∧
        (p.tsMicros = 0 ∨ ∃ c ∈ g.calls, c.tsMicros = p.tsMicros) := by
  have hfits : ∀ s ∈ segmentsOf (fun _ ↦ 0) g.calls, Small s :=
    segmentsOf_small fun c hc ↦ (hsmall c hc).2
  have horder : InOrder (fun _ ↦ 0) (segmentsOf (fun _ ↦ 0) g.calls) := by
    apply inOrder_segmentsOf
    intro dir
    rwa [Nat.zero_add]
  refine ⟨hostPackets client _ hfits, hostTransport client _ hfits, ⟨?_, hg, ?_⟩,
    arrivalsOf_hostPackets hclient _ hfits, ?_⟩
  · exact hostTransport_wellFormed client hfits (segmentsOf_fin _ _) horder
  · exact delivered_segmentsOf _ fun c hc ↦ (hsmall c hc).1
  · intro p hp
    rcases List.mem_cons.mp hp with rfl | hp
    · exact ⟨rfl, length_hostFrame _ _ _ _ _ _ _, Or.inl rfl⟩
    rcases List.mem_cons.mp hp with rfl | hp
    · exact ⟨rfl, length_hostFrame _ _ _ _ _ _ _, Or.inl rfl⟩
    · obtain ⟨s, hs, rfl⟩ := List.mem_pmap.mp hp
      exact ⟨rfl, length_hostFrame _ _ _ _ _ _ _, Or.inr (segmentsOf_tsMicros hs)⟩

/-- The packets of the sample are short: a header each, and the payload. -/
theorem length_encodePacket (seq : UInt8) {payload : Bytes} (h : payload.length < fullPayload) :
    (encodePacket seq payload).length = payload.length + 4 := by
  rw [encodePacket, if_pos h, List.length_append, Nat.add_comm]
  rfl

theorem sampleDialogue_sizes (start : ℤ) {text : Bytes} (h : text.length < 100) :
    (ConnDecoder.sampleDialogue start text).calls.map (·.data.length) =
      [40, 41, 11, text.length + 5, 11, 5] := by
  have hcalls : (ConnDecoder.sampleDialogue start text).calls.map (·.data) =
      [encodePacket 0 ConnDecoder.sampleGreeting.encode,
        encodePacket 1 ConnDecoder.sampleLogin.encode, encodePacket 2 [0, 0, 0, 2, 0, 0, 0],
        encodePacket 0 (COM_QUERY :: text) ++ [],
        encodePacket (lastSeqOf 0 (COM_QUERY :: text) + 1) [0, 0, 0, 2, 0, 0, 0] ++ [],
        encodePacket 0 [COM_QUIT]] := rfl
  have hsizes : (ConnDecoder.sampleDialogue start text).calls.map (·.data.length) =
      ((ConnDecoder.sampleDialogue start text).calls.map (·.data)).map List.length := by
    rw [List.map_map]
    rfl
  have hquery : (COM_QUERY :: text).length < fullPayload :=
    (Nat.succ_le_of_lt h).trans_lt (by decide)
  rw [hsizes, hcalls]
  simp only [List.map_cons, List.map_nil, List.append_nil]
  rw [length_encodePacket 0 (by decide), length_encodePacket 1 (by decide),
    length_encodePacket 2 (by decide), length_encodePacket 0 hquery,
    length_encodePacket _ (by decide), length_encodePacket 0 (by decide)]
  rfl

theorem sampleDialogue_small (start : ℤ) {text : Bytes} (h : text.length < 100) :
    ∀ c ∈ (ConnDecoder.sampleDialogue start text).calls,
      c.data ≠ [] ∧ c.data.length < 2 ^ 15 := by
  intro c hc
  have hlen : c.data.length ∈
      (ConnDecoder.sampleDialogue start text).calls.map (·.data.length) := List.mem_map_of_mem hc
  rw [sampleDialogue_sizes start h] at hlen
  have hrange : 0 < c.data.length ∧ c.data.length < 2 ^ 15 := by
    revert hlen
    generalize c.data.length = n
    simp only [List.mem_cons, List.not_mem_nil, or_false]
    omega
  exact ⟨List.length_pos_iff.mp hrange.1, hrange.2⟩

theorem sampleDialogue_total (start : ℤ) {text : Bytes} (h : text.length < 100) :
    ((ConnDecoder.sampleDialogue start text).calls.map (·.data.length)).sum < 2 ^ 64 := by
  rw [sampleDialogue_sizes start h]
  simp only [List.sum_cons, List.sum_nil]
  omega

theorem sampleDialogue_times (start : ℤ) (text : Bytes) :
    ∀ c ∈ (ConnDecoder.sampleDialogue start text).calls,
      start ≤ c.tsMicros ∧ c.tsMicros ≤ start + 10 := by
  have hmap : (ConnDecoder.sampleDialogue start text).calls.map (·.tsMicros) =
      [start, start + 1, start + 2, start + 4, start + 8, start + 10] := rfl
  refine List.forall_mem_map (P := fun ts ↦ start ≤ ts ∧ ts ≤ start + 10).mp ?_
  rw [hmap]
  simp only [List.forall_mem_cons, List.not_mem_nil, false_imp_iff, implies_true, and_true]
  omega

/-! ## Two clients at once -/

/-- The connections of two clients. -/
def sampleClients : List FlowKey := [hostKey 50000, hostKey 50001]

/-- What they say. -/
def sampleDialogues (key : FlowKey) : Dialogue :=
  if key = hostKey 50000 then ConnDecoder.sampleDialogue 1 (ascii "SELECT 1")
  else ConnDecoder.sampleDialogue 5 (ascii "SELECT a")

/-- The events that come of it. -/
def sampleSessions : List (List ProtoEvent) :=
  [[⟨5, ascii "SELECT 1", 4, true, none, some (ascii "app")⟩],
    [⟨9, ascii "SELECT a", 4, true, none, some (ascii "app")⟩]]

theorem sampleClients_nodup : sampleClients.Nodup := by decide

theorem sampleDialogues_events :
    sampleClients.map (fun key ↦ (sampleDialogues key).events) = sampleSessions := by
  decide +kernel

theorem arrivalsOf_append (port : ℕ) (key : FlowKey) (ps qs : List Packet) :
    arrivalsOf port key (ps ++ qs) = arrivalsOf port key ps ++ arrivalsOf port key qs :=
  List.filterMap_append

/-- A list of frames of which one connection has none tells nothing of it in any part. -/
theorem arrivalsOf_take_drop {port : ℕ} {key : FlowKey} {ps : List Packet}
    (h : arrivalsOf port key ps = []) (n : ℕ) :
    arrivalsOf port key (ps.take n) = [] ∧ arrivalsOf port key (ps.drop n) = [] := by
  rw [← List.take_append_drop n ps, arrivalsOf_append] at h
  exact List.append_eq_nil_iff.mp h

/-- The second client logs in and sends its query before the first one has its response. -/
theorem exists_twoClients : ∃ (ps : List Packet) (t : FlowKey → Transport),
    (∀ key ∈ sampleClients, (t key).Carries (sampleDialogues key)) ∧
      (∀ key ∈ sampleClients, arrivalsOf 3306 key ps = (t key).arrivals) ∧
      (∀ key ∉ sampleClients, arrivalsOf 3306 key ps = []) ∧
      ∀ p ∈ ps, p.linktype = LINKTYPE_RAW ∧ p.frame.length < 2 ^ 16 ∧
        0 ≤ p.tsMicros ∧ p.tsMicros < 16 := by
  have hfirst : (ascii "SELECT 1").length < 100 := by decide
  have hsecond : (ascii "SELECT a").length < 100 := by decide
  have hports : (50000 : UInt16) ≠ 3306 ∧ (50001 : UInt16) ≠ 3306 := by decide
  have hne : hostKey 50001 ≠ hostKey 50000 := by decide
  obtain ⟨ps, t, ht, hps, htimes⟩ := exists_capture hports.1
    (ConnDecoder.sampleDialogue_wellFormed 1 _ hfirst) (sampleDialogue_small 1 hfirst)
    (sampleDialogue_total 1 hfirst)
  obtain ⟨ps', t', ht', hps', htimes'⟩ := exists_capture hports.2
    (ConnDecoder.sampleDialogue_wellFormed 5 _ hsecond) (sampleDialogue_small 5 hsecond)
    (sampleDialogue_total 5 hsecond)
  have harrivals (key : FlowKey) :
      arrivalsOf 3306 key (ps.take 6 ++ (ps'.take 6 ++ (ps.drop 6 ++ ps'.drop 6))) =
        if key = hostKey 50000 then t.arrivals else
          if key = hostKey 50001 then t'.arrivals else [] := by
    simp only [arrivalsOf_append]
    by_cases hkey : key = hostKey 50000
    · have hnone : arrivalsOf 3306 key ps' = [] := by
        rw [hps', if_neg (hkey ▸ hne)]
      obtain ⟨htake, hdrop⟩ := arrivalsOf_take_drop hnone 6
      rw [if_pos hkey, htake, hdrop, List.nil_append, List.append_nil, ← arrivalsOf_append,
        List.take_append_drop, hps, if_pos hkey.symm]
    · have hnone : arrivalsOf 3306 key ps = [] := by
        rw [hps, if_neg (Ne.symm hkey)]
      obtain ⟨htake, hdrop⟩ := arrivalsOf_take_drop hnone 6
      rw [if_neg hkey, htake, hdrop, List.nil_append, List.nil_append, ← arrivalsOf_append,
        List.take_append_drop, hps', if_congr eq_comm rfl rfl]
  have hmem (key : FlowKey) : key ∈ sampleClients ↔ key = hostKey 50000 ∨ key = hostKey 50001 := by
    rw [sampleClients, List.mem_cons, List.mem_singleton]
  obtain ⟨ts, hts, hts'⟩ : ∃ ts : FlowKey → Transport,
      ts (hostKey 50000) = t ∧ ts (hostKey 50001) = t' :=
    ⟨fun key ↦ if key = hostKey 50000 then t else t', if_pos rfl, if_neg hne⟩
  refine ⟨ps.take 6 ++ (ps'.take 6 ++ (ps.drop 6 ++ ps'.drop 6)), ts, ?_, ?_, ?_, ?_⟩
  · intro key hkey
    rcases (hmem key).mp hkey with rfl | rfl
    · rw [sampleDialogues, if_pos rfl, hts]
      exact ht
    · rw [sampleDialogues, if_neg hne, hts']
      exact ht'
  · intro key hkey
    rw [harrivals]
    rcases (hmem key).mp hkey with rfl | rfl
    · rw [if_pos rfl, hts]
    · rw [if_neg hne, if_pos rfl, hts']
  · intro key hkey
    obtain ⟨hfirst, hsecond⟩ := not_or.mp (mt (hmem key).mpr hkey)
    rw [harrivals, if_neg hfirst, if_neg hsecond]
  · have hrange (start : ℤ) (text : Bytes) (hstart : 0 ≤ start ∧ start < 6) {p : Packet}
        (hp : p.tsMicros = 0 ∨ ∃ c ∈ (ConnDecoder.sampleDialogue start text).calls,
          c.tsMicros = p.tsMicros) : 0 ≤ p.tsMicros ∧ p.tsMicros < 16 := by
      rcases hp with hp | ⟨c, hc, hp⟩
      · omega
      · have := sampleDialogue_times start text c hc
        omega
    have hone : ∀ p ∈ ps, p.linktype = LINKTYPE_RAW ∧ p.frame.length < 2 ^ 16 ∧
        0 ≤ p.tsMicros ∧ p.tsMicros < 16 := fun p hp ↦
      ⟨(htimes p hp).1, (htimes p hp).2.1, hrange 1 _ (by decide) (htimes p hp).2.2⟩
    have hother : ∀ p ∈ ps', p.linktype = LINKTYPE_RAW ∧ p.frame.length < 2 ^ 16 ∧
        0 ≤ p.tsMicros ∧ p.tsMicros < 16 := fun p hp ↦
      ⟨(htimes' p hp).1, (htimes' p hp).2.1, hrange 5 _ (by decide) (htimes' p hp).2.2⟩
    simp only [List.forall_mem_append]
    exact ⟨fun p hp ↦ hone p (List.mem_of_mem_take hp),
      fun p hp ↦ hother p (List.mem_of_mem_take hp), fun p hp ↦ hone p (List.mem_of_mem_drop hp),
      fun p hp ↦ hother p (List.mem_of_mem_drop hp)⟩

/-- A capture of two clients, each of which sends one query. -/
theorem dialogues_captured_sample : ∃ ps : List Packet,
    (sections (((new 3306).run ps).2 ++
      (((new 3306).run ps).1.finish (keysOf 3306 ps)).2)).Perm sampleSessions := by
  obtain ⟨ps, t, hcarries, hframes, hrest, -⟩ := exists_twoClients
  have hkeys : ∀ key, (((new 3306).run ps).1.conns key).isSome → key ∈ keysOf 3306 ps :=
    mem_keysOf ps
  obtain ⟨-, others, hperm, hnone⟩ :=
    dialogues_captured hkeys sampleClients_nodup hcarries hframes
  rw [hnone hrest, List.append_nil, sampleDialogues_events] at hperm
  exact ⟨ps, hperm⟩

end PcapEngine

end SqlReplay
