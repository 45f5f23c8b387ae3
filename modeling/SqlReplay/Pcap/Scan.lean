import SqlReplay.Capture.Format
import SqlReplay.Pcap.Observed

/-!
# Scanning a capture file

`scan_pcap_file` takes the blocks of a file one by one and hands its frames to the engine, and what
the engine brings out to a callback that may fail. The blocks are cut out by a library; what the
file holds, as the library gives it, is a list of `Reading`s here, with the library's failures among
them.

The two file formats differ in where a frame's link type and the unit of its time are written: in
the one header of a legacy file, or with each interface of each section of a pcap-ng file. `Headers`
is what the loop remembers of them, and it is all that a frame depends on besides its own block. So
a scan is three things in a row (`scanPcapFile_eq`): the blocks up to the end or to a failure, the
frames in these blocks, and the engine's run over the frames.

A failed callback is remembered rather than reported, because the engine cannot be left in the
middle of a frame. The scan still ends at the first failure, the callback's or the file's, whichever
comes first.
-/

namespace SqlReplay

/-! ## Blocks -/

/-- A block of a capture file. -/
inductive PcapBlock where
  | legacyHeader (network : ℤ) (isNanosecondPrecision : Bool)
  | legacy (tsSec tsUsec caplen origlen : UInt32) (data : Bytes)
  | sectionHeader
  | interfaceDescription (linktype : ℤ) (tsResolution : Option UInt64) (ifTsoffset : ℤ)
  | enhancedPacket (ifId tsHigh tsLow caplen origlen : UInt32) (data : Bytes)
  /-- The other blocks of a pcap-ng file. -/
  | other
  deriving DecidableEq, Repr

/-- An interface of a section: its link type, its units of time in a second and their offset. -/
structure NgInterface where
  linktype : ℤ
  unitsPerSecond : ℕ
  tsOffset : ℤ
  deriving DecidableEq, Repr

/-- The headers that the loop remembers. -/
structure Headers where
  legacyLinktype : ℤ := 1
  legacyNanos : Bool := false
  ngIfaces : List NgInterface := []
  deriving DecidableEq, Repr

/-- `as i64`, and `i64` arithmetic, which wraps around. -/
def asI64 (n : ℤ) : ℤ := n.bmod (2 ^ 64)

/-- The time of a legacy packet. -/
def legacyMicros (nanos : Bool) (tsSec tsUsec : UInt32) : ℤ :=
  tsSec.toNat * 1000000 + (if nanos then tsUsec.toNat / 1000 else tsUsec.toNat : ℕ)

/-- The time of an enhanced packet: its units since the offset of the interface. -/
def NgInterface.micros (iface : NgInterface) (tsHigh tsLow : UInt32) : ℤ :=
  let units := tsHigh.toNat * 2 ^ 32 + tsLow.toNat
  asI64 (asI64 (units * 1000000 / max iface.unitsPerSecond 1 : ℕ) +
    asI64 (iface.tsOffset * 1000000))

namespace Headers

/-- What a block is to the loop: something to remember, or a frame for the engine. -/
def onBlock (h : Headers) : PcapBlock → Headers × Option Packet
  | .legacyHeader network nanos =>
    ({ h with legacyLinktype := network, legacyNanos := nanos }, none)
  | .legacy tsSec tsUsec caplen origlen data =>
    (h, some ⟨legacyMicros h.legacyNanos tsSec tsUsec, h.legacyLinktype, data, caplen < origlen⟩)
  | .sectionHeader => ({ h with ngIfaces := [] }, none)
  | .interfaceDescription linktype tsResolution ifTsoffset =>
    ({ h with ngIfaces := h.ngIfaces ++
        [⟨linktype, (tsResolution.getD 1000000).toNat, ifTsoffset⟩] }, none)
  | .enhancedPacket ifId tsHigh tsLow caplen origlen data =>
    -- a packet of an interface that was not described is skipped
    (h, h.ngIfaces[ifId.toNat]?.map fun iface ↦
      ⟨iface.micros tsHigh tsLow, iface.linktype, data.take caplen.toNat, caplen < origlen⟩)
  | .other => (h, none)

end Headers

/-! ## The loop -/

/-- What the reader answers when the loop asks for the next block. -/
inductive Reading where
  | block (b : PcapBlock)
  | eof
  | unexpectedEof
  /-- The buffer ends within a block: whether the file does, too, and how refilling fails if so. -/
  | incomplete (exhausted : Bool) (refill : Option Bytes)
  /-- A block larger than the buffer, and whether the reader can have a larger one. -/
  | bufferTooSmall (grows : Bool)
  | failed (e : Bytes)
  deriving DecidableEq, Repr

variable {σ : Type}

/-- The sink: the state of the callback, and its failure if it has failed. -/
structure Sink (σ : Type) where
  state : σ
  err : Option Bytes

namespace Sink

variable (onEvent : σ → ℕ × ProtoEvent → Except Bytes σ)

/-- The callback is called until it fails. -/
def emit (s : Sink σ) (x : ℕ × ProtoEvent) : Sink σ :=
  if s.err.isSome then s
  else
    match onEvent s.state x with
    | .ok state => { s with state := state }
    | .error e => { s with err := some e }

def emitAll (s : Sink σ) (out : Emitted) : Sink σ := out.foldl (emit onEvent) s

end Sink

/-- The variables of `scan_pcap_file`. -/
structure ScanState (σ : Type) where
  engine : PcapEngine
  headers : Headers
  sink : Sink σ
  bufferCap : ℕ

namespace ScanState

variable (onEvent : σ → ℕ × ProtoEvent → Except Bytes σ)

/-- One block. -/
def onBlock (s : ScanState σ) (b : PcapBlock) : ScanState σ :=
  let r := s.headers.onBlock b
  match r.2 with
  | none => { s with headers := r.1 }
  | some p =>
    let e := s.engine.onPacket p
    { s with headers := r.1, engine := e.1, sink := s.sink.emitAll onEvent e.2 }

/-- The loop. Behind the last reading there are no more blocks. -/
def loop (path : Bytes) (s : ScanState σ) : List Reading → Except Bytes (ScanState σ)
  | [] => .ok s
  | r :: rs =>
    if s.sink.err.isSome then .ok s
    else
      match r with
      | .block b => (s.onBlock onEvent b).loop path rs
      | .eof => .ok s
      | .unexpectedEof => .ok s
      | .incomplete exhausted refill =>
        if exhausted then .ok s
        else
          match refill with
          | none => s.loop path rs
          | some e => .error (ascii "pcap read error: " ++ e)
      | .bufferTooSmall grows =>
        if s.bufferCap * 2 > 2 ^ 30 ∨ grows = false then
          .error (ascii "pcap record larger than the 1 GiB read-buffer cap")
        else { s with bufferCap := s.bufferCap * 2 }.loop path rs
      | .failed e => .error (ascii "malformed pcap file " ++ path ++ ascii ": " ++ e)

/-- What is left to do behind the loop. The table hands out its keys in some order. -/
def close (order : PcapEngine → List FlowKey) (s : ScanState σ) : Except Bytes (PcapStats × σ) :=
  let s :=
    if s.sink.err.isSome then s
    else
      let e := s.engine.finish (order s.engine)
      { s with engine := e.1, sink := s.sink.emitAll onEvent e.2 }
  match s.sink.err with
  | some e => .error e
  | none => .ok (s.engine.stats, s.sink.state)

end ScanState

/-- `scan_pcap_file` on a file that can be opened, with the last state of its callback. The reader
is not created when the file does not begin like a capture. -/
def scanPcapFile (path : Bytes) (port : ℕ) (order : PcapEngine → List FlowKey)
    (onEvent : σ → ℕ × ProtoEvent → Except Bytes σ) (acc : σ)
    (reader : Except Bytes (List Reading)) :
    Except Bytes (PcapStats × σ) :=
  match reader with
  | .error e => .error (ascii "not a pcap/pcap-ng file: " ++ e)
  | .ok readings =>
    ScanState.loop onEvent path ⟨.new port, {}, ⟨acc, none⟩, 2 ^ 20⟩ readings >>=
      ScanState.close onEvent order

/-! ## Blocks, frames, events -/

/-- The blocks that are read, and the failure that ends them, if one does. -/
def readBlocks (path : Bytes) (cap : ℕ) : List Reading → List PcapBlock × Option Bytes
  | [] => ([], none)
  | .block b :: rs => (b :: (readBlocks path cap rs).1, (readBlocks path cap rs).2)
  | .eof :: _ => ([], none)
  | .unexpectedEof :: _ => ([], none)
  | .incomplete true _ :: _ => ([], none)
  | .incomplete false none :: rs => readBlocks path cap rs
  | .incomplete false (some e) :: _ => ([], some (ascii "pcap read error: " ++ e))
  | .bufferTooSmall grows :: rs =>
    if cap * 2 > 2 ^ 30 ∨ grows = false then
      ([], some (ascii "pcap record larger than the 1 GiB read-buffer cap"))
    else readBlocks path (cap * 2) rs
  | .failed e :: _ => ([], some (ascii "malformed pcap file " ++ path ++ ascii ": " ++ e))

/-- The frames in some blocks, behind the headers `h`. -/
def Headers.packets (h : Headers) : List PcapBlock → List Packet
  | [] => []
  | b :: bs => (h.onBlock b).2.toList ++ (h.onBlock b).1.packets bs

/-- What has come of the callback so far. -/
def Sink.result (s : Sink σ) : Except Bytes σ :=
  match s.err with
  | some e => .error e
  | none => .ok s.state

variable {onEvent : σ → ℕ × ProtoEvent → Except Bytes σ}

theorem Sink.result_emit (s : Sink σ) (x : ℕ × ProtoEvent) :
    (s.emit onEvent x).result = s.result >>= fun state ↦ onEvent state x := by
  obtain ⟨state, err⟩ := s
  cases err with
  | some e => rfl
  | none =>
    rw [emit, Option.isSome_none, if_neg Bool.false_ne_true]
    change _ = onEvent state x
    dsimp only
    cases onEvent state x <;> rfl

/-- The remembered failure is the first: the callback's failure ends a fold as it ends the sink. -/
theorem Sink.result_emitAll (s : Sink σ) (out : Emitted) :
    (s.emitAll onEvent out).result = s.result >>= fun state ↦ out.foldlM onEvent state := by
  induction out generalizing s with
  | nil => exact (bind_pure s.result).symm
  | cons x out ih =>
    have hemit : s.emitAll onEvent (x :: out) = (s.emit onEvent x).emitAll onEvent out := rfl
    simp only [List.foldlM_cons]
    rw [hemit, ih, result_emit, bind_assoc]

/-- How a scan ends: with a failure of the file, or with the connections that are still open. -/
def finishScan (onEvent : σ → ℕ × ProtoEvent → Except Bytes σ) (order : PcapEngine → List FlowKey)
    (e : PcapEngine) (failure : Option Bytes) (state : σ) : Except Bytes (PcapStats × σ) :=
  match failure with
  | some err => .error err
  | none =>
    (e.finish (order e)).2.foldlM onEvent state >>= fun state ↦
      .ok ((e.finish (order e)).1.stats, state)

namespace ScanState

variable {order : PcapEngine → List FlowKey} {path : Bytes}

theorem close_eq (s : ScanState σ) :
    s.close onEvent order = s.sink.result >>= finishScan onEvent order s.engine none := by
  obtain ⟨engine, headers, ⟨state, err⟩, cap⟩ := s
  cases err with
  | some e => rfl
  | none =>
    set out := (engine.finish (order engine)).2
    have hresult : (Sink.emitAll onEvent ⟨state, none⟩ out).result = out.foldlM onEvent state :=
      Sink.result_emitAll ⟨state, none⟩ out
    change _ = out.foldlM onEvent state >>= fun state ↦ _
    rw [← hresult, close, Option.isSome_none, if_neg Bool.false_ne_true, Sink.result]
    dsimp only
    cases (Sink.emitAll onEvent ⟨state, none⟩ out).err <;> rfl

/-- The loop and what follows it: the blocks are read, their frames go to the engine, and its events
to the callback, until one of them fails. -/
theorem loop_eq (s : ScanState σ) (rs : List Reading) :
    (s.loop onEvent path rs >>= close onEvent order) = s.sink.result >>= fun state ↦
      let blocks := readBlocks path s.bufferCap rs
      let r := s.engine.run (s.headers.packets blocks.1)
      r.2.foldlM onEvent state >>= finishScan onEvent order r.1 blocks.2 := by
  -- nothing is left to read
  have hend (s : ScanState σ) : ((.ok s : Except Bytes (ScanState σ)) >>= close onEvent order) =
      s.sink.result >>= fun state ↦ (s.engine.run (s.headers.packets [])).2.foldlM onEvent state >>=
        finishScan onEvent order (s.engine.run (s.headers.packets [])).1 none := s.close_eq
  -- the callback has failed
  have hfailed {s : ScanState σ} {e : Bytes} (h : s.sink.err = some e) (rs : List Reading) :
      (s.loop onEvent path rs >>= close onEvent order) = .error e ∧ s.sink.result = .error e := by
    have hresult : s.sink.result = .error e := by rw [Sink.result, h]
    have hloop : s.loop onEvent path rs = .ok s := by
      cases rs with
      | nil => rfl
      | cons r rs =>
        have hsome : s.sink.err.isSome = true := by rw [h, Option.isSome_some]
        rw [loop.eq_def]
        exact if_pos hsome
    refine ⟨?_, hresult⟩
    rw [hloop, hend, hresult]
    rfl
  induction rs generalizing s with
  | nil => exact hend s
  | cons r rs ih =>
    cases herr : s.sink.err with
    | some e =>
      obtain ⟨hloop, hresult⟩ := hfailed herr (r :: rs)
      rw [hloop, hresult]
      rfl
    | none =>
      have hresult : s.sink.result = .ok s.sink.state := by rw [Sink.result, herr]
      have hnone : ¬s.sink.err.isSome = true := by rw [herr]; exact Bool.false_ne_true
      cases r with
      | block b =>
        rw [loop, if_neg hnone]
        rw [ih (s.onBlock onEvent b), onBlock, readBlocks]
        dsimp only
        rw [Headers.packets]
        -- a block is a frame or none
        cases (s.headers.onBlock b).2 with
        | none => rfl
        | some p =>
          rw [Option.toList_some, List.singleton_append, PcapEngine.run]
          dsimp only
          rw [Sink.result_emitAll, bind_assoc]
          refine bind_congr fun state ↦ ?_
          rw [List.foldlM_append, bind_assoc]
      | eof =>
        rw [loop, if_neg hnone]
        exact hend s
      | unexpectedEof =>
        rw [loop, if_neg hnone]
        exact hend s
      | incomplete exhausted refill =>
        cases exhausted with
        | true =>
          rw [loop.eq_def]
          dsimp only
          rw [if_neg hnone]
          exact hend s
        | false =>
          rw [loop.eq_def]
          dsimp only
          rw [if_neg hnone]
          cases refill with
          | none => exact ih s
          | some e =>
            rw [hresult]
            rfl
      | bufferTooSmall grows =>
        rw [loop, if_neg hnone, readBlocks]
        dsimp only
        split_ifs
        · rw [hresult]
          rfl
        · exact ih { s with bufferCap := s.bufferCap * 2 }
      | failed e =>
        rw [loop, if_neg hnone, hresult]
        rfl

end ScanState

/-- **A scan is the engine's run over the frames of the file**, with its events handed to the
callback up to the first failure. -/
theorem scanPcapFile_eq (path : Bytes) (port : ℕ) (order : PcapEngine → List FlowKey)
    (onEvent : σ → ℕ × ProtoEvent → Except Bytes σ) (acc : σ) (readings : List Reading) :
    scanPcapFile path port order onEvent acc (.ok readings) =
      let blocks := readBlocks path (2 ^ 20) readings
      let r := (PcapEngine.new port).run (Headers.packets {} blocks.1)
      r.2.foldlM onEvent acc >>= finishScan onEvent order r.1 blocks.2 :=
  ScanState.loop_eq _ readings

/-! ## Two formats -/

/-- What a capture says of the lengths of a frame: how long it is there, and was on the wire. -/
def capturedLengths (p : Packet) : UInt32 × UInt32 :=
  (UInt32.ofNat p.frame.length, UInt32.ofNat (p.frame.length + p.truncated.toNat))

/-- A frame in a legacy file. -/
def legacyRecord (nanos : Bool) (p : Packet) : PcapBlock :=
  .legacy (UInt32.ofNat (p.tsMicros.toNat / 1000000))
    (UInt32.ofNat (p.tsMicros.toNat % 1000000 * if nanos then 1000 else 1))
    (capturedLengths p).1 (capturedLengths p).2 p.frame

/-- A legacy file. -/
def legacyFile (network : ℤ) (nanos : Bool) (ps : List Packet) : List PcapBlock :=
  .legacyHeader network nanos :: ps.map (legacyRecord nanos)

/-- A frame that a legacy file can hold. -/
structure LegacyFits (network : ℤ) (p : Packet) : Prop where
  linktype_eq : p.linktype = network
  nonneg : 0 ≤ p.tsMicros
  micros_lt : p.tsMicros < 2 ^ 32 * 1000000
  length_lt : p.frame.length < 2 ^ 32 - 1

/-- An interface as a pcap-ng file describes it. -/
structure NgDescription where
  linktype : ℤ
  tsResolution : Option UInt64
  ifTsoffset : ℤ

/-- The interface that the loop remembers. -/
def NgDescription.interface (d : NgDescription) : NgInterface :=
  ⟨d.linktype, (d.tsResolution.getD 1000000).toNat, d.ifTsoffset⟩

/-- A frame of a pcap-ng file: the interface that it came from, and its time in units of that. -/
structure NgFrame where
  ifId : UInt32
  units : UInt64
  packet : Packet

/-- A section of a pcap-ng file: its interfaces and its frames. -/
structure NgSection where
  descriptions : List NgDescription
  frames : List NgFrame

/-- The block of a frame. -/
def NgFrame.record (f : NgFrame) : PcapBlock :=
  .enhancedPacket f.ifId (UInt32.ofNat (f.units.toNat / 2 ^ 32))
    (UInt32.ofNat (f.units.toNat % 2 ^ 32))
    (capturedLengths f.packet).1 (capturedLengths f.packet).2 f.packet.frame

/-- A frame that an interface can have: its units come to its time, in whole microseconds. -/
structure NgDescription.Fits (d : NgDescription) (f : NgFrame) : Prop where
  linktype_eq : f.packet.linktype = d.linktype
  offset_le : d.ifTsoffset * 1000000 ≤ f.packet.tsMicros
  units_eq : f.units.toNat * 1000000 / max d.interface.unitsPerSecond 1 =
    (f.packet.tsMicros - d.ifTsoffset * 1000000).toNat
  micros_ge : -2 ^ 63 ≤ f.packet.tsMicros
  micros_lt : f.packet.tsMicros < 2 ^ 63
  length_lt : f.packet.frame.length < 2 ^ 32 - 1

namespace NgSection

/-- The blocks of a section. -/
def blocks (s : NgSection) : List PcapBlock :=
  .sectionHeader ::
    (s.descriptions.map fun d ↦ .interfaceDescription d.linktype d.tsResolution d.ifTsoffset) ++
      s.frames.map NgFrame.record

/-- The frames of a section. -/
def packets (s : NgSection) : List Packet := s.frames.map NgFrame.packet

/-- Every frame came from an interface that can have it. -/
def WellFormed (s : NgSection) : Prop :=
  ∀ f ∈ s.frames, ∃ d, s.descriptions[f.ifId.toNat]? = some d ∧ d.Fits f

end NgSection

theorem capturedLengths_spec {p : Packet} (h : p.frame.length < 2 ^ 32 - 1) :
    p.frame.take (capturedLengths p).1.toNat = p.frame ∧
      decide ((capturedLengths p).1 < (capturedLengths p).2) = p.truncated := by
  have hcap : (capturedLengths p).1.toNat = p.frame.length :=
    UInt32.toNat_ofNat_of_lt' (h.trans (by decide))
  have horig : (capturedLengths p).2.toNat = p.frame.length + p.truncated.toNat := by
    have hle := Bool.toNat_le p.truncated
    apply UInt32.toNat_ofNat_of_lt'
    change _ < 2 ^ 32
    omega
  refine ⟨?_, ?_⟩
  · rw [hcap, List.take_length]
  · have hlt : (capturedLengths p).1 < (capturedLengths p).2 ↔ p.truncated = true := by
      rw [UInt32.lt_iff_toNat_lt, hcap, horig]
      cases p.truncated <;> simp
    rw [Bool.eq_iff_iff, decide_eq_true_iff]
    exact hlt

/-- The time of a legacy packet is read back, whatever the precision. -/
theorem legacyMicros_eq (nanos : Bool) {ts : ℤ} (hnonneg : 0 ≤ ts) (hlt : ts < 2 ^ 32 * 1000000) :
    legacyMicros nanos (UInt32.ofNat (ts.toNat / 1000000))
      (UInt32.ofNat (ts.toNat % 1000000 * if nanos then 1000 else 1)) = ts := by
  have hsec : (UInt32.ofNat (ts.toNat / 1000000)).toNat = ts.toNat / 1000000 := by
    apply UInt32.toNat_ofNat_of_lt'
    change _ < 2 ^ 32
    omega
  have hsub : (UInt32.ofNat (ts.toNat % 1000000 * if nanos then 1000 else 1)).toNat =
      ts.toNat % 1000000 * if nanos then 1000 else 1 := by
    apply UInt32.toNat_ofNat_of_lt'
    change _ < 2 ^ 32
    split_ifs <;> omega
  rw [legacyMicros, hsec, hsub]
  split_ifs
  · rw [Nat.mul_div_cancel _ (by decide)]
    omega
  · rw [mul_one]
    omega

/-- The time of an enhanced packet is read back, whatever the resolution and the offset. -/
theorem NgDescription.Fits.micros_eq {d : NgDescription} {f : NgFrame} (h : d.Fits f) :
    d.interface.micros (UInt32.ofNat (f.units.toNat / 2 ^ 32))
      (UInt32.ofNat (f.units.toNat % 2 ^ 32)) = f.packet.tsMicros := by
  have hunits : f.units.toNat < 2 ^ 64 := f.units.toNat_lt
  have hhigh : (UInt32.ofNat (f.units.toNat / 2 ^ 32)).toNat = f.units.toNat / 2 ^ 32 := by
    apply UInt32.toNat_ofNat_of_lt'
    change _ < 2 ^ 32
    omega
  have hlow : (UInt32.ofNat (f.units.toNat % 2 ^ 32)).toNat = f.units.toNat % 2 ^ 32 := by
    apply UInt32.toNat_ofNat_of_lt'
    change _ < 2 ^ 32
    omega
  have hjoin : f.units.toNat / 2 ^ 32 * 2 ^ 32 + f.units.toNat % 2 ^ 32 = f.units.toNat := by
    omega
  have hoffset : d.interface.tsOffset = d.ifTsoffset := rfl
  rw [NgInterface.micros, hhigh, hlow, hjoin, h.units_eq, hoffset,
    Int.toNat_of_nonneg (sub_nonneg.mpr h.offset_le), asI64, asI64, asI64, Int.bmod_add_bmod,
    Int.add_bmod_bmod, sub_add_cancel]
  have hge := h.micros_ge
  have hlt := h.micros_lt
  apply Int.bmod_eq_of_le
  · omega
  · omega

namespace Headers

theorem packets_legacyRecords {h : Headers} {ps : List Packet}
    (hfits : ∀ p ∈ ps, LegacyFits h.legacyLinktype p) :
    h.packets (ps.map (legacyRecord h.legacyNanos)) = ps := by
  induction ps with
  | nil => rfl
  | cons p ps ih =>
    obtain ⟨hp, hps⟩ := List.forall_mem_cons.mp hfits
    have hblock : h.onBlock (legacyRecord h.legacyNanos p) = (h, some p) := by
      rw [legacyRecord, onBlock, legacyMicros_eq _ hp.nonneg hp.micros_lt,
        (capturedLengths_spec hp.length_lt).2, ← hp.linktype_eq]
    rw [List.map_cons, packets, hblock]
    exact congrArg (p :: ·) (ih hps)

/-- The frames of a legacy file are read back. -/
theorem packets_legacyFile (h : Headers) {network : ℤ} (nanos : Bool) {ps : List Packet}
    (hfits : ∀ p ∈ ps, LegacyFits network p) : h.packets (legacyFile network nanos ps) = ps :=
  packets_legacyRecords (h := { h with legacyLinktype := network, legacyNanos := nanos }) hfits

theorem packets_append (h : Headers) (bs bs' : List PcapBlock) :
    h.packets (bs ++ bs') =
      h.packets bs ++ (bs.foldl (fun h b ↦ (h.onBlock b).1) h).packets bs' := by
  induction bs generalizing h with
  | nil => rfl
  | cons b bs ih => rw [List.cons_append, packets, packets, ih, List.append_assoc]; rfl

/-- The descriptions of a section are remembered in order, and are no frames. -/
theorem packets_descriptions (h : Headers) (ds : List NgDescription) (bs : List PcapBlock) :
    h.packets
        ((ds.map fun d ↦ .interfaceDescription d.linktype d.tsResolution d.ifTsoffset) ++ bs) =
      { h with ngIfaces := h.ngIfaces ++ ds.map NgDescription.interface }.packets bs := by
  induction ds generalizing h with
  | nil => rw [List.map_nil, List.map_nil, List.append_nil]; rfl
  | cons d ds ih =>
    rw [List.map_cons, List.cons_append, packets]
    refine (ih _).trans ?_
    dsimp only [onBlock]
    rw [List.append_assoc]
    rfl

theorem packets_ngRecords {h : Headers} {s : NgSection} (hs : s.WellFormed)
    (hifaces : h.ngIfaces = s.descriptions.map NgDescription.interface) :
    h.packets (s.frames.map NgFrame.record) = s.packets ∧
      (s.frames.map NgFrame.record).foldl (fun h b ↦ (h.onBlock b).1) h = h := by
  obtain ⟨descriptions, frames⟩ := s
  induction frames with
  | nil => exact ⟨rfl, rfl⟩
  | cons f frames ih =>
    obtain ⟨⟨d, hd, hfits⟩, hframes⟩ := List.forall_mem_cons.mp hs
    obtain ⟨hpackets, hsame⟩ := ih hframes hifaces
    dsimp only at hpackets hsame hd hifaces ⊢
    have hblock : h.onBlock f.record = (h, some f.packet) := by
      have hget : h.ngIfaces[f.ifId.toNat]? = some d.interface := by
        rw [hifaces, List.getElem?_map, hd]
        rfl
      obtain ⟨htake, htruncated⟩ := capturedLengths_spec hfits.length_lt
      rw [NgFrame.record, onBlock, hget, Option.map_some, hfits.micros_eq, htake, htruncated]
      dsimp only [NgDescription.interface]
      rw [← hfits.linktype_eq]
    rw [List.map_cons, packets, hblock, List.foldl_cons, hblock]
    exact ⟨congrArg (f.packet :: ·) hpackets, hsame⟩

/-- The frames of a pcap-ng file are read back, of whatever interfaces they are. -/
theorem packets_ngFile (h : Headers) {ss : List NgSection} (hss : ∀ s ∈ ss, s.WellFormed) :
    h.packets (ss.flatMap NgSection.blocks) = ss.flatMap NgSection.packets := by
  induction ss generalizing h with
  | nil => rfl
  | cons s ss ih =>
    obtain ⟨hs, hss⟩ := List.forall_mem_cons.mp hss
    rw [List.flatMap_cons, List.flatMap_cons, packets_append, ih _ hss]
    refine congrArg (· ++ _) ?_
    rw [NgSection.blocks, List.cons_append, packets, packets_descriptions]
    exact (packets_ngRecords hs rfl).1

end Headers

theorem readBlocks_blocks (path : Bytes) (cap : ℕ) (bs : List PcapBlock) :
    readBlocks path cap (bs.map .block) = (bs, none) := by
  induction bs with
  | nil => rfl
  | cons b bs ih => rw [List.map_cons, readBlocks, ih]

/-- An interface whose frames are bare datagrams, timed in nanoseconds. -/
def rawInterface : NgDescription := ⟨LINKTYPE_RAW, some 1000000000, 0⟩

/-- One without a resolution, whose times count from its own offset. -/
def earlyInterface : NgDescription := ⟨LINKTYPE_RAW, none, -1⟩

/-- One with a resolution of 2^-20 seconds, a little less than a microsecond. -/
def binaryInterface : NgDescription := ⟨LINKTYPE_RAW, some 0x100000, 0⟩

/-- A section of two interfaces, which have captured the same frame, and one of another. -/
def sampleSections : List NgSection :=
  [⟨[earlyInterface, rawInterface],
      [⟨1, 1000, PcapEngine.synPacket 1⟩, ⟨0, 1000001, PcapEngine.synPacket 1⟩]⟩,
    ⟨[binaryInterface], [⟨0, 3, PcapEngine.otherSynPacket⟩]⟩]

end SqlReplay
