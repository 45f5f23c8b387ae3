import SqlReplay.Proto.Decoder

/-!
# Packets through the decoder

What a peer sends is a list of payloads, each under a sequence id; what the decoder gets is their
encoding, cut into chunks anywhere. This file carries a run over the chunks of one direction back
to a run over the logical packets, each with the timestamp of the chunk that holds its first byte.
-/

namespace SqlReplay

/-! ## Sequences of packets -/

/-- The bytes of a sequence of payloads under the sequence ids of their first wire packets. -/
def encodePackets (pkts : List (UInt8 × Bytes)) : Bytes :=
  pkts.flatMap fun p ↦ encodePacket p.1 p.2

/-- The logical packets of that sequence, from a stream offset on. -/
def packetsAt (clock : ℕ → ℤ) (offset : ℕ) : List (UInt8 × Bytes) → List LogicalPacket
  | [] => []
  | (seq, payload) :: pkts =>
    ⟨seq, lastSeqOf seq payload, clock offset, payload⟩ ::
      packetsAt clock (offset + (encodePacket seq payload).length) pkts

/-- Each command starts at sequence id 0. -/
def commandPackets (commands : List Bytes) : List (UInt8 × Bytes) := commands.map (0, ·)

/-- The payloads of a response, numbered on from `seq`. -/
def numbered (seq : UInt8) : List Bytes → List (UInt8 × Bytes)
  | [] => []
  | payload :: payloads => (seq, payload) :: numbered (lastSeqOf seq payload + 1) payloads

/-- The sequence id behind such a response. -/
def seqAfter (seq : UInt8) : List Bytes → UInt8
  | [] => seq
  | payload :: payloads => seqAfter (lastSeqOf seq payload + 1) payloads

/-- Every payload is within the limit of the decoder. -/
def WithinLimit (pkts : List (UInt8 × Bytes)) : Prop :=
  ∀ p ∈ pkts, p.2.length ≤ maxLogicalPacket

instance : DecidablePred WithinLimit := fun pkts ↦
  inferInstanceAs (Decidable (∀ p ∈ pkts, p.2.length ≤ maxLogicalPacket))

theorem packetsAt_append (clock : ℕ → ℤ) (offset : ℕ) (a b : List (UInt8 × Bytes)) :
    packetsAt clock offset (a ++ b) =
      packetsAt clock offset a ++ packetsAt clock (offset + (encodePackets a).length) b := by
  induction a generalizing offset with
  | nil => rfl
  | cons p a ih =>
    rw [List.cons_append, packetsAt, packetsAt, ih, List.cons_append, Nat.add_assoc]
    congr 3
    rw [encodePackets, encodePackets, List.flatMap_cons, List.length_append]

theorem packetsAt_shift (clock : ℕ → ℤ) (base offset : ℕ) (pkts : List (UInt8 × Bytes)) :
    packetsAt clock (base + offset) pkts = packetsAt (fun i ↦ clock (base + i)) offset pkts := by
  induction pkts generalizing offset with
  | nil => rfl
  | cons p pkts ih => rw [packetsAt, packetsAt, Nat.add_assoc, ih]

theorem assemble_encodePackets (clock : ℕ → ℤ) (offset : ℕ) {pkts : List (UInt8 × Bytes)}
    (h : WithinLimit pkts) :
    assemble clock offset (encodePackets pkts) none =
      ⟨packetsAt clock offset pkts, offset + (encodePackets pkts).length, [], none, false⟩ := by
  induction pkts generalizing offset with
  | nil => rw [encodePackets, List.flatMap_nil, assemble_none rfl]; rfl
  | cons p pkts ih =>
    obtain ⟨hp, hpkts⟩ := List.forall_mem_cons.mp h
    have hfirst := assemble_encodePacket clock offset none p.1 (encodePackets pkts) hp
    rw [ih _ hpkts] at hfirst
    rw [show encodePackets (p :: pkts) = encodePacket p.1 p.2 ++ encodePackets pkts from rfl,
      hfirst, List.length_append, ← Nat.add_assoc]
    rfl

/-- One pass over a sequence with a packet larger than the limit gives up. -/
theorem broken_assemble_encodePackets (clock : ℕ → ℤ) (offset : ℕ) {pkts : List (UInt8 × Bytes)}
    (h : ¬WithinLimit pkts) : (assemble clock offset (encodePackets pkts) none).broken := by
  induction pkts generalizing offset with
  | nil => exact absurd (fun _ h ↦ absurd h List.not_mem_nil) h
  | cons p pkts ih =>
    rw [show encodePackets (p :: pkts) = encodePacket p.1 p.2 ++ encodePackets pkts from rfl]
    by_cases hp : p.2.length ≤ maxLogicalPacket
    · rw [assemble_encodePacket clock offset none p.1 (encodePackets pkts) hp]
      exact ih _ fun hpkts ↦ h (List.forall_mem_cons.mpr ⟨hp, hpkts⟩)
    · exact broken_assemble_encodePacket clock offset none p.1 _ (Nat.lt_of_not_le hp)

namespace PacketAssembler

/-- An assembler between two packets. -/
structure Idle (a : PacketAssembler) : Prop where
  buf_eq : a.buf = []
  inProgress_eq : a.inProgress = none
  not_broken : a.broken = false
  sorted : a.marks.Pairwise (·.1 ≤ ·.1)
  marks_le : ∀ m ∈ a.marks, m.1 ≤ a.consumed

theorem new_idle : new.Idle where
  buf_eq := rfl
  inProgress_eq := rfl
  not_broken := rfl
  sorted := List.Pairwise.nil
  marks_le := fun _ h ↦ absurd h List.not_mem_nil

/-- It knows the timestamps of the bytes it holds: there are none. -/
theorem Idle.reads {a : PacketAssembler} (h : a.Idle) (clock : ℕ → ℤ) : a.Reads clock where
  sorted := h.sorted
  marks_le := fun m hm ↦ (h.marks_le m hm).trans (Nat.le_add_right _ _)
  tsFor_eq := fun o hlow hhigh ↦ by
    rw [h.buf_eq, List.length_nil] at hhigh
    omega
  whole := by rw [h.buf_eq]; rfl
  not_broken := h.not_broken

/-- Whole packets, fed in any chunks, come out with the timestamps of their first bytes. -/
theorem feedAll_encodePackets {a : PacketAssembler} (h : a.Idle) {pkts : List (UInt8 × Bytes)}
    (hlimit : WithinLimit pkts) {chunks : List (ℤ × Bytes)}
    (hchunks : chunkBytes chunks = encodePackets pkts) :
    (a.feedAll chunks).1.Idle ∧ (a.feedAll chunks).2 = packetsAt (tsAt chunks) 0 pkts := by
  have hpass := assemble_encodePackets (fun o ↦ tsAt chunks (o - a.consumed)) a.consumed hlimit
  have hreads := h.reads fun o ↦ tsAt chunks (o - a.consumed)
  have hfed := feedAll_eq chunks hreads (fun i hi ↦ by simp [h.buf_eq]) (by
    rw [h.buf_eq, h.inProgress_eq, List.nil_append, hchunks, hpass])
  rw [h.buf_eq, h.inProgress_eq, List.nil_append, hchunks, hpass] at hfed
  refine ⟨⟨hfed.buf_eq, hfed.inProgress_eq, hfed.reads.not_broken, hfed.reads.sorted, ?_⟩, ?_⟩
  · have := hfed.reads.marks_le
    rwa [hfed.buf_eq, List.length_nil, Nat.add_zero] at this
  · rw [hfed.packets_eq, show a.consumed = a.consumed + 0 from rfl, packetsAt_shift]
    simp only [Nat.add_zero, Nat.add_sub_cancel_left]

/-- A stream with a packet larger than the limit breaks the assembler. -/
theorem broken_feedAll_encodePackets {a : PacketAssembler} (h : a.Idle)
    {pkts : List (UInt8 × Bytes)} (hlarge : ¬WithinLimit pkts) {chunks : List (ℤ × Bytes)}
    (hchunks : chunkBytes chunks = encodePackets pkts) : (a.feedAll chunks).1.broken := by
  refine broken_feedAll_of_assemble chunks (h.reads fun o ↦ tsAt chunks (o - a.consumed))
    (fun i hi ↦ by simp [h.buf_eq]) ?_
  rw [h.buf_eq, h.inProgress_eq, List.nil_append, hchunks]
  exact broken_assemble_encodePackets _ _ hlarge

/-- A packet larger than the limit breaks the assembler. -/
theorem broken_feed {a : PacketAssembler} (h : a.Idle) (seq : UInt8) {payload : Bytes}
    (hlarge : maxLogicalPacket < payload.length) (ts : ℤ) :
    (a.feed ts (encodePacket seq payload)).1.broken := by
  refine broken_feed_of_assemble (h.reads fun _ ↦ ts) (fun _ _ ↦ rfl) ?_
  rw [h.buf_eq, h.inProgress_eq, List.nil_append, ← List.append_nil (encodePacket seq payload)]
  exact broken_assemble_encodePacket _ _ none seq [] hlarge

end PacketAssembler

/-! ## Runs over the chunks of one direction -/

namespace ProtoState

/-- A connection in its command phase. -/
structure Established (s : ProtoState) : Prop where
  phase_eq : s.phase = .established
  decoding : s.decoding

/-- A connection in its command phase with nothing in flight. -/
structure Quiet (s : ProtoState) : Prop extends s.Established where
  pending_eq : s.pending = []

/-- A run over packets goes on behind a first part that it decoded to the end. -/
theorem onPackets_append {s : ProtoState} {dir : Dir} {a : List LogicalPacket}
    (h : (s.onPackets dir a).1.decoding) (b : List LogicalPacket) :
    s.onPackets dir (a ++ b) =
      (((s.onPackets dir a).1.onPackets dir b).1,
        (s.onPackets dir a).2 ++ ((s.onPackets dir a).1.onPackets dir b).2) := by
  induction a generalizing s with
  | nil => rfl
  | cons pkt a ih =>
    rw [onPackets] at h
    rw [List.cons_append, onPackets, onPackets]
    split_ifs at h ⊢ with hdecoding
    · rw [ih h, List.append_assoc]
    · exact absurd h hdecoding

/-- A run over packets that is still decoding at the end was decoding all along. -/
theorem decoding_of_append {s : ProtoState} {dir : Dir} {a b : List LogicalPacket}
    (hstart : s.decoding) (h : (s.onPackets dir (a ++ b)).1.decoding) :
    (s.onPackets dir a).1.decoding := by
  induction a generalizing s with
  | nil => exact hstart
  | cons pkt a ih =>
    rw [List.cons_append, onPackets] at h
    rw [onPackets]
    split_ifs at h ⊢ with hdecoding
    · exact ih hdecoding h
    · exact absurd h hdecoding

end ProtoState

namespace ConnDecoder

/-- The chunks of a direction. -/
def chunksOf (dir : Dir) (chunks : List (ℤ × Bytes)) : List Chunk :=
  chunks.map fun c ↦ ⟨dir, c.1, c.2⟩

theorem run_append (d : ConnDecoder) (a b : List Chunk) :
    d.run (a ++ b) = (((d.run a).1.run b).1, (d.run a).2 ++ ((d.run a).1.run b).2) := by
  induction a generalizing d with
  | nil => rfl
  | cons c a ih => rw [List.cons_append, run, run, ih, List.append_assoc]

/-- A decoder that has stopped ignores what it is fed. -/
theorem run_of_not_decoding {d : ConnDecoder} (h : d.decoding = false) (cs : List Chunk) :
    d.run cs = (d, []) := by
  induction cs with
  | nil => rfl
  | cons c cs ih =>
    have hstep : d.onData c = (d, []) := by rw [onData, h, if_neg Bool.false_ne_true]
    rw [run, hstep, ih]
    rfl

/-- The decoder after packets of one direction. -/
def after (d : ConnDecoder) (dir : Dir) (a : PacketAssembler) (s : ProtoState) : ConnDecoder :=
  { d.setAssembler dir a with toProtoState := s }

theorem after_assembler (d : ConnDecoder) (dir : Dir) (a : PacketAssembler) (s : ProtoState) :
    (d.after dir a s).assembler dir = a := by cases dir <;> rfl

theorem after_after (d : ConnDecoder) (dir : Dir) (a a' : PacketAssembler) (s s' : ProtoState) :
    (d.after dir a s).after dir a' s' = d.after dir a' s' := by cases dir <;> rfl

theorem after_not_broken {d : ConnDecoder} {dir : Dir} {a : PacketAssembler} (ha : a.broken = false)
    (hd : ∀ dir, (d.assembler dir).broken = false) (s : ProtoState) (dir' : Dir) :
    ((d.after dir a s).assembler dir').broken = false := by
  cases dir <;> cases dir'
  · exact ha
  · exact hd .server
  · exact hd .client
  · exact ha

/-- A call whose packets leave the decoder decoding. -/
theorem onData_eq {d : ConnDecoder} {c : Chunk} {a : PacketAssembler} {pkts : List LogicalPacket}
    (hfeed : (d.assembler c.dir).feed c.tsMicros c.data = (a, pkts)) (ha : a.broken = false)
    (hd : ∀ dir, (d.assembler dir).broken = false) (hstart : d.decoding) :
    d.onData c = (d.after c.dir a (d.onPackets c.dir pkts).1, (d.onPackets c.dir pkts).2) := by
  rw [onData, if_pos hstart, feed, hfeed, onFed]
  have hclient : d.client.broken = false := hd .client
  have hserver : d.server.broken = false := hd .server
  cases hdir : c.dir with
  | client =>
    rw [if_neg (by simpa [setAssembler, ha] using hserver), setAssembler_toProtoState]
    rfl
  | server =>
    rw [if_neg (by simpa [setAssembler, ha] using hclient), setAssembler_toProtoState]
    rfl

/-- The chunks of one direction: their packets are decoded in order. -/
theorem run_chunksOf {d : ConnDecoder} {dir : Dir} {chunks : List (ℤ × Bytes)}
    {pkts : List LogicalPacket} {a : PacketAssembler}
    (hfeed : (d.assembler dir).feedAll chunks = (a, pkts)) (ha : a.broken = false)
    (hd : ∀ dir, (d.assembler dir).broken = false) (hstart : d.decoding)
    (hend : (d.onPackets dir pkts).1.decoding) :
    d.run (chunksOf dir chunks) =
      (d.after dir a (d.onPackets dir pkts).1, (d.onPackets dir pkts).2) := by
  induction chunks generalizing d pkts with
  | nil =>
    obtain ⟨rfl, rfl⟩ : d.assembler dir = a ∧ [] = pkts := by
      simpa [PacketAssembler.feedAll] using hfeed
    cases dir <;> rfl
  | cons c chunks ih =>
    obtain ⟨ts, data⟩ := c
    cases hone : (d.assembler dir).feed ts data with
    | mk a₁ p₁ =>
    cases hrest : a₁.feedAll chunks with
    | mk a₂ p₂ =>
    obtain ⟨rfl, rfl⟩ : a₂ = a ∧ p₁ ++ p₂ = pkts := by
      simpa [PacketAssembler.feedAll, hone, hrest] using hfeed
    have ha₁ : a₁.broken = false := by
      cases hb : a₁.broken with
      | false => rfl
      | true =>
        have hstuck := PacketAssembler.broken_feedAll hb chunks
        rw [hrest] at hstuck
        exact (hb.symm.trans (congrArg _ hstuck.symm)).trans ha
    have hmid := ProtoState.decoding_of_append hstart hend
    rw [ProtoState.onPackets_append hmid] at hend ⊢
    have hstep := onData_eq (c := ⟨dir, ts, data⟩) hone ha₁ hd hstart
    rw [chunksOf, List.map_cons, run, hstep]
    have htail := @ih (d.after dir a₁ (d.onPackets dir p₁).1) p₂
      (by rw [after_assembler, hrest]) (after_not_broken ha₁ hd _) hmid hend
    rw [show chunks.map (fun c ↦ (⟨dir, c.1, c.2⟩ : Chunk)) = chunksOf dir chunks from rfl, htail,
      after_after]
    rfl

/-- Whole packets of one direction, fed in any chunks. -/
theorem run_packets {d : ConnDecoder} (hd : d.decoding) (hidle : ∀ dir, (d.assembler dir).Idle)
    {dir : Dir} {pkts : List (UInt8 × Bytes)} (hlimit : WithinLimit pkts)
    {chunks : List (ℤ × Bytes)} (hchunks : chunkBytes chunks = encodePackets pkts)
    (hend : (d.onPackets dir (packetsAt (tsAt chunks) 0 pkts)).1.decoding) :
    let r := d.run (chunksOf dir chunks)
    r.1.toProtoState = (d.onPackets dir (packetsAt (tsAt chunks) 0 pkts)).1 ∧
      r.2 = (d.onPackets dir (packetsAt (tsAt chunks) 0 pkts)).2 ∧
      ∀ dir', (r.1.assembler dir').Idle := by
  obtain ⟨hafter, hpackets⟩ := PacketAssembler.feedAll_encodePackets (hidle dir) hlimit hchunks
  have hfeed : (d.assembler dir).feedAll chunks =
      (((d.assembler dir).feedAll chunks).1, packetsAt (tsAt chunks) 0 pkts) :=
    Prod.ext rfl hpackets
  have hrun := run_chunksOf hfeed hafter.not_broken (fun dir' ↦ (hidle dir').not_broken) hd hend
  rw [hrun]
  refine ⟨rfl, rfl, fun dir' ↦ ?_⟩
  cases dir <;> cases dir'
  · exact hafter
  · exact hidle .server
  · exact hidle .client
  · exact hafter

/-- A decoder that is still decoding was so all along. -/
theorem decoding_of_run {d : ConnDecoder} {cs : List Chunk} (h : (d.run cs).1.decoding) :
    d.decoding := by
  by_contra hstop
  rw [run_of_not_decoding (Bool.eq_false_of_not_eq_true hstop)] at h
  exact hstop h

/-- A decoder that is still decoding behind a call was fed by it, and its framing holds. -/
theorem assembler_onData {d : ConnDecoder} {c : Chunk} (h : (d.onData c).1.decoding) :
    (d.onData c).1.assembler c.dir = ((d.assembler c.dir).feed c.tsMicros c.data).1 ∧
      ((d.onData c).1.assembler c.dir).broken = false := by
  have hrun : (d.run [c]).1.decoding := h
  have hdecoding : d.decoding := decoding_of_run hrun
  rw [onData, if_pos hdecoding, onFed] at h ⊢
  by_cases hbroken : (d.feed c).1.client.broken || (d.feed c).1.server.broken
  · rw [if_pos hbroken, ProtoState.decoding, Bool.and_eq_true] at h
    exact absurd h.2 Bool.false_ne_true
  · rw [if_neg hbroken]
    rw [Bool.not_eq_true, Bool.or_eq_false_iff] at hbroken
    obtain ⟨dir, ts, data⟩ := c
    cases dir
    · exact ⟨rfl, hbroken.1⟩
    · exact ⟨rfl, hbroken.2⟩

/-- A decoder that is still decoding behind the chunks of one direction has not broken on them. -/
theorem not_broken_of_run {d : ConnDecoder} {dir : Dir} (hd : (d.assembler dir).broken = false)
    {chunks : List (ℤ × Bytes)} (h : (d.run (chunksOf dir chunks)).1.decoding) :
    ((d.assembler dir).feedAll chunks).1.broken = false := by
  induction chunks generalizing d with
  | nil => exact hd
  | cons c chunks ih =>
    rw [chunksOf, List.map_cons, run] at h
    obtain ⟨hfed, hwhole⟩ := assembler_onData (decoding_of_run h)
    rw [PacketAssembler.feedAll, ← hfed]
    exact ih hwhole h

/-- A decoder that is still decoding behind whole packets was sent none beyond the limit. -/
theorem withinLimit_of_run {d : ConnDecoder} {dir : Dir} (hidle : (d.assembler dir).Idle)
    {pkts : List (UInt8 × Bytes)} {chunks : List (ℤ × Bytes)}
    (hchunks : chunkBytes chunks = encodePackets pkts)
    (h : (d.run (chunksOf dir chunks)).1.decoding) : WithinLimit pkts := by
  by_contra hlarge
  have hbroken := PacketAssembler.broken_feedAll_encodePackets hidle hlarge hchunks
  rw [not_broken_of_run hidle.not_broken h] at hbroken
  cases hbroken

/-- A decoder between two packets of a connection with nothing in flight. -/
structure Ready (d : ConnDecoder) : Prop where
  quiet : d.Quiet
  idle : ∀ dir, (d.assembler dir).Idle

/-- A decoder that is fed a packet larger than the limit has nothing more to say. -/
theorem run_oversized {d : ConnDecoder} (hd : d.Ready) {seq : UInt8} {payload : Bytes}
    (hlarge : maxLogicalPacket < payload.length) (ts : ℤ) (cs : List Chunk) :
    (d.run (⟨.client, ts, encodePacket seq payload⟩ :: cs)).2 = [] := by
  have hbroken := PacketAssembler.broken_feed (hd.idle .client) seq hlarge ts
  have hstep : d.onData ⟨.client, ts, encodePacket seq payload⟩ =
      ({ (d.feed ⟨.client, ts, encodePacket seq payload⟩).1 with
        toProtoState := { d.toProtoState with disposition := .broken } }, []) := by
    rw [onData, if_pos hd.quiet.decoding, onFed]
    exact if_pos (by rw [Bool.or_eq_true]; exact Or.inl hbroken)
  rw [run, hstep, run_of_not_decoding (by simp [ProtoState.decoding])]
  rfl

/-- A greeting and a login. -/
def handshake : List Chunk :=
  [⟨.server, 1, encodePacket 0 (10 :: ascii "8.0" ++ 0 :: [1, 0, 0, 0] ++ List.replicate 9 0 ++
      [255, 255, 33, 2, 0, 255, 255] ++ List.replicate 11 0)⟩,
    ⟨.client, 2, encodePacket 1 ([0, 0x82, 0, 0] ++ List.replicate 4 0 ++ 33 ::
      List.replicate 23 0 ++ ascii "app" ++ [0, 0])⟩]

theorem handshake_ready : (new.run handshake).1.Ready where
  quiet := ⟨⟨by decide +kernel, by decide +kernel⟩, by decide +kernel⟩
  idle := fun dir ↦ by
    cases dir
    · exact ⟨by decide +kernel, by decide +kernel, by decide +kernel, by decide +kernel,
        by decide +kernel⟩
    · exact ⟨by decide +kernel, by decide +kernel, by decide +kernel, by decide +kernel,
        by decide +kernel⟩

end ConnDecoder

end SqlReplay
