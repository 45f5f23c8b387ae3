import SqlReplay.Proto.Assembler

/-!
# Chunks do not matter

What a stream of one direction means is said here without buffers, marks or packets in progress: it
is a sequence of wire packets (`wirePackets`), and the logical packets are the maximal runs of full
ones, each with the shorter packet that ends it (`runs`). The assembler yields exactly these,
however the stream is cut into chunks, and each has the timestamp of the chunk that holds its first
byte.

The packet limit is looked at in front of each payload that is joined, and a wire packet is taken up
only when all of it is there. So the assembler breaks at the same packet for all ways to cut the
stream, with the same packets behind it.
-/

namespace SqlReplay

/-! ## The packets of a stream -/

/-- A packet of the wire, with the offset of its first byte. -/
structure WirePacket where
  offset : ℕ
  seq : UInt8
  payload : Bytes
  deriving DecidableEq, Repr

/-- The stream, from an offset on, as packets with a four-byte header. What is left at the end is
no whole packet. -/
def wirePackets (offset : ℕ) (stream : Bytes) : List WirePacket :=
  match _h : wirePacket? stream with
  | none => []
  | some (seq, payload, after) =>
    ⟨offset, seq, payload⟩ :: wirePackets (offset + 4 + payload.length) after
termination_by stream.length
decreasing_by rw [wirePacket?_length _h]; omega

/-- The packet continues in the next one. -/
def WirePacket.isFull (w : WirePacket) : Bool := w.payload.length = fullPayload

/-- The maximal runs of full packets, each with the shorter packet that ends it. A run without an
end is not there yet. -/
def runs (ws : List WirePacket) : List (List WirePacket × WirePacket) :=
  match _h : ws.dropWhile WirePacket.isFull with
  | [] => []
  | last :: rest => (ws.takeWhile WirePacket.isFull, last) :: runs rest
termination_by ws.length
decreasing_by
  have hsuffix : last :: rest <:+ ws := _h ▸ List.dropWhile_suffix _
  exact Nat.lt_of_lt_of_le (Nat.lt_succ_self _) hsuffix.length_le

/-- The logical packet of a run: its payloads joined, under the sequence ids of its first and its
last packet, at the time of its first byte. -/
def joinRun (clock : ℕ → ℤ) (run : List WirePacket × WirePacket) : LogicalPacket :=
  let first := run.1.headD run.2
  ⟨first.seq, run.2.seq, clock first.offset, (run.1 ++ [run.2]).flatMap WirePacket.payload⟩

theorem wirePackets_none {offset : ℕ} {stream : Bytes} (h : wirePacket? stream = none) :
    wirePackets offset stream = [] := by
  rw [wirePackets]
  split
  · rfl
  · next h' => cases h.symm.trans h'

theorem wirePackets_some {offset : ℕ} {stream payload after : Bytes} {seq : UInt8}
    (h : wirePacket? stream = some (seq, payload, after)) :
    wirePackets offset stream =
      ⟨offset, seq, payload⟩ :: wirePackets (offset + 4 + payload.length) after := by
  rw [wirePackets]
  split
  · next h' => cases h.symm.trans h'
  · next h' => cases h.symm.trans h'; rfl

theorem runs_eq (ws : List WirePacket) :
    runs ws =
      match ws.dropWhile WirePacket.isFull with
      | [] => []
      | last :: rest => (ws.takeWhile WirePacket.isFull, last) :: runs rest := by
  conv_lhs => rw [runs]
  split
  · next h => rw [h]
  · next h => rw [h]

/-! ## The loop yields the runs -/

section Runs

variable {clock : ℕ → ℤ}

/-- A run of wire packets joined to what is in progress. -/
def joinAll (clock : ℕ → ℤ) (part : Option PartialPacket) (ws : List WirePacket) :
    Option PartialPacket :=
  ws.foldl (fun p w ↦ some (.join p w.seq (clock w.offset) w.payload)) part

theorem joinAll_some (p : PartialPacket) (ws : List WirePacket) :
    joinAll clock (some p) ws =
      some { p with payload := p.payload ++ ws.flatMap WirePacket.payload } := by
  induction ws generalizing p with
  | nil => rw [List.flatMap_nil, List.append_nil]; rfl
  | cons w ws ih =>
    rw [List.flatMap_cons, ← List.append_assoc]
    exact ih _

/-- Joined to nothing, a run is its logical packet. -/
theorem joinRun_eq (run : List WirePacket × WirePacket) :
    ((PartialPacket.join (joinAll clock none run.1) run.2.seq (clock run.2.offset)
      run.2.payload).complete run.2.seq) = joinRun clock run := by
  obtain ⟨ws, last⟩ := run
  cases ws with
  | nil =>
    rw [joinRun, List.nil_append, List.flatMap_singleton]
    rfl
  | cons w ws =>
    have hall : joinAll clock none (w :: ws) =
        some ⟨w.seq, clock w.offset, w.payload ++ ws.flatMap WirePacket.payload⟩ :=
      joinAll_some ⟨w.seq, clock w.offset, w.payload⟩ ws
    rw [joinRun, hall, List.flatMap_append, List.flatMap_cons, List.flatMap_singleton]
    rfl

/-- **What one pass yields**, with a packet in progress: the first run completes that packet, and
each further one is a packet of its own. -/
theorem assemble_packets {offset : ℕ} {rest : Bytes} {part : Option PartialPacket}
    (h : (assemble clock offset rest part).broken = false) :
    (assemble clock offset rest part).packets =
      match (wirePackets offset rest).dropWhile WirePacket.isFull with
      | [] => []
      | last :: ws =>
        (PartialPacket.join
            (joinAll clock part ((wirePackets offset rest).takeWhile WirePacket.isFull))
            last.seq (clock last.offset) last.payload).complete last.seq ::
          (runs ws).map (joinRun clock) := by
  fun_induction assemble clock offset rest part with
  | case1 offset rest part hw => rw [wirePackets_none hw]; rfl
  | case2 => cases h
  | case3 offset rest part seq payload after hw joined hlarge hfull ih =>
    have hpacket : WirePacket.isFull ⟨offset, seq, payload⟩ = true := decide_eq_true hfull
    rw [ih h, wirePackets_some hw, List.dropWhile_cons_of_pos hpacket,
      List.takeWhile_cons_of_pos hpacket]
    rfl
  | case4 offset rest part seq payload after hw joined hlarge hfull ih =>
    have hpacket : WirePacket.isFull ⟨offset, seq, payload⟩ ≠ true := fun hp ↦
      hfull (of_decide_eq_true hp)
    rw [wirePackets_some hw, List.dropWhile_cons_of_neg hpacket,
      List.takeWhile_cons_of_neg hpacket]
    refine congrArg (joined.complete seq :: ·) ?_
    change (assemble clock (offset + 4 + payload.length) after none).packets = _
    rw [ih h, runs_eq]
    split
    · rfl
    · rw [List.map_cons, ← joinRun_eq]

theorem assemble_packets_none {offset : ℕ} {rest : Bytes}
    (h : (assemble clock offset rest none).broken = false) :
    (assemble clock offset rest none).packets =
      (runs (wirePackets offset rest)).map (joinRun clock) := by
  rw [assemble_packets h, runs_eq]
  split
  · rfl
  · rw [List.map_cons, ← joinRun_eq]

end Runs

/-! ## A stream that breaks the assembler -/

/-- The packets in front of the break do not depend on what follows it. -/
theorem assemble_append_broken {clock : ℕ → ℤ} {offset : ℕ} {rest : Bytes}
    {part : Option PartialPacket} (more : Bytes)
    (h : (assemble clock offset rest part).broken = true) :
    (assemble clock offset (rest ++ more) part).packets =
      (assemble clock offset rest part).packets := by
  fun_induction assemble clock offset rest part with
  | case1 => cases h
  | case2 offset rest part seq payload after hw hlarge =>
    rw [assemble_some (wirePacket?_append hw more)]
    simp only [if_pos hlarge]
  | case3 offset rest part seq payload after hw joined hlarge hfull ih =>
    rw [assemble_some (wirePacket?_append hw more)]
    simp only [if_neg hlarge, if_pos hfull]
    exact ih h
  | case4 offset rest part seq payload after hw joined hlarge hfull ih =>
    rw [assemble_some (wirePacket?_append hw more)]
    simp only [if_neg hlarge, if_neg hfull]
    exact congrArg ([joined.complete seq] ++ ·) (ih h)

/-! ## The clock -/

/-- A logical packet without its timestamp. -/
def LogicalPacket.untimed (p : LogicalPacket) : UInt8 × UInt8 × Bytes :=
  (p.firstSeq, p.lastSeq, p.payload)

/-- A packet in progress without its timestamp. -/
def PartialPacket.untimed (p : PartialPacket) : UInt8 × Bytes := (p.firstSeq, p.payload)

theorem PartialPacket.untimed_join {part part' : Option PartialPacket}
    (h : part.map untimed = part'.map untimed) (seq : UInt8) (ts ts' : ℤ) (payload : Bytes) :
    (join part seq ts payload).untimed = (join part' seq ts' payload).untimed := by
  rcases part with _ | p <;> rcases part' with _ | p'
  · rfl
  · cases h
  · cases h
  · obtain ⟨hseq, hpayload⟩ := Prod.mk.inj (Option.some.inj h)
    rw [untimed, untimed, join, join, hseq, hpayload]

theorem PartialPacket.tooLarge_congr {part part' : Option PartialPacket}
    (h : part.map untimed = part'.map untimed) (payload : Bytes) :
    tooLarge part payload = tooLarge part' payload := by
  rcases part with _ | p <;> rcases part' with _ | p'
  · rfl
  · cases h
  · cases h
  · obtain ⟨-, hpayload⟩ := Prod.mk.inj (Option.some.inj h)
    rw [tooLarge, tooLarge, Option.any_some, Option.any_some, hpayload]

/-- The clock gives the packets their timestamps and decides nothing else. -/
theorem assemble_untimed (clock clock' : ℕ → ℤ) {offset : ℕ} {rest : Bytes}
    {part part' : Option PartialPacket}
    (h : part.map PartialPacket.untimed = part'.map PartialPacket.untimed) :
    (assemble clock offset rest part).broken = (assemble clock' offset rest part').broken ∧
      (assemble clock offset rest part).packets.map LogicalPacket.untimed =
        (assemble clock' offset rest part').packets.map LogicalPacket.untimed := by
  fun_induction assemble clock offset rest part generalizing part' with
  | case1 offset rest part hw => rw [assemble_none hw]; exact ⟨rfl, rfl⟩
  | case2 offset rest part seq payload after hw hlarge =>
    rw [PartialPacket.tooLarge_congr h] at hlarge
    rw [assemble_some hw]
    simp only [if_pos hlarge]
    exact ⟨trivial, trivial⟩
  | case3 offset rest part seq payload after hw joined hlarge hfull =>
    rename_i ih
    rw [PartialPacket.tooLarge_congr h] at hlarge
    rw [assemble_some hw]
    simp only [if_neg hlarge, if_pos hfull]
    exact ih (congrArg some (PartialPacket.untimed_join h seq _ _ payload))
  | case4 offset rest part seq payload after hw joined hlarge hfull =>
    rename_i ih
    rw [PartialPacket.tooLarge_congr h] at hlarge
    rw [assemble_some hw]
    simp only [if_neg hlarge, if_neg hfull]
    obtain ⟨hbroken, hpackets⟩ := ih rfl
    refine ⟨hbroken, ?_⟩
    obtain ⟨hseq, hpayload⟩ := Prod.mk.inj
      (PartialPacket.untimed_join h seq (clock offset) (clock' offset) payload)
    rw [Assembled.after, Assembled.after, List.map_append, List.map_append, hpackets]
    refine congrArg (· ++ _) (congrArg (fun p ↦ [p]) ?_)
    rw [LogicalPacket.untimed, LogicalPacket.untimed, PartialPacket.complete,
      PartialPacket.complete, hseq, hpayload]

/-! ## Any chunks -/

namespace PacketAssembler

section Feed

variable {a : PacketAssembler} {clock : ℕ → ℤ}

theorem broken_feedAll_packets (h : a.broken = true) (chunks : List (ℤ × Bytes)) :
    (a.feedAll chunks).2 = [] := by
  induction chunks with
  | nil => rfl
  | cons c chunks ih =>
    have hfeed : a.feed c.1 c.2 = (a, []) := if_pos (Or.inl h)
    rw [feedAll, hfeed, ih]
    rfl

/-- The chunk that breaks the assembler still yields the packets in front of the break. -/
theorem broken_feed_packets {ts : ℤ} {data : Bytes} (h : a.Reads clock)
    (hdata : ∀ i < data.length, clock (a.consumed + a.buf.length + i) = ts)
    (hbroken : (assemble clock a.consumed (a.buf ++ data) a.inProgress).broken = true) :
    (a.feed ts data).2 = (assemble clock a.consumed (a.buf ++ data) a.inProgress).packets := by
  have hne : data ≠ [] := by
    rintro rfl
    rw [List.append_nil, assemble_none h.whole] at hbroken
    cases hbroken
  have hmarks : assemble (tsFor (a.marks ++ [(a.consumed + a.buf.length, ts)])) a.consumed
      (a.buf ++ data) a.inProgress = assemble clock a.consumed (a.buf ++ data) a.inProgress :=
    assemble_congr fun i hi ↦ h.tsFor_push hdata (Nat.le_add_right _ _) (by omega)
  rw [feed, if_neg (by simp [h.not_broken, hne])]
  simp only [hmarks, hbroken, if_true]

/-- Feeding chunk by chunk is one pass over the stream, also for a stream that breaks the
assembler. -/
theorem feedAll_assemble (chunks : List (ℤ × Bytes)) (h : a.Reads clock)
    (hclock : ∀ i < (chunkBytes chunks).length,
      clock (a.consumed + a.buf.length + i) = tsAt chunks i) :
    (a.feedAll chunks).1.broken =
        (assemble clock a.consumed (a.buf ++ chunkBytes chunks) a.inProgress).broken ∧
      (a.feedAll chunks).2 =
        (assemble clock a.consumed (a.buf ++ chunkBytes chunks) a.inProgress).packets := by
  induction chunks generalizing a with
  | nil =>
    rw [chunkBytes, List.flatMap_nil, List.append_nil, assemble_none h.whole]
    exact ⟨h.not_broken, rfl⟩
  | cons c chunks ih =>
    obtain ⟨ts, data⟩ := c
    have hcons : chunkBytes ((ts, data) :: chunks) = data ++ chunkBytes chunks := rfl
    rw [hcons] at hclock ⊢
    rw [← List.append_assoc]
    have hts (i : ℕ) (hi : i < data.length) : clock (a.consumed + a.buf.length + i) = ts := by
      rw [hclock i (by rw [List.length_append]; omega), tsAt, if_pos hi]
    rcases hfirst : (assemble clock a.consumed (a.buf ++ data) a.inProgress).broken
    · obtain ⟨hreads, hpackets, hbuf, hconsumed, hpart⟩ := feed_eq h hts hfirst
      have hoffset := assemble_offset hfirst
      rw [assemble_append _ hfirst]
      simp only [← hbuf, ← hconsumed, ← hpart, ← hpackets] at hoffset ⊢
      rw [List.length_append] at hoffset
      obtain ⟨hbroken, hrest⟩ := ih hreads fun i hi ↦ by
        have hlater := hclock (data.length + i) (by rw [List.length_append]; omega)
        rw [tsAt, if_neg (by omega), Nat.add_sub_cancel_left] at hlater
        rw [← hlater]
        congr 1
        omega
      exact ⟨hbroken, congrArg (_ ++ ·) hrest⟩
    · have hstuck := broken_feed_of_assemble h hts hfirst
      rw [feedAll, broken_feedAll hstuck, broken_feedAll_packets hstuck, List.append_nil,
        broken_feed_packets h hts hfirst, broken_assemble_append _ hfirst,
        assemble_append_broken _ hfirst]
      exact ⟨hstuck, rfl⟩

end Feed

/-- **Packet assembly does not depend on the chunks.** All ways to cut a stream into chunks yield
the same packets and break the assembler alike; if it is not broken, the packets are the runs of the
stream, each at the time of the chunk that holds its first byte. -/
theorem feedAll_chunks (chunks : List (ℤ × Bytes)) (ts : ℤ) :
    ((new.feedAll chunks).1.broken = (new.feedAll [(ts, chunkBytes chunks)]).1.broken ∧
      (new.feedAll chunks).2.map LogicalPacket.untimed =
        (new.feedAll [(ts, chunkBytes chunks)]).2.map LogicalPacket.untimed) ∧
    ((new.feedAll chunks).1.broken = false →
      (new.feedAll chunks).2 =
        (runs (wirePackets 0 (chunkBytes chunks))).map (joinRun (tsAt chunks))) := by
  have hone : chunkBytes [(ts, chunkBytes chunks)] = chunkBytes chunks := by
    rw [chunkBytes, List.flatMap_singleton]
  have hzero (cs : List (ℤ × Bytes)) : ∀ i < (chunkBytes cs).length,
      tsAt cs (new.consumed + new.buf.length + i) = tsAt cs i := fun i _ ↦
    congrArg (tsAt cs) (Nat.zero_add i)
  obtain ⟨hbroken, hpackets⟩ := feedAll_assemble chunks (new_reads _) (hzero chunks)
  obtain ⟨hbroken', hpackets'⟩ := feedAll_assemble _ (new_reads _) (hzero [(ts, chunkBytes chunks)])
  rw [hone] at hbroken' hpackets'
  rw [hbroken, hbroken', hpackets, hpackets']
  exact ⟨assemble_untimed _ _ rfl, assemble_packets_none⟩

/-- A packet cut inside its header, and an empty one. -/
theorem feedAll_chunks_sample :
    (new.feedAll [(5, [1, 0]), (7, [0, 0, 9, 0, 0, 0, 1])]).2 =
      [⟨0, 0, 5, [9]⟩, ⟨1, 1, 7, []⟩] :=
  ((feedAll_chunks [(5, [1, 0]), (7, [0, 0, 9, 0, 0, 0, 1])] 0).2 (by decide +kernel)).trans
    (by decide +kernel)

end PacketAssembler

end SqlReplay
