import SqlReplay.Pcap.Demultiplex

/-!
# A connection in segments

What the two sides of a connection write reaches the engine as segments. Here each direction is sent
in order: a segment starts at or before the point up to which its direction has been seen, so it may
repeat what was seen, in whole or in part, but it leaves no gap. The bytes that are new go to the
decoder at once, in the order of the segments of both directions (`delivered`), which is what makes
the timestamps and the turns of the two sides those of the wire.

The reassembler's position is the invariant (`ConnState.At`). Nothing else of it matters without
gaps, since its buffer stays empty. A connection that is opened by its two SYNs and closed by its
two FINs is one entry of the table for its whole life, and what comes behind the second FIN finds
the entry's tombstone (`connectionsUnder_arrivals`).
-/

namespace SqlReplay

/-! ## Segments without gaps -/

/-- A segment of one direction: where in its stream it starts, and its bytes. -/
structure DataSegment where
  dir : Dir
  tsMicros : ℤ
  offset : ℕ
  payload : Bytes
  fin : Bool

/-- The positions up to which the two directions have been seen. -/
abbrev Positions := Dir → ℕ

namespace DataSegment

/-- Where the segment ends. -/
def stop (s : DataSegment) : ℕ := s.offset + s.payload.length

/-- It leaves no gap behind what has been seen, and what it repeats is not further back than half
the space of sequence numbers. -/
structure Continues (s : DataSegment) (pos : Positions) : Prop where
  offset_le : s.offset ≤ pos s.dir
  lt_offset : pos s.dir < s.offset + 2 ^ 31
  pos_lt : pos s.dir < 2 ^ 64
  stop_lt : s.stop < 2 ^ 64

/-- The positions behind it. -/
def advance (s : DataSegment) (pos : Positions) : Positions :=
  Function.update pos s.dir (max (pos s.dir) s.stop)

/-- What is new of it. -/
def news (s : DataSegment) (pos : Positions) : List Chunk :=
  if s.stop ≤ pos s.dir then []
  else [⟨s.dir, s.tsMicros, s.payload.drop (pos s.dir - s.offset)⟩]

/-- The chunks that a list of segments has in store for the decoder. -/
def delivered (pos : Positions) : List DataSegment → List Chunk
  | [] => []
  | s :: ss => s.news pos ++ delivered (s.advance pos) ss

/-- Each segment leaves no gap behind the ones before it. -/
def InOrder (pos : Positions) : List DataSegment → Prop
  | [] => True
  | s :: ss => s.Continues pos ∧ InOrder (s.advance pos) ss

theorem inOrder_take {pos : Positions} {ss : List DataSegment} (n : ℕ) (h : InOrder pos ss) :
    InOrder pos (ss.take n) := by
  induction ss generalizing pos n with
  | nil => exact List.take_nil.symm ▸ h
  | cons s ss ih =>
    cases n with
    | zero => trivial
    | succ n => exact ⟨h.1, ih n h.2⟩

/-- What is delivered first does not depend on what follows. -/
theorem delivered_take (pos : Positions) (ss : List DataSegment) (n : ℕ) :
    delivered pos (ss.take n) <+: delivered pos ss := by
  induction ss generalizing pos n with
  | nil =>
    rw [List.take_nil]
  | cons s ss ih =>
    cases n with
    | zero => exact List.nil_prefix
    | succ n => exact (List.prefix_append_right_inj _).mpr (ih (s.advance pos) n)

/-- One of the segments ends a direction. -/
def ended (dir : Dir) (ss : List DataSegment) : Bool := ss.any fun s ↦ s.dir == dir && s.fin

/-- A segment as it is seen on the wire, where the directions have these first numbers. -/
structure Carried (isn : Dir → UInt32) (a : Arrival) (s : DataSegment) : Prop where
  dir : a.dir = s.dir
  tsMicros : a.tsMicros = s.tsMicros
  seq : a.seg.seq = isn s.dir + UInt32.ofNat s.offset
  payload : a.seg.payload = s.payload
  fin : a.seg.fin = s.fin
  syn : a.seg.syn = false
  rst : a.seg.rst = false

end DataSegment

/-! ## One segment -/

namespace SeqStream

/-- A reassembler that has delivered what lies before a position and holds nothing back. -/
structure StandsAt (s : SeqStream) (isn : UInt32) (pos : ℕ) : Prop where
  started : s.started = true
  isn_eq : s.isn = isn
  nextRel : s.nextRel = pos
  overflow : s.overflow = false
  pending : s.pending = SortedMap.empty

/-- Of a segment without a gap what is new is delivered, and nothing when nothing is new. -/
theorem StandsAt.onData {s : SeqStream} {isn : UInt32} {pos : ℕ} (h : s.StandsAt isn pos) (ts : ℤ)
    {offset : ℕ} {payload : Bytes} (hle : offset ≤ pos) (hlt : pos < offset + 2 ^ 31)
    (hpos : pos < 2 ^ 64) (hstop : offset + payload.length < 2 ^ 64) :
    (s.onData ts (isn + UInt32.ofNat offset) payload).1.StandsAt isn
        (max pos (offset + payload.length)) ∧
      (s.onData ts (isn + UInt32.ofNat offset) payload).2 =
        if offset + payload.length ≤ pos then [] else [(ts, payload.drop (pos - offset))] := by
  obtain ⟨hstarted, rfl, rfl, hover, hpending⟩ := h
  have hdist : offset.dist s.nextRel < 2 ^ 31 := by
    unfold Nat.dist
    omega
  have hrel : s.rel (s.isn + UInt32.ofNat offset) = offset :=
    (s.rel_eq_iff hpos (hle.trans_lt hpos) hdist.le).mpr (Or.inl hdist)
  by_cases hnew : offset + payload.length ≤ s.nextRel
  · -- a retransmission, or no bytes at all
    have hnothing : s.onData ts (s.isn + UInt32.ofNat offset) payload = (s, []) := by
      rw [SeqStream.onData]
      split_ifs
      · rfl
      · rw [startAt, if_pos hstarted, hrel]
        unfold place
        dsimp only
        rw [Nat.mod_eq_of_lt hstop, if_pos hnew]
    rw [hnothing, max_eq_left hnew, if_pos hnew]
    exact ⟨⟨hstarted, rfl, rfl, hover, hpending⟩, rfl⟩
  · have hlt' := not_le.mp hnew
    rw [onData_of_empty hstarted hover hpending ts hrel hle hlt' hstop, max_eq_right hlt'.le,
      if_neg hnew]
    exact ⟨⟨hstarted, rfl, rfl, hover, hpending⟩, rfl⟩

end SeqStream

namespace ConnState

/-- Both directions have been seen up to these positions, and nothing is held back. -/
structure At (c : ConnState) (isn : Dir → UInt32) (pos : Positions) : Prop where
  stream : ∀ dir, (c.stream dir).StandsAt (isn dir) (pos dir)

open DataSegment

variable {c : ConnState} {isn : Dir → UInt32} {pos : Positions} {a : Arrival} {s : DataSegment}

theorem setStream_fins (c : ConnState) (dir : Dir) (s : SeqStream) :
    (c.setStream dir s).finClient = c.finClient ∧ (c.setStream dir s).finServer = c.finServer := by
  cases dir <;> exact ⟨rfl, rfl⟩

theorem onFin_fins (c : ConnState) (dir : Dir) (seg : TcpSegment) :
    (c.onFin dir seg).finClient = (c.finClient || (dir == .client && seg.fin)) ∧
      (c.onFin dir seg).finServer = (c.finServer || (dir == .server && seg.fin)) := by
  cases dir
  · exact ⟨rfl, (Bool.or_false _).symm⟩
  · exact ⟨(Bool.or_false _).symm, rfl⟩

/-- **A segment without a gap**: its new bytes go through the decoder. -/
theorem process_continues (h : c.At isn pos) (ha : Carried isn a s) (hs : s.Continues pos) :
    (c.process a).1.At isn (s.advance pos) ∧
      (c.process a).1.dec = (c.dec.run (s.news pos)).1 ∧
      (c.process a).2 = (c.dec.run (s.news pos)).2 ∧
      (c.process a).1.finClient = (c.finClient || (s.dir == .client && s.fin)) ∧
      (c.process a).1.finServer = (c.finServer || (s.dir == .server && s.fin)) := by
  obtain ⟨dir, ts, seg⟩ := a
  obtain ⟨rfl, rfl, hseq, hpayload, hfin, hsyn, -⟩ := ha
  have hsame : c.onSyn s.dir seg = c := by
    rw [onSyn, hsyn, if_neg Bool.false_ne_true]
  obtain ⟨hstands, hout⟩ := (h.stream s.dir).onData s.tsMicros hs.offset_le hs.lt_offset hs.pos_lt
    hs.stop_lt
  have hchunks : ((c.stream s.dir).onData s.tsMicros (isn s.dir + UInt32.ofNat s.offset)
      s.payload).2.map (fun d ↦ (⟨s.dir, d.1, d.2⟩ : Chunk)) = s.news pos := by
    rw [hout, news, stop]
    split_ifs <;> rfl
  -- the stream of the segment moves on, the other stays
  have hat (dir : Dir) : ((c.setStream s.dir ((c.stream s.dir).onData s.tsMicros
      (isn s.dir + UInt32.ofNat s.offset) s.payload).1).stream dir).StandsAt (isn dir)
        (s.advance pos dir) := by
    by_cases hdir : dir = s.dir
    · rw [hdir, stream_setStream, advance, Function.update_self]
      exact hstands
    · rw [advance, Function.update_of_ne hdir]
      have hother := h.stream dir
      revert hdir hother
      generalize s.dir = dir'
      intro hdir hother
      cases dir <;> cases dir'
      · exact absurd rfl hdir
      · exact hother
      · exact hother
      · exact absurd rfl hdir
  unfold process
  dsimp only
  rw [hsame]
  unfold deliver
  dsimp only
  rw [hseq, hpayload, hchunks]
  refine ⟨⟨fun dir ↦ ?_⟩, ?_, rfl, ?_, ?_⟩
  · rw [onFin_stream]
    have hat := hat dir
    cases dir
    · exact hat
    · exact hat
  · rw [onFin_dec]
  · rw [(onFin_fins _ s.dir seg).1, hfin]
    exact congrArg (· || _) (setStream_fins c s.dir _).1
  · rw [(onFin_fins _ s.dir seg).2, hfin]
    exact congrArg (· || _) (setStream_fins c s.dir _).2

/-- Segments without gaps, from a connection that stands at a position. -/
theorem foldl_inOrder {arrivals : List Arrival} {ss : List DataSegment} (h : c.At isn pos)
    (hcarried : List.Forall₂ (Carried isn) arrivals ss) (horder : InOrder pos ss)
    (out : List ProtoEvent) :
    let r := arrivals.foldl (fun r a ↦ ((r.1.process a).1, r.2 ++ (r.1.process a).2)) (c, out)
    (∃ pos', r.1.At isn pos') ∧ r.1.dec = (c.dec.run (delivered pos ss)).1 ∧
      r.2 = out ++ (c.dec.run (delivered pos ss)).2 ∧
      r.1.finClient = (c.finClient || ended .client ss) ∧
      r.1.finServer = (c.finServer || ended .server ss) := by
  induction hcarried generalizing c pos out with
  | nil =>
    exact ⟨⟨pos, h⟩, rfl, (List.append_nil out).symm, (Bool.or_false _).symm,
      (Bool.or_false _).symm⟩
  | @cons a s arrivals ss ha hcarried ih =>
    obtain ⟨hs, horder⟩ := horder
    obtain ⟨hat, hdec, hout, hclient, hserver⟩ := process_continues h ha hs
    obtain ⟨hat', hdec', hout', hclient', hserver'⟩ := ih hat horder (out ++ (c.process a).2)
    rw [delivered, ConnDecoder.run_append, ← hdec, ← hout]
    refine ⟨hat', hdec', ?_, ?_, ?_⟩
    · rw [← List.append_assoc]
      exact hout'
    · refine hclient'.trans ?_
      rw [hclient, Bool.or_assoc]
      rfl
    · refine hserver'.trans ?_
      rw [hserver, Bool.or_assoc]
      rfl

end ConnState

/-! ## The entry of a connection -/

theorem lifeOf_finished (arrivals : List Arrival) : (lifeOf arrivals).1.finished = false := by
  induction arrivals using List.reverseRecOn with
  | nil => rfl
  | append_singleton arrivals a ih =>
    rw [lifeOf_append]
    exact ((lifeOf arrivals).1.process_frame a).2.trans ih

/-- The entry and the connection of a key whose segments these are, while nothing has ended it. -/
def liveSlot (key : FlowKey) (arrivals : List Arrival) : Option ConnState × List Connection :=
  (some (lifeOf arrivals).1, [⟨key, arrivals, true⟩])

/-- The same when the last segment has ended it. -/
def closedSlot (key : FlowKey) (arrivals : List Arrival) : Option ConnState × List Connection :=
  (some (lifeOf arrivals).1.flush, [⟨key, arrivals, false⟩])

/-- One more segment of a live connection, or the first. -/
theorem slotStep_live (key : FlowKey) (arrivals : List Arrival) {a : Arrival}
    (ha : arrivals ≠ [] → a.opens = false) :
    slotStep key (if arrivals = [] then (none, []) else liveSlot key arrivals) a =
      if (lifeOf (arrivals ++ [a])).1.ends a.seg then closedSlot key (arrivals ++ [a])
      else liveSlot key (arrivals ++ [a]) := by
  have hextend (l : List Arrival) :
      Connection.extend key a ⟨key, l, true⟩ = ⟨key, l ++ [a], true⟩ :=
    if_pos ⟨rfl, rfl⟩
  have hclose (l : List Arrival) : Connection.close key ⟨key, l, true⟩ = ⟨key, l, false⟩ :=
    if_pos rfl
  have hflush (c : ConnState) : c.flush.finished = true := rfl
  -- what a segment does to the state of its connection
  have hslot (o : Option ConnState) (cs : List Connection)
      (hentry : slotEntry o a = (lifeOf arrivals).1)
      (hbegin : slotBegin key o cs a = [⟨key, arrivals, true⟩]) :
      slotStep key (o, cs) a =
        if (lifeOf (arrivals ++ [a])).1.ends a.seg then closedSlot key (arrivals ++ [a])
        else liveSlot key (arrivals ++ [a]) := by
    have hlive : (slotEntry o a).finished = false := by
      rw [hentry, lifeOf_finished]
    have hnext : slotNext o a = if (lifeOf (arrivals ++ [a])).1.ends a.seg then
        (lifeOf (arrivals ++ [a])).1.flush else (lifeOf (arrivals ++ [a])).1 := by
      rw [slotNext, hlive, if_neg Bool.false_ne_true, hentry, lifeOf_append]
    rw [slotStep]
    dsimp only
    rw [slotTrack, hlive, if_neg Bool.false_ne_true, hbegin, List.map_singleton, hextend,
      List.map_singleton, hclose, hnext]
    split_ifs with hends hfinished hfinished
    · rfl
    · exact absurd (hflush _) hfinished
    · rw [lifeOf_finished] at hfinished
      exact absurd hfinished Bool.false_ne_true
    · rfl
  by_cases hne : arrivals = []
  · rw [if_pos hne]
    apply hslot
    · rw [hne]
      rfl
    · rw [hne]
      rfl
  · have hreused : slotReused (some (lifeOf arrivals).1) a = some (lifeOf arrivals).1 := by
      rw [slotReused, ha hne]
      rfl
    rw [if_neg hne, liveSlot]
    apply hslot
    · rw [slotEntry, hreused]
      rfl
    · rw [slotBegin, hreused]
      rfl

/-- A connection that nothing has ended is live in its entry. -/
theorem foldl_liveSlot {key : FlowKey} {arrivals : List Arrival} (hne : arrivals ≠ [])
    (htail : ∀ a ∈ arrivals.tail, a.opens = false)
    (hopen : ∀ front a, front ++ [a] <+: arrivals →
      (lifeOf (front ++ [a])).1.ends a.seg = false) :
    arrivals.foldl (slotStep key) (none, []) = liveSlot key arrivals := by
  induction arrivals using List.reverseRecOn with
  | nil => exact absurd rfl hne
  | append_singleton arrivals a ih =>
    have hfront : arrivals.foldl (slotStep key) (none, []) =
        if arrivals = [] then (none, []) else liveSlot key arrivals := by
      by_cases hnil : arrivals = []
      · rw [if_pos hnil, hnil]
        rfl
      · rw [if_neg hnil]
        apply ih hnil
        · intro b hb
          apply htail
          rw [List.tail_append_of_ne_nil hnil]
          exact List.mem_append_left _ hb
        · intro front b hfront
          exact hopen front b (hfront.trans (List.prefix_append _ _))
    have hlast : arrivals ≠ [] → a.opens = false := by
      intro hnil
      apply htail
      rw [List.tail_append_of_ne_nil hnil]
      exact List.mem_append_right _ (List.mem_singleton_self a)
    rw [List.foldl_concat, hfront, slotStep_live key arrivals hlast,
      hopen arrivals a List.prefix_rfl, if_neg Bool.false_ne_true]

/-- A tombstone stays until a connection is opened. -/
theorem foldl_closedSlot (key : FlowKey) (arrivals : List Arrival) {late : List Arrival}
    (hlate : ∀ a ∈ late, a.opens = false) :
    late.foldl (slotStep key) (closedSlot key arrivals) = closedSlot key arrivals := by
  induction late with
  | nil => rfl
  | cons a late ih =>
    obtain ⟨ha, hlate⟩ := List.forall_mem_cons.mp hlate
    have hreused : slotReused (some (lifeOf arrivals).1.flush) a =
        some (lifeOf arrivals).1.flush := by
      rw [slotReused, ha]
      rfl
    have hentry : slotEntry (some (lifeOf arrivals).1.flush) a = (lifeOf arrivals).1.flush := by
      rw [slotEntry, hreused]
      rfl
    have hfinished : (lifeOf arrivals).1.flush.finished = true := rfl
    have hstep : slotStep key (closedSlot key arrivals) a = closedSlot key arrivals := by
      rw [closedSlot, slotStep]
      dsimp only
      rw [slotNext, slotTrack, hentry, if_pos hfinished, if_pos hfinished, slotBegin, hreused]
      rfl
    rw [List.foldl_cons, hstep]
    exact ih hlate

/-! ## A whole connection -/

/-- A decoder that has not given up has not given up before. -/
theorem ConnDecoder.active_of_prefix {d : ConnDecoder} {cs cs' : List Chunk} (h : cs <+: cs')
    (hactive : (d.run cs').1.disposition = .active) : (d.run cs).1.disposition = .active := by
  obtain ⟨rest, rfl⟩ := h
  rw [run_append] at hactive
  by_contra hgiven
  have hstop : (d.run cs).1.decoding = false := by
    rw [ProtoState.decoding, beq_false_of_ne hgiven, Bool.and_false]
  rw [run_of_not_decoding hstop] at hactive
  exact hgiven hactive

/-- The SYN of a direction, which carries no data. -/
structure Arrival.IsSyn (a : Arrival) (dir : Dir) : Prop where
  dir_eq : a.dir = dir
  syn : a.seg.syn = true
  payload : a.seg.payload = []
  fin : a.seg.fin = false
  rst : a.seg.rst = false

/-- A connection as it is seen on the wire: the two SYNs, the segments with their data, and what is
seen behind its end. -/
structure Transport where
  syn : Arrival
  synAck : Arrival
  data : List Arrival
  segments : List DataSegment
  late : List Arrival

namespace Transport

open DataSegment

/-- The initial sequence numbers, as the SYNs have them. -/
def isn (t : Transport) : Dir → UInt32
  | .client => t.syn.seg.seq + 1
  | .server => t.synAck.seg.seq + 1

/-- Both directions have been ended by some segments. -/
def bothEnded (ss : List DataSegment) : Bool := ended .client ss && ended .server ss

structure WellFormed (t : Transport) : Prop where
  syn : t.syn.IsSyn .client
  synAck : t.synAck.IsSyn .server
  carried : List.Forall₂ (Carried t.isn) t.data t.segments
  inOrder : InOrder (fun _ ↦ 0) t.segments
  /-- Data comes before the second FIN, or with it. -/
  before_end : ∀ n < t.segments.length, bothEnded (t.segments.take n) = false
  /-- What comes behind it opens no other connection. -/
  late : ∀ a ∈ t.late, a.opens = false ∧ bothEnded t.segments = true

/-- The segments that belong to the connection. -/
def seen (t : Transport) : List Arrival := t.syn :: t.synAck :: t.data

/-- All segments with its key. -/
def arrivals (t : Transport) : List Arrival := t.seen ++ t.late

/-- What the decoder is fed. -/
def calls (t : Transport) : List Chunk := delivered (fun _ ↦ 0) t.segments

end Transport

namespace ConnState

/-- A SYN sets its direction to the start, and does no more. -/
theorem process_syn {c : ConnState} {a : Arrival} {dir : Dir} (ha : a.IsSyn dir) :
    c.process a = (c.setStream dir ((c.stream dir).onSyn a.seg.seq), []) := by
  obtain ⟨d, ts, seg⟩ := a
  obtain ⟨rfl, hsyn, hpayload, hfin, -⟩ := ha
  have hstart : c.onSyn d seg = c.setStream d ((c.stream d).onSyn seg.seq) := if_pos hsyn
  have hnothing (s : SeqStream) : s.onData ts seg.seq seg.payload = (s, []) := by
    rw [SeqStream.onData, hpayload]
    rfl
  unfold process
  dsimp only
  rw [hstart]
  unfold deliver
  dsimp only
  rw [hnothing, stream_setStream]
  unfold onFin
  rw [hfin]
  cases d <;> simp [setStream, ConnDecoder.run]

end ConnState

namespace Transport

open DataSegment

variable {t : Transport}

/-- The two SYNs put both directions at their start. -/
theorem WellFormed.opening (h : t.WellFormed) :
    (lifeOf [t.syn, t.synAck]).1.At t.isn (fun _ ↦ 0) ∧
      (lifeOf [t.syn, t.synAck]).1.dec = .new ∧ (lifeOf [t.syn, t.synAck]).2 = [] ∧
      (lifeOf [t.syn, t.synAck]).1.finClient = false ∧
      (lifeOf [t.syn, t.synAck]).1.finServer = false := by
  have hlife : lifeOf [t.syn, t.synAck] =
      ((ConnState.new.setStream .client (SeqStream.new.onSyn t.syn.seg.seq)).setStream .server
        (SeqStream.new.onSyn t.synAck.seg.seq), []) := by
    rw [lifeOf, List.foldl_cons, List.foldl_cons, List.foldl_nil, ConnState.process_syn h.syn]
    dsimp only
    rw [ConnState.process_syn h.synAck]
    rfl
  rw [hlife]
  refine ⟨⟨fun dir ↦ ?_⟩, rfl, rfl, rfl, rfl⟩
  cases dir
  · exact ⟨rfl, rfl, rfl, rfl, rfl⟩
  · exact ⟨rfl, rfl, rfl, rfl, rfl⟩

/-- **The life of a connection** up to one of its segments: its decoder has been fed what was new in
them. -/
theorem WellFormed.life (h : t.WellFormed) (n : ℕ) :
    let r := lifeOf (t.syn :: t.synAck :: t.data.take n)
    let d := ConnDecoder.new.run (delivered (fun _ ↦ 0) (t.segments.take n))
    (∃ pos, r.1.At t.isn pos) ∧ r.1.dec = d.1 ∧ r.2 = d.2 ∧
      r.1.finClient = ended .client (t.segments.take n) ∧
      r.1.finServer = ended .server (t.segments.take n) := by
  intro r d
  obtain ⟨hat, hdec, hout, hclient, hserver⟩ := h.opening
  have hcarried := List.forall₂_take n h.carried
  obtain ⟨hat', hdec', hout', hclient', hserver'⟩ := ConnState.foldl_inOrder hat hcarried
    (inOrder_take n h.inOrder) []
  have hr : r = (t.data.take n).foldl
      (fun r a ↦ ((r.1.process a).1, r.2 ++ (r.1.process a).2))
      ((lifeOf [t.syn, t.synAck]).1, []) := by
    rw [← hout]
    rfl
  rw [← hr, hdec] at hdec' hout'
  rw [← hr] at hat' hclient' hserver'
  rw [hclient, Bool.false_or] at hclient'
  rw [hserver, Bool.false_or] at hserver'
  exact ⟨hat', hdec', hout', hclient', hserver'⟩

/-- What ends a connection behind its SYNs: the second FIN, while the decoder goes on. -/
theorem WellFormed.ends_eq (h : t.WellFormed)
    (hactive : (ConnDecoder.new.run t.calls).1.disposition = .active) (n : ℕ) {a : Arrival}
    (ha : a.seg.rst = false) :
    (lifeOf (t.syn :: t.synAck :: t.data.take n)).1.ends a.seg = bothEnded (t.segments.take n) := by
  obtain ⟨⟨pos, hat⟩, hdec, -, hclient, hserver⟩ := h.life n
  have hdisposition :
      (lifeOf (t.syn :: t.synAck :: t.data.take n)).1.dec.disposition = .active := by
    rw [hdec]
    exact ConnDecoder.active_of_prefix (delivered_take _ _ n) hactive
  have hc2s := (hat.stream .client).overflow
  have hs2c := (hat.stream .server).overflow
  dsimp only [ConnState.stream] at hc2s hs2c
  rw [ConnState.ends, ha, hclient, hserver, hdisposition, hc2s, hs2c, bothEnded]
  simp

/-- A segment with data neither opens a connection nor resets one. -/
theorem WellFormed.plain (h : t.WellFormed) :
    ∀ a ∈ t.data, a.seg.rst = false ∧ a.opens = false := by
  have hcarried := h.carried
  generalize t.data = arrivals at hcarried
  generalize t.segments = ss at hcarried
  induction hcarried with
  | nil => exact fun a ha ↦ absurd ha List.not_mem_nil
  | cons ha _ ih =>
    refine List.forall_mem_cons.mpr ⟨⟨ha.rst, ?_⟩, ih⟩
    rw [Arrival.opens, ha.syn]
    rfl

/-- Nothing ends the connection before its last segment. -/
theorem WellFormed.open_before (h : t.WellFormed)
    (hactive : (ConnDecoder.new.run t.calls).1.disposition = .active) {front : List Arrival}
    {a : Arrival} (hbefore : front ++ [a] <+: t.seen)
    (hlast : front ++ [a] = t.seen → bothEnded t.segments = false) :
    (lifeOf (front ++ [a])).1.ends a.seg = false := by
  rcases front with _ | ⟨x, _ | ⟨y, front⟩⟩
  · -- the client's SYN
    obtain ⟨rfl, -⟩ := List.cons_prefix_cons.mp hbefore
    have hlife : lifeOf ([] ++ [t.syn]) =
        (ConnState.new.setStream .client (SeqStream.new.onSyn t.syn.seg.seq), []) :=
      congrArg (fun r ↦ (r.1, [] ++ r.2)) (ConnState.process_syn h.syn)
    rw [hlife, ConnState.ends, h.syn.rst]
    rfl
  · -- the server's SYN
    obtain ⟨rfl, hrest⟩ := List.cons_prefix_cons.mp hbefore
    obtain ⟨rfl, -⟩ := List.cons_prefix_cons.mp hrest
    exact h.ends_eq hactive 0 h.synAck.rst
  · obtain ⟨rfl, hrest⟩ := List.cons_prefix_cons.mp hbefore
    obtain ⟨rfl, hdata⟩ := List.cons_prefix_cons.mp hrest
    have htake : front ++ [a] = t.data.take (front ++ [a]).length :=
      List.prefix_iff_eq_take.mp hdata
    have hle : (front ++ [a]).length ≤ t.data.length := hdata.length_le
    have hrst := (h.plain a (hdata.subset (List.mem_append_right _ (List.mem_singleton_self a)))).1
    have hends := h.ends_eq hactive (front ++ [a]).length hrst
    rw [← htake] at hends
    refine hends.trans ?_
    rw [h.carried.length_eq] at hle
    rcases hle.lt_or_eq with hlt | heq
    · exact h.before_end _ hlt
    · rw [heq, List.take_length]
      rw [heq, ← h.carried.length_eq, List.take_length] at htake
      apply hlast
      rw [seen, ← htake]
      rfl

/-- **The connection of a transport**: all segments up to the second FIN belong to it. -/
theorem WellFormed.connectionsUnder_arrivals (h : t.WellFormed)
    (hactive : (ConnDecoder.new.run t.calls).1.disposition = .active) (key : FlowKey) :
    connectionsUnder key t.arrivals = [⟨key, t.seen, !bothEnded t.segments⟩] := by
  have htail : ∀ a ∈ t.seen.tail, a.opens = false := by
    refine List.forall_mem_cons.mpr ⟨?_, fun a ha ↦ (h.plain a ha).2⟩
    rw [Arrival.opens, h.synAck.dir_eq]
    exact Bool.and_false _
  have hlate : ∀ a ∈ t.late, a.opens = false := fun a ha ↦ (h.late a ha).1
  rw [connectionsUnder, arrivals, List.foldl_append]
  by_cases hended : bothEnded t.segments = true
  · -- the last segment has the second FIN
    obtain ⟨front, a, hdata⟩ : ∃ front a, t.data = front ++ [a] := by
      refine (List.eq_nil_or_concat' t.data).resolve_left fun hnil ↦ ?_
      have hlength := h.carried.length_eq
      rw [hnil] at hlength
      rw [List.length_eq_zero_iff.mp hlength.symm] at hended
      exact absurd hended Bool.false_ne_true
    have hseen : t.seen = t.syn :: t.synAck :: front ++ [a] := by
      rw [seen, hdata]
      rfl
    have hfront : (t.syn :: t.synAck :: front).foldl (slotStep key) (none, []) =
        liveSlot key (t.syn :: t.synAck :: front) := by
      apply foldl_liveSlot (List.cons_ne_nil _ _)
      · intro b hb
        apply htail
        rw [hseen]
        exact List.mem_append_left _ hb
      · intro front' b hbefore
        apply h.open_before hactive
        · rw [hseen]
          exact hbefore.trans (List.prefix_append _ _)
        · -- a prefix of what comes before the last segment is not all
          intro hall
          have hle := hbefore.length_le
          rw [hall, hseen, List.length_append] at hle
          exact absurd hle (Nat.not_succ_le_self _)
    have ha := h.plain a (hdata ▸ List.mem_append_right _ (List.mem_singleton_self a))
    have hends := h.ends_eq hactive t.data.length ha.1
    rw [List.take_length, h.carried.length_eq, List.take_length, hended] at hends
    have hlast := slotStep_live key (t.syn :: t.synAck :: front) fun _ ↦ ha.2
    rw [if_neg (List.cons_ne_nil _ _), ← hseen] at hlast
    have hclosed : t.seen.foldl (slotStep key) (none, []) = closedSlot key t.seen := by
      rw [hseen, List.foldl_concat, hfront, hlast, ← hseen]
      exact if_pos hends
    rw [hclosed, foldl_closedSlot key _ hlate, hended]
    rfl
  · -- no second FIN: nothing comes late, and the connection is open at the end
    have hended := Bool.eq_false_iff.mpr hended
    have hnone : t.late = [] := by
      by_contra hne
      obtain ⟨a, ha⟩ := List.exists_mem_of_ne_nil _ hne
      rw [(h.late a ha).2] at hended
      exact absurd hended.symm Bool.false_ne_true
    have hlive : t.seen.foldl (slotStep key) (none, []) = liveSlot key t.seen :=
      foldl_liveSlot (List.cons_ne_nil _ _) htail
        fun front a hbefore ↦ h.open_before hactive hbefore fun _ ↦ hended
    rw [hlive, hnone, hended]
    rfl

/-- Its events are those of the decoder that is fed what is new in its segments. -/
theorem WellFormed.events (h : t.WellFormed) (key : FlowKey) (live : Bool) :
    (⟨key, t.seen, live⟩ : Connection).ended.events =
      (ConnDecoder.new.run t.calls).2 ++ (ConnDecoder.new.run t.calls).1.finish.2 := by
  have hlength := h.carried.length_eq
  obtain ⟨-, hdec, hout, -, -⟩ := h.life t.data.length
  rw [List.take_length, hlength, List.take_length] at hdec hout
  rw [Connection.ended, Connection.events]
  dsimp only
  rw [if_neg Bool.false_ne_true, seen, hdec, hout]
  rfl

end Transport

end SqlReplay
