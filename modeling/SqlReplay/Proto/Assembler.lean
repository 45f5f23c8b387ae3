import SqlReplay.Proto.Binary

/-!
# Packet assembly

A wire packet is a three-byte length, a sequence id and a payload; a payload of `0xffffff` bytes
continues in the next packet. `PacketAssembler` cuts the chunks of one direction into logical
packets, each with the timestamp of the chunk that delivered its first byte.

## Independence of the chunks

The main result is that the chunks do not matter: feeding a stream chunk by chunk gives what one
pass of the loop, `assemble`, gives on the whole stream. `assemble` is therefore a function of a
stream and of a clock on its offsets. The buffer and the marks of the assembler are shown to be a
faithful record of the part of the stream that the loop has not used up (`PacketAssembler.Reads`).
-/

namespace SqlReplay

/-- The length of a payload that continues in the next packet. -/
def fullPayload : ℕ := 0xFFFFFF

/-- `MAX_LOGICAL_PACKET`. -/
def maxLogicalPacket : ℕ := 64 * 1024 * 1024

/-- One logical packet: its wire packets joined. -/
structure LogicalPacket where
  firstSeq : UInt8
  lastSeq : UInt8
  tsMicros : ℤ
  payload : Bytes
  deriving DecidableEq, Repr

/-- A logical packet in progress: the sequence id and timestamp of its first wire packet and the
payload so far. -/
structure PartialPacket where
  firstSeq : UInt8
  tsMicros : ℤ
  payload : Bytes
  deriving DecidableEq, Repr

namespace PartialPacket

/-- A wire packet's payload joined to the packet in progress, or beginning one. -/
def join (part : Option PartialPacket) (seq : UInt8) (tsMicros : ℤ) (payload : Bytes) :
    PartialPacket :=
  match part with
  | some p => { p with payload := p.payload ++ payload }
  | none => ⟨seq, tsMicros, payload⟩

/-- A payload that would make the packet in progress too large. -/
def tooLarge (part : Option PartialPacket) (payload : Bytes) : Bool :=
  part.any fun p ↦ maxLogicalPacket < p.payload.length + payload.length

/-- The logical packet that a wire packet with this sequence id completes. -/
def complete (p : PartialPacket) (lastSeq : UInt8) : LogicalPacket :=
  ⟨p.firstSeq, lastSeq, p.tsMicros, p.payload⟩

end PartialPacket

structure PacketAssembler where
  buf : Bytes
  /-- Stream offset and timestamp of each chunk start that still matters. -/
  marks : List (ℕ × ℤ)
  /-- Stream offset of the head of `buf`. -/
  consumed : ℕ
  inProgress : Option PartialPacket
  broken : Bool
  deriving DecidableEq, Repr

namespace PacketAssembler

/-- `PacketAssembler::new`. -/
def new : PacketAssembler := ⟨[], [], 0, none, false⟩

/-- `ts_for`: the timestamp of the last mark at or before the offset, 0 when there is none. -/
def tsFor (marks : List (ℕ × ℤ)) (offset : ℕ) : ℤ :=
  (marks.takeWhile (·.1 ≤ offset)).foldl (fun _ m ↦ m.2) 0

/-- The loop that drops marks which no longer cover buffered bytes. -/
def dropMarks (consumed : ℕ) : List (ℕ × ℤ) → List (ℕ × ℤ)
  | m :: n :: marks => if n.1 ≤ consumed then dropMarks consumed (n :: marks) else m :: n :: marks
  | marks => marks

end PacketAssembler

/-- The wire packet at the head of a buffer, when all of it is there: its sequence id, its payload
and the bytes behind it. -/
def wirePacket? : Bytes → Option (UInt8 × Bytes × Bytes)
  | a :: b :: c :: seq :: body =>
    if body.length < leNat [a, b, c] then none
    else some (seq, body.take (leNat [a, b, c]), body.drop (leNat [a, b, c]))
  | _ => none

/-- How the loop of `feed` leaves the stream: the packets it completed, the offset and the bytes
it stopped at, the packet in progress, and whether a packet grew too large. -/
structure Assembled where
  packets : List LogicalPacket
  offset : ℕ
  rest : Bytes
  inProgress : Option PartialPacket
  broken : Bool
  deriving DecidableEq, Repr

theorem wirePacket?_eq_some {rest : Bytes} {seq : UInt8} {payload after : Bytes}
    (h : wirePacket? rest = some (seq, payload, after)) :
    ∃ a b c, rest = a :: b :: c :: seq :: payload ++ after ∧ payload.length = leNat [a, b, c] := by
  match rest with
  | [] | [_] | [_, _] | [_, _, _] => simp [wirePacket?] at h
  | a :: b :: c :: s :: body =>
    rw [wirePacket?] at h
    split_ifs at h with hlen
    obtain ⟨rfl, rfl, rfl⟩ : s = seq ∧ body.take (leNat [a, b, c]) = payload ∧
        body.drop (leNat [a, b, c]) = after := by simpa using h
    refine ⟨a, b, c, ?_, List.length_take_of_le (Nat.le_of_not_lt hlen)⟩
    rw [List.cons_append, List.cons_append, List.cons_append, List.cons_append,
      List.take_append_drop]

theorem wirePacket?_length {rest : Bytes} {seq : UInt8} {payload after : Bytes}
    (h : wirePacket? rest = some (seq, payload, after)) :
    rest.length = 4 + payload.length + after.length := by
  obtain ⟨a, b, c, rfl, -⟩ := wirePacket?_eq_some h
  simp only [List.cons_append, List.length_cons, List.length_append]
  omega

/-- The same with packets completed before. -/
def Assembled.after (packets : List LogicalPacket) (r : Assembled) : Assembled :=
  { r with packets := packets ++ r.packets }

/-- The loop of `feed` over the bytes at stream offset `offset`. -/
def assemble (clock : ℕ → ℤ) (offset : ℕ) (rest : Bytes) (part : Option PartialPacket) :
    Assembled :=
  match h : wirePacket? rest with
  | none => ⟨[], offset, rest, part, false⟩
  | some (seq, payload, after) =>
    let joined := PartialPacket.join part seq (clock offset) payload
    if PartialPacket.tooLarge part payload then ⟨[], offset, rest, none, true⟩
    else if payload.length = fullPayload then
      assemble clock (offset + 4 + payload.length) after (some joined)
    else (assemble clock (offset + 4 + payload.length) after none).after [joined.complete seq]
  termination_by rest.length
  decreasing_by all_goals rw [wirePacket?_length h]; omega

namespace PacketAssembler

/-- `PacketAssembler::feed`, with the packets it appends to `out`. -/
def feed (a : PacketAssembler) (tsMicros : ℤ) (data : Bytes) :
    PacketAssembler × List LogicalPacket :=
  if a.broken ∨ data = [] then (a, [])
  else
    let marks := a.marks ++ [(a.consumed + a.buf.length, tsMicros)]
    let buf := a.buf ++ data
    let r := assemble (tsFor marks) a.consumed buf a.inProgress
    if r.broken then (⟨buf, marks, a.consumed, none, true⟩, r.packets)
    else
      (⟨r.rest, dropMarks r.offset marks, r.offset, r.inProgress,
        decide (maxLogicalPacket < r.rest.length)⟩, r.packets)

end PacketAssembler

/-! ## One pass over a stream

The equations of the loop, one for each thing it can do with the wire packet at the head, and what
follows from them by induction along the loop. -/

section Assemble

variable {clock clock' : ℕ → ℤ} {offset : ℕ} {rest payload after : Bytes} {seq : UInt8}
  {part : Option PartialPacket}

theorem wirePacket?_append (h : wirePacket? rest = some (seq, payload, after)) (more : Bytes) :
    wirePacket? (rest ++ more) = some (seq, payload, after ++ more) := by
  obtain ⟨a, b, c, rfl, hlen⟩ := wirePacket?_eq_some h
  have hshort : ¬(payload ++ (after ++ more)).length < leNat [a, b, c] := by
    rw [← hlen, List.length_append]
    omega
  simp only [List.cons_append, List.append_assoc, wirePacket?]
  rw [if_neg hshort, ← hlen, List.take_left, List.drop_left]

theorem assemble_none (h : wirePacket? rest = none) :
    assemble clock offset rest part = ⟨[], offset, rest, part, false⟩ := by
  rw [assemble]
  split
  · rfl
  · next h' => rw [h] at h'; cases h'

theorem assemble_some (h : wirePacket? rest = some (seq, payload, after)) :
    assemble clock offset rest part =
      let joined := PartialPacket.join part seq (clock offset) payload
      if PartialPacket.tooLarge part payload then ⟨[], offset, rest, none, true⟩
      else if payload.length = fullPayload then
        assemble clock (offset + 4 + payload.length) after (some joined)
      else (assemble clock (offset + 4 + payload.length) after none).after
        [joined.complete seq] := by
  conv_lhs => rw [assemble]
  split
  · next h' => rw [h] at h'; cases h'
  · next s p a h' =>
    obtain ⟨rfl, rfl, rfl⟩ : s = seq ∧ p = payload ∧ a = after := by simpa [h] using h'.symm
    rfl

/-- What the loop leaves is what it was given from the offset it reached. -/
theorem assemble_offset (h : (assemble clock offset rest part).broken = false) :
    (assemble clock offset rest part).offset + (assemble clock offset rest part).rest.length =
      offset + rest.length := by
  fun_induction assemble clock offset rest part with
  | case1 => rfl
  | case2 => cases h
  | case3 offset rest part seq payload after hw _ _ _ ih =>
    rw [ih h, wirePacket?_length hw]
    omega
  | case4 offset rest part seq payload after hw _ _ _ ih =>
    rw [Assembled.after, ih h, wirePacket?_length hw]
    omega

theorem le_assemble_offset : offset ≤ (assemble clock offset rest part).offset := by
  fun_induction assemble clock offset rest part with
  | case1 => exact le_rfl
  | case2 => exact le_rfl
  | case3 _ _ _ _ _ _ _ _ _ _ ih => exact le_trans (by omega) ih
  | case4 _ _ _ _ _ _ _ _ _ _ ih => exact le_trans (by omega) ih

/-- The loop stops only at bytes that hold no whole packet. -/
theorem wirePacket?_assemble (h : (assemble clock offset rest part).broken = false) :
    wirePacket? (assemble clock offset rest part).rest = none := by
  fun_induction assemble clock offset rest part with
  | case1 _ _ _ hw => exact hw
  | case2 => cases h
  | case3 _ _ _ _ _ _ _ _ _ _ ih => exact ih h
  | case4 _ _ _ _ _ _ _ _ _ _ ih => exact ih h

/-- The loop looks at the clock only at offsets of the bytes it was given. -/
theorem assemble_congr (h : ∀ i < rest.length, clock (offset + i) = clock' (offset + i)) :
    assemble clock offset rest part = assemble clock' offset rest part := by
  fun_induction assemble clock offset rest part with
  | case1 offset rest part hw => rw [assemble_none hw]
  | case2 offset rest part seq payload after hw hlarge =>
    rw [assemble_some hw]
    exact (if_pos hlarge).symm
  | case3 offset rest part seq payload after hw joined hlarge hfull ih =>
    have hlen := wirePacket?_length hw
    rw [assemble_some hw]
    simp only [if_neg hlarge, if_pos hfull]
    rw [ih fun i hi ↦ by simpa [Nat.add_assoc] using h (4 + payload.length + i) (by omega)]
    rw [show joined = PartialPacket.join part seq (clock' offset) payload by
      rw [← Nat.add_zero offset, ← h 0 (by omega), Nat.add_zero]]
  | case4 offset rest part seq payload after hw joined hlarge hfull ih =>
    have hlen := wirePacket?_length hw
    rw [assemble_some hw]
    simp only [if_neg hlarge, if_neg hfull]
    rw [ih fun i hi ↦ by simpa [Nat.add_assoc] using h (4 + payload.length + i) (by omega)]
    rw [show joined = PartialPacket.join part seq (clock' offset) payload by
      rw [← Nat.add_zero offset, ← h 0 (by omega), Nat.add_zero]]

/-- A stream read in two parts: the loop resumes where it stopped. -/
theorem assemble_append (more : Bytes) (h : (assemble clock offset rest part).broken = false) :
    assemble clock offset (rest ++ more) part =
      let r := assemble clock offset rest part
      (assemble clock r.offset (r.rest ++ more) r.inProgress).after r.packets := by
  fun_induction assemble clock offset rest part with
  | case1 => rfl
  | case2 => cases h
  | case3 offset rest part seq payload after hw joined hlarge hfull ih =>
    rw [assemble_some (wirePacket?_append hw more)]
    simp only [if_neg hlarge, if_pos hfull]
    exact ih h
  | case4 offset rest part seq payload after hw joined hlarge hfull ih =>
    rw [assemble_some (wirePacket?_append hw more)]
    simp only [if_neg hlarge, if_neg hfull]
    rw [ih h]
    rfl

/-- A stream that breaks stays broken, whatever follows. -/
theorem broken_assemble_append (more : Bytes) (h : (assemble clock offset rest part).broken) :
    (assemble clock offset (rest ++ more) part).broken := by
  fun_induction assemble clock offset rest part with
  | case1 => cases h
  | case2 offset rest part seq payload after hw hlarge =>
    rw [assemble_some (wirePacket?_append hw more)]
    simp only [if_pos hlarge]
  | case3 offset rest part seq payload after hw joined hlarge hfull ih =>
    rw [assemble_some (wirePacket?_append hw more)]
    simp only [if_neg hlarge, if_pos hfull]
    exact ih h
  | case4 offset rest part seq payload after hw joined hlarge hfull ih =>
    rw [assemble_some (wirePacket?_append hw more)]
    simp only [if_neg hlarge, if_neg hfull]
    exact ih h

end Assemble

/-! ## Encoded packets

How a sender puts a payload on the wire, and that the loop reads it back. -/

/-- The header of a wire packet. -/
def packetHeader (length : ℕ) (seq : UInt8) : Bytes :=
  [length.toUInt8, (length / 256).toUInt8, (length / 65536).toUInt8, seq]

/-- A logical packet on the wire: full wire packets, then a shorter one. -/
def encodePacket (seq : UInt8) (payload : Bytes) : Bytes :=
  if payload.length < fullPayload then packetHeader payload.length seq ++ payload
  else
    packetHeader fullPayload seq ++ payload.take fullPayload ++
      encodePacket (seq + 1) (payload.drop fullPayload)
  termination_by payload.length
  decreasing_by
    rw [List.length_drop]
    have : 0 < fullPayload := by decide
    omega

theorem encodePacket_ne_nil (seq : UInt8) (payload : Bytes) : encodePacket seq payload ≠ [] := by
  rw [encodePacket]
  split_ifs
  · exact List.cons_ne_nil _ _
  · exact List.cons_ne_nil _ _

/-- The sequence id of the last wire packet of a payload. -/
def lastSeqOf (seq : UInt8) (payload : Bytes) : UInt8 :=
  seq + (payload.length / fullPayload).toUInt8

theorem wirePacket?_header (seq : UInt8) {payload : Bytes} (h : payload.length ≤ fullPayload)
    (more : Bytes) :
    wirePacket? (packetHeader payload.length seq ++ payload ++ more) =
      some (seq, payload, more) := by
  have hlen : leNat [payload.length.toUInt8, (payload.length / 256).toUInt8,
      (payload.length / 65536).toUInt8] = payload.length := by
    simp only [leNat, fullPayload, Nat.toUInt8, UInt8.toNat_ofNat'] at h ⊢
    omega
  simp only [packetHeader, List.cons_append, List.nil_append, wirePacket?]
  rw [hlen, if_neg (by simp), List.take_left, List.drop_left]

theorem lastSeqOf_of_lt {payload : Bytes} (seq : UInt8) (h : payload.length < fullPayload) :
    lastSeqOf seq payload = seq := by
  rw [lastSeqOf, Nat.div_eq_of_lt h]
  exact UInt8.add_zero seq

theorem lastSeqOf_drop {payload : Bytes} (seq : UInt8) (h : fullPayload ≤ payload.length) :
    lastSeqOf (seq + 1) (payload.drop fullPayload) = lastSeqOf seq payload := by
  rw [lastSeqOf, lastSeqOf, List.length_drop, UInt8.add_assoc,
    Nat.div_eq_sub_div (by decide) h, Nat.add_comm _ 1]
  congr 1
  exact (UInt8.ofNat_add 1 _).symm

theorem PartialPacket.not_tooLarge {part : Option PartialPacket} {seq : UInt8} {ts : ℤ}
    {payload : Bytes} (h : (join part seq ts payload).payload.length ≤ maxLogicalPacket) :
    ¬tooLarge part payload := by
  cases part with
  | none => simp [tooLarge]
  | some p =>
    rw [join, List.length_append] at h
    simpa [tooLarge] using h

theorem PartialPacket.join_append (part : Option PartialPacket) (seq seq' : UInt8) (ts ts' : ℤ)
    (a b : Bytes) :
    join (some (join part seq ts a)) seq' ts' b = join part seq ts (a ++ b) := by
  cases part with
  | none => rfl
  | some p => simp only [join, List.append_assoc]

/-- The loop reads an encoded packet back as one logical packet. -/
theorem assemble_encodePacket (clock : ℕ → ℤ) (offset : ℕ) (part : Option PartialPacket)
    (seq : UInt8) {payload : Bytes} (more : Bytes)
    (h : (PartialPacket.join part seq (clock offset) payload).payload.length ≤ maxLogicalPacket) :
    assemble clock offset (encodePacket seq payload ++ more) part =
      (assemble clock (offset + (encodePacket seq payload).length) more none).after
        [(PartialPacket.join part seq (clock offset) payload).complete
          (lastSeqOf seq payload)] := by
  fun_induction encodePacket seq payload generalizing offset part with
  | case1 seq payload hshort =>
    rw [assemble_some (wirePacket?_header seq hshort.le more)]
    simp only [if_neg (PartialPacket.not_tooLarge h), if_neg hshort.ne]
    rw [lastSeqOf_of_lt seq hshort, List.length_append, ← Nat.add_assoc]
    rfl
  | case2 seq payload hlong ih =>
    have hfull : fullPayload ≤ payload.length := Nat.le_of_not_lt hlong
    have htake : (payload.take fullPayload).length = fullPayload := List.length_take_of_le hfull
    have hjoin := PartialPacket.join_append part seq (seq + 1) (clock offset)
      (clock (offset + 4 + fullPayload)) (payload.take fullPayload) (payload.drop fullPayload)
    rw [List.take_append_drop] at hjoin
    have hsmall : (PartialPacket.join part seq (clock offset)
        (payload.take fullPayload)).payload.length ≤ maxLogicalPacket := by
      refine le_trans ?_ h
      cases part with
      | none => exact List.length_take_le' _ _
      | some p =>
        rw [PartialPacket.join, PartialPacket.join, List.length_append, List.length_append]
        exact Nat.add_le_add_left (List.length_take_le' _ _) _
    have hw := wirePacket?_header seq htake.le
      (encodePacket (seq + 1) (payload.drop fullPayload) ++ more)
    rw [htake, ← List.append_assoc] at hw
    rw [assemble_some hw]
    simp only [if_neg (PartialPacket.not_tooLarge hsmall), htake, if_true]
    rw [ih _ _ (by rw [hjoin]; exact h), hjoin, lastSeqOf_drop seq hfull]
    congr 2
    rw [List.length_append, List.length_append, htake]
    simp only [packetHeader, List.length_cons, List.length_nil]
    omega

/-- The loop gives up on a packet larger than the limit. -/
theorem broken_assemble_encodePacket (clock : ℕ → ℤ) (offset : ℕ) (part : Option PartialPacket)
    (seq : UInt8) {payload : Bytes} (more : Bytes)
    (h : maxLogicalPacket < (PartialPacket.join part seq (clock offset) payload).payload.length) :
    (assemble clock offset (encodePacket seq payload ++ more) part).broken := by
  fun_induction encodePacket seq payload generalizing offset part with
  | case1 seq payload hshort =>
    -- a short payload is too large only behind a packet in progress
    have hlarge : PartialPacket.tooLarge part payload := by
      cases part with
      | none =>
        rw [PartialPacket.join] at h
        exact absurd (h.trans hshort) (by decide)
      | some p =>
        rw [PartialPacket.join, List.length_append] at h
        simpa [PartialPacket.tooLarge] using h
    rw [assemble_some (wirePacket?_header seq hshort.le more)]
    simp only [if_pos hlarge]
  | case2 seq payload hlong ih =>
    have hfull : fullPayload ≤ payload.length := Nat.le_of_not_lt hlong
    have htake : (payload.take fullPayload).length = fullPayload := List.length_take_of_le hfull
    have hjoin := PartialPacket.join_append part seq (seq + 1) (clock offset)
      (clock (offset + 4 + fullPayload)) (payload.take fullPayload) (payload.drop fullPayload)
    rw [List.take_append_drop] at hjoin
    have hw := wirePacket?_header seq htake.le
      (encodePacket (seq + 1) (payload.drop fullPayload) ++ more)
    rw [htake, ← List.append_assoc] at hw
    rw [assemble_some hw]
    simp only [htake, if_true]
    by_cases hlarge : PartialPacket.tooLarge part (payload.take fullPayload)
    · rw [if_pos hlarge]
    · rw [if_neg hlarge]
      exact ih _ _ (by rw [hjoin]; exact h)

/-! ## Marks -/

namespace PacketAssembler

theorem tsFor_append_of_lt {marks : List (ℕ × ℤ)} {offset : ℕ} {m : ℕ × ℤ} (h : offset < m.1) :
    tsFor (marks ++ [m]) offset = tsFor marks offset := by
  rw [tsFor, tsFor, List.takeWhile_append]
  split_ifs with hall
  · rw [List.takeWhile_cons_of_neg (by simpa using h), List.append_nil,
      (List.takeWhile_prefix _).eq_of_length hall]
  · rfl

theorem tsFor_append_of_le {marks : List (ℕ × ℤ)} {offset : ℕ} {m : ℕ × ℤ}
    (hmarks : ∀ n ∈ marks, n.1 ≤ offset) (h : m.1 ≤ offset) :
    tsFor (marks ++ [m]) offset = m.2 := by
  have hall : (marks ++ [m]).takeWhile (·.1 ≤ offset) = marks ++ [m] := by
    refine List.takeWhile_eq_self_iff.mpr fun n hn ↦ ?_
    rcases List.mem_append.mp hn with hn | hn
    · simpa using hmarks n hn
    · rw [List.mem_singleton.mp hn]
      simpa using h
  rw [tsFor, hall, List.foldl_append]
  rfl

theorem dropMarks_suffix (consumed : ℕ) (marks : List (ℕ × ℤ)) :
    dropMarks consumed marks <:+ marks := by
  fun_induction dropMarks consumed marks with
  | case1 m n marks _ ih => exact ih.trans (List.suffix_cons _ _)
  | case2 => exact List.suffix_refl _
  | case3 => exact List.suffix_refl _

/-- Dropping marks does not change the timestamp of a byte that is still buffered. -/
theorem tsFor_dropMarks {consumed offset : ℕ} {marks : List (ℕ × ℤ)}
    (hsorted : marks.Pairwise (·.1 ≤ ·.1)) (h : consumed ≤ offset) :
    tsFor (dropMarks consumed marks) offset = tsFor marks offset := by
  fun_induction dropMarks consumed marks with
  | case1 m n marks hn ih =>
    obtain ⟨hm, hsorted⟩ := List.pairwise_cons.mp hsorted
    have hmn : m.1 ≤ n.1 := hm n List.mem_cons_self
    rw [ih hsorted, tsFor, tsFor, List.takeWhile_cons_of_pos (by simpa using hn.trans h),
      List.takeWhile_cons_of_pos (by simpa using (hmn.trans hn).trans h),
      List.takeWhile_cons_of_pos (by simpa using hn.trans h)]
    rfl
  | case2 => rfl
  | case3 => rfl

/-! ## Feeding a stream in chunks -/

end PacketAssembler

/-- The bytes of a stream that comes in timestamped chunks. -/
def chunkBytes (chunks : List (ℤ × Bytes)) : Bytes := chunks.flatMap Prod.snd

/-- The timestamp of the chunk that holds the byte at an offset of the stream. -/
def tsAt : List (ℤ × Bytes) → ℕ → ℤ
  | [], _ => 0
  | (ts, data) :: chunks, offset =>
    if offset < data.length then ts else tsAt chunks (offset - data.length)

namespace PacketAssembler

/-- Feeding chunk after chunk, with all the packets that come out. -/
def feedAll (a : PacketAssembler) : List (ℤ × Bytes) → PacketAssembler × List LogicalPacket
  | [] => (a, [])
  | (ts, data) :: chunks =>
    ((feedAll (a.feed ts data).1 chunks).1,
      (a.feed ts data).2 ++ (feedAll (a.feed ts data).1 chunks).2)

/-- An assembler between two chunks: it holds no whole wire packet, and its marks know the
timestamps of the bytes it holds. -/
structure Reads (a : PacketAssembler) (clock : ℕ → ℤ) : Prop where
  sorted : a.marks.Pairwise (·.1 ≤ ·.1)
  marks_le : ∀ m ∈ a.marks, m.1 ≤ a.consumed + a.buf.length
  tsFor_eq : ∀ o, a.consumed ≤ o → o < a.consumed + a.buf.length → tsFor a.marks o = clock o
  whole : wirePacket? a.buf = none
  not_broken : a.broken = false

theorem new_reads (clock : ℕ → ℤ) : new.Reads clock where
  sorted := List.Pairwise.nil
  marks_le := fun _ h ↦ absurd h List.not_mem_nil
  tsFor_eq := fun o _ h ↦ absurd h (Nat.not_lt_zero o)
  whole := rfl
  not_broken := rfl

/-- What is left without a whole wire packet is short: the size check behind the loop never
fires. -/
theorem length_le_of_wirePacket? {rest : Bytes} (h : wirePacket? rest = none) :
    rest.length ≤ maxLogicalPacket := by
  match rest with
  | [] | [_] | [_, _] | [_, _, _] => simp [maxLogicalPacket]
  | a :: b :: c :: seq :: body =>
    rw [wirePacket?] at h
    split_ifs at h with hlen
    have ha := a.toNat_lt
    have hb := b.toNat_lt
    have hc := c.toNat_lt
    simp only [leNat, maxLogicalPacket, List.length_cons] at hlen ⊢
    omega

/-- How feeding ends, against one pass `r` over the same bytes. -/
structure Fed (clock : ℕ → ℤ) (r : Assembled) (a : PacketAssembler) (packets : List LogicalPacket) :
    Prop where
  reads : a.Reads clock
  packets_eq : packets = r.packets
  buf_eq : a.buf = r.rest
  consumed_eq : a.consumed = r.offset
  inProgress_eq : a.inProgress = r.inProgress

section Feed

variable {a : PacketAssembler} {clock : ℕ → ℤ} {ts : ℤ} {data : Bytes}

/-- The marks with the new one, against the stream's clock. -/
theorem Reads.tsFor_push (h : a.Reads clock)
    (hdata : ∀ i < data.length, clock (a.consumed + a.buf.length + i) = ts) {o : ℕ}
    (hlow : a.consumed ≤ o) (hhigh : o < a.consumed + (a.buf ++ data).length) :
    tsFor (a.marks ++ [(a.consumed + a.buf.length, ts)]) o = clock o := by
  rcases Nat.lt_or_ge o (a.consumed + a.buf.length) with ho | ho
  · rw [tsFor_append_of_lt ho]
    exact h.tsFor_eq o hlow ho
  · rw [tsFor_append_of_le (fun m hm ↦ (h.marks_le m hm).trans ho) ho]
    obtain ⟨i, rfl⟩ := Nat.exists_eq_add_of_le ho
    rw [List.length_append] at hhigh
    exact (hdata i (by omega)).symm

/-- Feeding one chunk runs the loop on the bytes held and the chunk, with the stream's clock. -/
theorem feed_eq (h : a.Reads clock)
    (hdata : ∀ i < data.length, clock (a.consumed + a.buf.length + i) = ts)
    (hbroken : (assemble clock a.consumed (a.buf ++ data) a.inProgress).broken = false) :
    Fed clock (assemble clock a.consumed (a.buf ++ data) a.inProgress)
      (a.feed ts data).1 (a.feed ts data).2 := by
  set r := assemble clock a.consumed (a.buf ++ data) a.inProgress with hrdef
  by_cases hnil : data = []
  · have hr : r = ⟨[], a.consumed, a.buf, a.inProgress, false⟩ := by
      rw [hrdef, hnil, List.append_nil, assemble_none h.whole]
    rw [feed, if_pos (Or.inr hnil), hr]
    exact ⟨h, rfl, rfl, rfl, rfl⟩
  · have hr : assemble (tsFor (a.marks ++ [(a.consumed + a.buf.length, ts)])) a.consumed
        (a.buf ++ data) a.inProgress = r :=
      assemble_congr fun i hi ↦ h.tsFor_push hdata (Nat.le_add_right _ _) (by omega)
    have hoffset : r.offset + r.rest.length = a.consumed + (a.buf ++ data).length :=
      assemble_offset hbroken
    have hwhole : wirePacket? r.rest = none := wirePacket?_assemble hbroken
    have hlow : a.consumed ≤ r.offset := le_assemble_offset
    rw [feed, if_neg (by simp [h.not_broken, hnil])]
    simp only [hr, show r.broken = false from hbroken, Bool.false_eq_true, if_false]
    have hsorted : (a.marks ++ [(a.consumed + a.buf.length, ts)]).Pairwise (·.1 ≤ ·.1) :=
      List.pairwise_append.mpr ⟨h.sorted, List.pairwise_singleton _ _, fun m hm n hn ↦ by
        rw [List.mem_singleton.mp hn]
        exact h.marks_le m hm⟩
    refine ⟨⟨?_, ?_, ?_, hwhole, ?_⟩, rfl, rfl, rfl, rfl⟩
    · exact hsorted.sublist (dropMarks_suffix _ _).sublist
    · intro m hm
      rw [hoffset, List.length_append]
      rcases List.mem_append.mp ((dropMarks_suffix _ _).subset hm) with hm | hm
      · have := h.marks_le m hm
        omega
      · rw [List.mem_singleton.mp hm]
        omega
    · intro o ho ho'
      rw [tsFor_dropMarks hsorted ho]
      exact h.tsFor_push hdata (hlow.trans ho) (ho'.trans_eq hoffset)
    · exact decide_eq_false (Nat.not_lt.mpr (length_le_of_wirePacket? hwhole))

/-- Feeding a stream in chunks gives the packets of one pass over the whole of it, each with the
timestamp of the chunk that holds its first byte. -/
theorem feedAll_eq (chunks : List (ℤ × Bytes)) (h : a.Reads clock)
    (hclock : ∀ i < (chunkBytes chunks).length,
      clock (a.consumed + a.buf.length + i) = tsAt chunks i)
    (hbroken :
      (assemble clock a.consumed (a.buf ++ chunkBytes chunks) a.inProgress).broken = false) :
    Fed clock (assemble clock a.consumed (a.buf ++ chunkBytes chunks) a.inProgress)
      (a.feedAll chunks).1 (a.feedAll chunks).2 := by
  induction chunks generalizing a with
  | nil =>
    rw [chunkBytes, List.flatMap_nil, List.append_nil, assemble_none h.whole]
    exact ⟨h, rfl, rfl, rfl, rfl⟩
  | cons c chunks ih =>
    obtain ⟨ts, data⟩ := c
    have hcons : chunkBytes ((ts, data) :: chunks) = data ++ chunkBytes chunks := rfl
    rw [hcons] at hclock hbroken ⊢
    rw [← List.append_assoc] at hbroken ⊢
    have hfirst : (assemble clock a.consumed (a.buf ++ data) a.inProgress).broken = false := by
      by_contra hb
      rw [broken_assemble_append _ (by simpa using hb)] at hbroken
      cases hbroken
    obtain ⟨hreads, hpackets, hbuf, hconsumed, hpart⟩ := feed_eq h (fun i hi ↦ by
      rw [hclock i (by rw [List.length_append]; omega), tsAt, if_pos hi]) hfirst
    have hoffset := assemble_offset hfirst
    rw [assemble_append _ hfirst] at hbroken ⊢
    simp only [← hbuf, ← hconsumed, ← hpart, ← hpackets] at hbroken hoffset ⊢
    rw [List.length_append] at hoffset
    have hrest := ih hreads (fun i hi ↦ by
      have := hclock (data.length + i) (by rw [List.length_append]; omega)
      rw [tsAt, if_neg (by omega), Nat.add_sub_cancel_left] at this
      rw [← this]
      congr 1
      omega) hbroken
    exact ⟨hrest.reads, congrArg (_ ++ ·) hrest.packets_eq, hrest.buf_eq, hrest.consumed_eq,
      hrest.inProgress_eq⟩

/-- A chunk behind which the loop gives up breaks the assembler. -/
theorem broken_feed_of_assemble (h : a.Reads clock)
    (hdata : ∀ i < data.length, clock (a.consumed + a.buf.length + i) = ts)
    (hbroken : (assemble clock a.consumed (a.buf ++ data) a.inProgress).broken) :
    (a.feed ts data).1.broken := by
  have hne : data ≠ [] := by
    rintro rfl
    rw [List.append_nil, assemble_none h.whole] at hbroken
    cases hbroken
  have hmarks : assemble (tsFor (a.marks ++ [(a.consumed + a.buf.length, ts)])) a.consumed
      (a.buf ++ data) a.inProgress = assemble clock a.consumed (a.buf ++ data) a.inProgress :=
    assemble_congr fun i hi ↦ h.tsFor_push hdata (Nat.le_add_right _ _) (by omega)
  rw [feed, if_neg (by simp [h.not_broken, hne])]
  simp only [hmarks, hbroken, if_true]

/-- A broken assembler ignores what it is fed. -/
theorem broken_feedAll (h : a.broken) (chunks : List (ℤ × Bytes)) : (a.feedAll chunks).1 = a := by
  induction chunks with
  | nil => rfl
  | cons c chunks ih =>
    have hfeed : a.feed c.1 c.2 = (a, []) := if_pos (Or.inl h)
    rw [feedAll, hfeed]
    exact ih

/-- A stream at which the loop gives up breaks the assembler, in whatever chunks it is fed. -/
theorem broken_feedAll_of_assemble (chunks : List (ℤ × Bytes)) (h : a.Reads clock)
    (hclock : ∀ i < (chunkBytes chunks).length,
      clock (a.consumed + a.buf.length + i) = tsAt chunks i)
    (hbroken : (assemble clock a.consumed (a.buf ++ chunkBytes chunks) a.inProgress).broken) :
    (a.feedAll chunks).1.broken := by
  induction chunks generalizing a with
  | nil =>
    rw [chunkBytes, List.flatMap_nil, List.append_nil, assemble_none h.whole] at hbroken
    cases hbroken
  | cons c chunks ih =>
    obtain ⟨ts, data⟩ := c
    have hcons : chunkBytes ((ts, data) :: chunks) = data ++ chunkBytes chunks := rfl
    rw [hcons] at hclock hbroken
    rw [← List.append_assoc] at hbroken
    have hts (i : ℕ) (hi : i < data.length) : clock (a.consumed + a.buf.length + i) = ts := by
      rw [hclock i (by rw [List.length_append]; omega), tsAt, if_pos hi]
    by_cases hfirst : (assemble clock a.consumed (a.buf ++ data) a.inProgress).broken
    · have hstuck := broken_feed_of_assemble h hts hfirst
      rw [feedAll, broken_feedAll hstuck]
      exact hstuck
    · rw [Bool.not_eq_true] at hfirst
      obtain ⟨hreads, -, hbuf, hconsumed, hpart⟩ := feed_eq h hts hfirst
      have hoffset := assemble_offset hfirst
      rw [assemble_append _ hfirst] at hbroken
      simp only [← hbuf, ← hconsumed, ← hpart] at hbroken hoffset
      rw [List.length_append] at hoffset
      refine ih hreads (fun i hi ↦ ?_) hbroken
      have hlater := hclock (data.length + i) (by rw [List.length_append]; omega)
      rw [tsAt, if_neg (by omega), Nat.add_sub_cancel_left] at hlater
      rw [← hlater]
      congr 1
      omega

end Feed

end PacketAssembler

end SqlReplay
