import Mathlib.Data.Nat.Dist
import SqlReplay.Bytes
import SqlReplay.Data.SortedMap
import SqlReplay.Data.Slice

/-!
# TCP stream reassembly

`SeqStream` puts one direction of a connection together. Sequence numbers are 32 bits wide and
wrap, stream positions are 64 bits wide, and `rel` maps the one to the other by taking, among the
offsets that agree with the sequence number, the one closest to the current position. A segment
that continues the stream is delivered, less what was delivered before, and whatever it makes
reachable in the buffer is delivered after it (`drain`); a segment beyond a gap waits in the
buffer, one segment to a starting offset, up to `maxPendingBytes` in all.

Positions are natural numbers with the 64-bit arithmetic of the source spelled out. The callback
that receives the bytes is a list here: each operation returns the deliveries it makes, in order.
-/

namespace SqlReplay

/-- `MAX_PENDING_BYTES`. -/
def maxPendingBytes : ℕ := 8 * 1024 * 1024

structure SeqStream where
  started : Bool
  isn : UInt32
  /-- Relative offset of the next expected byte. -/
  nextRel : ℕ
  /-- Out-of-order segments by relative offset. -/
  pending : SortedMap ℕ (ℤ × Bytes)
  pendingBytes : ℕ
  /-- The out-of-order buffer overran `maxPendingBytes`. -/
  overflow : Bool

/-- The deliveries an operation makes: a timestamp and bytes each. -/
abbrev Deliveries := List (ℤ × Bytes)

/-- The bytes of the deliveries, in order. -/
def Deliveries.bytes (out : Deliveries) : Bytes := out.flatMap (·.2)

@[simp]
theorem Deliveries.bytes_nil : Deliveries.bytes [] = [] := rfl

@[simp]
theorem Deliveries.bytes_cons (ts : ℤ) (d : Bytes) (out : Deliveries) :
    Deliveries.bytes ((ts, d) :: out) = d ++ out.bytes := List.flatMap_cons

theorem Deliveries.bytes_append (out out' : Deliveries) :
    Deliveries.bytes (out ++ out') = out.bytes ++ out'.bytes := List.flatMap_append

namespace SeqStream

/-- `SeqStream::new`. -/
def new : SeqStream := ⟨false, 0, 0, SortedMap.empty, 0, false⟩

/-- `on_syn`. A SYN consumes one sequence number, so data starts at `seq + 1`. -/
def onSyn (s : SeqStream) (seq : UInt32) : SeqStream :=
  { s with
    isn := seq + 1
    started := true
    nextRel := 0
    pending := SortedMap.empty
    pendingBytes := 0 }

/-! ## From sequence numbers to offsets -/

/-- `(kk << 32) | low` on `u64`. -/
def offsetIn (kk : ℕ) (low : UInt32) : ℕ := kk * 2 ^ 32 % 2 ^ 64 + low.toNat

/-- The candidate that replaces the best one only when it is strictly closer. -/
def closer (base best cand : ℕ) : ℕ := if cand.dist base < best.dist base then cand else best

/-- `rel`: the offset closest to the current position among those with this sequence number. -/
def rel (s : SeqStream) (seq : UInt32) : ℕ :=
  let low := seq - s.isn
  let k := s.nextRel / 2 ^ 32
  let best := closer s.nextRel (offsetIn k low) (offsetIn ((k + 2 ^ 64 - 1) % 2 ^ 64) low)
  closer s.nextRel best (offsetIn ((k + 1) % 2 ^ 64) low)

/-! ## Delivering -/

/-- `drain`: deliver what the buffer holds up to the first gap. -/
def drain (s : SeqStream) : SeqStream × Deliveries :=
  match h : s.pending.popFirst with
  | none => (s, [])
  | some ((rel, ts, data), rest) =>
    if s.nextRel < rel then (s, [])
    else
      let s' := { s with pending := rest, pendingBytes := s.pendingBytes - data.length }
      let finish := (rel + data.length) % 2 ^ 64
      if finish ≤ s.nextRel then drain s'
      else
        let r := drain { s' with nextRel := finish }
        (r.1, (ts, data.drop (s.nextRel - rel)) :: r.2)
  termination_by s.pending.entries.length
  decreasing_by all_goals exact SortedMap.length_of_popFirst h

/-- What `on_data` does with a segment whose offset is known. -/
def place (s : SeqStream) (tsMicros : ℤ) (rel : ℕ) (payload : Bytes) :
    SeqStream × Deliveries :=
  let finish := (rel + payload.length) % 2 ^ 64
  -- a pure retransmission
  if finish ≤ s.nextRel then (s, [])
  else if rel ≤ s.nextRel then
    let r := drain { s with nextRel := finish }
    (r.1, (tsMicros, payload.drop (s.nextRel - rel)) :: r.2)
  else if maxPendingBytes < s.pendingBytes + payload.length then
    ({ s with overflow := true, pending := SortedMap.empty, pendingBytes := 0 }, [])
  else if s.pending.Vacant rel then
    ({ s with
        pending := s.pending.insertVacant rel (tsMicros, payload)
        pendingBytes := s.pendingBytes + payload.length }, [])
  else (s, [])

/-- A stream seen from the middle starts at its first byte seen. -/
def startAt (s : SeqStream) (seq : UInt32) : SeqStream :=
  if s.started then s else { s with isn := seq, started := true }

/-- `on_data`. -/
def onData (s : SeqStream) (tsMicros : ℤ) (seq : UInt32) (payload : Bytes) :
    SeqStream × Deliveries :=
  if payload.isEmpty || s.overflow then (s, [])
  else (s.startAt seq).place tsMicros ((s.startAt seq).rel seq) payload

theorem drain_of_empty {s : SeqStream} (h : s.pending = SortedMap.empty) : s.drain = (s, []) := by
  rw [drain]
  split
  · rfl
  · next hpop =>
    rw [h] at hpop
    nomatch hpop

/-- With nothing waiting, a segment that continues the stream is all there is to deliver. -/
theorem onData_of_empty {s : SeqStream} (hstarted : s.started = true) (hover : s.overflow = false)
    (h : s.pending = SortedMap.empty) (tsMicros : ℤ) {seq : UInt32} {rel : ℕ} {payload : Bytes}
    (hrel : s.rel seq = rel) (hle : rel ≤ s.nextRel) (hlt : s.nextRel < rel + payload.length)
    (hend : rel + payload.length < 2 ^ 64) :
    s.onData tsMicros seq payload =
      ({ s with nextRel := rel + payload.length },
        [(tsMicros, payload.drop (s.nextRel - rel))]) := by
  have hne : payload ≠ [] := by
    rintro rfl
    exact absurd (hle.trans_lt hlt) (lt_irrefl _)
  have hfinish := Nat.mod_eq_of_lt hend
  have hdrain := drain_of_empty (s := { s with nextRel := rel + payload.length }) h
  have hgo : ¬(payload.isEmpty || s.overflow) = true := by
    rw [List.isEmpty_eq_false_iff.mpr hne, hover]
    decide
  rw [onData, if_neg hgo, startAt, if_pos hstarted, hrel]
  unfold place
  simp only [hfinish]
  rw [if_neg (not_le.mpr hlt), if_pos hle, hdrain]

/-! ## The offset of a sequence number -/

/-- The sequence number of offset `o` has the low half of `o`. -/
theorem low_toNat (isn : UInt32) (o : ℕ) : (isn + UInt32.ofNat o - isn).toNat = o % 2 ^ 32 := by
  rw [UInt32.add_comm, UInt32.add_sub_cancel, UInt32.toNat_ofNat']

theorem offsetIn_of_lt {kk : ℕ} (h : kk < 2 ^ 32) (low : UInt32) :
    offsetIn kk low = kk * 2 ^ 32 + low.toNat := by
  rw [offsetIn, Nat.mod_eq_of_lt (by omega)]

theorem closer_of_le {base best cand : ℕ} (h : best.dist base ≤ cand.dist base) :
    closer base best cand = best := if_neg (not_lt.mpr h)

/-- The candidate of the block below, or one out of reach when there is none. -/
theorem offsetIn_prev {k : ℕ} (h : k < 2 ^ 32) (low : UInt32) :
    k ≠ 0 ∧ offsetIn ((k + 2 ^ 64 - 1) % 2 ^ 64) low + 2 ^ 32 = k * 2 ^ 32 + low.toNat ∨
      k = 0 ∧ 2 ^ 64 - 2 ^ 32 ≤ offsetIn ((k + 2 ^ 64 - 1) % 2 ^ 64) low := by
  by_cases hk : k = 0
  · refine Or.inr ⟨hk, ?_⟩
    rw [hk, offsetIn]
    omega
  · refine Or.inl ⟨hk, ?_⟩
    have hmod : (k + 2 ^ 64 - 1) % 2 ^ 64 = k - 1 := by omega
    rw [hmod, offsetIn_of_lt (by omega)]
    omega

/-- The candidate of the block above, or one out of reach when there is none. -/
theorem offsetIn_next {k : ℕ} (h : k < 2 ^ 32) (low : UInt32) :
    offsetIn ((k + 1) % 2 ^ 64) low = (k + 1) * 2 ^ 32 + low.toNat ∨
      k + 1 = 2 ^ 32 ∧ offsetIn ((k + 1) % 2 ^ 64) low < 2 ^ 32 := by
  have hlow := low.toNat_lt
  have hmod : (k + 1) % 2 ^ 64 = k + 1 := by omega
  rw [hmod]
  by_cases hk : k + 1 = 2 ^ 32
  · refine Or.inr ⟨hk, ?_⟩
    rw [hk, offsetIn]
    omega
  · exact Or.inl (offsetIn_of_lt (by omega) low)

/-- The offset is closer to the position than any other with the same sequence number; of two
offsets at distance `2 ^ 31` it is the one in the position's own block of `2 ^ 32`. -/
def Near (offset pos : ℕ) : Prop :=
  offset.dist pos < 2 ^ 31 ∨ offset.dist pos = 2 ^ 31 ∧ offset / 2 ^ 32 = pos / 2 ^ 32

instance (offset pos : ℕ) : Decidable (Near offset pos) := inferInstanceAs (Decidable (_ ∨ _))

/-- The candidate the three-way comparison ends with. -/
theorem closer_closer_eq {base o here prev next k j r l : ℕ} (hbase : base = k * 2 ^ 32 + r)
    (hoff : o = j * 2 ^ 32 + l) (hr : r < 2 ^ 32) (hl : l < 2 ^ 32)
    (hdist : o.dist base ≤ 2 ^ 31) (hk : k < 2 ^ 32) (hj : j < 2 ^ 32)
    (hhere : here = k * 2 ^ 32 + l)
    (hprev : k ≠ 0 ∧ prev + 2 ^ 32 = k * 2 ^ 32 + l ∨ k = 0 ∧ 2 ^ 64 - 2 ^ 32 ≤ prev)
    (hnext : next = (k + 1) * 2 ^ 32 + l ∨ k + 1 = 2 ^ 32 ∧ next < 2 ^ 32) :
    closer base (closer base here prev) next = o ↔
      o.dist base < 2 ^ 31 ∨ o.dist base = 2 ^ 31 ∧ j = k := by
  have hjk : j = k ∨ j = k + 1 ∨ j + 1 = k := by
    unfold Nat.dist at hdist
    omega
  unfold Nat.dist at hdist
  -- the offset is in the epoch of the position, in the next or in the one before
  rcases hjk with rfl | rfl | rfl
  · have h1 : closer base here prev = here := by
      apply closer_of_le
      unfold Nat.dist
      omega
    have h2 : closer base here next = here := by
      apply closer_of_le
      unfold Nat.dist
      omega
    rw [h1, h2]
    unfold Nat.dist
    omega
  · have h1 : closer base here prev = here := by
      apply closer_of_le
      unfold Nat.dist
      omega
    rw [h1]
    unfold closer Nat.dist
    split_ifs <;> omega
  · have h1 : closer base (closer base here prev) next = closer base here prev := by
      apply closer_of_le
      unfold closer Nat.dist
      split_ifs <;> omega
    rw [h1]
    unfold closer Nat.dist
    split_ifs <;> omega

/-- Within `2 ^ 31` of the position, `rel` finds the offset a sequence number was made from exactly
when the offset is near. -/
theorem rel_eq_iff (s : SeqStream) {o : ℕ} (hs : s.nextRel < 2 ^ 64) (ho : o < 2 ^ 64)
    (hdist : o.dist s.nextRel ≤ 2 ^ 31) :
    s.rel (s.isn + UInt32.ofNat o) = o ↔ Near o s.nextRel := by
  have hk : s.nextRel / 2 ^ 32 < 2 ^ 32 := by omega
  have hlow := low_toNat s.isn o
  have hhere := offsetIn_of_lt hk (s.isn + UInt32.ofNat o - s.isn)
  have hprev := offsetIn_prev hk (s.isn + UInt32.ofNat o - s.isn)
  have hnext := offsetIn_next hk (s.isn + UInt32.ofNat o - s.isn)
  rw [hlow] at hhere hprev hnext
  exact closer_closer_eq (Nat.div_add_mod' _ _).symm (Nat.div_add_mod' _ _).symm
    (Nat.mod_lt _ (by decide)) (Nat.mod_lt _ (by decide)) hdist hk (by omega) hhere hprev hnext

end SeqStream

end SqlReplay
