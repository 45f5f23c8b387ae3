import SqlReplay.Data.Checked
import SqlReplay.Pcap.Invariant

/-!
# The invariant of a reassembler

Between two calls a `SeqStream` counts the bytes of its buffer, keeps them within the limit, and
buffers nothing at or below the position of the stream (`SeqStream.Represents`). The last of the
three is what the trims rest on, and it is not kept throughout: a delivery moves the position over
buffered segments, and `drain` removes them one by one, the trim of each justified by the test in
front of it.

The subtractions of `on_data` and `drain` are natural numbers' in the model, where `3 - 5` is `0`.
That no such case arises is stated with a second version of the two functions, in which every
subtraction and every slice is checked: on a stream that counts its buffer the two versions agree
(`SeqStream.onDataChecked_eq`).
-/

namespace SqlReplay

namespace SeqStream

/-! ## The checked functions -/

/-- `drain`, its subtractions and slices checked. -/
def drainChecked (s : SeqStream) : Option (SeqStream × Deliveries) :=
  match h : s.pending.popFirst with
  | none => some (s, [])
  | some ((rel, ts, data), rest) =>
    if s.nextRel < rel then some (s, [])
    else do
      let pendingBytes ← Checked.sub s.pendingBytes data.length
      let s' := { s with pending := rest, pendingBytes := pendingBytes }
      let finish := (rel + data.length) % 2 ^ 64
      if finish ≤ s.nextRel then drainChecked s'
      else
        let skip ← Checked.sub s.nextRel rel
        let tail ← Checked.sliceFrom data skip
        let r ← drainChecked { s' with nextRel := finish }
        some (r.1, (ts, tail) :: r.2)
  termination_by s.pending.entries.length
  decreasing_by all_goals exact SortedMap.length_of_popFirst h

/-- `place`, its subtractions and slices checked. -/
def placeChecked (s : SeqStream) (tsMicros : ℤ) (rel : ℕ) (payload : Bytes) :
    Option (SeqStream × Deliveries) :=
  let finish := (rel + payload.length) % 2 ^ 64
  if finish ≤ s.nextRel then some (s, [])
  else if rel ≤ s.nextRel then do
    let skip ← Checked.sub s.nextRel rel
    let tail ← Checked.sliceFrom payload skip
    let r ← drainChecked { s with nextRel := finish }
    some (r.1, (tsMicros, tail) :: r.2)
  else if maxPendingBytes < s.pendingBytes + payload.length then
    some ({ s with overflow := true, pending := SortedMap.empty, pendingBytes := 0 }, [])
  else if s.pending.Vacant rel then
    some ({ s with
        pending := s.pending.insertVacant rel (tsMicros, payload)
        pendingBytes := s.pendingBytes + payload.length }, [])
  else some (s, [])

/-- `on_data`, its subtractions and slices checked. -/
def onDataChecked (s : SeqStream) (tsMicros : ℤ) (seq : UInt32) (payload : Bytes) :
    Option (SeqStream × Deliveries) :=
  if payload.isEmpty || s.overflow then some (s, [])
  else (s.startAt seq).placeChecked tsMicros ((s.startAt seq).rel seq) payload

/-- The trim of a segment that ends above the position stays inside it. -/
theorem skip_le {rel pos : ℕ} {data : Bytes} (hlt : pos < (rel + data.length) % 2 ^ 64) :
    pos - rel ≤ data.length := by
  have hend := Nat.mod_le (rel + data.length) (2 ^ 64)
  omega

/-- What is popped was counted. -/
theorem WellCounted.pop {s : SeqStream} {rel : ℕ} {ts : ℤ} {data : Bytes}
    {rest : SortedMap ℕ (ℤ × Bytes)} (h : s.WellCounted)
    (hpop : s.pending.popFirst = some ((rel, ts, data), rest)) :
    s.pendingBytes = data.length + (rest.entries.map (·.2.2.length)).sum := by
  rw [WellCounted, buffered, SortedMap.entries_of_popFirst hpop, List.map_cons, List.sum_cons] at h
  exact h

theorem drainChecked_eq {s : SeqStream} (h : s.WellCounted) :
    s.drainChecked = some s.drain := by
  -- the counter covers the segment that is taken out, so its subtraction does not underflow
  fun_induction drain s with
  | case1 s hpop =>
    rw [drainChecked]
    split
    · rfl
    · next hsome =>
      rw [hpop] at hsome
      cases hsome
  | case2 s rel ts data rest hpop hlt =>
    rw [drainChecked]
    split
    · rfl
    · next hsome =>
      rw [hpop] at hsome
      cases hsome
      rw [if_pos hlt]
  | case3 s rel ts data rest hpop hlt s' finish hend ih =>
    have hcount := h.pop hpop
    have hrest : s'.WellCounted := by
      show s.pendingBytes - data.length = _
      rw [hcount, Nat.add_sub_cancel_left]
      rfl
    rw [drainChecked]
    split
    · next hnone =>
      rw [hpop] at hnone
      cases hnone
    · next hsome =>
      rw [hpop] at hsome
      cases hsome
      rw [if_neg hlt, Checked.sub_of_le (hcount ▸ Nat.le_add_right _ _)]
      exact (if_pos hend).trans (ih hrest)
  | case4 s rel ts data rest hpop hlt s' finish hend r ih =>
    have hcount := h.pop hpop
    have hrest : WellCounted { s' with nextRel := finish } := by
      show s.pendingBytes - data.length = _
      rw [hcount, Nat.add_sub_cancel_left]
      rfl
    rw [drainChecked]
    split
    · next hnone =>
      rw [hpop] at hnone
      cases hnone
    · next hsome =>
      rw [hpop] at hsome
      cases hsome
      rw [if_neg hlt, Checked.sub_of_le (hcount ▸ Nat.le_add_right _ _)]
      refine (if_neg hend).trans ?_
      rw [Checked.sub_of_le (not_lt.mp hlt)]
      change (Checked.sliceFrom data (s.nextRel - rel)).bind _ = _
      rw [Checked.sliceFrom_of_le (skip_le (not_le.mp hend))]
      change (drainChecked { s' with nextRel := finish }).bind _ = _
      rw [ih hrest]
      rfl

theorem placeChecked_eq {s : SeqStream} (h : s.WellCounted) (tsMicros : ℤ) (rel : ℕ)
    (payload : Bytes) :
    s.placeChecked tsMicros rel payload = some (s.place tsMicros rel payload) := by
  unfold placeChecked place
  dsimp only
  split_ifs with hdup hle hlimit hvacant
  · rfl
  · rw [Checked.sub_of_le hle]
    change (Checked.sliceFrom payload (s.nextRel - rel)).bind _ = _
    rw [Checked.sliceFrom_of_le (skip_le (not_le.mp hdup))]
    change (drainChecked _).bind _ = _
    rw [drainChecked_eq (s := { s with nextRel := (rel + payload.length) % 2 ^ 64 }) h]
    rfl
  · rfl
  · rfl
  · rfl

theorem startAt_wellCounted {s : SeqStream} (h : s.WellCounted) (seq : UInt32) :
    (s.startAt seq).WellCounted := by
  rw [startAt]
  split_ifs
  · exact h
  · exact h

/-- On a stream that counts its buffer, no subtraction underflows and no slice is out of range. -/
theorem onDataChecked_eq {s : SeqStream} (h : s.WellCounted) (tsMicros : ℤ) (seq : UInt32)
    (payload : Bytes) :
    s.onDataChecked tsMicros seq payload = some (s.onData tsMicros seq payload) := by
  rw [onDataChecked, onData]
  split_ifs
  · rfl
  · exact placeChecked_eq (startAt_wellCounted h seq) _ _ _

/-! ## The invariant -/

/-- The representation invariant. -/
structure Represents (s : SeqStream) : Prop where
  counted : s.WellCounted
  bounded : s.pendingBytes ≤ maxPendingBytes
  /-- What is buffered lies beyond the position. -/
  ahead : ∀ e ∈ s.pending, s.nextRel < e.1

/-- A stream that buffers nothing. -/
theorem Represents.of_empty {s : SeqStream} (h : s.pending = SortedMap.empty)
    (hbytes : s.pendingBytes = 0) : s.Represents where
  counted := wellCounted_of_empty h hbytes
  bounded := hbytes ▸ Nat.zero_le _
  ahead e he := absurd (h ▸ he) (SortedMap.not_mem_empty e)

/-- Draining leaves nothing at or below the position, wherever that was before. -/
theorem drain_ahead (s : SeqStream) : ∀ e ∈ s.drain.1.pending, s.drain.1.nextRel < e.1 := by
  fun_induction drain s with
  | case1 s hpop =>
    intro e he
    rw [SortedMap.eq_empty_of_popFirst hpop] at he
    exact absurd he (SortedMap.not_mem_empty e)
  | case2 s rel ts data rest hpop hlt =>
    intro e he
    rcases (SortedMap.mem_of_popFirst hpop).mp he with rfl | he
    · exact hlt
    · exact hlt.trans (SortedMap.lt_of_popFirst hpop he)
  | case3 s rel ts data rest hpop hlt s' finish hend ih => exact ih
  | case4 s rel ts data rest hpop hlt s' finish hend r ih => exact ih

theorem drain_pendingBytes_le (s : SeqStream) : s.drain.1.pendingBytes ≤ s.pendingBytes := by
  fun_induction drain s with
  | case1 s hpop => exact le_rfl
  | case2 s rel ts data rest hpop hlt => exact le_rfl
  | case3 s rel ts data rest hpop hlt s' finish hend ih => exact ih.trans (Nat.sub_le _ _)
  | case4 s rel ts data rest hpop hlt s' finish hend r ih => exact ih.trans (Nat.sub_le _ _)

theorem le_drain_nextRel (s : SeqStream) : s.nextRel ≤ s.drain.1.nextRel := by
  fun_induction drain s with
  | case1 s hpop => exact le_rfl
  | case2 s rel ts data rest hpop hlt => exact le_rfl
  | case3 s rel ts data rest hpop hlt s' finish hend ih => exact ih
  | case4 s rel ts data rest hpop hlt s' finish hend r ih => exact (not_le.mp hend).le.trans ih

theorem place_represents {s : SeqStream} (h : s.Represents) (tsMicros : ℤ) (rel : ℕ)
    (payload : Bytes) : (s.place tsMicros rel payload).1.Represents := by
  have hcounted := place_wellCounted h.counted tsMicros rel payload
  unfold place at hcounted ⊢
  dsimp only at hcounted ⊢
  split_ifs at hcounted ⊢ with hdup hle hlimit hvacant
  · exact h
  · exact ⟨hcounted, (drain_pendingBytes_le _).trans h.bounded, drain_ahead _⟩
  · exact .of_empty rfl rfl
  · refine ⟨hcounted, not_lt.mp hlimit, fun e he ↦ ?_⟩
    rcases (SortedMap.mem_insertVacant hvacant _).mp he with rfl | he
    · exact not_le.mp hle
    · exact h.ahead e he
  · exact h

theorem le_place_nextRel (s : SeqStream) (tsMicros : ℤ) (rel : ℕ) (payload : Bytes) :
    s.nextRel ≤ (s.place tsMicros rel payload).1.nextRel := by
  unfold place
  dsimp only
  split_ifs with hdup hle hlimit hvacant
  · exact le_rfl
  · exact (not_le.mp hdup).le.trans
      (le_drain_nextRel { s with nextRel := (rel + payload.length) % 2 ^ 64 })
  · exact le_rfl
  · exact le_rfl
  · exact le_rfl

theorem startAt_represents {s : SeqStream} (h : s.Represents) (seq : UInt32) :
    (s.startAt seq).Represents := by
  rw [startAt]
  split_ifs
  · exact h
  · exact ⟨h.counted, h.bounded, h.ahead⟩

theorem startAt_nextRel (s : SeqStream) (seq : UInt32) : (s.startAt seq).nextRel = s.nextRel := by
  rw [startAt]
  split_ifs <;> rfl

theorem onData_represents {s : SeqStream} (h : s.Represents) (tsMicros : ℤ) (seq : UInt32)
    (payload : Bytes) : (s.onData tsMicros seq payload).1.Represents := by
  rw [onData]
  split_ifs
  · exact h
  · exact place_represents (startAt_represents h seq) _ _ _

/-- Data never moves the position back. -/
theorem le_onData_nextRel (s : SeqStream) (tsMicros : ℤ) (seq : UInt32) (payload : Bytes) :
    s.nextRel ≤ (s.onData tsMicros seq payload).1.nextRel := by
  rw [onData]
  split_ifs
  · exact le_rfl
  · exact (startAt_nextRel s seq).ge.trans (le_place_nextRel _ _ _ _)

/-! ## Runs of calls -/

/-- A call of the reassembler. -/
inductive Call where
  | onSyn (seq : UInt32)
  | onData (tsMicros : ℤ) (seq : UInt32) (payload : Bytes)

/-- The stream behind a call. -/
def call (s : SeqStream) : Call → SeqStream
  | .onSyn seq => s.onSyn seq
  | .onData tsMicros seq payload => (s.onData tsMicros seq payload).1

/-- The stream behind a call, its subtractions and slices checked. -/
def callChecked (s : SeqStream) : Call → Option SeqStream
  | .onSyn seq => some (s.onSyn seq)
  | .onData tsMicros seq payload => (s.onDataChecked tsMicros seq payload).map (·.1)

/-- The calls of a run, in order. -/
def calls (s : SeqStream) (cs : List Call) : SeqStream := cs.foldl call s

/-- The calls of a run, their subtractions and slices checked. -/
def callsChecked (s : SeqStream) (cs : List Call) : Option SeqStream := cs.foldlM callChecked s

theorem call_represents {s : SeqStream} (h : s.Represents) (c : Call) : (s.call c).Represents := by
  cases c with
  | onSyn seq => exact .of_empty rfl rfl
  | onData tsMicros seq payload => exact onData_represents h tsMicros seq payload

theorem callChecked_eq {s : SeqStream} (h : s.Represents) (c : Call) :
    s.callChecked c = some (s.call c) := by
  cases c with
  | onSyn seq => rfl
  | onData tsMicros seq payload => rw [callChecked, onDataChecked_eq h.counted]; rfl

theorem calls_represents {s : SeqStream} (h : s.Represents) (cs : List Call) :
    (s.calls cs).Represents := by
  induction cs generalizing s with
  | nil => exact h
  | cons c cs ih => exact ih (call_represents h c)

theorem callsChecked_eq {s : SeqStream} (h : s.Represents) (cs : List Call) :
    s.callsChecked cs = some (s.calls cs) := by
  induction cs generalizing s with
  | nil => rfl
  | cons c cs ih =>
    rw [callsChecked, List.foldlM_cons, callChecked_eq h]
    exact ih (call_represents h c)

/-- **The representation invariant** of a reassembler, behind every run of calls: the count of the
buffer is right and within the limit, and the buffer lies beyond the position. No subtraction of the
run has underflowed and none of a further call will, and that call moves the position forward
unless it starts the stream anew. -/
theorem calls_safe (cs : List Call) :
    callsChecked new cs = some (new.calls cs) ∧ (new.calls cs).Represents ∧
      ∀ c, (new.calls cs).callChecked c = some ((new.calls cs).call c) ∧
        ((∃ seq, c = .onSyn seq) ∨ (new.calls cs).nextRel ≤ ((new.calls cs).call c).nextRel) := by
  have hnew : new.Represents := .of_empty rfl rfl
  have hrun := calls_represents hnew cs
  refine ⟨callsChecked_eq hnew cs, hrun, fun c ↦ ⟨callChecked_eq hrun c, ?_⟩⟩
  cases c with
  | onSyn seq => exact Or.inl ⟨seq, rfl⟩
  | onData tsMicros seq payload => exact Or.inr (le_onData_nextRel _ _ _ _)

end SeqStream

end SqlReplay
