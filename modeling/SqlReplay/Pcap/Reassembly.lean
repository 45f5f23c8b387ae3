import SqlReplay.Pcap.SeqStream

/-!
# Reassembly of a stream from its segments

A run feeds a `SeqStream` segments of one byte stream `S`, each under its true sequence number
and in any order. What a segment may look like when it comes is a parameter `ok` of the run.

Two invariants are carried along a run. `Sound` says that what was delivered is a prefix of `S`
and that what waits in the buffer are segments of the run; `Complete` says that every position a
segment of the run covers is delivered or waits beyond a gap. Both are about `place` and `drain`
only through what these deliver (`Advances`) and what they leave in the buffer (`Leaves`).
-/

namespace SqlReplay

/-- A segment of a stream: its capture time, its offset and its bytes. -/
structure Segment where
  tsMicros : ℤ
  offset : ℕ
  payload : Bytes
  deriving DecidableEq, Repr

/-- The segment contains the position. -/
def Segment.Contains (seg : Segment) (p : ℕ) : Prop :=
  seg.offset ≤ p ∧ p < seg.offset + seg.payload.length

instance (seg : Segment) (p : ℕ) : Decidable (seg.Contains p) :=
  inferInstanceAs (Decidable (_ ∧ _))

/-- Delivered from position `p` on, every chunk carries the timestamp of a segment that contains
its bytes. -/
def Stamped (segs : List Segment) : ℕ → Deliveries → Prop
  | _, [] => True
  | p, (ts, d) :: out =>
    (∃ seg ∈ segs, seg.tsMicros = ts ∧ seg.offset ≤ p ∧
      p + d.length ≤ seg.offset + seg.payload.length) ∧ Stamped segs (p + d.length) out

theorem Stamped.append {segs : List Segment} {out out' : Deliveries} {p : ℕ}
    (h : Stamped segs p out) (h' : Stamped segs (p + out.bytes.length) out') :
    Stamped segs p (out ++ out') := by
  induction out generalizing p with
  | nil => exact h'
  | cons d out ih =>
    obtain ⟨ts, d⟩ := d
    rw [Deliveries.bytes_cons, List.length_append, ← Nat.add_assoc] at h'
    exact ⟨h.1, ih h.2 h'⟩

theorem Stamped.mono {segs segs' : List Segment} (hsub : ∀ seg ∈ segs, seg ∈ segs')
    {out : Deliveries} {p : ℕ} (h : Stamped segs p out) : Stamped segs' p out := by
  induction out generalizing p with
  | nil => trivial
  | cons d out ih =>
    obtain ⟨⟨seg, hseg, hspec⟩, hrest⟩ := h
    exact ⟨⟨seg, hsub seg hseg, hspec⟩, ih hrest⟩

/-- Every position of a stamped chunk is covered by a segment. -/
theorem Stamped.contains {segs : List Segment} {out : Deliveries} {p : ℕ}
    (h : Stamped segs p out) {q : ℕ} (hle : p ≤ q) (hlt : q < p + out.bytes.length) :
 ∃ seg ∈ segs, seg.Contains q := by
  induction out generalizing p with
  | nil => exact absurd hlt (not_lt.mpr hle)
  | cons d out ih =>
    obtain ⟨ts, d⟩ := d
    obtain ⟨⟨seg, hseg, -, hoff, hend⟩, hrest⟩ := h
    by_cases hq : q < p + d.length
    · exact ⟨seg, hseg, hoff.trans hle, hq.trans_le hend⟩
    · rw [Deliveries.bytes_cons, List.length_append, ← Nat.add_assoc] at hlt
      exact ih hrest (not_lt.mp hq) hlt

namespace SeqStream

/-- Feeding segments of `S` to a stream that was opened by a SYN of sequence number `isn - 1`. -/
inductive Run (S : Bytes) (isn : UInt32) (ok : SeqStream → Segment → Prop) :
    List Segment → SeqStream → Deliveries → Prop
  | start (s : SeqStream) : Run S isn ok [] (s.onSyn (isn - 1)) []
  | step {segs : List Segment} {s : SeqStream} {out : Deliveries} (seg : Segment) :
      Run S isn ok segs s out → IsSlice S seg.offset seg.payload → ok s seg →
      Run S isn ok (segs ++ [seg])
        (s.onData seg.tsMicros (isn + UInt32.ofNat seg.offset) seg.payload).1
        (out ++ (s.onData seg.tsMicros (isn + UInt32.ofNat seg.offset) seg.payload).2)

/-! ## What an operation delivers -/

/-- `r` comes from `s` by delivering the next bytes of `S`, stamped by segments. -/
structure Advances (S : Bytes) (segs : List Segment) (s : SeqStream)
    (r : SeqStream × Deliveries) : Prop where
  started : r.1.started = s.started
  isn : r.1.isn = s.isn
  le : r.1.nextRel ≤ S.length
  bytes : S.take s.nextRel ++ r.2.bytes = S.take r.1.nextRel
  stamped : Stamped segs s.nextRel r.2

/-- What waits in the buffer are segments. -/
def Holds (segs : List Segment) (s : SeqStream) : Prop :=
  ∀ e ∈ s.pending, ∃ seg ∈ segs, e = (seg.offset, seg.tsMicros, seg.payload)

variable {S : Bytes} {segs : List Segment} {s : SeqStream}

theorem Advances.refl (h : s.nextRel ≤ S.length) : Advances S segs s (s, []) where
  started := rfl
  isn := rfl
  le := h
  bytes := List.append_nil _
  stamped := trivial

/-- Delivering what a segment adds, and going on from its end. -/
theorem Advances.deliver {seg : Segment} (hseg : seg ∈ segs)
    (hslice : IsSlice S seg.offset seg.payload) (hle : seg.offset ≤ s.nextRel)
    (hlt : s.nextRel < seg.offset + seg.payload.length) {s' : SeqStream}
    {r : SeqStream × Deliveries} (hr : Advances S segs s' r) (hstarted : s'.started = s.started)
    (hisn : s'.isn = s.isn) (hnext : s'.nextRel = seg.offset + seg.payload.length) :
    Advances S segs s
      (r.1, (seg.tsMicros, seg.payload.drop (s.nextRel - seg.offset)) :: r.2) where
  started := hr.started.trans hstarted
  isn := hr.isn.trans hisn
  le := hr.le
  bytes := by
    rw [Deliveries.bytes_cons, ← List.append_assoc, hslice.take_append_drop hle hlt.le, ← hnext,
      hr.bytes]
  stamped := by
    have hlen : s.nextRel + (seg.payload.drop (s.nextRel - seg.offset)).length =
        s'.nextRel := by
      rw [List.length_drop, hnext]
      omega
    refine ⟨⟨seg, hseg, rfl, hle, hlen.le.trans hnext.le⟩, ?_⟩
    rw [hlen]
    exact hr.stamped

/-- `drain` delivers the next bytes of the stream, and keeps segments in the buffer. -/
theorem drain_advances (hS : S.length < 2 ^ 64)
    (hslice : ∀ seg ∈ segs, IsSlice S seg.offset seg.payload) (h : Holds segs s)
    (hle : s.nextRel ≤ S.length) :
    Advances S segs s s.drain ∧ Holds segs s.drain.1 := by
  fun_induction drain s with
  | case1 s hpop => exact ⟨Advances.refl hle, h⟩
  | case2 s rel ts data rest hpop hlt => exact ⟨Advances.refl hle, h⟩
  | case3 s rel ts data rest hpop hlt s' finish hfin ih =>
    have hrest : Holds segs s' := fun e he ↦ h e ((SortedMap.mem_of_popFirst hpop).mpr (Or.inr he))
    obtain ⟨hadv, hholds⟩ := ih hrest hle
    exact ⟨⟨hadv.started, hadv.isn, hadv.le, hadv.bytes, hadv.stamped⟩, hholds⟩
  | case4 s rel ts data rest hpop hlt s' finish hfin r ih =>
    have hrest : Holds segs { s' with nextRel := finish } :=
      fun e he ↦ h e ((SortedMap.mem_of_popFirst hpop).mpr (Or.inr he))
    obtain ⟨seg, hseg, heq⟩ := h _ ((SortedMap.mem_of_popFirst hpop).mpr (Or.inl rfl))
    obtain ⟨rfl, rfl, rfl⟩ : rel = seg.offset ∧ ts = seg.tsMicros ∧ data = seg.payload := by
      simpa using heq
    have hend := (hslice seg hseg).end_le
    have hfinish : finish = seg.offset + seg.payload.length := Nat.mod_eq_of_lt (by omega)
    obtain ⟨hadv, hholds⟩ := ih hrest (hfinish.le.trans hend)
    refine ⟨?_, hholds⟩
    exact hadv.deliver hseg (hslice seg hseg) (not_lt.mp hlt) (by omega) rfl rfl hfinish

/-- So does placing a segment of the stream under its own offset. -/
theorem place_advances (hS : S.length < 2 ^ 64)
    (hslice : ∀ seg ∈ segs, IsSlice S seg.offset seg.payload) (h : Holds segs s)
    (hle : s.nextRel ≤ S.length) {seg : Segment} (hseg : seg ∈ segs) :
    Advances S segs s (s.place seg.tsMicros seg.offset seg.payload) ∧
      Holds segs (s.place seg.tsMicros seg.offset seg.payload).1 := by
  have hend := (hslice seg hseg).end_le
  have hfinish : (seg.offset + seg.payload.length) % 2 ^ 64 = seg.offset + seg.payload.length :=
    Nat.mod_eq_of_lt (by omega)
  unfold place
  simp only [hfinish]
  split_ifs with hdup hle' hover hvacant
  · exact ⟨Advances.refl hle, h⟩
  · obtain ⟨hadv, hholds⟩ := drain_advances
      (s := { s with nextRel := seg.offset + seg.payload.length }) hS hslice h hend
    refine ⟨?_, hholds⟩
    exact hadv.deliver hseg (hslice seg hseg) hle' (not_le.mp hdup) rfl rfl rfl
  · exact ⟨⟨rfl, rfl, hle, List.append_nil _, trivial⟩, fun e he ↦ absurd he (by simp)⟩
  · refine ⟨⟨rfl, rfl, hle, List.append_nil _, trivial⟩, fun e he ↦ ?_⟩
    rcases (SortedMap.mem_insertVacant hvacant _).mp he with rfl | he
    · exact ⟨seg, hseg, rfl⟩
    · exact h e he
  · exact ⟨Advances.refl hle, h⟩

/-! ## Soundness -/

/-- What was delivered is a prefix of the stream, and the rest waits as it came. -/
structure Sound (S : Bytes) (isn : UInt32) (segs : List Segment) (s : SeqStream)
    (out : Deliveries) : Prop where
  started : s.started = true
  isn_eq : s.isn = isn
  slices : ∀ seg ∈ segs, IsSlice S seg.offset seg.payload
  holds : Holds segs s
  le : s.nextRel ≤ S.length
  bytes : out.bytes = S.take s.nextRel
  stamped : Stamped segs 0 out

variable {isn : UInt32} {out : Deliveries}

theorem Sound.start (S : Bytes) (isn : UInt32) (s : SeqStream) :
    Sound S isn [] (s.onSyn (isn - 1)) [] where
  started := rfl
  isn_eq := UInt32.sub_add_cancel isn 1
  slices := nofun
  holds := fun e he ↦ absurd he (SortedMap.not_mem_empty e)
  le := Nat.zero_le _
  bytes := rfl
  stamped := trivial

/-- A segment that finds its offset is placed under it. -/
theorem Sound.onData_eq (h : Sound S isn segs s out) (hS : S.length < 2 ^ 64) {seg : Segment}
    (hslice : IsSlice S seg.offset seg.payload) (hnear : Near seg.offset s.nextRel) :
    s.onData seg.tsMicros (isn + UInt32.ofNat seg.offset) seg.payload =
      if seg.payload.isEmpty || s.overflow then (s, [])
      else s.place seg.tsMicros seg.offset seg.payload := by
  have hstart : s.startAt (isn + UInt32.ofNat seg.offset) = s := if_pos h.started
  have hend := hslice.end_le
  have hdist : seg.offset.dist s.nextRel ≤ 2 ^ 31 := by
    rcases hnear with hlt | heq
    · exact hlt.le
    · exact heq.1.le
  have hrel := (rel_eq_iff s (h.le.trans_lt hS) (by omega) hdist).mpr hnear
  rw [onData, hstart, ← h.isn_eq, hrel]

theorem Sound.step (h : Sound S isn segs s out) (hS : S.length < 2 ^ 64) {seg : Segment}
    (hslice : IsSlice S seg.offset seg.payload) (hnear : Near seg.offset s.nextRel) :
    Sound S isn (segs ++ [seg])
      (s.onData seg.tsMicros (isn + UInt32.ofNat seg.offset) seg.payload).1
      (out ++ (s.onData seg.tsMicros (isn + UInt32.ofNat seg.offset) seg.payload).2) := by
  have hslices : ∀ seg' ∈ segs ++ [seg], IsSlice S seg'.offset seg'.payload := by
    intro seg' hseg'
    rcases List.mem_append.mp hseg' with hold | hnew
    · exact h.slices seg' hold
    · exact List.mem_singleton.mp hnew ▸ hslice
  have hholds : Holds (segs ++ [seg]) s := by
    intro e he
    obtain ⟨seg', hseg', heq⟩ := h.holds e he
    exact ⟨seg', List.mem_append_left _ hseg', heq⟩
  have hstamped : Stamped (segs ++ [seg]) 0 out :=
    h.stamped.mono fun seg' hseg' ↦ List.mem_append_left _ hseg'
  rw [h.onData_eq hS hslice hnear]
  split_ifs
  · exact ⟨h.started, h.isn_eq, hslices, hholds, h.le, by rw [List.append_nil, h.bytes],
      by rwa [List.append_nil]⟩
  · have hseg : seg ∈ segs ++ [seg] := List.mem_append_right _ (List.mem_singleton_self seg)
    obtain ⟨hadv, hholds'⟩ := place_advances hS hslices hholds h.le hseg
    refine ⟨hadv.started.trans h.started, hadv.isn.trans h.isn_eq, hslices, hholds', hadv.le,
      ?_, hstamped.append ?_⟩
    · rw [Deliveries.bytes_append, h.bytes, hadv.bytes]
    · rw [h.bytes, List.length_take_of_le h.le, Nat.zero_add]
      exact hadv.stamped

theorem Run.sound (hS : S.length < 2 ^ 64) {ok : SeqStream → Segment → Prop}
    (hok : ∀ s seg, ok s seg → Near seg.offset s.nextRel) (h : Run S isn ok segs s out) :
    Sound S isn segs s out := by
  induction h with
  | start s => exact Sound.start S isn s
  | step seg _ hslice hseg ih => exact ih.step hS hslice (hok _ _ hseg)

/-- Fed any segments of a stream in any order, each near the position it meets, the reassembler has
delivered exactly the stream up to its position, every chunk under the timestamp of a segment that
contains it. The buffer's limit plays no part: a stream that overflowed stopped, and is a prefix
too. -/
theorem run_sound (hS : S.length < 2 ^ 64)
    (h : Run S isn (fun s seg ↦ Near seg.offset s.nextRel) segs s out) :
    s.nextRel ≤ S.length ∧ out.bytes = S.take s.nextRel ∧ Stamped segs 0 out := by
  have hsound := h.sound hS fun s seg hnear ↦ hnear
  exact ⟨hsound.le, hsound.bytes, hsound.stamped⟩

/-- A segment of the last two bytes arrives before the first three: the three bytes of a stream
across the wrap of the sequence numbers. -/
theorem run_sound_reordered :
    ∃ s out, Run [1, 2, 3] 0xFFFFFFFE (fun s seg ↦ Near seg.offset s.nextRel)
        [⟨20, 1, [2, 3]⟩, ⟨30, 0, [1, 2]⟩] s out ∧
      s.nextRel ≤ 3 ∧ out.bytes = [1, 2, 3].take s.nextRel ∧
        Stamped [⟨20, 1, [2, 3]⟩, ⟨30, 0, [1, 2]⟩] 0 out := by
  have h₀ : Run [1, 2, 3] 0xFFFFFFFE (fun s seg ↦ Near seg.offset s.nextRel) [] _ _ :=
    Run.start new
  have h₁ := h₀.step ⟨20, 1, [2, 3]⟩ ⟨[1], [], rfl, rfl⟩ (by decide)
  have h₂ := h₁.step ⟨30, 0, [1, 2]⟩ ⟨[], [3], rfl, rfl⟩ (by decide)
  exact ⟨_, _, h₂, run_sound (by decide) h₂⟩

/-- The offset is within `2 ^ 31` of the position. -/
def Within (s : SeqStream) (seg : Segment) : Prop := seg.offset.dist s.nextRel ≤ 2 ^ 31

instance (s : SeqStream) (seg : Segment) : Decidable (Within s seg) :=
  inferInstanceAs (Decidable (_ ≤ _))

/-- From position `2 ^ 31`, the sequence number of offset `2 ^ 32` is taken for offset 0. -/
theorem rel_tie (s : SeqStream) (hisn : s.isn = 0) (hnext : s.nextRel = 2 ^ 31) :
    s.rel (0 + UInt32.ofNat (2 ^ 32)) = 0 := by
  rw [rel, hisn, hnext]
  decide

/-- Half of the sequence space, in zeros. -/
def halfSpace : Bytes := List.replicate (2 ^ 31) 0

theorem length_halfSpace : halfSpace.length = 2 ^ 31 := List.length_replicate

/-- A stream from sequence number 0 that delivered its first `n` bytes. -/
def deliveredUpTo (n : ℕ) : SeqStream := ⟨true, 0, n, SortedMap.empty, 0, false⟩

/-- At the very distance of `2 ^ 31` two offsets are equally close. From position `2 ^ 31`, the
segment at offset `2 ^ 32` is taken for one at offset 0, and its last byte for the next one. -/
theorem tie_unsound :
    ∃ s out, Run (halfSpace ++ halfSpace ++ halfSpace ++ [1]) 0 Within
        [⟨1, 0, halfSpace⟩, ⟨2, 2 ^ 32, halfSpace ++ [1]⟩] s out ∧
      s.overflow = false ∧
      out.bytes ≠ (halfSpace ++ halfSpace ++ halfSpace ++ [1]).take s.nextRel := by
  have hlen := length_halfSpace
  have hlen' : (halfSpace ++ [1]).length = 2 ^ 31 + 1 := by
    rw [List.length_append, hlen, List.length_singleton]
  have hfirst : (deliveredUpTo 0).onData 1 (0 + UInt32.ofNat 0) halfSpace =
      (deliveredUpTo (2 ^ 31), [(1, halfSpace)]) := by
    have hrel : (deliveredUpTo 0).rel (0 + UInt32.ofNat 0) = 0 := by decide
    rw [onData_of_empty rfl rfl rfl 1 hrel le_rfl (by rw [hlen]; decide) (by rw [hlen]; decide),
      hlen]
    rfl
  have hsecond : (deliveredUpTo (2 ^ 31)).onData 2 (0 + UInt32.ofNat (2 ^ 32))
      (halfSpace ++ [1]) = (deliveredUpTo (2 ^ 31 + 1), [(2, [1])]) := by
    have hdrop : (halfSpace ++ [1]).drop (2 ^ 31 - 0) = [1] := by
      rw [Nat.sub_zero, ← hlen, List.drop_left]
    have hnext : (deliveredUpTo (2 ^ 31)).nextRel = 2 ^ 31 := rfl
    rw [onData_of_empty rfl rfl rfl 2 (rel_tie _ rfl rfl) (Nat.zero_le _)
      (by rw [hlen', hnext]; decide) (by rw [hlen']; decide), hlen', hnext, hdrop]
    rfl
  have h₀ : Run (halfSpace ++ halfSpace ++ halfSpace ++ [1]) 0 Within [] (deliveredUpTo 0) [] :=
    Run.start new
  have h₁ := h₀.step ⟨1, 0, halfSpace⟩ ⟨[], halfSpace ++ halfSpace ++ [1], by simp, rfl⟩
    (by decide)
  rw [hfirst] at h₁
  have h₂ := h₁.step ⟨2, 2 ^ 32, halfSpace ++ [1]⟩
    ⟨halfSpace ++ halfSpace, [], by simp, by rw [List.length_append, hlen]; rfl⟩ (by decide)
  rw [hsecond] at h₂
  refine ⟨_, _, h₂, rfl, fun heq ↦ ?_⟩
  -- the stream begins with zeros, and the byte delivered last is a one
  have hone : 1 ∈ (halfSpace ++ halfSpace).take (2 ^ 31 + 1) := by
    have htake : (halfSpace ++ halfSpace ++ halfSpace ++ [1]).take (2 ^ 31 + 1) =
        (halfSpace ++ halfSpace).take (2 ^ 31 + 1) := by
      rw [List.append_assoc (halfSpace ++ halfSpace),
        List.take_append_of_le_length (by rw [List.length_append, hlen]; decide)]
    rw [← htake]
    exact heq ▸ List.mem_append_right halfSpace (List.mem_singleton_self 1)
  have hmem := List.mem_of_mem_take hone
  rw [List.mem_append, or_self] at hmem
  exact absurd (List.eq_of_mem_replicate hmem) (by decide)

/-! ## Completeness -/

/-- The position lies in a segment that waits in the buffer. -/
def Buffered (s : SeqStream) (p : ℕ) : Prop :=
  ∃ e ∈ s.pending, e.1 ≤ p ∧ p < e.1 + e.2.2.length

/-- The position was delivered or waits. -/
def Reached (s : SeqStream) (p : ℕ) : Prop := p < s.nextRel ∨ s.Buffered p

/-- `s'` has what `s` had, and only waits beyond a gap. -/
structure Leaves (s s' : SeqStream) : Prop where
  kept : ∀ p, s.Reached p → s'.Reached p
  ahead : ∀ e ∈ s'.pending, s'.nextRel < e.1

/-- `drain` loses nothing, and stops at a gap. -/
theorem drain_leaves (hends : ∀ e ∈ s.pending, e.1 + e.2.2.length < 2 ^ 64) :
    Leaves s s.drain.1 := by
  fun_induction drain s with
  | case1 s hpop =>
    refine ⟨fun p hp ↦ hp, fun e he ↦ ?_⟩
    rw [SortedMap.eq_empty_of_popFirst hpop] at he
    exact absurd he (SortedMap.not_mem_empty e)
  | case2 s rel ts data rest hpop hlt =>
    refine ⟨fun p hp ↦ hp, fun e he ↦ ?_⟩
    rcases (SortedMap.mem_of_popFirst hpop).mp he with rfl | he
    · exact hlt
    · exact hlt.trans (SortedMap.lt_of_popFirst hpop he)
  | case3 s rel ts data rest hpop hlt s' finish hfin ih =>
    have hmem := fun f ↦ SortedMap.mem_of_popFirst hpop (f := f)
    have hend : finish = rel + data.length :=
      Nat.mod_eq_of_lt (hends _ ((hmem _).mpr (Or.inl rfl)))
    obtain ⟨hkept, hahead⟩ := ih fun e he ↦ hends e ((hmem e).mpr (Or.inr he))
    refine ⟨fun p hp ↦ hkept p ?_, hahead⟩
    -- the entry popped was delivered before
    rcases hp with hp | ⟨e, he, hle, hp⟩
    · exact Or.inl hp
    · rcases (hmem e).mp he with rfl | he
      · have hlt' : p < rel + data.length := hp
        refine Or.inl ?_
        change p < s.nextRel
        omega
      · exact Or.inr ⟨e, he, hle, hp⟩
  | case4 s rel ts data rest hpop hlt s' finish hfin r ih =>
    have hmem := fun f ↦ SortedMap.mem_of_popFirst hpop (f := f)
    have hend : finish = rel + data.length :=
      Nat.mod_eq_of_lt (hends _ ((hmem _).mpr (Or.inl rfl)))
    obtain ⟨hkept, hahead⟩ := ih fun e he ↦ hends e ((hmem e).mpr (Or.inr he))
    refine ⟨fun p hp ↦ hkept p ?_, hahead⟩
    rcases hp with hp | ⟨e, he, hle, hp⟩
    · exact Or.inl (hp.trans (not_le.mp hfin))
    · rcases (hmem e).mp he with rfl | he
      · have hlt' : p < rel + data.length := hp
        exact Or.inl (hlt'.trans_le hend.ge)
      · exact Or.inr ⟨e, he, hle, hp⟩

/-- No shorter segment waits under the offset of this one. -/
def NoShorter (s : SeqStream) (seg : Segment) : Prop :=
  ∀ e ∈ s.pending, e.1 = seg.offset → seg.payload.length ≤ e.2.2.length

instance (s : SeqStream) (seg : Segment) : Decidable (s.NoShorter seg) :=
  inferInstanceAs (Decidable (∀ e ∈ s.pending.entries, _))

/-- Placing a segment loses nothing, as long as the buffer does not overrun and no shorter segment
waits under the same offset. -/
theorem place_leaves {seg : Segment} (hends : ∀ e ∈ s.pending, e.1 + e.2.2.length < 2 ^ 64)
    (hend : seg.offset + seg.payload.length < 2 ^ 64) (hahead : ∀ e ∈ s.pending, s.nextRel < e.1)
    (hshort : s.NoShorter seg)
    (hover : (s.place seg.tsMicros seg.offset seg.payload).1.overflow = false) :
    Leaves s (s.place seg.tsMicros seg.offset seg.payload).1 ∧
      ∀ p, seg.Contains p → (s.place seg.tsMicros seg.offset seg.payload).1.Reached p := by
  have hfinish := Nat.mod_eq_of_lt hend
  unfold place at hover ⊢
  simp only [hfinish] at hover ⊢
  split_ifs at hover ⊢ with hdup hle hlimit hvacant
  · exact ⟨⟨fun p hp ↦ hp, hahead⟩, fun p hp ↦ Or.inl (hp.2.trans_le hdup)⟩
  · obtain ⟨hkept, hahead'⟩ := drain_leaves
      (s := { s with nextRel := seg.offset + seg.payload.length }) hends
    refine ⟨⟨fun p hp ↦ hkept p ?_, hahead'⟩, fun p hp ↦ hkept p (Or.inl hp.2)⟩
    exact hp.imp_left fun hlt ↦ hlt.trans (not_le.mp hdup)
  · have hmem := fun e ↦ SortedMap.mem_insertVacant hvacant (seg.tsMicros, seg.payload) (e := e)
    refine ⟨⟨fun p hp ↦ hp.imp_right ?_, fun e he ↦ ?_⟩, fun p hp ↦ Or.inr ?_⟩
    · rintro ⟨e, he, hspec⟩
      exact ⟨e, (hmem e).mpr (Or.inr he), hspec⟩
    · rcases (hmem e).mp he with rfl | he
      · exact not_le.mp hle
      · exact hahead e he
    · exact ⟨_, (hmem _).mpr (Or.inl rfl), hp⟩
  · refine ⟨⟨fun p hp ↦ hp, hahead⟩, fun p hp ↦ Or.inr ?_⟩
    -- the segment that holds the offset is at least as long
    obtain ⟨e, he, heq⟩ : ∃ e ∈ s.pending, e.1 = seg.offset := by
      by_contra hnone
      exact hvacant fun e he heq ↦ hnone ⟨e, he, heq⟩
    have hlen := hshort e he heq
    exact ⟨e, he, heq ▸ hp.1, by have := hp.2; omega⟩

/-- Every position a segment covers was delivered or waits beyond a gap. -/
structure Complete (segs : List Segment) (s : SeqStream) : Prop where
  reached : ∀ seg ∈ segs, ∀ p, seg.Contains p → s.Reached p
  ahead : ∀ e ∈ s.pending, s.nextRel < e.1

/-- The condition on a segment: it is near the position, and no shorter one waits under its
offset. -/
def Fits (s : SeqStream) (seg : Segment) : Prop := Near seg.offset s.nextRel ∧ s.NoShorter seg

instance (s : SeqStream) (seg : Segment) : Decidable (s.Fits seg) :=
  inferInstanceAs (Decidable (_ ∧ _))

theorem Complete.step (h : Complete segs s) (hsound : Sound S isn segs s out)
    (hS : S.length < 2 ^ 64) {seg : Segment} (hslice : IsSlice S seg.offset seg.payload)
    (hfits : s.Fits seg)
    (hover : (s.onData seg.tsMicros (isn + UInt32.ofNat seg.offset) seg.payload).1.overflow =
      false) :
    Complete (segs ++ [seg])
      (s.onData seg.tsMicros (isn + UInt32.ofNat seg.offset) seg.payload).1 := by
  rw [hsound.onData_eq hS hslice hfits.1] at hover ⊢
  split_ifs at hover ⊢ with hskip
  · refine ⟨fun seg' hseg' p hp ↦ ?_, h.ahead⟩
    rcases List.mem_append.mp hseg' with hold | hnew
    · exact h.reached seg' hold p hp
    · -- an empty segment contains nothing
      obtain rfl := List.mem_singleton.mp hnew
      rw [hover, Bool.or_false] at hskip
      have hempty := List.isEmpty_iff.mp hskip
      have hlt := hp.2
      rw [hempty] at hlt
      exact absurd (hp.1.trans_lt hlt) (lt_irrefl _)
  · have hends : ∀ e ∈ s.pending, e.1 + e.2.2.length < 2 ^ 64 := by
      intro e he
      obtain ⟨seg', hseg', rfl⟩ := hsound.holds e he
      exact (hsound.slices seg' hseg').end_le.trans_lt hS
    obtain ⟨hleaves, hseg⟩ :=
      place_leaves hends (hslice.end_le.trans_lt hS) h.ahead hfits.2 hover
    refine ⟨fun seg' hseg' p hp ↦ ?_, hleaves.ahead⟩
    rcases List.mem_append.mp hseg' with hold | hnew
    · exact hleaves.kept p (h.reached seg' hold p hp)
    · exact hseg p (List.mem_singleton.mp hnew ▸ hp)

/-- Overflow is for good. -/
theorem overflow_of_onData {tsMicros : ℤ} {seq : UInt32} {payload : Bytes}
    (h : (s.onData tsMicros seq payload).1.overflow = false) : s.overflow = false := by
  by_contra hover
  rw [onData, if_pos (by simp [hover])] at h
  exact hover h

theorem Run.complete (hS : S.length < 2 ^ 64) (h : Run S isn Fits segs s out)
    (hover : s.overflow = false) : Complete segs s := by
  induction h with
  | start s => exact ⟨nofun, fun e he ↦ absurd he (SortedMap.not_mem_empty e)⟩
  | step seg hrun hslice hfits ih =>
    exact (ih (overflow_of_onData hover)).step (hrun.sound hS fun _ _ hok ↦ hok.1) hS hslice
      hfits hover

/-- In a run whose segments all fit, the position is the length of the longest prefix of the
stream that the segments fed so far cover. -/
theorem run_complete (hS : S.length < 2 ^ 64) (h : Run S isn Fits segs s out)
    (hover : s.overflow = false) :
    IsGreatest {n | ∀ p < n, ∃ seg ∈ segs, seg.Contains p} s.nextRel := by
  have hsound := h.sound hS fun _ _ hok ↦ hok.1
  have hcomplete := h.complete hS hover
  apply isGreatest_prefix
  · intro p hp
    refine hsound.stamped.contains (Nat.zero_le p) ?_
    rwa [hsound.bytes, List.length_take_of_le hsound.le, Nat.zero_add]
  · rintro ⟨seg, hseg, hp⟩
    rcases hcomplete.reached seg hseg _ hp with hlt | ⟨e, he, hle, -⟩
    · exact lt_irrefl _ hlt
    · exact absurd hle (not_le.mpr (hcomplete.ahead e he))

/-- Two overlapping segments beyond a gap, and the one that fills it. -/
theorem run_complete_overlapping :
    ∃ s out, Run [1, 2, 3, 4, 5] 0xFFFFFFFE Fits
        [⟨10, 2, [3, 4]⟩, ⟨20, 3, [4, 5]⟩, ⟨30, 0, [1, 2]⟩] s out ∧ s.overflow = false ∧
      IsGreatest {n | ∀ p < n, ∃ seg ∈ ([⟨10, 2, [3, 4]⟩, ⟨20, 3, [4, 5]⟩, ⟨30, 0, [1, 2]⟩] :
        List Segment), seg.Contains p} s.nextRel := by
  have h₀ : Run [1, 2, 3, 4, 5] 0xFFFFFFFE Fits [] _ _ := Run.start new
  have h₁ := h₀.step ⟨10, 2, [3, 4]⟩ ⟨[1, 2], [5], rfl, rfl⟩ (by decide)
  have h₂ := h₁.step ⟨20, 3, [4, 5]⟩ ⟨[1, 2, 3], [], rfl, rfl⟩ (by decide)
  have h₃ := h₂.step ⟨30, 0, [1, 2]⟩ ⟨[], [3, 4, 5], rfl, rfl⟩ (by decide)
  exact ⟨_, _, h₃, by decide +kernel, run_complete (by decide) h₃ (by decide +kernel)⟩

/-- A retransmission that begins where a shorter segment waits is thrown away, and its tail with
it: the position stops at 2, though the segments cover 3 bytes. -/
theorem longer_retransmission_lost :
    ∃ s out, Run [1, 2, 3] 0 Within [⟨10, 1, [2]⟩, ⟨20, 1, [2, 3]⟩, ⟨30, 0, [1]⟩] s out ∧
      s.overflow = false ∧
      ¬IsGreatest {n | ∀ p < n, ∃ seg ∈ ([⟨10, 1, [2]⟩, ⟨20, 1, [2, 3]⟩, ⟨30, 0, [1]⟩] :
        List Segment), seg.Contains p} s.nextRel := by
  have h₀ : Run [1, 2, 3] 0 Within [] _ _ := Run.start new
  have h₁ := h₀.step ⟨10, 1, [2]⟩ ⟨[1], [3], rfl, rfl⟩ (by decide)
  have h₂ := h₁.step ⟨20, 1, [2, 3]⟩ ⟨[1], [], rfl, rfl⟩ (by decide)
  have h₃ := h₂.step ⟨30, 0, [1]⟩ ⟨[], [2, 3], rfl, rfl⟩ (by decide)
  have hcovered : ∀ p < 3, ∃ seg ∈ ([⟨10, 1, [2]⟩, ⟨20, 1, [2, 3]⟩, ⟨30, 0, [1]⟩] : List Segment),
      seg.Contains p := by decide
  exact ⟨_, _, h₃, by decide +kernel,
    fun hgreatest ↦ absurd (hgreatest.2 hcovered) (by decide +kernel)⟩

end SeqStream

end SqlReplay
