import Mathlib.Data.Set.Basic
import SqlReplay.Proto.Decoder

/-!
# Times are observed

The time of a statement is that of the chunk in which its packet begins, and its latency ends with
the chunk in which the first packet of its response begins. Chunk boundaries are no packet
boundaries, so neither is the time of the call that completes the packet: the assembler remembers
where each chunk started, for as long as it holds bytes of it.

What must not happen is that a time is made up, as the assembler's lookup does when it has no mark
for a byte. It always has one. So every time in an event is one that the decoder was given, and
given for the direction that it is about (`ConnDecoder.Observed.run`). The sets of times are the
caller's to choose.
-/

namespace SqlReplay

/-! ## Packets -/

theorem PartialPacket.join_observed {seen : Set ℤ} {part : Option PartialPacket} {ts : ℤ}
    (hpart : ∀ p ∈ part, p.tsMicros ∈ seen) (hts : ts ∈ seen) (seq : UInt8) (payload : Bytes) :
    (join part seq ts payload).tsMicros ∈ seen := by
  cases part with
  | none => exact hts
  | some p => exact hpart p rfl

/-- The loop stamps packets by its clock, and reads it only at the bytes it was given. -/
theorem assemble_observed {seen : Set ℤ} {clock : ℕ → ℤ} {offset : ℕ} {rest : Bytes}
    {part : Option PartialPacket} (hclock : ∀ i < rest.length, clock (offset + i) ∈ seen)
    (hpart : ∀ p ∈ part, p.tsMicros ∈ seen) :
    (∀ pkt ∈ (assemble clock offset rest part).packets, pkt.tsMicros ∈ seen) ∧
      ∀ p ∈ (assemble clock offset rest part).inProgress, p.tsMicros ∈ seen := by
  have hnone : ∀ p ∈ (none : Option PartialPacket), p.tsMicros ∈ seen := by simp
  fun_induction assemble clock offset rest part with
  | case1 => exact ⟨by simp, hpart⟩
  | case2 => exact ⟨by simp, hnone⟩
  | case3 offset rest part seq payload after hw joined hlarge hfull ih =>
    have hlen := wirePacket?_length hw
    have hjoined : joined.tsMicros ∈ seen :=
      PartialPacket.join_observed hpart (hclock 0 (by omega)) seq payload
    apply ih
    · intro i hi
      simpa [Nat.add_assoc] using hclock (4 + payload.length + i) (by omega)
    · simpa using hjoined
  | case4 offset rest part seq payload after hw joined hlarge hfull ih =>
    have hlen := wirePacket?_length hw
    have hjoined : joined.tsMicros ∈ seen :=
      PartialPacket.join_observed hpart (hclock 0 (by omega)) seq payload
    obtain ⟨hpackets, hrest⟩ := ih
      (fun i hi ↦ by simpa [Nat.add_assoc] using hclock (4 + payload.length + i) (by omega)) hnone
    refine ⟨?_, hrest⟩
    intro pkt hpkt
    rcases List.mem_cons.mp hpkt with rfl | hpkt
    · exact hjoined
    · exact hpackets pkt hpkt

namespace PacketAssembler

/-- An assembler whose times were all seen: those of the bytes it holds, and that of the packet in
progress. -/
structure Observed (seen : Set ℤ) (a : PacketAssembler) : Prop where
  reads : a.Reads (tsFor a.marks)
  clock : ∀ o, a.consumed ≤ o → o < a.consumed + a.buf.length → tsFor a.marks o ∈ seen
  part : ∀ p ∈ a.inProgress, p.tsMicros ∈ seen

theorem new_observed (seen : Set ℤ) : new.Observed seen where
  reads := new_reads _
  clock := fun o _ ho ↦ absurd ho (Nat.not_lt_zero o)
  part := by simp [new]

/-- Feeding a chunk breaks the assembler, or gives packets whose times were seen. -/
theorem Observed.feed {seen : Set ℤ} {a : PacketAssembler} (h : a.Observed seen) {ts : ℤ}
    (hts : ts ∈ seen) (data : Bytes) :
    (a.feed ts data).1.broken = true ∨
      (a.feed ts data).1.Observed seen ∧ ∀ pkt ∈ (a.feed ts data).2, pkt.tsMicros ∈ seen := by
  -- the time of the chunk for its own bytes, and the assembler's for those it holds
  let clock (o : ℕ) : ℤ := if o < a.consumed + a.buf.length then tsFor a.marks o else ts
  have hreads : a.Reads clock :=
    ⟨h.reads.sorted, h.reads.marks_le, fun o _ ho ↦ (if_pos ho).symm, h.reads.whole,
      h.reads.not_broken⟩
  have hdata (i : ℕ) (_ : i < data.length) : clock (a.consumed + a.buf.length + i) = ts :=
    if_neg (by omega)
  have hclock (i : ℕ) (_ : i < (a.buf ++ data).length) : clock (a.consumed + i) ∈ seen := by
    dsimp only [clock]
    split_ifs with hi
    · exact h.clock _ (Nat.le_add_right _ _) hi
    · exact hts
  obtain ⟨hpackets, hpart⟩ := assemble_observed hclock h.part
  by_cases hbroken : (assemble clock a.consumed (a.buf ++ data) a.inProgress).broken = true
  · exact Or.inl (broken_feed_of_assemble hreads hdata hbroken)
  · rw [Bool.not_eq_true] at hbroken
    have hfed := feed_eq hreads hdata hbroken
    have hreads' := hfed.reads
    refine Or.inr ⟨⟨?_, ?_, ?_⟩, ?_⟩
    · exact ⟨hreads'.sorted, hreads'.marks_le, fun _ _ _ ↦ rfl, hreads'.whole, hreads'.not_broken⟩
    · intro o hlow hhigh
      have hoffset := assemble_offset hbroken
      have hstart : a.consumed ≤ (assemble clock a.consumed (a.buf ++ data) a.inProgress).offset :=
        le_assemble_offset
      rw [← hfed.consumed_eq] at hoffset hstart
      rw [← hfed.buf_eq] at hoffset
      obtain ⟨i, rfl⟩ := Nat.exists_eq_add_of_le (hstart.trans hlow)
      rw [hreads'.tsFor_eq _ hlow hhigh]
      exact hclock i (by omega)
    · rw [hfed.inProgress_eq]
      exact hpart
    · rw [hfed.packets_eq]
      exact hpackets

end PacketAssembler

/-! ## Events -/

/-- An event whose request was seen from the client, and whose response, if there was one, from the
server. -/
structure ProtoEvent.Observed (seen : Dir → Set ℤ) (ev : ProtoEvent) : Prop where
  request : ev.tsMicros ∈ seen .client
  latency : ev.responseSeen = false ∧ ev.latencyMicros = 0 ∨
    ev.responseSeen = true ∧ ∃ t ∈ seen .server, ev.latencyMicros = max (t - ev.tsMicros) 0

namespace ProtoState

variable {seen : Dir → Set ℤ} {s : ProtoState}

/-- The statements that wait were seen from the client. -/
def Observed (seen : Dir → Set ℤ) (s : ProtoState) : Prop :=
  ∀ x ∈ s.pending, ∀ ev, x.pending = .event ev → ev.tsMicros ∈ seen .client

theorem Observed.of_pending (h : s.Observed seen) {s' : ProtoState} (heq : s'.pending = s.pending) :
    s'.Observed seen := by
  rw [Observed, heq]
  exact h

theorem Observed.pushPending (h : s.Observed seen) (respSeq : UInt8) {p : Pending}
    (hp : ∀ ev, p = .event ev → ev.tsMicros ∈ seen .client) :
    (s.pushPending respSeq p).Observed seen := by
  intro x hx
  rcases List.mem_append.mp hx with hx | hx
  · exact h x hx
  · rw [List.mem_singleton.mp hx]
    exact hp

theorem Observed.silent (h : s.Observed seen) (respSeq : UInt8) :
    (s.pushPending respSeq .silent).Observed seen := h.pushPending respSeq (by simp)

theorem Observed.queueEvent (h : s.Observed seen) (respSeq : UInt8) {ts : ℤ}
    (hts : ts ∈ seen .client) (query : Bytes) : (s.queueEvent respSeq ts query).Observed seen := by
  apply Observed.pushPending
  · exact h
  · intro ev hev
    rw [← Pending.event.inj hev]
    exact hts

theorem Observed.onExecute (h : s.Observed seen) (respSeq : UInt8) {ts : ℤ}
    (hts : ts ∈ seen .client) (args : Bytes) : (s.onExecute respSeq ts args).Observed seen := by
  rw [ProtoState.onExecute]
  split
  · apply Observed.queueEvent
    · exact h
    · exact hts
  · apply Observed.silent
    exact h

theorem Observed.dispatch (h : s.Observed seen) (respSeq : UInt8) {ts : ℤ} (hts : ts ∈ seen .client)
    (cmd : UInt8) (args : Bytes) : (s.dispatch respSeq ts cmd args).Observed seen := by
  rw [ProtoState.dispatch]
  split_ifs
  · split
    · exact h.queueEvent respSeq hts _
    · exact Observed.silent (s := { s with stats.commandsIgnored := _ }) h respSeq
  · rw [onInitDb]
    apply Observed.queueEvent
    · exact h
    · exact hts
  · exact h.pushPending respSeq (by simp)
  · exact h.onExecute respSeq hts args
  · exact h
  · exact h
  · exact Observed.silent (s := { s with statements := _ }) h respSeq
  · exact h
  · exact Observed.silent (s := { s with stats.commandsIgnored := _ }) h respSeq

theorem onLogin_pending (s : ProtoState) (p : Bytes) : (s.onLogin p).pending = s.pending := by
  have hnames (t : ProtoState) (caps : UInt32) (r : Bytes) :
      (t.onLoginNames caps r).pending = t.pending := by
    rw [onLoginNames]
    repeat' split
    all_goals rfl
  rw [onLogin]
  split_ifs
  · rfl
  dsimp only
  split_ifs
  · rfl
  · rfl
  · rfl
  · exact hnames _ _ _

theorem Observed.onClientPacket (h : s.Observed seen) {pkt : LogicalPacket}
    (hpkt : pkt.tsMicros ∈ seen .client) : (s.onClientPacket pkt).Observed seen := by
  have hdrop : s.dropContinuation.Observed seen := by
    apply h.of_pending
    rw [dropContinuation]
    split_ifs <;> rfl
  rw [ProtoState.onClientPacket]
  split
  · exact h
  · exact h.of_pending (s.onLogin_pending _)
  · split_ifs
    · exact h
    · rw [onCommand]
      split
      · exact hdrop
      · exact hdrop.dispatch _ hpkt _ _

theorem Observed.onServerPacket (h : s.Observed seen) {pkt : LogicalPacket}
    (hpkt : pkt.tsMicros ∈ seen .server) :
    (s.onServerPacket pkt).1.Observed seen ∧
      ∀ ev ∈ (s.onServerPacket pkt).2, ev.Observed seen := by
  have hnone {t : ProtoState} (ht : t.Observed seen) :
      t.Observed seen ∧ ∀ ev ∈ ([] : List ProtoEvent), ev.Observed seen := ⟨ht, by simp⟩
  rw [ProtoState.onServerPacket]
  split
  · split
    · exact hnone h
    · exact hnone h
  · exact hnone h
  · rw [onResponse]
    split_ifs
    · exact hnone h
    · split
      · exact hnone h
      · next front rest hpending =>
        have hrest :
            ({ s with serverContSeq := some (pkt.lastSeq + 1), pending := rest } :
              ProtoState).Observed seen :=
          fun x hx ↦ h x (by rw [hpending]; exact List.mem_cons_of_mem front hx)
        split_ifs
        · exact hnone h
        · cases hfront : front.pending with
          | event ev =>
            have hask : ev.tsMicros ∈ seen .client :=
              h front (by rw [hpending]; exact List.mem_cons_self) ev hfront
            refine ⟨hrest, ?_⟩
            intro e he
            rw [List.mem_singleton.mp he]
            exact ⟨hask, Or.inr ⟨rfl, pkt.tsMicros, hpkt, rfl⟩⟩
          | prepare sql => exact hnone hrest
          | silent => exact hnone hrest

theorem Observed.onPacket (h : s.Observed seen) {dir : Dir} {pkt : LogicalPacket}
    (hpkt : pkt.tsMicros ∈ seen dir) :
    (s.onPacket dir pkt).1.Observed seen ∧ ∀ ev ∈ (s.onPacket dir pkt).2, ev.Observed seen := by
  cases dir with
  | client => exact ⟨h.onClientPacket hpkt, by simp [ProtoState.onPacket]⟩
  | server => exact h.onServerPacket hpkt

theorem Observed.onPackets (h : s.Observed seen) {dir : Dir} {pkts : List LogicalPacket}
    (hpkts : ∀ pkt ∈ pkts, pkt.tsMicros ∈ seen dir) :
    (s.onPackets dir pkts).1.Observed seen ∧ ∀ ev ∈ (s.onPackets dir pkts).2, ev.Observed seen := by
  induction pkts generalizing s with
  | nil => exact ⟨h, by simp [ProtoState.onPackets]⟩
  | cons pkt pkts ih =>
    obtain ⟨hpkt, hpkts⟩ := List.forall_mem_cons.mp hpkts
    obtain ⟨hstep, hout⟩ := h.onPacket hpkt
    obtain ⟨hrest, houts⟩ := ih hstep hpkts
    rw [ProtoState.onPackets]
    split_ifs
    · exact ⟨hrest, List.forall_mem_append.mpr ⟨hout, houts⟩⟩
    · exact ⟨hstep, hout⟩

/-- The statements that are flushed have no latency. -/
theorem Observed.finish (h : s.Observed seen) : ∀ ev ∈ s.finish.2, ev.Observed seen := by
  rw [ProtoState.finish]
  split_ifs
  · simp
  · intro ev hev
    obtain ⟨x, hx, heq⟩ := List.mem_filterMap.mp hev
    obtain ⟨respSeq, p⟩ := x
    cases p with
    | event asked =>
      rw [← Option.some.inj heq]
      exact ⟨h _ hx asked rfl, Or.inl ⟨rfl, rfl⟩⟩
    | prepare sql => exact absurd heq (by simp [unanswered])
    | silent => exact absurd heq (by simp [unanswered])

end ProtoState

/-! ## Runs -/

namespace ConnDecoder

variable {seen : Dir → Set ℤ} {d : ConnDecoder}

theorem assembler_setAssembler_of_ne (d : ConnDecoder) {dir dir' : Dir} (h : dir' ≠ dir)
    (a : PacketAssembler) : (d.setAssembler dir a).assembler dir' = d.assembler dir' := by
  cases dir <;> cases dir' <;> first | exact absurd rfl h | rfl

/-- A decoder whose times were all seen. One that has stopped decoding reads no packet any more. -/
structure Observed (seen : Dir → Set ℤ) (d : ConnDecoder) : Prop where
  state : d.toProtoState.Observed seen
  assembler : d.decoding = true → ∀ dir, (d.assembler dir).Observed (seen dir)

theorem new_observed (seen : Dir → Set ℤ) : new.Observed seen where
  state := by simp [ProtoState.Observed, new, ProtoState.new]
  assembler := fun _ dir ↦ by
    cases dir with
    | client => exact PacketAssembler.new_observed _
    | server => exact PacketAssembler.new_observed _

theorem Observed.onData (h : d.Observed seen) {c : Chunk} (hc : c.tsMicros ∈ seen c.dir) :
    (d.onData c).1.Observed seen ∧ ∀ ev ∈ (d.onData c).2, ev.Observed seen := by
  rw [ConnDecoder.onData]
  split_ifs with hdecoding
  · have hassembler := h.assembler hdecoding
    have hstate : (d.feed c).1.toProtoState.Observed seen := by
      rw [feed, setAssembler_toProtoState]
      exact h.state
    rw [onFed]
    split_ifs with hbroken
    · exact ⟨⟨hstate, fun hd ↦ absurd hd (by simp [ProtoState.decoding])⟩, by simp⟩
    · have hfine : (d.feed c).1.client.broken = false ∧ (d.feed c).1.server.broken = false := by
        simpa using hbroken
      have hfed : ((d.feed c).1.assembler c.dir).Observed (seen c.dir) ∧
          ∀ pkt ∈ (d.feed c).2, pkt.tsMicros ∈ seen c.dir := by
        rcases (hassembler c.dir).feed hc c.data with hbroke | hseen
        · have hsame : ((d.feed c).1.assembler c.dir).broken = true := by
            rw [feed, assembler_setAssembler]
            exact hbroke
          generalize c.dir = dir at hsame
          cases dir with
          | client => exact absurd (hfine.1.symm.trans hsame) Bool.false_ne_true
          | server => exact absurd (hfine.2.symm.trans hsame) Bool.false_ne_true
        · rw [feed, assembler_setAssembler]
          exact hseen
      obtain ⟨hrest, hout⟩ := hstate.onPackets hfed.2
      refine ⟨⟨hrest, fun _ dir ↦ ?_⟩, hout⟩
      by_cases hdir : dir = c.dir
      · rw [hdir]
        exact hfed.1
      · have hother : (d.feed c).1.assembler dir = d.assembler dir := by
          rw [feed, assembler_setAssembler_of_ne d hdir]
        exact hother ▸ hassembler dir
  · exact ⟨h, by simp⟩

/-- **The decoder makes no time up**: the events of any calls have times that it was given. -/
theorem Observed.run (h : d.Observed seen) {cs : List Chunk}
    (hcs : ∀ c ∈ cs, c.tsMicros ∈ seen c.dir) :
    (d.run cs).1.Observed seen ∧ ∀ ev ∈ (d.run cs).2, ev.Observed seen := by
  induction cs generalizing d with
  | nil => exact ⟨h, by simp [ConnDecoder.run]⟩
  | cons c cs ih =>
    obtain ⟨hc, hcs⟩ := List.forall_mem_cons.mp hcs
    obtain ⟨hstep, hout⟩ := h.onData hc
    obtain ⟨hrest, houts⟩ := ih hstep hcs
    exact ⟨hrest, List.forall_mem_append.mpr ⟨hout, houts⟩⟩

end ConnDecoder

end SqlReplay
