import SqlReplay.Pcap.Demultiplex
import SqlReplay.Proto.Observed

/-!
# The times of a capture

A segment that arrives ahead of a gap waits in the buffer with the time it came at, and reaches the
decoder when the gap is closed, which another segment does. So the decoder may be told of the bytes
of a packet later than of packets that came after it, and what a latency is measured between are not
always the times of the two frames that one would think of.

They are times of frames nevertheless, and of the right ones as far as can be said without knowing
the conversation: of the same connection, the request from the client and the response from the
server (`times_observed`). No time is taken from another connection, be it one under the same key,
and none is made up.
-/

namespace SqlReplay

/-! ## Streams -/

namespace SeqStream

variable {seen : Set ℤ} {s : SeqStream}

/-- What waits in the buffer came at times that were seen. -/
def Observed (seen : Set ℤ) (s : SeqStream) : Prop := ∀ e ∈ s.pending, e.2.1 ∈ seen

theorem observed_of_empty (h : s.pending = SortedMap.empty) : s.Observed seen := by
  intro e he
  rw [h] at he
  exact absurd he (SortedMap.not_mem_empty e)

theorem Observed.drain (h : s.Observed seen) :
    s.drain.1.Observed seen ∧ ∀ d ∈ s.drain.2, d.1 ∈ seen := by
  have hpop {s : SeqStream} {e : ℕ × ℤ × Bytes} {rest : SortedMap ℕ (ℤ × Bytes)}
      (hpop : s.pending.popFirst = some (e, rest)) (h : s.Observed seen) :
      e.2.1 ∈ seen ∧ ∀ f ∈ rest, f.2.1 ∈ seen :=
    ⟨h e ((SortedMap.mem_of_popFirst hpop).mpr (Or.inl rfl)),
      fun f hf ↦ h f ((SortedMap.mem_of_popFirst hpop).mpr (Or.inr hf))⟩
  fun_induction SeqStream.drain s with
  | case1 s _ => exact ⟨h, by simp⟩
  | case2 s rel ts data rest _ _ => exact ⟨h, by simp⟩
  | case3 s rel ts data rest hsome _ s' finish _ ih => exact ih (hpop hsome h).2
  | case4 s rel ts data rest hsome _ s' finish _ r ih =>
    obtain ⟨hts, hrest⟩ := hpop hsome h
    obtain ⟨hafter, hout⟩ := ih hrest
    exact ⟨hafter, List.forall_mem_cons.mpr ⟨hts, hout⟩⟩

theorem Observed.place (h : s.Observed seen) {ts : ℤ} (hts : ts ∈ seen) (rel : ℕ)
    (payload : Bytes) :
    (s.place ts rel payload).1.Observed seen ∧ ∀ d ∈ (s.place ts rel payload).2, d.1 ∈ seen := by
  unfold SeqStream.place
  dsimp only
  split_ifs with hdup hle hlimit hvacant
  · exact ⟨h, by simp⟩
  · obtain ⟨hafter, hout⟩ := Observed.drain
      (s := { s with nextRel := (rel + payload.length) % 2 ^ 64 }) h
    exact ⟨hafter, List.forall_mem_cons.mpr ⟨hts, hout⟩⟩
  · exact ⟨observed_of_empty rfl, by simp⟩
  · refine ⟨?_, by simp⟩
    intro e he
    rcases (SortedMap.mem_insertVacant hvacant _).mp he with rfl | he
    · exact hts
    · exact h e he
  · exact ⟨h, by simp⟩

theorem Observed.onData (h : s.Observed seen) {ts : ℤ} (hts : ts ∈ seen) (seq : UInt32)
    (payload : Bytes) :
    (s.onData ts seq payload).1.Observed seen ∧ ∀ d ∈ (s.onData ts seq payload).2, d.1 ∈ seen := by
  have hstart : (s.startAt seq).Observed seen := by
    rw [startAt]
    split_ifs
    · exact h
    · exact h
  rw [SeqStream.onData]
  split_ifs
  · exact ⟨h, by simp⟩
  · exact hstart.place hts _ payload

end SeqStream

/-! ## Connections -/

namespace ConnState

variable {seen : Dir → Set ℤ} {c : ConnState}

structure Observed (seen : Dir → Set ℤ) (c : ConnState) : Prop where
  dec : c.dec.Observed seen
  stream : ∀ dir, (c.stream dir).Observed (seen dir)

theorem new_observed (seen : Dir → Set ℤ) : new.Observed seen where
  dec := ConnDecoder.new_observed seen
  stream dir := by
    cases dir with
    | client => exact SeqStream.observed_of_empty rfl
    | server => exact SeqStream.observed_of_empty rfl

theorem Observed.setStream (h : ∀ dir, (c.stream dir).Observed (seen dir)) (dir : Dir)
    {s : SeqStream} (hs : s.Observed (seen dir)) (dir' : Dir) :
    ((c.setStream dir s).stream dir').Observed (seen dir') := by
  by_cases hdir : dir' = dir
  · subst hdir
    rw [stream_setStream]
    exact hs
  · cases dir <;> cases dir' <;> first | exact absurd rfl hdir | exact h _

/-- A segment that comes at a time that was seen brings out events whose times were. -/
theorem Observed.process (h : c.Observed seen) {a : Arrival} (ha : a.tsMicros ∈ seen a.dir) :
    (c.process a).1.Observed seen ∧ ∀ ev ∈ (c.process a).2, ev.Observed seen := by
  have hsyn : (c.onSyn a.dir a.seg).Observed seen := by
    rw [onSyn]
    split_ifs
    · refine ⟨?_, Observed.setStream h.stream a.dir (SeqStream.observed_of_empty rfl)⟩
      cases a.dir <;> exact h.dec
    · exact h
  obtain ⟨hstream, hdeliveries⟩ := (hsyn.stream a.dir).onData ha a.seg.seq a.seg.payload
  have hchunks : ∀ chunk ∈ (((c.onSyn a.dir a.seg).stream a.dir).onData a.tsMicros a.seg.seq
      a.seg.payload).2.map (fun d ↦ (⟨a.dir, d.1, d.2⟩ : Chunk)),
      chunk.tsMicros ∈ seen chunk.dir :=
    List.forall_mem_map.mpr hdeliveries
  obtain ⟨hdec, hout⟩ := hsyn.dec.run hchunks
  refine ⟨⟨?_, fun dir ↦ ?_⟩, hout⟩
  · rw [ConnState.process, onFin_dec]
    exact hdec
  · rw [ConnState.process, onFin_stream]
    exact Observed.setStream hsyn.stream a.dir hstream dir

end ConnState

/-- The times at which a connection's segments came, by direction. -/
def Arrival.times (arrivals : List Arrival) (dir : Dir) : Set ℤ :=
  {ts | ∃ a ∈ arrivals, a.dir = dir ∧ a.tsMicros = ts}

theorem lifeOf_observed {seen : Dir → Set ℤ} {arrivals : List Arrival}
    (h : ∀ a ∈ arrivals, a.tsMicros ∈ seen a.dir) :
    (lifeOf arrivals).1.Observed seen ∧ ∀ ev ∈ (lifeOf arrivals).2, ev.Observed seen := by
  induction arrivals using List.reverseRecOn with
  | nil => exact ⟨ConnState.new_observed seen, by simp [lifeOf]⟩
  | append_singleton arrivals a ih =>
    obtain ⟨harrivals, ha⟩ := List.forall_mem_append.mp h
    obtain ⟨hlife, hevents⟩ := ih harrivals
    obtain ⟨hstep, hout⟩ := hlife.process (ha a List.mem_cons_self)
    rw [lifeOf_append]
    exact ⟨hstep, List.forall_mem_append.mpr ⟨hevents, hout⟩⟩

/-- The events of a connection have times of its own segments. -/
theorem Connection.events_observed (k : Connection) :
    ∀ ev ∈ k.events, ev.Observed (Arrival.times k.arrivals) := by
  have htimes : ∀ a ∈ k.arrivals, a.tsMicros ∈ Arrival.times k.arrivals a.dir :=
    fun a ha ↦ ⟨a, ha, rfl, rfl⟩
  obtain ⟨hlife, hevents⟩ := lifeOf_observed htimes
  rw [events]
  refine List.forall_mem_append.mpr ⟨hevents, ?_⟩
  split_ifs
  · simp
  · exact hlife.dec.state.finish

/-! ## Captures -/

/-- The segments of the connections under a key are those of the key. -/
theorem arrivals_of_mem_connectionsUnder {key : FlowKey} {arrivals : List Arrival} {k : Connection}
    (hk : k ∈ connectionsUnder key arrivals) : ∀ a ∈ k.arrivals, a ∈ arrivals := by
  have hclose {cs : List Connection} {as : List Arrival} (h : ∀ k ∈ cs, ∀ a ∈ k.arrivals, a ∈ as) :
      ∀ k ∈ cs.map (Connection.close key), ∀ a ∈ k.arrivals, a ∈ as := by
    rw [List.forall_mem_map]
    intro k hk
    rw [Connection.close]
    split_ifs
    · exact h k hk
    · exact h k hk
  have hextend {cs : List Connection} {as : List Arrival} (h : ∀ k ∈ cs, ∀ a ∈ k.arrivals, a ∈ as)
      {a : Arrival} (ha : a ∈ as) :
      ∀ k ∈ cs.map (Connection.extend key a), ∀ a ∈ k.arrivals, a ∈ as := by
    rw [List.forall_mem_map]
    intro k hk
    rw [Connection.extend]
    split_ifs
    · exact List.forall_mem_append.mpr ⟨h k hk, by simpa using ha⟩
    · exact h k hk
  rw [connectionsUnder] at hk
  induction arrivals using List.reverseRecOn generalizing k with
  | nil => exact absurd hk (by simp)
  | append_singleton as a ih =>
    rw [List.foldl_concat] at hk
    generalize as.foldl (slotStep key) (none, []) = s at hk ih
    have hbefore : ∀ k ∈ s.2, ∀ b ∈ k.arrivals, b ∈ as ++ [a] :=
      fun k hk b hb ↦ List.mem_append_left _ (ih hk b hb)
    have hbegin : ∀ k ∈ slotBegin key s.1 s.2 a, ∀ b ∈ k.arrivals, b ∈ as ++ [a] := by
      rw [slotBegin]
      split_ifs
      · exact List.forall_mem_append.mpr ⟨hclose hbefore, by simp⟩
      · exact hbefore
    have ha : a ∈ as ++ [a] := List.mem_append_right _ List.mem_cons_self
    revert k
    rw [slotStep, slotTrack]
    dsimp only
    split_ifs
    · exact fun hk ↦ hbegin _ hk
    · exact fun hk ↦ hclose (hextend hbegin ha) _ hk
    · exact fun hk ↦ hextend hbegin ha _ hk

namespace PcapEngine

/-- **Every time is that of a frame.** A statement that the sink is handed belongs to a connection,
whose segments are some of those under its key. It was requested when one of them came from the
client; its latency is up to the time of one that came from the server, or zero when no response was
seen. -/
theorem times_observed {port : ℕ} {ps : List Packet} {keys : List FlowKey}
    (hkeys : ∀ key, (((new port).run ps).1.conns key).isSome → key ∈ keys) :
    ∀ x ∈ ((new port).run ps).2 ++ (((new port).run ps).1.finish keys).2,
      ∃ k ∈ connections port ps, x.2 ∈ k.ended.events ∧
        (∀ a ∈ k.arrivals, a ∈ arrivalsOf port k.key ps) ∧
        ∃ a ∈ k.arrivals, a.dir = .client ∧ a.tsMicros = x.2.tsMicros ∧
          (x.2.responseSeen = false ∧ x.2.latencyMicros = 0 ∨
            x.2.responseSeen = true ∧ ∃ b ∈ k.arrivals, b.dir = .server ∧
              x.2.latencyMicros = max (b.tsMicros - a.tsMicros) 0) := by
  intro x hx
  have hsection : labelled (((new port).run ps).2 ++ (((new port).run ps).1.finish keys).2) x.1 ∈
      sections (((new port).run ps).2 ++ (((new port).run ps).1.finish keys).2) :=
    List.mem_map_of_mem (List.mem_eraseDups.mpr (List.mem_map_of_mem hx))
  have hmem := (sections_perm port ps hkeys).mem_iff.mp hsection
  obtain ⟨k, hk, hevents⟩ := List.mem_map.mp (List.mem_filter.mp hmem).1
  have hev : x.2 ∈ k.ended.events := by
    rw [hevents]
    exact List.mem_map_of_mem (List.mem_filter.mpr ⟨hx, decide_eq_true rfl⟩)
  have hunder : k ∈ connectionsUnder k.key (arrivalsOf port k.key ps) := by
    rw [← connections_filter]
    exact List.mem_filter.mpr ⟨hk, decide_eq_true rfl⟩
  obtain ⟨⟨a, ha, hdir, hts⟩, hlatency⟩ := k.ended.events_observed x.2 hev
  refine ⟨k, hk, hev, arrivals_of_mem_connectionsUnder hunder, a, ha, hdir, hts,
    hlatency.imp_right ?_⟩
  rintro ⟨hseen, t, ⟨b, hb, hdir', rfl⟩, heq⟩
  exact ⟨hseen, b, hb, hdir', by rw [heq, hts]⟩

/-- The query of a capture, with the time of the frame that carried it. -/
theorem times_observed_query :
    ∃ x ∈ ((new 3306).run (openingPackets ++ queryPackets)).2, x.2.query = ascii "SELECT 1" ∧
      ∃ k ∈ connections 3306 (openingPackets ++ queryPackets), ∃ a ∈ k.arrivals,
        a.dir = .client ∧ a.tsMicros = x.2.tsMicros := by
  have hquery : ((new 3306).run (openingPackets ++ queryPackets)).2.map (·.2.query) =
      [ascii "SELECT 1"] := by decide +kernel
  obtain ⟨x, hx, hx'⟩ := List.mem_map.mp (hquery ▸ List.mem_singleton_self (ascii "SELECT 1"))
  obtain ⟨k, hk, -, -, a, ha, hdir, hts, -⟩ :=
    times_observed (mem_keysOf (openingPackets ++ queryPackets)) x (List.mem_append_left _ hx)
  exact ⟨x, hx, hx', k, hk, a, ha, hdir, hts⟩

end PcapEngine

end SqlReplay
