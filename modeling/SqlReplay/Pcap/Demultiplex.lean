import SqlReplay.Pcap.Accounting

/-!
# Connections do not interfere

The frames of all connections reach the engine in one sequence, and some of what it keeps is shared:
the event buffer, the session ids and the counters. The table is not. What a frame does to the entry
of its key depends on that entry and on the frame, and it does nothing to the others. So the
connections under a key are a function of the frames with that key (`connections_filter`), which an
automaton with one entry for its state computes.

It follows that the order of frames with different keys does not matter to what the sink is handed,
nor to the counters (`interleaving_free`). It may change the session ids, which are handed out first
come, first served.
-/

namespace SqlReplay

/-! ## One entry of the table -/

/-- A segment that begins a connection. -/
def Arrival.opens (a : Arrival) : Bool := a.seg.syn && !a.seg.ack && a.dir == .client

/-- What is left of an entry when a segment may reuse the port pair. -/
def slotReused (o : Option ConnState) (a : Arrival) : Option ConnState :=
  o.filter fun old ↦ !a.opens || PcapEngine.isSynRetransmit old a.seg

/-- The connection that a segment belongs to. -/
def slotEntry (o : Option ConnState) (a : Arrival) : ConnState := (slotReused o a).getD .new

/-- The entry behind a segment. -/
def slotNext (o : Option ConnState) (a : Arrival) : ConnState :=
  if (slotEntry o a).finished then slotEntry o a
  else
    let c := ((slotEntry o a).process a).1
    if c.ends a.seg then c.flush else c

/-- The connections when a segment with a key has come: without an entry for it one begins. -/
def slotBegin (key : FlowKey) (o : Option ConnState) (cs : List Connection) (a : Arrival) :
    List Connection :=
  if (slotReused o a).isNone then cs.map (.close key) ++ [⟨key, [], true⟩] else cs

/-- The connections behind a segment with a key. -/
def slotTrack (key : FlowKey) (o : Option ConnState) (cs : List Connection) (a : Arrival) :
    List Connection :=
  if (slotEntry o a).finished then slotBegin key o cs a
  else if (slotNext o a).finished then
    ((slotBegin key o cs a).map (.extend key a)).map (.close key)
  else (slotBegin key o cs a).map (.extend key a)

/-- An entry and the connections under its key, behind a segment. -/
def slotStep (key : FlowKey) (s : Option ConnState × List Connection) (a : Arrival) :
    Option ConnState × List Connection :=
  (some (slotNext s.1 a), slotTrack key s.1 s.2 a)

/-- The connections of a key whose segments these are. -/
def connectionsUnder (key : FlowKey) (arrivals : List Arrival) : List Connection :=
  (arrivals.foldl (slotStep key) (none, [])).2

namespace ConnState

theorem core_finished (c : ConnState) : c.core.finished = c.finished := rfl

theorem ends_core (c : ConnState) (seg : TcpSegment) : c.core.ends seg = c.ends seg := rfl

end ConnState

theorem slotReused_core (o : Option ConnState) (a : Arrival) :
    slotReused (o.map .core) a = (slotReused o a).map .core := by
  rcases o with _ | old
  · rfl
  · rw [Option.map_some, slotReused, slotReused, Option.filter_some, Option.filter_some]
    change (if (!a.opens || PcapEngine.isSynRetransmit old a.seg) = true then _ else _) = _
    split_ifs <;> rfl

theorem slotEntry_core (o : Option ConnState) (a : Arrival) :
    slotEntry (o.map .core) a = (slotEntry o a).core := by
  rw [slotEntry, slotEntry, slotReused_core]
  cases slotReused o a <;> rfl

/-- An entry goes on in the same way without what the engine adds to it. -/
theorem slotNext_core (o : Option ConnState) (a : Arrival) :
    slotNext (o.map .core) a = (slotNext o a).core := by
  have hprocess := ((slotEntry o a).process_core a).1
  rw [slotNext, slotNext, slotEntry_core, ConnState.core_finished]
  dsimp only
  rw [← hprocess, ConnState.ends_core]
  split_ifs <;> rfl

/-! ## The engine has such entries -/

namespace PcapEngine

theorem reusePort_slot (e : PcapEngine) (key : FlowKey) (a : Arrival) :
    (e.reusePort key a.dir a.seg).1.conns key = slotReused (e.conns key) a := by
  unfold reusePort slotReused Arrival.opens
  by_cases hopens : (a.seg.syn && !a.seg.ack && a.dir == .client) = true
  · rw [if_pos hopens, hopens]
    cases hkey : e.conns key with
    | none => exact hkey
    | some old =>
      rw [Option.filter_some, Bool.not_true, Bool.false_or]
      dsimp only
      split_ifs
      · exact hkey
      · rw [remove, finalize_conns]
        exact Function.update_self _ _ _
  · rw [if_neg hopens, Bool.eq_false_iff.mpr hopens]
    cases e.conns key <;> rfl

theorem entry_slot (e : PcapEngine) (key : FlowKey) (a : Arrival) :
    ((e.reusePort key a.dir a.seg).1.entry key).2 = slotEntry (e.conns key) a := by
  rw [slotEntry, ← reusePort_slot, entry]
  cases (e.reusePort key a.dir a.seg).1.conns key <;> rfl

/-- What is left of a connection behind a segment, but for what the engine adds to it. -/
theorem settle_core (e : PcapEngine) {c d : ConnState} (hcore : c.core = d.core)
    (hopen : c.finished = false) (seg : TcpSegment) :
    (if c.ends seg then e.finalize c else e.drainEvents c).conn.core =
      (if d.ends seg then d.flush else d).core := by
  have hends : c.ends seg = d.ends seg := by
    rw [← ConnState.ends_core, hcore, ConnState.ends_core]
  rw [hends]
  split_ifs
  · rw [finalize_core e hopen, hcore]
    rfl
  · obtain ⟨id, hconn⟩ := e.drainEvents_conn c
    rw [hconn]
    exact hcore

theorem onConnSegment_slot (e : PcapEngine) (key : FlowKey) {c : ConnState}
    (hopen : c.finished = false) (a : Arrival) :
    ((e.onConnSegment key c a.dir a.tsMicros a.seg).1.conns key).map .core =
      some (if (c.process a).1.ends a.seg then (c.process a).1.flush
        else (c.process a).1).core := by
  have hprocessed : (c.process a).1.finished = false := (c.process_frame a).2.trans hopen
  obtain ⟨st, recorded, hrecord, -⟩ := recordVersion_shape
    { e with evbuf := e.evbuf ++ (c.process a).2 }
    ((c.onSyn a.dir a.seg).deliver a.dir a.tsMicros a.seg).1
  have hfin (d : ConnState) : ({ d with versionRecorded := recorded }).onFin a.dir a.seg =
      { d.onFin a.dir a.seg with versionRecorded := recorded } := by
    cases a.dir <;> rfl
  unfold ConnState.process at hprocessed hrecord ⊢
  unfold onConnSegment
  dsimp only at hprocessed hrecord ⊢
  rw [hrecord, hfin, insert_conns, Function.update_self, Option.map_some]
  refine congrArg some (settle_core _ ?_ ?_ _)
  · rfl
  · exact hprocessed

/-- The entry of a key is replaced by the next one. -/
theorem onPacket_slot {e : PcapEngine} {p : Packet} {key : FlowKey} {a : Arrival}
    (h : arrival e.port p = some (key, a)) :
    ((e.onPacket p).1.conns key).map .core = some (slotNext ((e.conns key).map .core) a) := by
  have hentry : (({ e with stats := e.stats.countPacket p.truncated }.reusePort key a.dir
      a.seg).1.entry key).2 = slotEntry (e.conns key) a := entry_slot _ key a
  rw [onPacket_of_arrival h, onSegment, slotNext_core, slotNext]
  dsimp only
  rw [hentry]
  by_cases hfinished : (slotEntry (e.conns key) a).finished = true
  · rw [if_pos hfinished, if_pos hfinished]
    rw [insert_conns, Function.update_self]
    rfl
  · rw [if_neg hfinished, if_neg hfinished]
    exact onConnSegment_slot _ key (Bool.eq_false_iff.mpr hfinished) a

/-! ## Connections by key -/

/-- The connections under a key, changed by what changes only those under another key or leaves the
keys as they are. -/
theorem filter_map_key {f : Connection → Connection} (hf : ∀ k, (f k).key = k.key) (key : FlowKey)
    (cs : List Connection) :
    (cs.map f).filter (·.key = key) = (cs.filter (·.key = key)).map f := by
  rw [List.filter_map]
  refine congrArg (List.map f) (List.filter_congr fun k _ ↦ ?_)
  rw [Function.comp_apply, hf]

theorem key_close (key : FlowKey) (k : Connection) : (k.close key).key = k.key := by
  rw [Connection.close]
  split_ifs <;> rfl

theorem key_extend (key : FlowKey) (a : Arrival) (k : Connection) :
    (k.extend key a).key = k.key := by
  rw [Connection.extend]
  split_ifs <;> rfl

theorem filter_close_of_ne {key key' : FlowKey} (hne : key' ≠ key) (cs : List Connection) :
    (cs.map (.close key')).filter (·.key = key) = cs.filter (·.key = key) := by
  rw [filter_map_key (key_close key')]
  refine (List.map_congr_left fun k hk ↦ ?_).trans (List.map_id _)
  have hkey : k.key = key := of_decide_eq_true (List.mem_filter.mp hk).2
  exact if_neg fun h ↦ hne (h.symm.trans hkey)

theorem filter_extend_of_ne {key key' : FlowKey} (hne : key' ≠ key) (a : Arrival)
    (cs : List Connection) :
    (cs.map (.extend key' a)).filter (·.key = key) = cs.filter (·.key = key) := by
  rw [filter_map_key (key_extend key' a)]
  refine (List.map_congr_left fun k hk ↦ ?_).trans (List.map_id _)
  have hkey : k.key = key := of_decide_eq_true (List.mem_filter.mp hk).2
  exact if_neg fun h ↦ hne (h.1.symm.trans hkey)

/-- What a frame does to the connections, in terms of the entry of its key. -/
theorem track_slot {e : PcapEngine} {p : Packet} {key : FlowKey} {a : Arrival}
    (h : arrival e.port p = some (key, a)) (cs : List Connection) :
    e.track cs p = slotTrack key ((e.conns key).map .core) cs a := by
  have hentry : (({ e with stats := e.stats.countPacket p.truncated }.reusePort key a.dir
      a.seg).1.entry key).2 = slotEntry (e.conns key) a := entry_slot _ key a
  have hreused : ({ e with stats := e.stats.countPacket p.truncated }.reusePort key a.dir
      a.seg).1.conns key = slotReused (e.conns key) a := reusePort_slot _ key a
  obtain ⟨c, hconns, hcore⟩ := Option.map_eq_some_iff.mp (onPacket_slot h)
  have hfinished : c.finished = (slotNext ((e.conns key).map .core) a).finished := by
    rw [← hcore]
    rfl
  rw [track, h]
  dsimp only
  rw [hentry, hreused, hconns]
  dsimp only
  rw [hfinished, slotTrack, slotBegin, slotReused_core, slotEntry_core, Option.isNone_map]
  rfl

/-- The connections under a key, behind a segment with that key. -/
theorem filter_slotTrack (key : FlowKey) (o : Option ConnState) (cs : List Connection)
    (a : Arrival) :
    (slotTrack key o cs a).filter (·.key = key) =
      slotTrack key o (cs.filter (·.key = key)) a := by
  have hbegin : (slotBegin key o cs a).filter (·.key = key) =
      slotBegin key o (cs.filter (·.key = key)) a := by
    rw [slotBegin, slotBegin]
    split_ifs
    · rw [List.filter_append, filter_map_key (key_close key)]
      exact congrArg _ (List.filter_cons_of_pos (decide_eq_true rfl))
    · rfl
  rw [slotTrack, slotTrack, ← hbegin]
  split_ifs
  · rfl
  · rw [filter_map_key (key_close key), filter_map_key (key_extend key a)]
  · rw [filter_map_key (key_extend key a)]

theorem filter_slotTrack_of_ne {key key' : FlowKey} (hne : key' ≠ key) (o : Option ConnState)
    (cs : List Connection) (a : Arrival) :
    (slotTrack key' o cs a).filter (·.key = key) = cs.filter (·.key = key) := by
  have hbegin : (slotBegin key' o cs a).filter (·.key = key) = cs.filter (·.key = key) := by
    rw [slotBegin]
    split_ifs
    · have hnew : [(⟨key', [], true⟩ : Connection)].filter (·.key = key) = [] :=
        List.filter_cons_of_neg (mt of_decide_eq_true hne)
      rw [List.filter_append, filter_close_of_ne hne, hnew, List.append_nil]
    · rfl
  rw [slotTrack]
  split_ifs
  · exact hbegin
  · rw [filter_close_of_ne hne, filter_extend_of_ne hne, hbegin]
  · rw [filter_extend_of_ne hne, hbegin]

/-- The segments of the frames with a key. -/
def arrivalsOf (port : ℕ) (key : FlowKey) (ps : List Packet) : List Arrival :=
  ps.filterMap fun p ↦ (arrival port p).bind fun ka ↦ if ka.1 = key then some ka.2 else none

theorem filter_trackAll (e : PcapEngine) (cs : List Connection) (ps : List Packet) (key : FlowKey) :
    (e.trackAll cs ps).filter (·.key = key) =
      ((arrivalsOf e.port key ps).foldl (slotStep key)
        ((e.conns key).map .core, cs.filter (·.key = key))).2 := by
  induction ps generalizing e cs with
  | nil => rfl
  | cons p ps ih =>
    rw [trackAll, ih, onPacket_port, arrivalsOf, arrivalsOf, List.filterMap_cons]
    cases harrival : arrival e.port p with
    | none =>
      rw [onPacket_of_no_arrival harrival, track, harrival]
      rfl
    | some ka =>
      obtain ⟨key', a⟩ := ka
      rw [Option.bind_some, track_slot harrival]
      dsimp only
      by_cases hkey : key' = key
      · obtain rfl := hkey
        rw [if_pos rfl, onPacket_slot harrival, filter_slotTrack]
        rfl
      · rw [if_neg hkey, filter_slotTrack_of_ne hkey, onPacket_of_arrival harrival,
          onSegment_conns e (Ne.symm hkey)]

/-- **The connections under a key are those of its own frames.** -/
theorem connections_filter (port : ℕ) (ps : List Packet) (key : FlowKey) :
    (connections port ps).filter (·.key = key) = connectionsUnder key (arrivalsOf port key ps) :=
  filter_trackAll (new port) [] ps key

/-- Captures whose frames differ in their order across keys only have the same connections. -/
theorem connections_perm {port : ℕ} {ps ps' : List Packet}
    (h : ∀ key, arrivalsOf port key ps = arrivalsOf port key ps') :
    (connections port ps).Perm (connections port ps') := by
  rw [List.perm_iff_count]
  intro k
  have hcount (qs : List Packet) : (connections port qs).count k =
      (connectionsUnder k.key (arrivalsOf port k.key qs)).count k := by
    rw [← connections_filter]
    refine (List.count_filter ?_).symm
    exact decide_eq_true rfl
  rw [hcount, hcount, h]

/-! ## What the sink is handed -/

/-- At the end of a capture the sessions are those connections that have an event. -/
theorem sections_perm (port : ℕ) (ps : List Packet) {keys : List FlowKey}
    (hkeys : ∀ key, (((new port).run ps).1.conns key).isSome → key ∈ keys) :
    (sections (((new port).run ps).2 ++ (((new port).run ps).1.finish keys).2)).Perm
      (((connections port ps).map (·.ended.events)).filter fun events ↦ !events.isEmpty) := by
  obtain ⟨l, hl, hfst⟩ := (Ledger.new port).run (new_settles port) ps
  obtain ⟨l', hl', hfst'⟩ := hl.finish ((new_settles port).run ps) hkeys
  have hevents : (l'.map owner).map Prod.snd = (connections port ps).map (·.ended.events) := by
    have hmap := congrArg (List.map Connection.events) hfst'
    rw [hfst, List.map_map, List.map_map] at hmap
    rw [List.map_map]
    exact hmap
  rw [← hevents]
  exact hl'.sessions.attributed.sections_perm

/-- At the end of a capture the counters are sums over the connections. -/
theorem finish_balanced (port : ℕ) (ps : List Packet) {keys : List FlowKey}
    (hkeys : ∀ key, (((new port).run ps).1.conns key).isSome → key ∈ keys) :
    Balanced (((new port).run ps).1.finish keys).1.stats (connections port ps) := by
  obtain ⟨l, hl, hfst⟩ := (Ledger.new port).run (new_settles port) ps
  obtain ⟨l', hl', hfst'⟩ := hl.finish ((new_settles port).run ps) hkeys
  have haccounts := hl'.accounts
  rw [hfst', hfst] at haccounts
  exact haccounts.balanced

/-- **Frames of different connections may come in any order.** -/
theorem interleaving_free {port : ℕ} {ps ps' : List Packet} {keys keys' : List FlowKey}
    (h : ∀ key, arrivalsOf port key ps = arrivalsOf port key ps')
    (hkeys : ∀ key, (((new port).run ps).1.conns key).isSome → key ∈ keys)
    (hkeys' : ∀ key, (((new port).run ps').1.conns key).isSome → key ∈ keys') :
    let e := ((new port).run ps).1
    let e' := ((new port).run ps').1
    (sections (((new port).run ps).2 ++ (e.finish keys).2)).Perm
        (sections (((new port).run ps').2 ++ (e'.finish keys').2)) ∧
      (e.finish keys).1.stats.connections = (e'.finish keys').1.stats.connections ∧
      ∀ k, (e.finish keys).1.stats.counter k = (e'.finish keys').1.stats.counter k := by
  intro e e'
  have hperm : (connections port ps).Perm (connections port ps') := connections_perm h
  have hbalanced := finish_balanced port ps hkeys
  have hbalanced' := finish_balanced port ps' hkeys'
  refine ⟨?_, ?_, fun k ↦ ?_⟩
  · have hevents := (hperm.map (·.ended.events)).filter fun events ↦ !events.isEmpty
    exact (sections_perm port ps hkeys).trans (hevents.trans (sections_perm port ps' hkeys').symm)
  · rw [hbalanced.connections, hbalanced'.connections]
    exact hperm.length_eq
  · rw [hbalanced.counter, hbalanced'.counter]
    exact (hperm.map _).sum_nat

/-- Two frames in a row with different keys may come in either order. -/
theorem arrivalsOf_swap {port : ℕ} {p q : Packet} {key key' : FlowKey}
    (hp : (arrival port p).map Prod.fst = some key) (hq : (arrival port q).map Prod.fst = some key')
    (hne : key ≠ key') (before after : List Packet) (k : FlowKey) :
    arrivalsOf port k (before ++ p :: q :: after) =
      arrivalsOf port k (before ++ q :: p :: after) := by
  obtain ⟨a, ha, hkey⟩ := Option.map_eq_some_iff.mp hp
  obtain ⟨b, hb, hkey'⟩ := Option.map_eq_some_iff.mp hq
  simp only [arrivalsOf, List.filterMap_append, List.filterMap_cons, ha, hb, Option.bind_some, hkey,
    hkey']
  by_cases hk : key = k
  · have hk' : key' ≠ k := fun h ↦ hne (hk.trans h.symm)
    rw [if_neg hk']
  · rw [if_neg hk]

/-- The SYN of another client. -/
def otherSynPacket : Packet := rawPacket 2 ⟨[10, 0, 0, 1], 50001⟩ serverHost 7 0x02 []

/-- Two clients that open their connections in either order. -/
theorem interleaving_free_twoClients :
    let rest := openingPackets.tail ++ queryPackets
    let ps := synPacket 1 :: otherSynPacket :: rest
    let ps' := otherSynPacket :: synPacket 1 :: rest
    (sections (((new 3306).run ps).2 ++ (((new 3306).run ps).1.finish (keysOf 3306 ps)).2)).Perm
      (sections (((new 3306).run ps').2 ++
        (((new 3306).run ps').1.finish (keysOf 3306 ps')).2)) := by
  intro rest ps ps'
  have hp : (arrival 3306 (synPacket 1)).map Prod.fst = some hostsKey := by
    decide
  have hq : (arrival 3306 otherSynPacket).map Prod.fst =
      some ⟨⟨v4mapped [10, 0, 0, 1], 50001⟩, hostsKey.server⟩ := by
    decide
  have hne : hostsKey ≠ ⟨⟨v4mapped [10, 0, 0, 1], 50001⟩, hostsKey.server⟩ := by
    decide
  have hsame (key : FlowKey) : arrivalsOf 3306 key ps = arrivalsOf 3306 key ps' :=
    arrivalsOf_swap hp hq hne [] rest key
  exact (interleaving_free hsame (mem_keysOf ps) (mem_keysOf ps')).1

end PcapEngine

end SqlReplay
