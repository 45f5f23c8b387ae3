import SqlReplay.Pcap.Invariant

/-!
# The connections of a capture

The engine keeps a connection in its table, finalizes it for one of half a dozen reasons and leaves
a tombstone or nothing behind. What it counts and emits is about the connections themselves: each is
the segments it was given between its creation and its end, and those determine its decoder and its
events (`lifeOf`). `connections` follows the table over a run and keeps them all. Nothing in the
engine reads them: they are what the counters and the session ids are claimed to be about.

`Tracks` ties the two together. The live connections are those of the table that are not finished,
one for a key, and the state of each is that of its life, but for its session id and the mark of a
recorded version.
-/

namespace SqlReplay

/-- A segment as it reaches a connection. -/
structure Arrival where
  dir : Dir
  tsMicros : ℤ
  seg : TcpSegment
  deriving DecidableEq, Repr

namespace ConnState

/-- What a segment does to a connection, and the events it brings out. -/
def process (c : ConnState) (a : Arrival) : ConnState × List ProtoEvent :=
  (((c.onSyn a.dir a.seg).deliver a.dir a.tsMicros a.seg).1.onFin a.dir a.seg,
    ((c.onSyn a.dir a.seg).deliver a.dir a.tsMicros a.seg).2)

/-- The decoder flushed at the end. -/
def flush (c : ConnState) : ConnState := { c with dec := c.dec.finish.1, finished := true }

/-- A connection without what the engine adds to it. -/
def core (c : ConnState) : ConnState := { c with sessionId := none, versionRecorded := false }

theorem process_core (c : ConnState) (a : Arrival) :
    (c.process a).1.core = (c.core.process a).1 ∧ (c.process a).2 = (c.core.process a).2 := by
  unfold process onSyn deliver onFin
  cases a.dir <;> dsimp only <;> split_ifs <;> exact ⟨rfl, rfl⟩

end ConnState

/-- The life of a connection that was given these segments, with its events. -/
def lifeOf (arrivals : List Arrival) : ConnState × List ProtoEvent :=
  arrivals.foldl (fun r a ↦ ((r.1.process a).1, r.2 ++ (r.1.process a).2)) (.new, [])

theorem lifeOf_append (arrivals : List Arrival) (a : Arrival) :
    lifeOf (arrivals ++ [a]) =
      (((lifeOf arrivals).1.process a).1,
        (lifeOf arrivals).2 ++ ((lifeOf arrivals).1.process a).2) :=
  List.foldl_concat ..

/-- A connection: its key, the segments it was given, and whether it goes on. -/
structure Connection where
  key : FlowKey
  arrivals : List Arrival
  live : Bool
  deriving DecidableEq, Repr

namespace Connection

/-- The decoder's counters at the end of a connection, flushed. -/
def stats (k : Connection) : ConnStats := (lifeOf k.arrivals).1.dec.finish.1.stats

/-- All events of a connection, with those of the flush when it has ended. -/
def events (k : Connection) : List ProtoEvent :=
  (lifeOf k.arrivals).2 ++ if k.live then [] else (lifeOf k.arrivals).1.dec.finish.2

/-- The connection at the end of the capture. -/
def ended (k : Connection) : Connection := { k with live := false }

/-- The end of the connection under a key. -/
def close (key : FlowKey) (k : Connection) : Connection :=
  if k.key = key then { k with live := false } else k

/-- A segment for the live connection under a key. -/
def extend (key : FlowKey) (a : Arrival) (k : Connection) : Connection :=
  if k.key = key ∧ k.live = true then { k with arrivals := k.arrivals ++ [a] } else k

end Connection

namespace PcapEngine

/-- What a frame says to a connection: its key and the segment. -/
def arrival (port : ℕ) (p : Packet) : Option (FlowKey × Arrival) :=
  match (stripLink p.linktype p.frame).bind parseIpTcp with
  | none => none
  | some seg => (classifySegment port seg).map fun k ↦ (k.1, ⟨k.2, p.tsMicros, seg⟩)

/-- The connections behind a frame, the engine before it being `e`. -/
def track (e : PcapEngine) (cs : List Connection) (p : Packet) : List Connection :=
  match arrival e.port p with
  | none => cs
  | some (key, a) =>
    let r := ({ e with stats := e.stats.countPacket p.truncated }.reusePort key a.dir a.seg).1
    -- the connection whose port pair is reused has ended, and a new one begins
    let cs := if (r.conns key).isNone then cs.map (.close key) ++ [⟨key, [], true⟩] else cs
    if (r.entry key).2.finished then cs
    else
      let cs := cs.map (.extend key a)
      match (e.onPacket p).1.conns key with
      | some c => if c.finished then cs.map (.close key) else cs
      | none => cs

/-- The connections of a run, in the order in which they began. -/
def trackAll (e : PcapEngine) (cs : List Connection) : List Packet → List Connection
  | [] => cs
  | p :: ps => (e.onPacket p).1.trackAll (e.track cs p) ps

/-- The connections of a capture. -/
def connections (port : ℕ) (ps : List Packet) : List Connection := (new port).trackAll [] ps

end PcapEngine

/-! ## The connections and the table -/

/-- The live connections are the unfinished ones of the table, each with its state. -/
structure Tracks (conns : FlowKey → Option ConnState) (l : List (Connection × ConnState)) :
    Prop where
  live : ∀ x ∈ l, x.1.live = true → conns x.1.key = some x.2 ∧ x.2.finished = false
  table : ∀ key c, conns key = some c → c.finished = false →
    ∃ x ∈ l, x.1.live = true ∧ x.1.key = key
  unique : l.Pairwise fun x y ↦ ¬(x.1.live = true ∧ y.1.live = true ∧ x.1.key = y.1.key)
  life : ∀ x ∈ l, x.2.core =
    if x.1.live then (lifeOf x.1.arrivals).1 else (lifeOf x.1.arrivals).1.flush

/-- No connection of a list is live under a key. -/
def NoneLive (key : FlowKey) (l : List (Connection × ConnState)) : Prop :=
  ∀ x ∈ l, ¬(x.1.live = true ∧ x.1.key = key)

theorem NoneLive.map_close {key : FlowKey} {l : List (Connection × ConnState)}
    (h : NoneLive key l) : (l.map Prod.fst).map (.close key) = l.map Prod.fst := by
  rw [List.map_map]
  refine List.map_congr_left fun x hx ↦ ?_
  have hx := h x hx
  rw [Function.comp_apply, Connection.close]
  split_ifs with hkey
  · have hlive : x.1.live = false := Bool.eq_false_iff.mpr fun hlive ↦ hx ⟨hlive, hkey⟩
    rw [← hlive]
  · rfl

theorem NoneLive.map_extend {key : FlowKey} {l : List (Connection × ConnState)}
    (h : NoneLive key l) (a : Arrival) :
    (l.map Prod.fst).map (.extend key a) = l.map Prod.fst := by
  rw [List.map_map]
  refine List.map_congr_left fun x hx ↦ ?_
  rw [Function.comp_apply, Connection.extend, if_neg fun hx' ↦ h x hx ⟨hx'.2, hx'.1⟩]

namespace Tracks

variable {conns : FlowKey → Option ConnState} {l before after : List (Connection × ConnState)}
  {key : FlowKey} {c c' : ConnState} {k k' : Connection}

theorem noneLive (h : Tracks conns l) (hkey : ∀ c, conns key = some c → c.finished = true) :
    NoneLive key l := by
  rintro x hx ⟨hlive, rfl⟩
  obtain ⟨hconns, hopen⟩ := h.live x hx hlive
  rw [hkey x.2 hconns] at hopen
  cases hopen

/-- An unfinished connection of the table among the others, none of which is live under its
key. -/
theorem split (h : Tracks conns l) (hkey : conns key = some c) (hopen : c.finished = false) :
    ∃ before k after, l = before ++ (k, c) :: after ∧ k.key = key ∧ k.live = true ∧
      NoneLive key (before ++ after) := by
  obtain ⟨⟨k, c'⟩, hx, hlive, rfl⟩ := h.table key c hkey hopen
  obtain rfl : c' = c := Option.some.inj ((h.live _ hx hlive).1.symm.trans hkey)
  obtain ⟨before, after, rfl⟩ := List.append_of_mem hx
  refine ⟨before, k, after, rfl, rfl, hlive, fun y hy hkey' ↦ ?_⟩
  have hunique := h.unique
  rw [List.pairwise_append, List.pairwise_cons] at hunique
  rcases List.mem_append.mp hy with hy | hy
  · exact hunique.2.2 y hy _ List.mem_cons_self ⟨hkey'.1, hlive, hkey'.2⟩
  · exact hunique.2.1.1 y hy ⟨hlive, hkey'.1, hkey'.2.symm⟩

/-- A connection has changed, and with it what the table has under its key. -/
theorem replace (h : Tracks conns (before ++ (k, c) :: after)) (hk : k.key = key)
    (hothers : NoneLive key (before ++ after)) (hk' : k'.key = key) {o : Option ConnState}
    (hlive : k'.live = true → o = some c' ∧ c'.finished = false)
    (hended : k'.live = false → ∀ c'', o = some c'' → c''.finished = true)
    (hlife : c'.core = if k'.live then (lifeOf k'.arrivals).1 else (lifeOf k'.arrivals).1.flush) :
    Tracks (Function.update conns key o) (before ++ (k', c') :: after) := by
  have hmem {x : Connection × ConnState} (hx : x ∈ before ++ (k', c') :: after) :
      x = (k', c') ∨ x ∈ before ++ after := by
    rcases List.mem_append.mp hx with hx | hx
    · exact .inr (List.mem_append_left after hx)
    · exact (List.mem_cons.mp hx).imp_right (List.mem_append_right before)
  have hold {x : Connection × ConnState} (hx : x ∈ before ++ after) :
      x ∈ before ++ (k, c) :: after :=
    (List.Sublist.append_left (List.sublist_cons_self _ after) before).subset hx
  have hnew {x : Connection × ConnState} (hx : x ∈ before ++ after) :
      x ∈ before ++ (k', c') :: after :=
    (List.Sublist.append_left (List.sublist_cons_self _ after) before).subset hx
  constructor
  · intro x hx hxlive
    rcases hmem hx with rfl | hx
    · rw [hk', Function.update_self]
      exact hlive hxlive
    · rw [Function.update_of_ne fun hkey ↦ hothers x hx ⟨hxlive, hkey⟩]
      exact h.live x (hold hx) hxlive
  · -- an entry of the table belongs to the new connection or to one of the others
    intro key' c'' hkey' hopen
    by_cases hne : key' = key
    · rw [hne, Function.update_self] at hkey'
      refine ⟨(k', c'), List.mem_append_right before List.mem_cons_self, ?_, hk'.trans hne.symm⟩
      by_contra hclosed
      rw [hended (Bool.eq_false_iff.mpr hclosed) c'' hkey'] at hopen
      cases hopen
    · rw [Function.update_of_ne hne] at hkey'
      obtain ⟨x, hx, hxlive, hxkey⟩ := h.table key' c'' hkey' hopen
      have hx : x ∈ before ++ after := by
        rcases List.mem_append.mp hx with hx | hx
        · exact List.mem_append_left after hx
        · rcases List.mem_cons.mp hx with rfl | hx
          · exact absurd (hxkey.symm.trans hk) hne
          · exact List.mem_append_right before hx
      exact ⟨x, hnew hx, hxlive, hxkey⟩
  · have hunique := h.unique
    rw [List.pairwise_append, List.pairwise_cons] at hunique ⊢
    obtain ⟨hbefore, ⟨-, hafter⟩, hacross⟩ := hunique
    refine ⟨hbefore, ⟨fun y hy hboth ↦ ?_, hafter⟩, fun x hx y hy ↦ ?_⟩
    · exact hothers y (List.mem_append_right before hy) ⟨hboth.2.1, hboth.2.2.symm.trans hk'⟩
    · rcases List.mem_cons.mp hy with rfl | hy
      · rintro ⟨hxlive, -, hxkey⟩
        exact hothers x (List.mem_append_left after hx) ⟨hxlive, hxkey.trans hk'⟩
      · exact hacross x hx y (List.mem_cons_of_mem _ hy)
  · intro x hx
    rcases hmem hx with rfl | hx
    · exact hlife
    · exact h.life x (hold hx)

/-- A tombstone goes, or comes back. -/
theorem of_finished (h : Tracks conns l) {o : Option ConnState}
    (hkey : ∀ c, conns key = some c → c.finished = true)
    (ho : ∀ c, o = some c → c.finished = true) : Tracks (Function.update conns key o) l := by
  have hnone := h.noneLive hkey
  refine ⟨fun x hx hlive ↦ ?_, fun key' c hkey' hopen ↦ ?_, h.unique, h.life⟩
  · rw [Function.update_of_ne fun heq ↦ hnone x hx ⟨hlive, heq⟩]
    exact h.live x hx hlive
  · by_cases hne : key' = key
    · rw [hne, Function.update_self] at hkey'
      rw [ho c hkey'] at hopen
      cases hopen
    · rw [Function.update_of_ne hne] at hkey'
      exact h.table key' c hkey' hopen

/-- A connection begins. -/
theorem add (h : Tracks conns l) (hkey : conns key = none) :
    Tracks (Function.update conns key (some .new)) (l ++ [(⟨key, [], true⟩, .new)]) := by
  have hnone : NoneLive key l := h.noneLive fun c hc ↦ by cases hkey.symm.trans hc
  refine ⟨fun x hx hlive ↦ ?_, fun key' c hkey' hopen ↦ ?_, ?_, fun x hx ↦ ?_⟩
  · rcases List.mem_append.mp hx with hx | hx
    · rw [Function.update_of_ne fun heq ↦ hnone x hx ⟨hlive, heq⟩]
      exact h.live x hx hlive
    · rw [List.mem_singleton.mp hx, Function.update_self]
      exact ⟨rfl, rfl⟩
  · by_cases hne : key' = key
    · exact ⟨_, List.mem_append_right l (List.mem_singleton_self _), rfl, hne.symm⟩
    · rw [Function.update_of_ne hne] at hkey'
      obtain ⟨x, hx, hx'⟩ := h.table key' c hkey' hopen
      exact ⟨x, List.mem_append_left _ hx, hx'⟩
  · refine List.pairwise_append.mpr ⟨h.unique, List.pairwise_singleton _ _, fun x hx y hy ↦ ?_⟩
    rw [List.mem_singleton.mp hy]
    rintro ⟨hlive, -, heq⟩
    exact hnone x hx ⟨hlive, heq⟩
  · rcases List.mem_append.mp hx with hx | hx
    · exact h.life x hx
    · rw [List.mem_singleton.mp hx]
      rfl

end Tracks

end SqlReplay
