import Mathlib.Data.List.Pairwise
import SqlReplay.Replay.Spool

/-!
# What the passes of the spool do

Each of the three parts of `Spool.build` has one lemma that says what it does: the first pass
gathers the sessions of the included events (`foldl_passA`), the layout puts their regions one
behind the other (`LaidOut`), and the second pass appends records to regions (`foldlM_passB`). With
the final check that every region is exactly full, the library of regions says what the file holds
(`isSlice_of_build`).
-/

namespace SqlReplay

/-- The file of the second pass, and where it writes next. -/
def PassB.cursors (b : PassB) : Cursors ℕ UInt8 :=
  ⟨b.file, fun sid ↦ ((b.sessions sid).map (·.writePos)).getD 0⟩

theorem PassB.cursor_eq {b : PassB} {sid : ℕ} {s : SessionBuild} (h : b.sessions sid = some s) :
    b.cursors.cursor sid = s.writePos := by
  change ((b.sessions sid).map (·.writePos)).getD 0 = s.writePos
  rw [h]
  rfl

theorem PassB.cursor_congr {b b' : PassB} {sid : ℕ} (h : b'.sessions sid = b.sessions sid) :
    b'.cursors.cursor sid = b.cursors.cursor sid := by
  change ((b'.sessions sid).map (·.writePos)).getD 0 = ((b.sessions sid).map (·.writePos)).getD 0
  rw [h]

namespace Spool

variable {serde : SerdeJson} {path : Bytes} {filters : Filters} {allowWrites : Bool}

/-- The events that pass the filters. -/
def included (filters : Filters) (events : List Event) : List Event :=
  events.filter filters.matchesEvent

/-- The events of a session. -/
def eventsOf (sid : ℕ) (events : List Event) : List Event :=
  events.filter (·.sessionId = sid)

/-- The records of a session. -/
def recordsOf (serde : SerdeJson) (sid : ℕ) (events : List Event) : Bytes :=
  (eventsOf sid events).flatMap (encodeRecord serde)

/-! ## The first pass -/

theorem length_encodeRecord (event : Event) :
    (encodeRecord serde event).length = recordSize serde event := by
  rw [encodeRecord, List.length_append]
  rfl

/-- A session is as long as its records. -/
theorem foldl_addEvent (s : SessionBuild) (events : List Event) :
    events.foldl (addEvent serde allowWrites) s =
      { s with
        bytes := s.bytes + (events.flatMap (encodeRecord serde)).length
        eventCount := s.eventCount + events.length
        hasExecutable := s.hasExecutable ||
          events.any fun e ↦ shouldExecute e.query allowWrites } := by
  induction events generalizing s with
  | nil => simp
  | cons e events ih =>
    rw [List.foldl_cons, ih, addEvent, List.flatMap_cons, List.length_append, length_encodeRecord,
      List.length_cons, List.any_cons, Bool.or_assoc, Nat.add_assoc, Nat.add_assoc,
      Nat.add_comm 1]

/-- The first pass gathers the sessions of the included events. -/
theorem foldl_passA (events : List Event) :
    events.foldl (passA serde filters allowWrites) { Groups.empty with } =
      { Groups.of freshSession (·.sessionId) (addEvent serde allowWrites)
          (included filters events) with
        baseTsMicros := ((included filters events).map (·.tsMicros)).foldl min i64Max
        included := (included filters events).length
        filtered := events.length - (included filters events).length } := by
  induction events using List.reverseRecOn with
  | nil => rfl
  | append_singleton events e ih =>
    have hle : (included filters events).length ≤ events.length := List.length_filter_le _ _
    rw [List.foldl_concat, ih, passA]
    by_cases h : filters.matchesEvent e = true
    · have hincluded : included filters (events ++ [e]) = included filters events ++ [e] := by
        rw [included, List.filter_append, List.filter_cons_of_pos h]
        rfl
      rw [if_neg (Bool.not_eq_false _ ▸ h), hincluded, ← Groups.gather_of]
      simp only [List.map_append, List.map_singleton, List.foldl_concat, List.length_append,
        List.length_singleton, Nat.add_sub_add_right]
    · have hincluded : included filters (events ++ [e]) = included filters events := by
        rw [included, List.filter_append, List.filter_cons_of_neg h, List.filter_nil,
          List.append_nil]
        rfl
      rw [if_pos (Bool.eq_false_iff.mpr h), hincluded]
      simp only [List.length_append, List.length_singleton, Nat.sub_add_comm hle]

/-! ## The layout -/

/-- The regions of the sessions `order`, laid out one behind the other. -/
structure LaidOut (groups : ℕ → Option SessionBuild) (order : List ℕ) (l : Layout) : Prop where
  ids : l.index.map (·.sessionId) = order
  planned : ∀ p ∈ l.index, ∃ s, groups p.sessionId = some s ∧ p.stop = p.start + s.bytes ∧
    p.eventCount = s.eventCount ∧ p.hasExecutable = s.hasExecutable ∧
    l.sessions p.sessionId = some { s with writePos := p.start } ∧ p.stop ≤ l.offset
  apart : l.index.Pairwise (·.stop ≤ ·.start)
  rest : ∀ sid ∉ order, l.sessions sid = groups sid

theorem LaidOut.layoutSession {groups : ℕ → Option SessionBuild} {order : List ℕ} {l : Layout}
    (h : LaidOut groups order l) {sid : ℕ} (hsid : sid ∉ order) {s : SessionBuild}
    (hs : groups sid = some s) (hid : s.sessionId = sid) :
    ∃ l', layoutSession l sid = .ok l' ∧ LaidOut groups (order ++ [sid]) l' := by
  have hl : l.sessions sid = some s := (h.rest sid hsid).trans hs
  refine ⟨_, by rw [Spool.layoutSession, hl], ⟨?_, ?_, ?_, ?_⟩⟩
  · rw [List.map_append, h.ids, List.map_singleton, hid]
  · intro p hp
    rcases List.mem_append.mp hp with hp | hp
    · obtain ⟨s', hs', hstop, hcount, hexec, hsession, hle⟩ := h.planned p hp
      refine ⟨s', hs', hstop, hcount, hexec, ?_, hle.trans (Nat.le_add_right _ _)⟩
      have hne : p.sessionId ≠ sid := by
        rintro heq
        exact hsid (h.ids ▸ heq ▸ List.mem_map_of_mem hp)
      exact (Function.update_of_ne hne _ _).trans hsession
    · obtain rfl := List.mem_singleton.mp hp
      subst hid
      exact ⟨s, hs, rfl, rfl, rfl, Function.update_self _ _ _, le_rfl⟩
  · rw [List.pairwise_append]
    refine ⟨h.apart, List.pairwise_singleton _ _, fun p hp q hq ↦ ?_⟩
    obtain rfl := List.mem_singleton.mp hq
    obtain ⟨_, -, -, -, -, -, hle⟩ := h.planned p hp
    exact hle
  · intro k hk
    rw [List.mem_append, List.mem_singleton, not_or] at hk
    exact (Function.update_of_ne hk.2 _ _).trans (h.rest k hk.1)

/-- Every session that was gathered gets its region. -/
theorem exists_layout {groups : ℕ → Option SessionBuild} {order : List ℕ} (hnodup : order.Nodup)
    (hgroups : ∀ sid ∈ order, ∃ s, groups sid = some s ∧ s.sessionId = sid) :
    ∃ l, order.foldlM Spool.layoutSession ⟨0, groups, []⟩ = .ok l ∧ LaidOut groups order l := by
  suffices h : ∀ (todo done : List ℕ) (l : Layout), done ++ todo = order →
      LaidOut groups done l →
      ∃ l', todo.foldlM Spool.layoutSession l = .ok l' ∧ LaidOut groups order l' by
    refine h order [] _ rfl ⟨rfl, ?_, List.Pairwise.nil, fun _ _ ↦ rfl⟩
    exact fun p hp ↦ absurd hp List.not_mem_nil
  intro todo
  induction todo with
  | nil =>
    rintro done l rfl h
    exact ⟨l, rfl, by rwa [List.append_nil]⟩
  | cons sid todo ih =>
    rintro done l horder h
    have hsid : sid ∉ done := by
      rw [← horder, List.nodup_append] at hnodup
      exact fun hmem ↦ hnodup.2.2 sid hmem sid List.mem_cons_self rfl
    obtain ⟨s, hs, hid⟩ := hgroups sid (horder ▸ List.mem_append_right _ List.mem_cons_self)
    obtain ⟨l', hl', h'⟩ := h.layoutSession hsid hs hid
    rw [List.foldlM_cons, hl']
    exact ih (done ++ [sid]) l' (by rw [List.append_assoc, List.singleton_append, horder]) h'

/-! ## The second pass -/

/-- An event of a known session is appended to its region. -/
theorem passB_eq_ok {b b' : PassB} {event : Event} (h : filters.matchesEvent event = true) :
    passB serde path filters b event = .ok b' →
      (b.sessions event.sessionId).isSome ∧
      b'.cursors = b.cursors.append (event.sessionId, encodeRecord serde event) ∧
      ∀ sid, (b'.sessions sid).isSome = (b.sessions sid).isSome := by
  intro hpass
  rw [passB, if_neg (Bool.not_eq_false _ ▸ h)] at hpass
  split at hpass
  · cases hpass
  · next s hs =>
    have hfile := congrArg PassB.file (Except.ok.inj hpass)
    have hsessions := congrArg PassB.sessions (Except.ok.inj hpass)
    have hself : b'.sessions event.sessionId =
        some { s with writePos := s.writePos + (encodeRecord serde event).length } := by
      rw [← hsessions]
      exact Function.update_self _ _ _
    have hother (sid : ℕ) (hsid : sid ≠ event.sessionId) : b'.sessions sid = b.sessions sid := by
      rw [← hsessions]
      exact Function.update_of_ne hsid _ _
    refine ⟨by rw [hs]; rfl, ?_, fun sid ↦ ?_⟩
    · rw [Cursors.append, PassB.cursor_eq hs]
      refine (congrArg (Cursors.mk · _) hfile.symm).trans (congrArg (Cursors.mk _) ?_)
      refine funext fun sid ↦ ?_
      by_cases hsid : sid = event.sessionId
      · rw [hsid, Function.update_self]
        exact PassB.cursor_eq hself
      · rw [Function.update_of_ne hsid]
        exact PassB.cursor_congr (hother sid hsid)
    · by_cases hsid : sid = event.sessionId
      · rw [hsid, hs, hself]
        rfl
      · rw [hother sid hsid]

theorem exists_passB (serde : SerdeJson) (path : Bytes) {b : PassB} {event : Event}
    (h : filters.matchesEvent event = true → (b.sessions event.sessionId).isSome) :
    ∃ b', passB serde path filters b event = .ok b' := by
  by_cases hmatch : filters.matchesEvent event = true
  · obtain ⟨s, hs⟩ := Option.isSome_iff_exists.mp (h hmatch)
    rw [passB, if_neg (Bool.not_eq_false _ ▸ hmatch), hs]
    exact ⟨_, rfl⟩
  · rw [passB, if_pos (Bool.eq_false_iff.mpr hmatch)]
    exact ⟨_, rfl⟩

/-- The second pass appends the records of the included events to their regions. -/
theorem foldlM_passB_eq_ok {b b' : PassB} {events : List Event}
    (h : events.foldlM (passB serde path filters) b = .ok b') :
    (∀ e ∈ included filters events, (b.sessions e.sessionId).isSome) ∧
      b'.cursors = b.cursors.appendAll
        ((included filters events).map fun e ↦ (e.sessionId, encodeRecord serde e)) ∧
      ∀ sid, (b'.sessions sid).isSome = (b.sessions sid).isSome := by
  induction events generalizing b with
  | nil =>
    obtain rfl := Except.ok.inj h
    exact ⟨fun e he ↦ absurd he List.not_mem_nil, rfl, fun _ ↦ rfl⟩
  | cons e events ih =>
    rw [List.foldlM_cons, bind_eq_ok] at h
    obtain ⟨b₁, hstep, hrun⟩ := h
    obtain ⟨hsome, hcursors, hsessions⟩ := ih hrun
    by_cases hmatch : filters.matchesEvent e = true
    · obtain ⟨hsome₁, hcursors₁, hsessions₁⟩ := passB_eq_ok hmatch hstep
      have hincluded : included filters (e :: events) = e :: included filters events :=
        List.filter_cons_of_pos hmatch
      rw [hincluded]
      refine ⟨fun x hx ↦ ?_, ?_, fun sid ↦ (hsessions sid).trans (hsessions₁ sid)⟩
      · rcases List.mem_cons.mp hx with rfl | hx
        · exact hsome₁
        · exact hsessions₁ _ ▸ hsome x hx
      · rw [hcursors, hcursors₁]
        rfl
    · have hincluded : included filters (e :: events) = included filters events :=
        List.filter_cons_of_neg hmatch
      rw [passB, if_pos (Bool.eq_false_iff.mpr hmatch)] at hstep
      obtain rfl := Except.ok.inj hstep
      rw [hincluded]
      exact ⟨hsome, hcursors, hsessions⟩

theorem exists_foldlM_passB (serde : SerdeJson) (path : Bytes) (filters : Filters)
    {b : PassB} {events : List Event}
    (h : ∀ e ∈ included filters events, (b.sessions e.sessionId).isSome) :
    ∃ b', events.foldlM (passB serde path filters) b = .ok b' := by
  induction events generalizing b with
  | nil => exact ⟨b, rfl⟩
  | cons e events ih =>
    have he (hmatch : filters.matchesEvent e = true) : (b.sessions e.sessionId).isSome :=
      h e (List.mem_filter.mpr ⟨List.mem_cons_self, hmatch⟩)
    obtain ⟨b₁, hstep⟩ := exists_passB serde path he
    have hsessions (sid : ℕ) : (b₁.sessions sid).isSome = (b.sessions sid).isSome := by
      by_cases hmatch : filters.matchesEvent e = true
      · exact (passB_eq_ok hmatch hstep).2.2 sid
      · rw [passB, if_pos (Bool.eq_false_iff.mpr hmatch)] at hstep
        obtain rfl := Except.ok.inj hstep
        rfl
    rw [List.foldlM_cons, hstep]
    refine ih fun x hx ↦ (hsessions _).symm ▸ h x ?_
    obtain ⟨hx, hmatch⟩ := List.mem_filter.mp hx
    exact List.mem_filter.mpr ⟨List.mem_cons_of_mem _ hx, hmatch⟩

/-! ## The final check -/

theorem forM_eq_ok {α : Type} {f : α → Except Bytes Unit} {xs : List α} :
    xs.forM f = .ok () ↔ ∀ x ∈ xs, f x = .ok () := by
  induction xs with
  | nil => exact ⟨fun _ x hx ↦ absurd hx List.not_mem_nil, fun _ ↦ rfl⟩
  | cons x xs ih =>
    rw [List.forall_mem_cons, ← ih]
    refine bind_eq_ok.trans ?_
    constructor
    · rintro ⟨⟨⟩, hx, hxs⟩
      exact ⟨hx, hxs⟩
    · rintro ⟨hx, hxs⟩
      exact ⟨(), hx, hxs⟩

/-- The check is that the cursor of a region stands at its end. -/
theorem checkRegion_eq_ok {b : PassB} {planned : SpoolSession}
    (h : (b.sessions planned.sessionId).isSome) :
    checkRegion path b.sessions planned = .ok () ↔
      b.cursors.cursor planned.sessionId = planned.stop := by
  obtain ⟨s, hs⟩ := Option.isSome_iff_exists.mp h
  rw [checkRegion, PassB.cursor_eq hs, hs]
  dsimp only
  split_ifs with hne
  · exact ⟨nofun, fun heq ↦ absurd heq hne⟩
  · exact ⟨fun _ ↦ not_not.mp hne, fun _ ↦ rfl⟩

/-! ## The spool -/

/-- What a spool says that was built from the included events `a` of the first pass and `b` of the
second. -/
structure Holds (serde : SerdeJson) (allowWrites : Bool) (a b : List Event) (spool : Spool) :
    Prop where
  ids : spool.sessions.map (·.sessionId) = (a.map (·.sessionId)).eraseDups
  hasExecutable : ∀ p ∈ spool.sessions, p.hasExecutable =
    (eventsOf p.sessionId a).any fun e ↦ shouldExecute e.query allowWrites
  isSlice : ∀ p ∈ spool.sessions, IsSlice spool.file p.start (recordsOf serde p.sessionId b)
  stop : ∀ p ∈ spool.sessions, p.stop = p.start + (recordsOf serde p.sessionId b).length
  known : ∀ e ∈ b, e.sessionId ∈ a.map (·.sessionId)
  baseTsMicros : spool.baseTsMicros =
    if 0 < a.length then (a.map (·.tsMicros)).foldl min i64Max else 0
  eventCount : spool.eventCount = a.length

/-- The two passes have the same sessions, and the same number of bytes for each. -/
structure Agree (serde : SerdeJson) (a b : List Event) : Prop where
  known : ∀ e ∈ b, e.sessionId ∈ a.map (·.sessionId)
  length_eq : ∀ sid ∈ a.map (·.sessionId),
    (recordsOf serde sid b).length = (recordsOf serde sid a).length

/-- Appending the included events writes the records of a session to its region. -/
theorem appended_records (sid : ℕ) (events : List Event) :
    appended (events.map fun e ↦ (e.sessionId, encodeRecord serde e)) sid =
      recordsOf serde sid events :=
  appended_map _ _ _ _

section Regions

variable {a b : List Event} {l : Layout} {b' : PassB}

/-- What the first pass has gathered. -/
abbrev gathered (serde : SerdeJson) (allowWrites : Bool) (a : List Event) :
    Groups ℕ SessionBuild :=
  Groups.of freshSession (·.sessionId) (addEvent serde allowWrites) a

/-- The layout of the sessions of the first pass. -/
abbrev Plan (serde : SerdeJson) (allowWrites : Bool) (a : List Event) (l : Layout) : Prop :=
  LaidOut (gathered serde allowWrites a).groups (gathered serde allowWrites a).order l

/-- The state the second pass starts from. -/
abbrev begun (l : Layout) : PassB := ⟨l.sessions, List.replicate l.offset 0⟩

theorem Plan.exists_session (hl : Plan serde allowWrites a l) {sid : ℕ}
    (h : sid ∈ a.map (·.sessionId)) : ∃ p ∈ l.index, p.sessionId = sid := by
  apply List.mem_map.mp
  rw [hl.ids]
  exact List.mem_eraseDups.mpr h

theorem Plan.mem_of_session (hl : Plan serde allowWrites a l) {p : SpoolSession}
    (hp : p ∈ l.index) : p.sessionId ∈ a.map (·.sessionId) := by
  apply List.mem_eraseDups.mp
  change p.sessionId ∈ (gathered serde allowWrites a).order
  rw [← hl.ids]
  exact List.mem_map_of_mem hp

/-- A region is as long as the records of the first pass. -/
theorem Plan.session (hl : Plan serde allowWrites a l) {p : SpoolSession} (hp : p ∈ l.index) :
    p.stop = p.start + (recordsOf serde p.sessionId a).length ∧
      p.hasExecutable = ((eventsOf p.sessionId a).any fun e ↦ shouldExecute e.query allowWrites) ∧
      (begun l).cursors.cursor p.sessionId = p.start ∧ p.stop ≤ l.offset ∧
      (l.sessions p.sessionId).isSome := by
  obtain ⟨s, hs, hstop, -, hexec, hsession, hle⟩ := hl.planned p hp
  rw [gathered, Groups.of_groups (List.mem_eraseDups.mpr (hl.mem_of_session hp)),
    foldl_addEvent] at hs
  obtain rfl := Option.some.inj hs
  have hcursor : (begun l).cursors.cursor p.sessionId = p.start :=
    (PassB.cursor_eq (b := begun l) hsession).trans rfl
  refine ⟨?_, ?_, hcursor, hle, by rw [hsession]; rfl⟩
  · rw [hstop, freshSession]
    exact congrArg _ (Nat.zero_add _)
  · rw [hexec, freshSession]
    exact Bool.false_or _

theorem Plan.isSome_iff (hl : Plan serde allowWrites a l) (sid : ℕ) :
    (l.sessions sid).isSome ↔ sid ∈ a.map (·.sessionId) := by
  by_cases h : sid ∈ a.map (·.sessionId)
  · obtain ⟨p, hp, rfl⟩ := hl.exists_session h
    exact iff_of_true (hl.session hp).2.2.2.2 h
  · rw [hl.rest sid fun hmem ↦ h (List.mem_eraseDups.mp hmem)]
    have hnone : (gathered serde allowWrites a).groups sid = none := if_neg h
    rw [hnone]
    exact iff_of_false Bool.false_ne_true h

/-- After the second pass, a cursor has moved by the records of its session. -/
theorem Plan.cursor (hl : Plan serde allowWrites a l)
    (hb : b'.cursors = (begun l).cursors.appendAll
      (b.map fun e ↦ (e.sessionId, encodeRecord serde e)))
    {p : SpoolSession} (hp : p ∈ l.index) :
    b'.cursors.cursor p.sessionId = p.start + (recordsOf serde p.sessionId b).length := by
  rw [hb, Cursors.cursor_appendAll, (hl.session hp).2.2.1, appended_records]

/-- The final check is that the passes agree on the length of every session. -/
theorem Plan.forM_checkRegion (hl : Plan serde allowWrites a l)
    (hb : b'.cursors = (begun l).cursors.appendAll
      (b.map fun e ↦ (e.sessionId, encodeRecord serde e)))
    (hsome : ∀ sid, (b'.sessions sid).isSome = (l.sessions sid).isSome) :
    l.index.forM (checkRegion path b'.sessions) = .ok () ↔
      ∀ sid ∈ a.map (·.sessionId),
        (recordsOf serde sid b).length = (recordsOf serde sid a).length := by
  have hregion (p : SpoolSession) (hp : p ∈ l.index) :
      checkRegion path b'.sessions p = .ok () ↔
        (recordsOf serde p.sessionId b).length = (recordsOf serde p.sessionId a).length := by
    rw [checkRegion_eq_ok (hsome _ ▸ (hl.session hp).2.2.2.2), hl.cursor hb hp, (hl.session hp).1]
    exact Nat.add_left_cancel_iff
  rw [forM_eq_ok]
  constructor
  · intro h sid hsid
    obtain ⟨p, hp, rfl⟩ := hl.exists_session hsid
    exact (hregion p hp).mp (h p hp)
  · exact fun h p hp ↦ (hregion p hp).mpr (h p.sessionId (hl.mem_of_session hp))

/-- Regions that are exactly full hold the records of the second pass. -/
theorem Plan.isSlice (hl : Plan serde allowWrites a l)
    (hb : b'.cursors = (begun l).cursors.appendAll
      (b.map fun e ↦ (e.sessionId, encodeRecord serde e)))
    (hagree : Agree serde a b) {p : SpoolSession} (hp : p ∈ l.index) :
    IsSlice b'.file p.start (recordsOf serde p.sessionId b) := by
  let stop (sid : ℕ) : ℕ := (begun l).cursors.cursor sid + (recordsOf serde sid a).length
  have hstop (p : SpoolSession) (hp : p ∈ l.index) : stop p.sessionId = p.stop := by
    rw [(hl.session hp).1, ← (hl.session hp).2.2.1]
  have happart : ∀ p ∈ l.index, ∀ q ∈ l.index, p ≠ q → p.stop ≤ q.start ∨ q.stop ≤ p.start := by
    have hpairwise : l.index.Pairwise fun p q ↦ p.stop ≤ q.start ∨ q.stop ≤ p.start :=
      hl.apart.imp Or.inl
    have : Std.Symm fun p q : SpoolSession ↦ p.stop ≤ q.start ∨ q.stop ≤ p.start :=
      ⟨fun _ _ ↦ Or.symm⟩
    exact fun p hp q hq hne ↦ hpairwise.forall hp hq hne
  -- at the start every region is empty, and no two overlap
  have hfills : (begun l).cursors.Fills (a.map (·.sessionId)) (begun l).cursors.cursor stop
      fun _ ↦ [] := by
    refine ⟨?_, fun _ _ ↦ rfl, ?_⟩
    · intro sid hsid sid' hsid' hne
      obtain ⟨p, hp, rfl⟩ := hl.exists_session hsid
      obtain ⟨q, hq, rfl⟩ := hl.exists_session hsid'
      rw [hstop p hp, hstop q hq, (hl.session hp).2.2.1, (hl.session hq).2.2.1]
      exact happart p hp q hq fun h ↦ hne (congrArg _ h)
    · intro sid hsid
      obtain ⟨p, hp, rfl⟩ := hl.exists_session hsid
      obtain ⟨hlen, -, hstart, hle, -⟩ := hl.session hp
      apply IsSlice.nil
      change (begun l).cursors.cursor p.sessionId ≤ (List.replicate l.offset 0).length
      rw [hstart, List.length_replicate]
      omega
  have hrun := hfills.appendAll (b.map fun e ↦ (e.sessionId, encodeRecord serde e)) ?_ ?_
  · have hslice := hrun.isSlice p.sessionId (hl.mem_of_session hp)
    rw [← hb, (hl.session hp).2.2.1, List.nil_append, appended_records] at hslice
    exact hslice
  · intro w hw
    obtain ⟨e, he, rfl⟩ := List.mem_map.mp hw
    exact hagree.known e he
  · intro sid hsid
    rw [Cursors.cursor_appendAll, appended_records, hagree.length_eq sid hsid]

end Regions

/-- The first pass and the layout go through whenever the first capture can be read. -/
theorem exists_plan (serde : SerdeJson) (allowWrites : Bool) (a : List Event) : ∃ l,
    (gathered serde allowWrites a).order.foldlM layoutSession
      ⟨0, (gathered serde allowWrites a).groups, []⟩ = .ok l ∧ Plan serde allowWrites a l := by
  apply exists_layout (nodup_eraseDups _)
  intro sid hsid
  refine ⟨_, Groups.of_groups hsid, ?_⟩
  rw [foldl_addEvent]
  rfl

/-- The second pass of a build, behind the first pass and the layout. -/
def buildBehind (serde : SerdeJson) (path : Bytes) (filters : Filters) (a : CaptureFile)
    (l : Layout) (second : Bytes) : Except Bytes Spool :=
  streamCapture serde (passB serde path filters) (begun l) second >>= fun r ↦
    (l.index.forM (checkRegion path r.2.sessions)).map fun _ ↦
      { file := r.2.file
        sessions := l.index
        header := a.header
        summary := a.summary
        baseTsMicros :=
          if 0 < (included filters a.events).length then
            ((included filters a.events).map (·.tsMicros)).foldl min i64Max
          else 0
        eventCount := (included filters a.events).length
        filtered := a.events.length - (included filters a.events).length
        bytes := l.offset }

theorem foldlM_ok {σ : Type} (f : σ → Event → σ) (events : List Event) (s : σ) :
    events.foldlM (fun s e ↦ (Except.ok (f s e) : Except Bytes σ)) s =
      .ok (events.foldl f s) := by
  induction events generalizing s with
  | nil => rfl
  | cons e events ih => exact ih (f s e)

/-- A build goes through when the first capture can be read, something of it is left to replay,
and the second pass goes through. -/
theorem build_eq_ok {first second : Bytes} {spool : Spool} :
    build serde path filters allowWrites first second = .ok spool ↔
      ∃ a l, readCapture serde first = .ok a ∧
        ¬(included filters a.events = [] ∧ a.events ≠ []) ∧
        Plan serde allowWrites (included filters a.events) l ∧
        (gathered serde allowWrites (included filters a.events)).order.foldlM layoutSession
          ⟨0, (gathered serde allowWrites (included filters a.events)).groups, []⟩ = .ok l ∧
        buildBehind serde path filters a l second = .ok spool := by
  have hempty (a : CaptureFile) : ((included filters a.events).length = 0 ∧
      0 < a.events.length - (included filters a.events).length) ↔
        (included filters a.events = [] ∧ a.events ≠ []) := by
    rw [List.length_eq_zero_iff]
    refine and_congr_right fun h ↦ ?_
    rw [h, List.length_nil, Nat.sub_zero, List.length_pos_iff]
  rw [build, bind_eq_ok]
  constructor
  · rintro ⟨⟨⟨header, summary⟩, p⟩, hfirst, h⟩
    obtain ⟨events, ha, hp⟩ := streamCapture_eq_ok.mp hfirst
    rw [foldlM_ok, foldl_passA] at hp
    obtain rfl := Except.ok.inj hp
    obtain ⟨l, hl, hplan⟩ := exists_plan serde allowWrites (included filters events)
    dsimp only at h
    rw [if_congr (hempty ⟨header, events, summary⟩) rfl rfl] at h
    have hnonempty : ¬(included filters events = [] ∧ events ≠ []) := by
      intro hnone
      rw [if_pos hnone] at h
      cases h
    rw [if_neg hnonempty, hl] at h
    exact ⟨⟨header, events, summary⟩, l, ha, hnonempty, hplan, hl, h⟩
  · rintro ⟨a, l, ha, hnonempty, hplan, hl, h⟩
    refine ⟨_, streamCapture_eq_ok.mpr ⟨_, ha, foldlM_ok _ _ _⟩, ?_⟩
    · rw [foldl_passA]
      dsimp only
      rw [if_congr (hempty a) rfl rfl, if_neg hnonempty, hl]
      exact h

/-- The second pass goes through exactly when its capture can be read and agrees with the first. -/
theorem exists_buildBehind (path : Bytes) {second : Bytes} {a b : CaptureFile} {l : Layout}
    (hl : Plan serde allowWrites (included filters a.events) l)
    (hb : readCapture serde second = .ok b)
    (hagree : Agree serde (included filters a.events) (included filters b.events)) :
    ∃ spool, buildBehind serde path filters a l second = .ok spool := by
  have hknown (e : Event) (he : e ∈ included filters b.events) :
      ((begun l).sessions e.sessionId).isSome := (hl.isSome_iff _).mpr (hagree.known e he)
  obtain ⟨b', hb'⟩ := exists_foldlM_passB serde path filters hknown
  obtain ⟨-, hcursors, hsome⟩ := foldlM_passB_eq_ok hb'
  have hstream : streamCapture serde (passB serde path filters) (begun l) second =
      .ok ((b.header, b.summary), b') := streamCapture_eq_ok.mpr ⟨_, hb, hb'⟩
  rw [buildBehind, hstream]
  exact ⟨_, map_eq_ok.mpr ⟨(), (hl.forM_checkRegion hcursors hsome).mpr hagree.length_eq, rfl⟩⟩

/-- A spool that was built holds what its second pass read, the passes having agreed. -/
theorem buildBehind_eq_ok {second : Bytes} {a : CaptureFile} {l : Layout} {spool : Spool}
    (hl : Plan serde allowWrites (included filters a.events) l)
    (h : buildBehind serde path filters a l second = .ok spool) :
    ∃ b, readCapture serde second = .ok b ∧
      Agree serde (included filters a.events) (included filters b.events) ∧
      Holds serde allowWrites (included filters a.events) (included filters b.events) spool ∧
      spool.summary = a.summary ∧
      spool.filtered = a.events.length - (included filters a.events).length := by
  rw [buildBehind, bind_eq_ok] at h
  obtain ⟨⟨⟨header, summary⟩, b'⟩, hsecond, h⟩ := h
  obtain ⟨events, hb, hb'⟩ := streamCapture_eq_ok.mp hsecond
  obtain ⟨hknown, hcursors, hsome⟩ := foldlM_passB_eq_ok hb'
  obtain ⟨⟨⟩, hcheck, rfl⟩ := map_eq_ok.mp h
  have hagree : Agree serde (included filters a.events) (included filters events) :=
    ⟨fun e he ↦ (hl.isSome_iff _).mp (hknown e he), (hl.forM_checkRegion hcursors hsome).mp hcheck⟩
  refine ⟨_, hb, hagree, ?_, rfl, rfl⟩
  refine ⟨hl.ids, fun p hp ↦ (hl.session hp).2.1, fun p hp ↦ hl.isSlice hcursors hagree hp,
    fun p hp ↦ ?_, hagree.known, rfl, rfl⟩
  rw [(hl.session hp).1, hagree.length_eq _ (hl.mem_of_session hp)]

end Spool

end SqlReplay
