import SqlReplay.Replay.Passes

/-!
# From a capture to its reports

`run_replay_with_target` spools the capture, describes the run, and runs its passes over the
sessions of the spool. Put together, the layers below say where every event of the capture went
(`replay_accounts`): the filters kept it out, or it is in exactly one of the four counts of every
pass, and in those of its fingerprint. The report that heads the outcome has the same events,
sessions and fingerprints, but its four counts are medians when it is the aggregate of several
passes, and medians need not add up.

The spool reads the capture twice, and here it reads the same both times. Then the sessions it hands
out have a `has_executable` that agrees with their events, as a pass expects of them. The latency of
an event is written and parsed again on the way, and nothing here depends on it.
-/

namespace SqlReplay.Aggregate

open Program Spool

/-! ## Sums over sessions -/

/-- Every event is in one session. -/
theorem sum_countP_eventsOf (p : Event → Bool) {sids : Finset ℕ} {events : List Event}
    (h : ∀ e ∈ events, e.sessionId ∈ sids) :
    ∑ sid ∈ sids, (eventsOf sid events).countP p = events.countP p := by
  induction events with
  | nil => exact Finset.sum_const_zero
  | cons e events ih =>
    obtain ⟨he, hevents⟩ := List.forall_mem_cons.mp h
    have hsplit (sid : ℕ) : (eventsOf sid (e :: events)).countP p =
        (eventsOf sid events).countP p + if e.sessionId = sid then if p e then 1 else 0 else 0 := by
      rw [eventsOf, List.filter_cons]
      by_cases hsid : e.sessionId = sid
      · rw [if_pos (decide_eq_true hsid), if_pos hsid, List.countP_cons]
        rfl
      · rw [if_neg (mt of_decide_eq_true hsid), if_neg hsid]
        rfl
    rw [Finset.sum_congr rfl fun sid _ ↦ hsplit sid, Finset.sum_add_distrib, ih hevents,
      Finset.sum_ite_eq, if_pos he, List.countP_cons]

/-! ## Runs -/

section

variable {F : Type} [Field F] [LinearOrder F] (tools : Toolbox F) (serde : SerdeJson) (path : Bytes)
  (options : RunOptions) (info : TargetInfo) (T : TargetDb)

/-- A run of `run_replay_with_target` over a capture. -/
def RunsReplay (capture : Bytes) (before : Bool) (out : Option (ReplayOutcome F)) (after : Bool) :
    Prop :=
  ∃ spool, Spool.build serde path options.filters options.pass.allowWrites capture capture =
      .ok spool ∧
    ∃ (n : ℕ) (sessions : Fin n → ReplaySession options.pass),
      (spooled path spool).2.map (fun s ↦ (s.1, s.2.readEvents serde)) =
          List.ofFn (fun i ↦ ((sessions i).info, .ok (sessions i).events)) ∧
        RunsPasses tools (spooled path spool).1 options info T sessions before out after

/-- A report covers the events of a capture that pass the filters. -/
structure Covers (filters : Filters) (captured : List Event) (r : RunReport F) : Prop where
  events : r.totals.events = (Spool.included filters captured).length
  filtered : r.totals.events + r.totals.filtered = captured.length
  /-- There are as many sessions as ids among the events. -/
  sessions : r.totals.sessions = ((Spool.included filters captured).map (·.sessionId)).toFinset.card
  ids : ∀ fp, fp ∈ r.fingerprints.map (·.id) ↔
    fp ∈ (Spool.included filters captured).map (·.fingerprintId)

/-- It accounts for them, if each of them is in one of its counts. -/
structure Accounts (filters : Filters) (captured : List Event) (r : RunReport F) : Prop
    extends Covers filters captured r where
  settled : r.totals.executed + r.totals.skipped + r.totals.errors + r.totals.notRun =
    r.totals.events
  fingerprint : ∀ f ∈ r.fingerprints, f.count + f.errors + f.skipped + f.notRun =
    (Spool.included filters captured).countP (·.fingerprintId = f.id)

end

variable {F : Type} [Field F] [LinearOrder F] {tools : Toolbox F} {serde : SerdeJson} {path : Bytes}
  {options : RunOptions} {info : TargetInfo} {T : TargetDb} {capture : Bytes}
  {before after : Bool} {out : Option (ReplayOutcome F)} {n : ℕ}
  {sessions : Fin n → ReplaySession options.pass} {spool : Spool}
  {events : List Event} {reread : F64 → F64}

/-- What does not depend on the latency of an event. -/
def LatencyFree (p : Event → Bool) : Prop := ∀ e t, p { e with origQueryTimeS := t } = p e

theorem LatencyFree.countP_reread {p : Event → Bool} (hp : LatencyFree p) (l : List Event) :
    (l.map (Event.reread reread)).countP p = l.countP p := by
  rw [List.countP_map]
  exact List.countP_congr fun e _ ↦ iff_of_eq (congrArg (· = true) (hp e _))

/-- The sessions have the events that were included, up to their latencies. -/
theorem sum_sessions (hholds : spool.Holds serde options.pass.allowWrites events events)
    (hcarries : ∀ e ∈ events, serde.CarriesAs reread e)
    (hfinite : ∀ e ∈ events, e.origQueryTimeS.isFinite = true)
    (hread : (spooled path spool).2.map (fun s ↦ (s.1, s.2.readEvents serde)) =
      List.ofFn (fun i ↦ ((sessions i).info, .ok (sessions i).events)))
    {p : Event → Bool} (hp : LatencyFree p) :
    ∑ i, (sessions i).events.countP p = events.countP p := by
  have hevents : (events.map (·.sessionId)).eraseDups.map
      (fun sid ↦ (eventsOf sid events).map (Event.reread reread)) =
        List.ofFn fun i ↦ (sessions i).events := by
    have hok := congrArg (List.map Prod.snd) hread
    rw [List.map_ofFn, spooled, List.map_map, List.map_map] at hok
    apply List.map_injective_iff.mpr fun x y (hxy : (Except.ok x : Except Bytes _) = .ok y) ↦
      Except.ok.inj hxy
    rw [← hholds.ids, List.map_map, List.map_map, List.map_ofFn]
    refine (List.map_congr_left fun s hs ↦ ?_).trans hok
    exact (readEvents_of_holds hholds hcarries hfinite hs).symm
  have hsum := congrArg (fun l ↦ (l.map (List.countP p)).sum) hevents.symm
  rw [List.map_ofFn, List.sum_ofFn, List.map_map] at hsum
  refine hsum.trans ?_
  rw [← List.sum_toFinset _ (nodup_eraseDups _)]
  simp only [Function.comp_apply, hp.countP_reread]
  refine sum_countP_eventsOf p fun e he ↦ ?_
  exact List.mem_toFinset.mpr (List.mem_eraseDups.mpr (hholds.known e he))

/-- The spool of a capture that can be read holds the included events of it. -/
theorem holds_of_build (htyped : serde.ReadsTyped)
    (hspool : Spool.build serde path options.filters options.pass.allowWrites capture capture =
      .ok spool) :
    ∃ c, readCapture serde capture = .ok c ∧
      spool.Holds serde options.pass.allowWrites (Spool.included options.filters c.events)
        (Spool.included options.filters c.events) ∧
      spool.summary = c.summary ∧
      spool.filtered = c.events.length - (Spool.included options.filters c.events).length ∧
      ∀ e ∈ Spool.included options.filters c.events, e.origQueryTimeS.isFinite = true := by
  obtain ⟨c, l, hc, -, hplan, -, hbehind⟩ := Spool.build_eq_ok.mp hspool
  obtain ⟨c', hc', -, hholds, hsummary, hfiltered⟩ := Spool.buildBehind_eq_ok hplan hbehind
  obtain rfl := Except.ok.inj (hc.symm.trans hc')
  refine ⟨c, hc, hholds, hsummary, hfiltered, fun e he ↦ ?_⟩
  obtain ⟨line, hline⟩ := exists_event_line hc (List.mem_of_mem_filter he)
  exact htyped.isFinite line e hline

/-- The description of a run and its sessions are those of a capture. -/
structure Describes (c : CaptureFile) (cap : CaptureInfo)
    (sessions : Fin n → ReplaySession options.pass) : Prop where
  fpTexts : cap.fpTexts = fpTexts c.summary
  events : cap.events = (Spool.included options.filters c.events).length
  filtered : cap.events + cap.filtered = c.events.length
  sessionIds : cap.sessions =
    ((Spool.included options.filters c.events).map (·.sessionId)).toFinset.card
  countP : ∀ p, LatencyFree p →
    ∑ i, (sessions i).events.countP p = (Spool.included options.filters c.events).countP p

/-- A run has an outcome, over a description of its capture. -/
theorem RunsReplay.describes_outcome (htyped : serde.ReadsTyped)
    (hcarries : ∀ c, readCapture serde capture = .ok c →
      ∀ e ∈ c.events, serde.CarriesAs reread e)
    (h : RunsReplay tools serde path options info T capture before out after) :
    ∃ (c : CaptureFile) (cap : CaptureInfo) (n : ℕ) (sessions : Fin n → ReplaySession options.pass)
      (o : ReplayOutcome F), readCapture serde capture = .ok c ∧ Describes c cap sessions ∧
        out = some o ∧ Outcome tools cap options info T sessions o after := by
  obtain ⟨spool, hspool, n, sessions, hread, hruns⟩ := h
  obtain ⟨o, rfl, houtcome⟩ :=
    triple_runPasses _ _ _ _ _ _ _ _ _ trivial hruns
  obtain ⟨c, hc, hholds, hsummary, hfiltered, hfinite⟩ := holds_of_build htyped hspool
  have hle : (Spool.included options.filters c.events).length ≤ c.events.length :=
    List.length_filter_le _ _
  have hset : ((Spool.included options.filters c.events).map (·.sessionId)).toFinset =
      (spool.sessions.map (·.sessionId)).toFinset := by
    ext sid
    rw [hholds.ids, List.mem_toFinset, List.mem_toFinset, List.mem_eraseDups]
  have hnodup : (spool.sessions.map (·.sessionId)).Nodup := hholds.ids ▸ nodup_eraseDups _
  refine ⟨c, _, n, sessions, o, hc, ⟨?_, hholds.eventCount, ?_, ?_, ?_⟩, rfl, houtcome⟩
  · exact congrArg SqlReplay.fpTexts hsummary
  · change spool.eventCount + spool.filtered = _
    rw [hholds.eventCount, hfiltered]
    omega
  · rw [hset, List.toFinset_card_of_nodup hnodup, List.length_map]
    rfl
  · exact fun p hp ↦ sum_sessions hholds (fun e he ↦ hcarries c hc e (List.mem_of_mem_filter he))
      hfinite hread hp

theorem Describes.mem_fingerprints {c : CaptureFile} {cap : CaptureInfo}
    (h : Describes c cap sessions) (fp : UInt32) :
    (∃ i, ∃ ev ∈ (sessions i).events, ev.fingerprintId = fp) ↔
      fp ∈ (Spool.included options.filters c.events).map (·.fingerprintId) := by
  -- a fingerprint occurs when its events are not none
  rw [← List.count_pos_iff, List.count, List.countP_map, ← h.countP _ fun _ _ ↦ rfl,
    Finset.sum_pos_iff]
  refine exists_congr fun i ↦ ?_
  rw [List.countP_pos_iff]
  simp only [Finset.mem_univ, true_and, Function.comp_apply, beq_iff_eq]

omit [Field F] [LinearOrder F] in
/-- A report of the events that a run was told of covers them. -/
theorem Describes.covers {c : CaptureFile} {cap : CaptureInfo} (h : Describes c cap sessions)
    {r : RunReport F} (hevents : r.totals.events = cap.events)
    (hfiltered : r.totals.filtered = cap.filtered) (hsessions : r.totals.sessions = cap.sessions)
    (hids : ∀ fp, fp ∈ r.fingerprints.map (·.id) ↔
      ∃ i, ∃ ev ∈ (sessions i).events, ev.fingerprintId = fp) :
    Covers options.filters c.events r := by
  refine ⟨hevents.trans h.events, ?_, hsessions.trans h.sessionIds, fun fp ↦ ?_⟩
  · rw [hevents, hfiltered]
    exact h.filtered
  · rw [hids, h.mem_fingerprints]

/-- The report of a pass over a capture accounts for it. -/
theorem Describes.accounts {c : CaptureFile} {cap : CaptureInfo} (h : Describes c cap sessions)
    {r : RunReport F} (hr : IsPassReport tools cap options info T sessions r) :
    Accounts options.filters c.events r := by
  have haddsUp := hr.addsUp
  obtain ⟨hevents, hfiltered, hsessions⟩ := hr.capture_eq
  refine ⟨h.covers hevents hfiltered hsessions haddsUp.ids, ?_, fun f hf ↦ ?_⟩
  · have hall := h.countP (fun _ ↦ true) fun _ _ ↦ rfl
    simp only [List.countP_true] at hall
    rw [haddsUp.events, hevents, hall, h.events]
  · rw [haddsUp.fingerprint f hf]
    exact h.countP _ fun _ _ ↦ rfl

variable (tools serde path options info T) in
/-- **Every pass accounts for the capture**, and the report that heads the outcome covers it. -/
theorem replay_accounts (htyped : serde.ReadsTyped)
    (hcarries : ∀ c, readCapture serde capture = .ok c →
      ∀ e ∈ c.events, serde.CarriesAs reread e)
    (h : RunsReplay tools serde path options info T capture before out after) :
    ∃ c o r, readCapture serde capture = .ok c ∧ out = some o ∧
      (∀ p ∈ o.passes, Accounts options.filters c.events p) ∧
        o.primary = some r ∧ Covers options.filters c.events r := by
  obtain ⟨c, cap, n, sessions, o, hc, hdescribes, hout, houtcome⟩ :=
    h.describes_outcome htyped hcarries
  obtain ⟨r, hhead⟩ := houtcome.head
  refine ⟨c, o, r, hc, hout, fun p hp ↦ hdescribes.accounts (houtcome.passes.isPass p hp),
    hhead.primary, ?_⟩
  exact hdescribes.covers hhead.events hhead.filtered hhead.sessionIds hhead.ids

/-! ## Runs exist -/

/-- The sessions of a spool are such as a pass expects. -/
theorem exists_sessions (hholds : spool.Holds serde options.pass.allowWrites events events)
    (hcarries : ∀ e ∈ events, serde.CarriesAs reread e)
    (hfinite : ∀ e ∈ events, e.origQueryTimeS.isFinite = true) :
    ∃ (n : ℕ) (sessions : Fin n → ReplaySession options.pass),
      (spooled path spool).2.map (fun s ↦ (s.1, s.2.readEvents serde)) =
        List.ofFn (fun i ↦ ((sessions i).info, .ok (sessions i).events)) := by
  have hexecutable (s : SpoolSession) (hs : s ∈ spool.sessions) : s.hasExecutable =
      ((eventsOf s.sessionId events).map (Event.reread reread)).any fun e ↦
        shouldExecute e.query options.pass.allowWrites := by
    rw [hholds.hasExecutable s hs, List.any_map]
    rfl
  refine ⟨spool.sessions.length, fun i ↦
    ⟨⟨spool.sessions[i].sessionId, spool.sessions[i].hasExecutable⟩,
      (eventsOf spool.sessions[i].sessionId events).map (Event.reread reread),
      hexecutable _ (List.getElem_mem _)⟩, ?_⟩
  refine Eq.trans ?_ (List.ofFn_getElem_eq_map spool.sessions fun s ↦
    ((⟨s.sessionId, s.hasExecutable⟩ : SessionMeta),
      (.ok ((eventsOf s.sessionId events).map (Event.reread reread)) :
        Except Bytes (List Event)))).symm
  rw [spooled, List.map_map]
  refine List.map_congr_left fun s hs ↦ ?_
  exact congrArg _ (readEvents_of_holds hholds hcarries hfinite hs)

variable (tools path options info T) in
/-- A capture of which something is left to replay can be replayed. -/
theorem exists_runsReplay (htyped : serde.ReadsTyped)
    (hcarries : ∀ c, readCapture serde capture = .ok c →
      ∀ e ∈ c.events, serde.CarriesAs reread e)
    {c : CaptureFile} (hc : readCapture serde capture = .ok c)
    (hleft : Spool.included options.filters c.events ≠ []) (before : Bool) :
    ∃ out after, RunsReplay tools serde path options info T capture before out after := by
  obtain ⟨l, hl, hplan⟩ := exists_plan serde options.pass.allowWrites
    (Spool.included options.filters c.events)
  have hagree : Agree serde (Spool.included options.filters c.events)
      (Spool.included options.filters c.events) :=
    ⟨fun e he ↦ List.mem_map_of_mem he, fun _ _ ↦ rfl⟩
  obtain ⟨spool, hbehind⟩ := exists_buildBehind path hplan hc hagree
  have hspool : Spool.build serde path options.filters options.pass.allowWrites capture capture =
      .ok spool :=
    Spool.build_eq_ok.mpr ⟨c, l, hc, fun hnone ↦ hleft hnone.1, hplan, hl, hbehind⟩
  obtain ⟨c', hc', hholds, -, -, hfinite⟩ := holds_of_build htyped hspool
  obtain rfl := Except.ok.inj (hc.symm.trans hc')
  obtain ⟨n, sessions, hread⟩ := exists_sessions hholds
    (fun e he ↦ hcarries c hc e (List.mem_of_mem_filter he)) hfinite
  obtain ⟨out, after, hruns⟩ :=
    exists_runsPasses tools (spooled path spool).1 options info T sessions before
  exact ⟨out, after, spool, hspool, n, sessions, hread, hruns⟩

/-- The capture of two sessions, replayed three times behind a warm-up. -/
theorem replay_accounts_sample :
    ∃ (o : ReplayOutcome ℚ) (r : RunReport ℚ),
      (∀ p ∈ o.passes, Accounts {} interleavedEvents p) ∧
        o.primary = some r ∧ Covers {} interleavedEvents r := by
  have hcarries (c : CaptureFile)
      (hc : readCapture sampleSerde (sampleFile interleavedEvents) = .ok c) :
      ∀ e ∈ c.events, sampleSerde.CarriesAs id e :=
    fun e he ↦ (sampleSerde_carries hc he).carriesAs
  obtain ⟨out, after, hrun⟩ := exists_runsReplay sampleTools (ascii "c.zst") thriceOptions
    sampleTarget .plain sampleSerde_readsTyped hcarries readCapture_interleaved
    included_interleaved false
  obtain ⟨c, o, r, hc, -, haccounts⟩ := replay_accounts sampleTools sampleSerde (ascii "c.zst")
    thriceOptions sampleTarget .plain sampleSerde_readsTyped hcarries hrun
  obtain rfl := Except.ok.inj (readCapture_interleaved.symm.trans hc)
  exact ⟨o, r, haccounts⟩

end SqlReplay.Aggregate
