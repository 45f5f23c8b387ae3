import SqlReplay.Replay.RunReplay
import SqlReplay.Report.Baseline
import SqlReplay.Report.Clean

/-!
# A replay against the baseline of its capture

A capture can be turned into a report in two ways: its recorded latencies make a baseline, and a
replay measures them anew. The two count the same events, on ways that have nothing in common, one
over a stream and one over the spool, the sessions and the metrics. So their fingerprints are the
same (`baseline_matches_replay`), under the same texts, and comparing the two finds none that has
appeared or vanished.
-/

namespace SqlReplay.Aggregate

/-! ## What the baseline counts -/

/-- The events with a fingerprint. -/
def countOf (id : UInt32) (l : List Event) : ℕ := l.countP (·.fingerprintId = id)

theorem countOf_pos {id : UInt32} {l : List Event} :
    0 < countOf id l ↔ id ∈ l.map (·.fingerprintId) := by
  rw [countOf, List.countP_pos_iff, List.mem_map]
  simp only [decide_eq_true_eq]

/-- The variables count the events that pass the filters, the aggregates under the fingerprints that
these have. -/
structure BaselineState.Counts (filters : Filters) (s : BaselineState) (l : List Event) : Prop where
  total : s.total = l.length
  events : s.events = (included filters l).length
  sessions : s.sessions = ((included filters l).map (·.sessionId)).toFinset
  perFp : ∀ id, (s.perFp.get? id).map BaselineAgg.count =
    if countOf id (included filters l) = 0 then none else some (countOf id (included filters l))

variable {filters : Filters}

/-- What an event does, when no counter overflows. -/
theorem BaselineState.onEvent_eq_some {s s' : BaselineState} {e : Event}
    (h : s.onEvent filters e = some s') :
    s' =
      if filters.matchesEvent e = true then
        { perFp := s.perFp.upsert e.fingerprintId fun _ ↦
            ⟨((s.perFp.get? e.fingerprintId).getD {}).hist.saturatingRecord
                (max (recordedMicros e) 1),
              ((s.perFp.get? e.fingerprintId).getD {}).count + 1⟩
          sessions := insert e.sessionId s.sessions
          events := s.events + 1
          total := s.total + 1
          minTs := min s.minTs e.tsMicros
          maxTs := max s.maxTs e.tsMicros }
      else { s with total := s.total + 1 } := by
  have hadd {a n : ℕ} (h : Checked.add 64 a 1 = some n) : n = a + 1 := by
    rw [Checked.add] at h
    split_ifs at h
    exact (Option.some.inj h).symm
  rw [BaselineState.onEvent] at h
  obtain ⟨total, htotal, h⟩ := Option.bind_eq_some_iff.mp h
  obtain rfl := hadd htotal
  split_ifs at h with hmatch
  · rw [if_neg (Bool.eq_false_iff.mp hmatch), ← Option.some.inj h]
  · obtain ⟨events, hevents, h⟩ := Option.bind_eq_some_iff.mp h
    obtain ⟨count, hcount, h⟩ := Option.bind_eq_some_iff.mp h
    obtain rfl := hadd hevents
    obtain rfl := hadd hcount
    rw [if_pos (Bool.not_eq_false _ ▸ hmatch), ← Option.some.inj h]

theorem BaselineState.Counts.count_eq {s : BaselineState} {l : List Event} (hs : s.Counts filters l)
    (id : UInt32) : ((s.perFp.get? id).getD {}).count = countOf id (included filters l) := by
  have hmap : ((s.perFp.get? id).getD {}).count =
      ((s.perFp.get? id).map BaselineAgg.count).getD 0 := by
    cases s.perFp.get? id <;> rfl
  rw [hmap, hs.perFp id]
  split_ifs with hzero
  · exact hzero.symm
  · rfl

theorem BaselineState.Counts.onEvent {s s' : BaselineState} {l : List Event} {e : Event}
    (hs : s.Counts filters l) (h : s.onEvent filters e = some s') :
    s'.Counts filters (l ++ [e]) := by
  have htotal : s.total + 1 = (l ++ [e]).length := by
    rw [hs.total, List.length_append, List.length_singleton]
  have hincluded : included filters (l ++ [e]) =
      included filters l ++ if filters.matchesEvent e = true then [e] else [] := by
    rw [included, List.filter_append, List.filter_cons, List.filter_nil]
    rfl
  rw [onEvent_eq_some h]
  by_cases hmatch : filters.matchesEvent e = true
  · rw [if_pos hmatch] at hincluded ⊢
    refine ⟨htotal, ?_, ?_, fun id ↦ ?_⟩
    · rw [hincluded, List.length_append, ← hs.events]
      rfl
    · rw [hincluded, List.map_append, List.toFinset_append, ← hs.sessions, Finset.union_comm]
      rfl
    · have hcount : countOf id (included filters l ++ [e]) =
          countOf id (included filters l) + if e.fingerprintId = id then 1 else 0 := by
        rw [countOf, List.countP_append, List.countP_singleton]
        simp only [decide_eq_true_eq]
        rfl
      rw [hincluded, hcount]
      refine (congrArg _ (SortedMap.get?_upsert _ _ _ id)).trans ?_
      by_cases hid : e.fingerprintId = id
      · rw [if_pos hid.symm, if_pos hid, if_neg (Nat.succ_ne_zero _), ← hs.count_eq id, ← hid]
        rfl
      · rw [if_neg (Ne.symm hid), if_neg hid, Nat.add_zero]
        exact hs.perFp id
  · rw [if_neg hmatch, List.append_nil] at hincluded
    rw [if_neg hmatch]
    exact ⟨htotal, hincluded ▸ hs.events, hincluded ▸ hs.sessions, hincluded ▸ hs.perFp⟩

theorem counts_of_stream {l : List Event} {s : BaselineState}
    (h : l.foldlM (fun s e ↦ (.ok (s.bind fun s ↦ s.onEvent filters e) :
      Except Bytes (Option BaselineState))) (some {}) = .ok (some s)) : s.Counts filters l := by
  induction l using List.reverseRecOn generalizing s with
  | nil =>
    obtain rfl := Option.some.inj (Except.ok.inj h)
    exact ⟨rfl, rfl, rfl, fun id ↦ rfl⟩
  | append_singleton l e ih =>
    rw [List.foldlM_append, bind_eq_ok] at h
    obtain ⟨s₀, hstream, hlast⟩ := h
    have hevent : s₀.bind (fun s ↦ s.onEvent filters e) = some s := Except.ok.inj hlast
    obtain ⟨s', rfl, hs'⟩ := Option.bind_eq_some_iff.mp hevent
    exact (ih hstream).onEvent hs'

/-! ## The two reports -/

/-- The last text of an id, looked up in the one way or in the other. -/
theorem fpTexts_eq (summary : Summary) (id : UInt32) :
    fpTexts summary id = (summary.fingerprints.reverse.find? (·.id == id)).map (·.text) := by
  rw [fpTexts]
  induction summary.fingerprints using List.reverseRecOn with
  | nil => rfl
  | append_singleton l e ih =>
    rw [List.foldl_concat, List.reverse_concat, List.find?_cons]
    by_cases hid : id = e.id
    · rw [hid, Function.update_self, beq_self_eq_true]
      rfl
    · rw [Function.update_of_ne hid, ih, beq_eq_false_iff_ne.mpr (Ne.symm hid)]

section

variable {serde : SerdeJson} {stats : HistogramStats ℚ} {formatTsMicros : ℤ → Bytes}
  {rawWindow : TimeWindow → Bytes} {toolVersion path capture : Bytes} {r : RunReport ℚ}

/-- A baseline, with what its stream has left behind. -/
theorem exists_of_buildBaseline
    (h : buildBaseline serde stats formatTsMicros rawWindow toolVersion path filters capture =
      .ok (some r)) :
    ∃ (c : CaptureFile) (s : BaselineState) (span : ℤ), readCapture serde capture = .ok c ∧
      s.Counts filters c.events ∧
      r = baselineReport stats formatTsMicros rawWindow toolVersion path filters c.summary s
        (s.total - s.events) span := by
  rw [buildBaseline, bind_eq_ok] at h
  obtain ⟨⟨⟨header, summary⟩, s⟩, hstream, h⟩ := h
  obtain ⟨events, hc, hfold⟩ := streamCapture_eq_ok.mp hstream
  rcases s with _ | s
  · exact absurd (Except.ok.inj h) (by simp)
  · have hs := counts_of_stream hfold
    have hle : s.events ≤ s.total := by
      rw [hs.events, hs.total]
      exact List.length_filter_le _ _
    dsimp only at h
    rw [Checked.sub_of_le hle] at h
    dsimp only at h
    split_ifs at h
    obtain ⟨span, -, hr⟩ := Option.map_eq_some_iff.mp (Except.ok.inj h)
    exact ⟨_, s, span, hc, hs, hr.symm⟩

/-- A baseline of a list of events: their fingerprints, with their numbers. -/
structure Recorded (filters : Filters) (c : CaptureFile) (b : RunReport ℚ) : Prop where
  events : b.totals.events = (included filters c.events).length
  filtered : b.totals.events + b.totals.filtered = c.events.length
  sessions : b.totals.sessions = ((included filters c.events).map (·.sessionId)).toFinset.card
  ids : ∀ fp,
    fp ∈ b.fingerprints.map (·.id) ↔ fp ∈ (included filters c.events).map (·.fingerprintId)
  count : ∀ f ∈ b.fingerprints, f.count = countOf f.id (included filters c.events)
  text : ∀ f ∈ b.fingerprints, f.fingerprint = ((fpTexts c.summary f.id).getD
    (ascii "<unknown fingerprint " ++ decimal f.id.toNat ++ ascii ">"))

theorem recorded_of_buildBaseline
    (h : buildBaseline serde stats formatTsMicros rawWindow toolVersion path filters capture =
      .ok (some r)) :
    ∃ c, readCapture serde capture = .ok c ∧ Recorded filters c r := by
  obtain ⟨c, s, span, hc, hs, rfl⟩ := exists_of_buildBaseline h
  have hperm : (baselineReport stats formatTsMicros rawWindow toolVersion path filters c.summary s
      (s.total - s.events) span).fingerprints.Perm
        (s.perFp.entries.map fun e ↦ baselineFingerprint stats c.summary e.1 e.2) :=
    sortBy_perm slowestFirst _
  have hentry {e : UInt32 × BaselineAgg} (he : e ∈ s.perFp.entries) :
      (s.perFp.get? e.1).map BaselineAgg.count = some e.2.count := by
    rw [SortedMap.mem_iff_get?.mp he]
    rfl
  have hle : s.events ≤ s.total := by
    rw [hs.events, hs.total]
    exact List.length_filter_le _ _
  refine ⟨c, hc, hs.events, ?_, ?_, fun fp ↦ ?_, fun f hf ↦ ?_, fun f hf ↦ ?_⟩
  · change s.events + (s.total - s.events) = _
    rw [← hs.total]
    omega
  · exact congrArg Finset.card hs.sessions
  · rw [(hperm.map _).mem_iff, List.map_map, List.mem_map, ← countOf_pos]
    constructor
    · rintro ⟨e, he, rfl⟩
      have hget := hs.perFp e.1
      rw [hentry he] at hget
      split_ifs at hget with hzero
      exact Nat.pos_of_ne_zero hzero
    · intro hpos
      have hget := hs.perFp fp
      rw [if_neg hpos.ne'] at hget
      obtain ⟨a, ha, -⟩ := Option.map_eq_some_iff.mp hget
      exact ⟨(fp, a), SortedMap.mem_iff_get?.mpr ha, rfl⟩
  · obtain ⟨e, he, rfl⟩ := List.mem_map.mp (hperm.mem_iff.mp hf)
    have hget := hs.perFp e.1
    rw [hentry he] at hget
    split_ifs at hget
    exact Option.some.inj hget
  · obtain ⟨e, he, rfl⟩ := List.mem_map.mp (hperm.mem_iff.mp hf)
    rw [fpTexts_eq]
    rfl

end

/-! ## The comparison -/

/-- Reports with the same texts have no fingerprint that only one of them has. -/
theorem onlyIn_eq_nil (options : CompareOptions ℚ) {b r : RunReport ℚ}
    (h : ∀ t, t ∈ b.fingerprints.map (·.fingerprint) ↔ t ∈ r.fingerprints.map (·.fingerprint)) :
    (compareRuns options b r).onlyInBaseline = [] ∧
      (compareRuns options b r).onlyInCandidate = [] := by
  have htexts (x : RunReport ℚ) :
      x.compared.fingerprints.map SqlReplay.FingerprintReport.fingerprint =
        x.fingerprints.map (·.fingerprint) := by
    change (x.fingerprints.map FingerprintReport.compared).map _ = _
    rw [List.map_map]
    rfl
  constructor
  · have hnone : (comparison options b.compared r.compared).onlyInBaseline.map OnlyIn.fingerprint =
        [] := by
      rw [texts_onlyInBaseline, List.eq_nil_iff_forall_not_mem]
      intro t ht
      rw [mem_classTexts_none, htexts, htexts, h] at ht
      exact ht.2 ht.1
    refine List.Perm.eq_nil ((sortBy_perm _ _).trans (List.Perm.of_eq ?_))
    exact List.map_eq_nil_iff.mp hnone
  · have hnone : (onlyInCandidate b.compared r.compared).map OnlyIn.fingerprint = [] := by
      rw [texts_onlyInCandidate, htexts, htexts, List.filter_eq_nil_iff]
      intro t ht
      rw [List.elem_iff.mpr ((h t).mpr ht)]
      exact Bool.false_ne_true
    refine List.Perm.eq_nil ((sortBy_perm _ _).trans (List.Perm.of_eq ?_))
    exact List.map_eq_nil_iff.mp hnone

/-- A baseline and an outcome that agree on what is in the capture. -/
structure Matches (b : RunReport ℚ) (o : ReplayOutcome ℚ) : Prop where
  totals : ∀ p ∈ o.passes, p.totals.events = b.totals.events ∧
    p.totals.filtered = b.totals.filtered ∧ p.totals.sessions = b.totals.sessions
  /-- Each fingerprint of the baseline is in each pass, with as many events. -/
  fingerprint : ∀ p ∈ o.passes, ∀ f ∈ b.fingerprints, ∃ g ∈ p.fingerprints,
    g.id = f.id ∧ g.fingerprint = f.fingerprint ∧
      g.count + g.errors + g.skipped + g.notRun = f.count
  /-- Compared with the report that heads the outcome, in whichever order, neither has a fingerprint
  that the other one has not. -/
  compared : ∃ r, o.primary = some r ∧ ∀ options : CompareOptions ℚ,
    (compareRuns options b r).onlyInBaseline = [] ∧ (compareRuns options b r).onlyInCandidate = [] ∧
      (compareRuns options r b).onlyInBaseline = [] ∧ (compareRuns options r b).onlyInCandidate = []

section

variable (tools : Toolbox ℚ) (serde : SerdeJson) (path : Bytes) (options : RunOptions)
  (info : TargetInfo) (T : TargetDb) (stats : HistogramStats ℚ) (formatTsMicros : ℤ → Bytes)
  (rawWindow : TimeWindow → Bytes) (toolVersion : Bytes) {capture : Bytes} {before after : Bool}
  {out : Option (ReplayOutcome ℚ)} {b : RunReport ℚ} {reread : F64 → F64}

/-- **A replay matches the baseline of its capture**, taken with the same filters. -/
theorem baseline_matches_replay (htyped : serde.ReadsTyped)
    (hcarries : ∀ c, readCapture serde capture = .ok c →
      ∀ e ∈ c.events, serde.CarriesAs reread e)
    (hb : buildBaseline serde stats formatTsMicros rawWindow toolVersion path options.filters
      capture = .ok (some b))
    (h : RunsReplay tools serde path options info T capture before out after) :
    ∃ o, out = some o ∧ Matches b o := by
  obtain ⟨c, hc, hrecorded⟩ := recorded_of_buildBaseline hb
  obtain ⟨c', cap, n, sessions, o, hc', hdescribes, rfl, houtcome⟩ :=
    h.describes_outcome htyped hcarries
  obtain rfl := Except.ok.inj (hc.symm.trans hc')
  have htext (id : UInt32) : fingerprintText cap id = ((fpTexts c.summary id).getD
      (ascii "<unknown fingerprint " ++ decimal id.toNat ++ ascii ">")) := by
    rw [fingerprintText, hdescribes.fpTexts]
  refine ⟨o, rfl, fun p hp ↦ ?_, fun p hp f hf ↦ ?_, ?_⟩
  · have haccounts := hdescribes.accounts (houtcome.passes.isPass p hp)
    have hevents := haccounts.events.trans hrecorded.events.symm
    refine ⟨hevents, ?_, haccounts.sessions.trans hrecorded.sessions.symm⟩
    have hall := haccounts.filtered.trans hrecorded.filtered.symm
    omega
  · have hpass := houtcome.passes.isPass p hp
    have haccounts := hdescribes.accounts hpass
    have hmem := (haccounts.ids f.id).mpr ((hrecorded.ids f.id).mp (List.mem_map_of_mem hf))
    obtain ⟨g, hg, hid⟩ := List.mem_map.mp hmem
    refine ⟨g, hg, hid, ?_, ?_⟩
    · rw [hpass.text_eq hg, htext, hid, hrecorded.text f hf]
    · rw [haccounts.fingerprint g hg, hid, hrecorded.count f hf]
      rfl
  · obtain ⟨r, hhead⟩ := houtcome.head
    -- the texts of either report are those of the fingerprints that occur
    have htexts (t : Bytes) : t ∈ b.fingerprints.map (·.fingerprint) ↔
        t ∈ r.fingerprints.map (·.fingerprint) := by
      have hids (fp : UInt32) :
          fp ∈ b.fingerprints.map (·.id) ↔ fp ∈ r.fingerprints.map (·.id) :=
        (hrecorded.ids fp).trans ((hhead.ids fp).trans (hdescribes.mem_fingerprints fp)).symm
      constructor
      · intro ht
        obtain ⟨f, hf, rfl⟩ := List.mem_map.mp ht
        obtain ⟨g, hg, hid⟩ := List.mem_map.mp ((hids f.id).mp (List.mem_map_of_mem hf))
        refine List.mem_map.mpr ⟨g, hg, ?_⟩
        rw [hhead.texts g hg, htext, hid, hrecorded.text f hf]
      · intro ht
        obtain ⟨g, hg, rfl⟩ := List.mem_map.mp ht
        obtain ⟨f, hf, hid⟩ := List.mem_map.mp ((hids g.id).mpr (List.mem_map_of_mem hg))
        refine List.mem_map.mpr ⟨f, hf, ?_⟩
        rw [hhead.texts g hg, htext, ← hid, hrecorded.text f hf]
    refine ⟨r, hhead.primary, fun options ↦ ?_⟩
    have hforth := onlyIn_eq_nil options htexts
    have hback := onlyIn_eq_nil options fun t ↦ (htexts t).symm
    exact ⟨hforth.1, hforth.2, hback.1, hback.2⟩

end

/-- The capture of two sessions has a baseline. -/
theorem exists_baseline_interleaved :
    ∃ b, buildBaseline sampleSerde sampleTools.stats (fun _ ↦ []) (fun _ ↦ []) (ascii "0.5.0")
      (ascii "c.zst") {} (sampleFile interleavedEvents) = .ok (some b) := by
  have hcount := eventCount_of_readCapture readCapture_interleaved
  have hmatch : Filters.matchesEvent {} (sampleEvent 7 1000 (ascii "SELECT 1") 0) = true := rfl
  obtain ⟨s, hs, hbuild⟩ := buildBaseline_eq sampleTools.stats (fun _ ↦ []) (fun _ ↦ [])
    (ascii "0.5.0") (ascii "c.zst") readCapture_interleaved (hcount.trans_lt (by decide))
    ⟨_, List.mem_cons_self, hmatch⟩
  have hspan : Checked.subI64 s.maxTs s.minTs = some 2000 := by
    rw [hs.maxTs, hs.minTs]
    rfl
  rw [hspan] at hbuild
  exact ⟨_, hbuild⟩

theorem baseline_matches_replay_sample :
    ∃ b o, buildBaseline sampleSerde sampleTools.stats (fun _ ↦ []) (fun _ ↦ []) (ascii "0.5.0")
      (ascii "c.zst") {} (sampleFile interleavedEvents) = .ok (some b) ∧ Matches b o := by
  have hcarries (c : CaptureFile)
      (hc : readCapture sampleSerde (sampleFile interleavedEvents) = .ok c) :
      ∀ e ∈ c.events, sampleSerde.CarriesAs id e :=
    fun e he ↦ (sampleSerde_carries hc he).carriesAs
  obtain ⟨out, after, hrun⟩ := exists_runsReplay sampleTools (ascii "c.zst") thriceOptions
    sampleTarget .plain sampleSerde_readsTyped hcarries readCapture_interleaved
    included_interleaved false
  obtain ⟨b, hb⟩ := exists_baseline_interleaved
  obtain ⟨o, -, hmatches⟩ := baseline_matches_replay sampleTools sampleSerde (ascii "c.zst")
    thriceOptions sampleTarget .plain sampleTools.stats (fun _ ↦ []) (fun _ ↦ []) (ascii "0.5.0")
    sampleSerde_readsTyped hcarries hb hrun
  exact ⟨b, o, hb, hmatches⟩

end SqlReplay.Aggregate
