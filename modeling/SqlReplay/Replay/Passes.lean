import SqlReplay.Replay.RunPass
import SqlReplay.Task.Sequential

/-!
# Warm-up and repeated passes

`run_passes` runs a pass whose report is discarded, when asked to, and then as many as are wanted,
each over the same sessions. Between them it looks at the shutdown flag, which may flip at any time
and stays flipped. It is a program of two operations, looking at the flag and running a pass, in an
environment that sets the flag.

The loop has no choice of its own, so one triple says what it leaves behind (`PassRun`), by
induction on the passes left: what has been run so far are passes that were not aborted, and with
the first one that was the loop is over. The report that heads an outcome is there in any case, is
marked as aborted exactly when a pass was, and has an entry for each fingerprint of the capture.
-/

namespace SqlReplay.Aggregate

open Program

/-- `ReplayOutcome`. -/
structure ReplayOutcome (F : Type) where
  passes : List (RunReport F)
  aggregated : Option (RunReport F)

namespace ReplayOutcome

variable {F : Type}

/-- `ReplayOutcome::primary`, which expects a report. -/
def primary (out : ReplayOutcome F) : Option (RunReport F) :=
  out.aggregated.orElse fun _ ↦ out.passes.getLast?

def aborted (out : ReplayOutcome F) : Bool := out.passes.any (·.aborted)

end ReplayOutcome

/-! ## The loop -/

inductive LoopOp where
  /-- `*shutdown.borrow()`. -/
  | shutdownFlag
  /-- `run_pass` over fresh event streams. -/
  | runPass
  deriving DecidableEq, Repr

/-- The type of responses of an operation. -/
@[reducible]
def LoopOp.Res (F : Type) : LoopOp → Type
  | .shutdownFlag => Bool
  | .runPass => RunReport F

section

variable {F : Type} [Field F] [LinearOrder F]

omit [Field F] [LinearOrder F] in
/-- The measured passes, with those that are left. -/
def measuredPasses : ℕ → List (RunReport F) → Program (LoopOp.Res F) (List (RunReport F))
  | 0, passes => pure passes
  | k + 1, passes => do
    let shutdown ← perform LoopOp.shutdownFlag
    if shutdown && !passes.isEmpty then pure passes
    else
      let report ← perform LoopOp.runPass
      if report.aborted then pure (passes ++ [report])
      else measuredPasses k (passes ++ [report])

omit [Field F] [LinearOrder F] in
/-- The warm-up pass: its report, when it was aborted. -/
def warmUp (options : RunOptions) : Program (LoopOp.Res F) (Option (RunReport F)) :=
  if options.warmup then do
    if ← perform LoopOp.shutdownFlag then pure none
    else
      let report ← perform LoopOp.runPass
      pure (if report.aborted then some report else none)
  else pure none

/-- The number of measured passes. -/
def RunOptions.wanted (options : RunOptions) : ℕ := max options.repeats 1

theorem RunOptions.wanted_pos (options : RunOptions) : 0 < options.wanted :=
  Nat.one_pos.trans_le (le_max_right _ _)

/-- The outcome of the measured passes, unless `aggregate_median` finds none. -/
def summarize (options : RunOptions) (passes : List (RunReport F)) : Option (ReplayOutcome F) :=
  if 1 < options.wanted then (aggregateMedian passes).map fun r ↦ ⟨passes, some r⟩
  else some ⟨passes, none⟩

/-- `run_passes`. -/
def runPasses (options : RunOptions) : Program (LoopOp.Res F) (Option (ReplayOutcome F)) := do
  match ← warmUp options with
  | some report => pure (some ⟨[report], none⟩)
  | none =>
    let passes ← measuredPasses options.wanted []
    pure (summarize options passes)

/-! ## What surrounds it -/

variable (tools : Toolbox F) (cap : CaptureInfo) (options : RunOptions) (info : TargetInfo)
  (T : TargetDb) {n : ℕ} (sessions : Fin n → ReplaySession options.pass)

/-- An operation of the loop, its response, and the flag before and behind it. -/
def LoopResponds (before : Bool) (op : LoopOp) (r : op.Res F) (after : Bool) : Prop :=
  match op, r with
  | .shutdownFlag, flag => flag = before ∧ after = before
  | .runPass, report => RunsPass tools cap options info T sessions before report after

/-- The flag may flip, and does not flip back. -/
def FlagFlips (before after : Bool) : Prop := before ≤ after

/-- A run of `run_passes`. -/
def RunsPasses (before : Bool) (out : Option (ReplayOutcome F)) (after : Bool) : Prop :=
  (runPasses options).Runs (LoopResponds tools cap options info T sessions) FlagFlips before out
    after

/-- The report of some run of `run_pass`. -/
def IsPassReport (r : RunReport F) : Prop :=
  ∃ before after, RunsPass tools cap options info T sessions before r after

/-- What a sequence of at most `bound` passes has left behind, and the flag. -/
structure PassRun (bound : ℕ) (passes : List (RunReport F)) (flag : Bool) : Prop where
  isPass : ∀ r ∈ passes, IsPassReport tools cap options info T sessions r
  ne_nil : passes ≠ []
  length_le : passes.length ≤ bound
  /-- Behind an aborted pass there is none. -/
  only_last : ∀ r ∈ passes.dropLast, r.aborted = false
  flag_of_aborted : passes.any (·.aborted) = true → flag = true
  /-- Passes are left out because of the flag only. -/
  flag_of_short : passes.length < bound → flag = true

variable {tools cap options info T sessions}

/-- A flag that is set stays set. -/
theorem stable_set : Stable FlagFlips fun flag ↦ flag = true := by
  rintro before after hle rfl
  exact top_le_iff.mp hle

theorem stable_flag (b : Prop) : Stable FlagFlips fun flag ↦ b → flag = true :=
  fun before after hle hbefore hb ↦ stable_set before after hle (hbefore hb)

theorem stable_and {P : Prop} {Q : Bool → Prop} (h : Stable FlagFlips Q) :
    Stable FlagFlips fun flag ↦ P ∧ Q flag :=
  fun before after hle hPQ ↦ ⟨hPQ.1, h before after hle hPQ.2⟩

theorem stable_true : Stable FlagFlips fun _ ↦ True := fun _ _ _ h ↦ h

/-- Looking at the flag. -/
theorem triple_shutdownFlag {α : Type} {next : Bool → Program (LoopOp.Res F) α}
    {Q : α → Bool → Prop}
    (h : ∀ shutdown, Triple (LoopResponds tools cap options info T sessions) FlagFlips
      (fun flag ↦ shutdown = true → flag = true) (next shutdown) Q) :
    Triple (LoopResponds tools cap options info T sessions) FlagFlips (fun _ ↦ True)
      (perform LoopOp.shutdownFlag >>= next) Q := by
  rw [perform_bind]
  refine triple_call (M := fun shutdown flag ↦ shutdown = true → flag = true) stable_true ?_ h
  rintro before shutdown after - ⟨rfl, rfl⟩
  exact id

/-- Running a pass. -/
theorem triple_runPass {α : Type} {next : RunReport F → Program (LoopOp.Res F) α}
    {Q : α → Bool → Prop}
    (h : ∀ r, Triple (LoopResponds tools cap options info T sessions) FlagFlips
      (fun flag ↦ IsPassReport tools cap options info T sessions r ∧
        (r.aborted = true → flag = true)) (next r) Q) :
    Triple (LoopResponds tools cap options info T sessions) FlagFlips (fun _ ↦ True)
      (perform LoopOp.runPass >>= next) Q := by
  rw [perform_bind]
  refine triple_call (M := fun r flag ↦ IsPassReport tools cap options info T sessions r ∧
    (r.aborted = true → flag = true)) stable_true ?_ h
  rintro before r after - hpass
  refine ⟨⟨before, after, hpass⟩, fun haborted ↦ ?_⟩
  obtain ⟨_, _, _, -, -, -, -, hle, -⟩ := hpass
  rw [haborted] at hle
  exact top_le_iff.mp hle

/-! ## The measured passes -/

theorem PassRun.concat {bound : ℕ} {passes : List (RunReport F)} {r : RunReport F} {flag : Bool}
    (hgood : ∀ r ∈ passes, IsPassReport tools cap options info T sessions r ∧ r.aborted = false)
    (hr : IsPassReport tools cap options info T sessions r)
    (hle : passes.length + 1 ≤ bound) (habort : r.aborted = true → flag = true)
    (hshort : passes.length + 1 < bound → flag = true) :
    PassRun tools cap options info T sessions bound (passes ++ [r]) flag := by
  constructor
  · intro r' hr'
    rcases List.mem_append.mp hr' with hr' | hr'
    · exact (hgood r' hr').1
    · rwa [List.mem_singleton.mp hr']
  · exact List.append_ne_nil_of_right_ne_nil _ (List.cons_ne_nil _ _)
  · rwa [List.length_append, List.length_singleton]
  · rw [List.dropLast_concat]
    exact fun r' hr' ↦ (hgood r' hr').2
  · intro hany
    obtain ⟨r', hr', haborted⟩ := List.any_eq_true.mp hany
    rcases List.mem_append.mp hr' with hr' | hr'
    · rw [(hgood r' hr').2] at haborted
      exact absurd haborted Bool.false_ne_true
    · rw [List.mem_singleton.mp hr'] at haborted
      exact habort haborted
  · rwa [List.length_append, List.length_singleton]

/-- The environment leaves a run of passes what it is. -/
theorem stable_passRun (bound : ℕ) (passes : List (RunReport F)) :
    Stable FlagFlips (PassRun tools cap options info T sessions bound passes) := by
  intro before after hle h
  exact
    { h with
      flag_of_aborted := stable_flag _ before after hle h.flag_of_aborted
      flag_of_short := stable_flag _ before after hle h.flag_of_short }

/-- Passes that were not aborted. -/
theorem PassRun.of_good {bound : ℕ} {passes : List (RunReport F)} {flag : Bool}
    (hgood : ∀ r ∈ passes, IsPassReport tools cap options info T sessions r ∧ r.aborted = false)
    (hne : passes ≠ []) (hle : passes.length ≤ bound)
    (hshort : passes.length < bound → flag = true) :
    PassRun tools cap options info T sessions bound passes flag := by
  have hlast := List.dropLast_append_getLast hne
  rw [← hlast] at hgood hle hshort ⊢
  have hr := hgood _ List.mem_concat_self
  rw [List.length_append, List.length_singleton] at hle hshort
  refine .concat (fun r hr ↦ hgood r (List.mem_append_left _ hr)) hr.1 hle ?_ hshort
  rw [hr.2]
  exact fun hfalse ↦ absurd hfalse Bool.false_ne_true

theorem triple_measuredPasses {bound k : ℕ} {passes : List (RunReport F)}
    (hgood : ∀ r ∈ passes, IsPassReport tools cap options info T sessions r ∧ r.aborted = false)
    (hbound : passes.length + k = bound) (hpos : 0 < bound) :
    Triple (LoopResponds tools cap options info T sessions) FlagFlips (fun _ ↦ True)
      (measuredPasses k passes) (PassRun tools cap options info T sessions bound) := by
  induction k generalizing passes with
  | zero =>
    refine triple_done stable_true fun flag _ ↦ ?_
    have hlength : passes.length = bound := hbound
    have hne : passes ≠ [] := List.length_pos_iff.mp (hlength ▸ hpos)
    exact .of_good hgood hne hlength.le fun hlt ↦ absurd hlength hlt.ne
  | succ k ih =>
    refine triple_shutdownFlag fun shutdown ↦ ?_
    split_ifs with hstop
    · obtain ⟨hshutdown, hne⟩ := (Bool.and_eq_true _ _).mp hstop
      refine triple_done (stable_flag _) fun flag hflag ↦ ?_
      have hne : passes ≠ [] := by
        rintro rfl
        exact absurd hne (by simp)
      exact .of_good hgood hne (by omega) fun _ ↦ hflag hshutdown
    · refine (triple_runPass fun r ↦ ?_).weaken fun _ _ ↦ trivial
      split_ifs with haborted
      · refine triple_done (stable_and (stable_flag _)) fun flag h ↦ ?_
        exact .concat hgood h.1 (by omega) h.2 fun _ ↦ h.2 haborted
      · -- the pass joins those that were not aborted
        intro before a after hbefore hrun
        refine ih (fun r' hr' ↦ ?_) ?_ before a after trivial hrun
        · rcases List.mem_append.mp hr' with hr' | hr'
          · exact hgood r' hr'
          · rw [List.mem_singleton.mp hr']
            exact ⟨hbefore.1, Bool.eq_false_iff.mpr haborted⟩
        · rw [List.length_append, List.length_singleton]
          omega

theorem triple_warmUp :
    Triple (LoopResponds tools cap options info T sessions) FlagFlips (fun _ ↦ True)
      (warmUp options) fun report flag ↦ ∀ r, report = some r →
        IsPassReport tools cap options info T sessions r ∧ r.aborted = true ∧
          options.warmup = true ∧ flag = true := by
  rw [warmUp]
  split_ifs with hwarmup
  · refine triple_shutdownFlag fun shutdown ↦ ?_
    split_ifs with hstop
    · refine triple_done (stable_flag _) fun _ _ r hr ↦ absurd hr (by simp)
    · refine (triple_runPass fun report ↦ ?_).weaken fun _ _ ↦ trivial
      refine triple_done (stable_and (stable_flag _)) fun flag h r hr ↦ ?_
      split_ifs at hr with haborted
      obtain rfl := Option.some.inj hr
      exact ⟨h.1, haborted, hwarmup, h.2 haborted⟩
  · exact triple_done stable_true fun _ _ r hr ↦ absurd hr (by simp)

/-! ## Outcomes -/

/-- A report that heads an outcome. -/
structure Heads (sessions : Fin n → ReplaySession options.pass) (cap : CaptureInfo)
    (out : ReplayOutcome F) (r : RunReport F) : Prop where
  primary : out.primary = some r
  aborted : r.aborted = out.aborted
  events : r.totals.events = cap.events
  nodup : (r.fingerprints.map (·.id)).Nodup
  ids : ∀ fp, fp ∈ r.fingerprints.map (·.id) ↔
    ∃ i, ∃ ev ∈ (sessions i).events, ev.fingerprintId = fp
  texts : ∀ f ∈ r.fingerprints, f.fingerprint = fingerprintText cap f.id
  filtered : r.totals.filtered = cap.filtered
  sessionIds : r.totals.sessions = cap.sessions

variable (tools cap options info T sessions) in
/-- What a run of `run_passes` can have as its outcome. -/
structure Outcome (out : ReplayOutcome F) (after : Bool) : Prop where
  passes : PassRun tools cap options info T sessions options.wanted out.passes after
  addsUp : ∀ r ∈ out.passes, AddsUp sessions r
  /-- The passes are aggregated if there were to be several, except behind an aborted warm-up. -/
  aggregated : 1 < options.wanted ∧ out.aggregated = aggregateMedian out.passes ∨
    out.aggregated = none ∧ (options.wanted = 1 ∨
      options.warmup = true ∧ ∃ r, out.passes = [r] ∧ r.aborted = true)
  head : ∃ r, Heads sessions cap out r

theorem IsPassReport.addsUp {r : RunReport F}
    (h : IsPassReport tools cap options info T sessions r) : AddsUp sessions r := by
  obtain ⟨before, after, h⟩ := h
  exact h.addsUp

/-- What a pass says of its capture is what it was told. -/
theorem IsPassReport.capture_eq {r : RunReport F}
    (h : IsPassReport tools cap options info T sessions r) :
    r.totals.events = cap.events ∧ r.totals.filtered = cap.filtered ∧
      r.totals.sessions = cap.sessions := by
  obtain ⟨_, _, _, _, _, -, -, -, -, -, hr⟩ := h
  rw [hr]
  exact ⟨rfl, rfl, rfl⟩

theorem IsPassReport.text_eq {r : RunReport F}
    (h : IsPassReport tools cap options info T sessions r) {f : FingerprintReport F}
    (hf : f ∈ r.fingerprints) : f.fingerprint = fingerprintText cap f.id := by
  obtain ⟨_, _, _, _, perFp, -, -, -, -, -, hr⟩ := h
  rw [hr] at hf
  obtain ⟨e, -, rfl⟩ := List.mem_map.mp ((sortBy_perm slowestFirst _).mem_iff.mp hf)
  rfl

variable {bound : ℕ} {passes : List (RunReport F)} {after : Bool}

/-- The last pass tells whether one was aborted. -/
theorem PassRun.aborted_getLast (h : PassRun tools cap options info T sessions bound passes after) :
    (passes.getLast h.ne_nil).aborted = passes.any (·.aborted) := by
  have hlast := List.dropLast_append_getLast h.ne_nil
  have hinit : passes.dropLast.any (·.aborted) = false :=
    List.any_eq_false.mpr fun r hr ↦ Bool.eq_false_iff.mp (h.only_last r hr)
  conv_rhs => rw [← hlast]
  rw [List.any_append, hinit, Bool.false_or, List.any_cons, List.any_nil, Bool.or_false]

theorem heads_last (h : PassRun tools cap options info T sessions bound passes after) :
    Heads sessions cap ⟨passes, none⟩ (passes.getLast h.ne_nil) := by
  have hpass := h.isPass _ (List.getLast_mem h.ne_nil)
  exact
    { primary := List.getLast?_eq_getLast_of_ne_nil h.ne_nil
      aborted := h.aborted_getLast
      events := hpass.capture_eq.1
      nodup := hpass.addsUp.nodup
      ids := hpass.addsUp.ids
      texts := fun f hf ↦ hpass.text_eq hf
      filtered := hpass.capture_eq.2.1
      sessionIds := hpass.capture_eq.2.2 }

/-- The aggregate has the fingerprints of all passes, which have the same. -/
theorem heads_aggregate {s : Sample (RunReport F)}
    (h : PassRun tools cap options info T sessions bound s.toList after) :
    Heads sessions cap ⟨s.toList, some (aggregatePasses s)⟩ (aggregatePasses s) := by
  have hperm : ((aggregatePasses s).fingerprints.map (·.id)).Perm
      ((fingerprintsById s).entries.map Prod.fst) := by
    refine ((sortBy_perm slowestFirst _).map _).trans (List.Perm.of_eq ?_)
    rw [List.map_map]
    rfl
  -- the median of what all passes say is that
  have hmedian {f : RunReport F → ℕ} {n : ℕ} (hf : ∀ r ∈ s.toList, f r = n) :
      medianU64 (s.map f) = n := by
    refine median_eq_of_forall isMid_nat fun a ha ↦ ?_
    obtain ⟨r, hr, rfl⟩ := Sample.mem_map.mp ha
    exact hf r hr
  constructor
  · rfl
  · rfl
  · exact hmedian fun r hr ↦ (h.isPass r hr).capture_eq.1
  · exact hperm.nodup_iff.mpr (SortedMap.nodup_keys _)
  · intro fp
    rw [hperm.mem_iff, List.mem_map]
    constructor
    · rintro ⟨e, he, rfl⟩
      obtain ⟨hmem, hid⟩ := mem_of_mem_group FingerprintReport.id he e.2.first_mem
      obtain ⟨r, hr, hf⟩ := List.mem_flatMap.mp hmem
      rw [← hid]
      exact ((h.isPass r hr).addsUp.ids _).mp (List.mem_map_of_mem hf)
    · intro hev
      have hmem := ((h.isPass _ s.first_mem).addsUp.ids fp).mpr hev
      obtain ⟨f, hf, rfl⟩ := List.mem_map.mp hmem
      have hall : f ∈ s.toList.flatMap RunReport.fingerprints :=
        List.mem_flatMap.mpr ⟨_, s.first_mem, hf⟩
      obtain ⟨fps, hfps, -⟩ := exists_mem_group FingerprintReport.id hall
      exact ⟨_, hfps, rfl⟩
  · intro f hf
    obtain ⟨e, he, rfl⟩ := List.mem_map.mp ((sortBy_perm slowestFirst _).mem_iff.mp hf)
    obtain ⟨hmem, hid⟩ := mem_of_mem_group FingerprintReport.id he e.2.first_mem
    obtain ⟨r, hr, hfirst⟩ := List.mem_flatMap.mp hmem
    change e.2.first.fingerprint = fingerprintText cap e.1
    rw [← hid]
    exact (h.isPass r hr).text_eq hfirst
  · exact hmedian fun r hr ↦ (h.isPass r hr).capture_eq.2.1
  · exact hmedian fun r hr ↦ (h.isPass r hr).capture_eq.2.2

/-- What has been measured becomes an outcome: there is something to aggregate. -/
theorem exists_summarize
    (h : PassRun tools cap options info T sessions options.wanted passes after) :
    ∃ out, summarize options passes = some out ∧
      Outcome tools cap options info T sessions out after := by
  have haddsUp : ∀ r ∈ passes, AddsUp sessions r := fun r hr ↦ (h.isPass r hr).addsUp
  obtain ⟨s, hs⟩ := Option.ne_none_iff_exists'.mp (mt Sample.ofList?_eq_none.mp h.ne_nil)
  have hlist := Sample.ofList?_eq_some.mp hs
  have hmedian : aggregateMedian passes = some (aggregatePasses s) := by
    rw [aggregateMedian, hs]
    rfl
  rw [summarize]
  split_ifs with hwanted
  · rw [hmedian]
    refine ⟨_, rfl, h, haddsUp, Or.inl ⟨hwanted, hmedian.symm⟩, aggregatePasses s, ?_⟩
    rw [← hlist]
    rw [← hlist] at h
    exact heads_aggregate h
  · refine ⟨_, rfl, h, haddsUp, Or.inr ⟨rfl, Or.inl ?_⟩, _, heads_last h⟩
    exact le_antisymm (not_lt.mp hwanted) (le_max_right _ _)

/-- An aborted warm-up is all that there is. -/
theorem outcome_warmUp {r : RunReport F}
    (h : IsPassReport tools cap options info T sessions r ∧ r.aborted = true ∧
      options.warmup = true ∧ after = true) :
    Outcome tools cap options info T sessions ⟨[r], none⟩ after := by
  obtain ⟨hpass, haborted, hwarmup, hflag⟩ := h
  have hrun : PassRun tools cap options info T sessions options.wanted [r] after :=
    PassRun.concat (fun r hr ↦ absurd hr List.not_mem_nil) hpass options.wanted_pos
      (fun _ ↦ hflag) fun _ ↦ hflag
  refine ⟨hrun, fun r hr ↦ (hrun.isPass r hr).addsUp, Or.inr ⟨rfl, Or.inr ⟨hwarmup, r, rfl, ?_⟩⟩,
    _, heads_last hrun⟩
  exact haborted

variable (tools cap options info T sessions) in
theorem triple_runPasses :
    Triple (LoopResponds tools cap options info T sessions) FlagFlips (fun _ ↦ True)
      (runPasses options) fun out after ↦
        ∃ o, out = some o ∧ Outcome tools cap options info T sessions o after := by
  refine triple_warmUp.bind fun report ↦ ?_
  rcases report with _ | r
  · refine Triple.weaken ?_ fun _ _ ↦ trivial
    refine (triple_measuredPasses (fun r hr ↦ absurd hr List.not_mem_nil) (Nat.zero_add _)
      options.wanted_pos).bind fun passes ↦ ?_
    exact triple_done (stable_passRun _ _) fun _ h ↦ exists_summarize h
  · refine Triple.weaken ?_ fun flag h ↦ h r rfl
    refine triple_done ?_ fun flag h ↦ ⟨_, rfl, outcome_warmUp h⟩
    exact stable_and (stable_and (stable_and stable_set))

/-- **The outcome of a run.** A run of `run_passes` has one: the assertions that there is a report
to head it and a pass to aggregate hold. -/
theorem exists_outcome {before : Bool} {out : Option (ReplayOutcome F)}
    (h : RunsPasses tools cap options info T sessions before out after) :
    ∃ o, out = some o ∧ Outcome tools cap options info T sessions o after :=
  triple_runPasses tools cap options info T sessions before out after trivial h

variable (tools cap options info T sessions) in
/-- Every run of `run_passes` can come to its end. -/
theorem exists_runsPasses (before : Bool) :
    ∃ out after, RunsPasses tools cap options info T sessions before out after := by
  refine exists_runs (fun flag op ↦ ?_) (runPasses options) before
  cases op with
  | shutdownFlag => exact ⟨flag, flag, rfl, rfl⟩
  | runPass =>
    obtain ⟨r, hr⟩ := exists_runsPass tools cap info T sessions flag
    exact ⟨r, flag, hr⟩

end

/-- Three passes behind a warm-up. -/
def thriceOptions : RunOptions := { sampleRunOptions with warmup := true, repeats := 3 }

theorem exists_outcome_sample :
    let sessions : Fin 2 → ReplaySession thriceOptions.pass :=
      ![.ofEvents _ 1 [Pass.sampleEvent (ascii "SELECT 1") 7,
          Pass.sampleEvent (ascii "DROP TABLE t") 8],
        .ofEvents _ 2 [Pass.sampleEvent (ascii "DROP TABLE t") 8]]
    ∃ (out : ReplayOutcome ℚ) (after : Bool),
      Outcome sampleTools sampleCapture thriceOptions sampleTarget .plain sessions out after := by
  intro sessions
  obtain ⟨out, after, h⟩ :=
    exists_runsPasses sampleTools sampleCapture thriceOptions sampleTarget .plain sessions false
  obtain ⟨o, -, ho⟩ := exists_outcome h
  exact ⟨o, after, ho⟩

end SqlReplay.Aggregate
