import SqlReplay.Replay.Conservation

/-!
# Abort

When the shutdown flag flips, the sessions of a pass are anywhere: waiting for an event to be due,
for a permit or for the target, or between two events. Nothing interrupts a statement that has been
sent. What bounds the rest is that a session looks at the flag when an event's turn comes, and that
the flag never goes back: behind the flip no turn comes any more.

So an abort is about lists of marks (`Turns`) of which an end has no `begun` in it. Such an end is
the rest of one turn and then the drain (`Turns.sent_le`), and it does not matter where in the turn
the flip falls, or how the sessions are interleaved. Of a whole list, the records behind those of
the begun turns are the drain's (`Turns.notRun_of_mem_drop`).
-/

namespace SqlReplay

open Program Replay

/-! ## The marks of a session -/

namespace Replay

variable {o : ReplayOptions} {events : List Event}

/-- The counter of a record. -/
def Act.tally? : Act → Option Tally
  | .recorded tally _ => some tally
  | _ => none

/-- The counters that the records on a trace go to, in order. -/
def tallies (t : Trace Op.Res) : List Tally := (observe act t).filterMap Act.tally?

/-- The number of events whose turn has come: the flag was found not set when the session looked at
it for the event. -/
def begun (t : Trace Op.Res) : ℕ := (observe mark t).count .begun

def Mark.sent? (m : Mark) : Option Bytes := m.act?.bind Act.sent?

def Mark.tally? (m : Mark) : Option Tally := m.act?.bind Act.tally?

theorem observe_act (t : Trace Op.Res) :
    observe act t = (observe mark t).filterMap Mark.act? := by
  rw [observe, act_eq_mark, observe, List.filterMap_flatMap]

theorem sent_eq (t : Trace Op.Res) : sent t = (observe mark t).filterMap Mark.sent? := by
  rw [sent, observe_act, List.filterMap_filterMap]
  rfl

theorem tallies_eq (t : Trace Op.Res) : tallies t = (observe mark t).filterMap Mark.tally? := by
  rw [tallies, observe_act, List.filterMap_filterMap]
  rfl

theorem begun_notMem_map (l : List Act) : Mark.begun ∉ l.map Mark.did := by
  simp

theorem filterMap_tally?_map (l : List Act) :
    (l.map Mark.did).filterMap Mark.tally? = l.filterMap Act.tally? := by
  rw [List.filterMap_map]
  rfl

theorem filterMap_sent?_map (l : List Act) :
    (l.map Mark.did).filterMap Mark.sent? = l.filterMap Act.sent? := by
  rw [List.filterMap_map]
  rfl

/-- A handling has one record. -/
theorem Handling.tally {ev : Event} {l : List Act} (h : Handling o ev l) :
    ∃ tally, l.filterMap Act.tally? = [tally] := by
  cases h <;> exact ⟨_, rfl⟩

theorem Handling.sent_le {ev : Event} {l : List Act} (h : Handling o ev l) :
    (l.filterMap Act.sent?).length ≤ 1 := by
  rcases h.statement with hnone | ⟨-, hone⟩
  · rw [hnone]
    exact Nat.zero_le 1
  · rw [hone, List.length_singleton]

/-- Of the drain nothing is seen but records of events that are not run. -/
theorem notRuns_spec {m : Mark} (h : m ∈ notRuns events) :
    m ≠ .begun ∧ m.sent? = none ∧ m.tally? = some .notRun := by
  obtain ⟨ev, -, rfl⟩ := List.mem_map.mp h
  exact ⟨by simp, rfl, rfl⟩

/-! ## Where an abort falls -/

/-- What is seen before a turn comes is the drain. -/
theorem Turns.drain_of_notMem {m l : List Mark} (h : Turns o events (m ++ l))
    (hm : Mark.begun ∉ m) :
    m.filterMap Mark.sent? = [] ∧ ∀ tally ∈ m.filterMap Mark.tally?, tally = .notRun := by
  generalize hl : m ++ l = marks at h
  cases h with
  | drained events =>
    have hdrain : ∀ x ∈ m, x ∈ notRuns events := fun x hx ↦ hl ▸ List.mem_append_left l hx
    constructor
    · rw [List.filterMap_eq_nil_iff]
      exact fun x hx ↦ (notRuns_spec (hdrain x hx)).2.1
    · intro tally htally
      obtain ⟨x, hx, hxt⟩ := List.mem_filterMap.mp htally
      exact Option.some.inj (hxt.symm.trans (notRuns_spec (hdrain x hx)).2.2)
  | turn hev hl' =>
    rcases m with _ | ⟨x, m⟩
    · exact ⟨rfl, fun _ h ↦ absurd h List.not_mem_nil⟩
    · obtain ⟨rfl, -⟩ := List.cons.inj hl
      exact absurd List.mem_cons_self hm

/-- **Behind an abort at most one statement is sent**: the one of the turn it falls into. -/
theorem Turns.sent_le {before m l : List Mark} (h : Turns o events (before ++ (m ++ l)))
    (hm : Mark.begun ∉ m) : (m.filterMap Mark.sent?).length ≤ 1 := by
  generalize hl : before ++ (m ++ l) = marks at h
  induction h generalizing before with
  | drained events =>
    have hdrain (x : Mark) (hx : x ∈ m) : x ∈ notRuns events :=
      hl ▸ List.mem_append_right _ (List.mem_append_left _ hx)
    rw [List.filterMap_eq_nil_iff.mpr fun x hx ↦ (notRuns_spec (hdrain x hx)).2.1]
    exact Nat.zero_le 1
  | @turn ev events turn rest hev hrest ih =>
    rcases before with _ | ⟨x, before⟩
    · -- the abort comes before the first turn
      have hturns : Turns o (ev :: events) (m ++ l) := hl ▸ .turn hev hrest
      rw [(hturns.drain_of_notMem hm).1]
      exact Nat.zero_le 1
    obtain ⟨rfl, hsplit⟩ := List.cons.inj hl
    rcases List.append_eq_append_iff.mp hsplit with ⟨k, hk, hk'⟩ | ⟨k, -, hk⟩
    · -- it falls into the first turn
      have hone : (k.filterMap Mark.sent?).length ≤ 1 := by
        refine le_trans ?_ hev.sent_le
        rw [← filterMap_sent?_map, hk, List.filterMap_append, List.length_append]
        exact Nat.le_add_left _ _
      rcases List.append_eq_append_iff.mp hk' with ⟨k', rfl, -⟩ | ⟨k', rfl, rfl⟩
      · rw [List.filterMap_append, List.length_append] at hone
        omega
      · have hdrained := hrest.drain_of_notMem fun hx ↦ hm (List.mem_append_right _ hx)
        rw [List.filterMap_append, hdrained.1, List.append_nil]
        exact hone
    · -- it comes behind the first turn
      exact ih hk.symm

/-- Of the begun turns, one at most has no record yet. -/
theorem Turns.begun_le {m l : List Mark} (h : Turns o events (m ++ l)) :
    m.count .begun ≤ (m.filterMap Mark.tally?).length + 1 := by
  generalize hl : m ++ l = marks at h
  induction h generalizing m with
  | drained events =>
    have hnone : m.count .begun = 0 := by
      rw [List.count_eq_zero]
      intro hx
      exact (notRuns_spec (hl ▸ List.mem_append_left l hx)).1 rfl
    omega
  | @turn ev events turn rest hev hrest ih =>
    rcases m with _ | ⟨x, m⟩
    · exact Nat.zero_le _
    obtain ⟨rfl, hsplit⟩ := List.cons.inj hl
    rw [List.count_cons_self]
    rcases List.append_eq_append_iff.mp hsplit with ⟨k, hk, -⟩ | ⟨k, rfl, hk⟩
    · have hnone : m.count .begun = 0 := by
        rw [List.count_eq_zero]
        intro hx
        exact begun_notMem_map turn (hk ▸ List.mem_append_left k hx)
      omega
    · obtain ⟨tally, htally⟩ := hev.tally
      have hnone : (turn.map Mark.did).count .begun = 0 :=
        List.count_eq_zero.mpr (begun_notMem_map turn)
      have hrec := ih hk.symm
      rw [List.filterMap_cons_none (by rfl), List.filterMap_append, filterMap_tally?_map, htally,
        List.count_append, hnone, List.length_append, List.length_singleton]
      omega

/-- **The records behind those of the begun turns are of events that are not run.** -/
theorem Turns.notRun_of_mem_drop {m l : List Mark} (h : Turns o events (m ++ l)) {tally : Tally}
    (htally : tally ∈ (m.filterMap Mark.tally?).drop (m.count .begun)) : tally = .notRun := by
  generalize hl : m ++ l = marks at h
  induction h generalizing m with
  | drained events =>
    obtain ⟨x, hx, hxt⟩ := List.mem_filterMap.mp (List.mem_of_mem_drop htally)
    have hspec := notRuns_spec (hl ▸ List.mem_append_left l hx : x ∈ notRuns events)
    exact Option.some.inj (hxt.symm.trans hspec.2.2)
  | @turn ev events turn rest hev hrest ih =>
    rcases m with _ | ⟨x, m⟩
    · exact absurd htally List.not_mem_nil
    obtain ⟨rfl, hsplit⟩ := List.cons.inj hl
    obtain ⟨first, hfirst⟩ := hev.tally
    rw [← filterMap_tally?_map] at hfirst
    rw [List.count_cons_self, List.filterMap_cons_none (by rfl)] at htally
    rcases List.append_eq_append_iff.mp hsplit with ⟨k, hk, -⟩ | ⟨k, rfl, hk⟩
    · -- the turn goes on, and has one record at most
      have hlen : (m.filterMap Mark.tally?).length ≤ 1 := by
        rw [hk, List.filterMap_append] at hfirst
        have hone := congrArg List.length hfirst
        rw [List.length_append, List.length_singleton] at hone
        omega
      rw [List.drop_eq_nil_of_le (by omega)] at htally
      exact absurd htally List.not_mem_nil
    · have hnone : (turn.map Mark.did).count .begun = 0 :=
        List.count_eq_zero.mpr (begun_notMem_map turn)
      rw [List.count_append, hnone, Nat.zero_add, List.filterMap_append, hfirst,
        List.singleton_append, List.drop_succ_cons] at htally
      exact ih htally hk.symm

end Replay

/-! ## A pass behind the flip -/

/-- The flag does not go back, and once it is set no turn comes. -/
theorem PassState.Responds.shutdown {o : ReplayOptions} {T : TargetDb} {s s' : PassState} {op : Op}
    {r : op.Res} (hs : s.shutdown = true) (h : s.Responds o T op r s') :
    s'.shutdown = true ∧ Mark.begun ∉ mark op r := by
  obtain ⟨hpossible, rfl⟩ := h
  refine ⟨hs, ?_⟩
  by_cases hop : op = .shutdownFlag
  · subst hop
    have hflag : r = true := by
      rw [possible, beq_iff_eq] at hpossible
      exact hpossible.trans hs
    rw [hflag]
    simp [mark, act]
  · rw [mark_of_ne hop]
    exact begun_notMem_map _

namespace Pass

variable {o : ReplayOptions} {T : TargetDb} {n : ℕ} {sessions : Fin n → ReplaySession o}
  {c₁ c : Pass n}

/-- The marks of a session with an executable statement are the beginning of turns of its events. -/
theorem Reaches.turns (h : Reaches o T sessions c) {i : Fin n}
    (hi : (sessions i).info.hasExecutable = true) :
    ∃ l, Replay.Turns o (sessions i).events (observe mark (c.logOf i) ++ l) := by
  obtain ⟨shutdown, hrun⟩ := h
  obtain ⟨l, -, hl⟩ := exists_of_ensures
    ((hrun.steps i).ensures (runSession_turns o (sessions i).events hi))
  exact ⟨l, hl⟩

theorem Reaches.trans (h : Reaches o T sessions c₁)
    (hrun : Tasks.Reachable (PassState.Responds o T) PassState.Flips c₁ c) :
    Reaches o T sessions c := by
  obtain ⟨shutdown, h⟩ := h
  exact ⟨shutdown, Relation.ReflTransGen.trans h hrun⟩

/-- A session without an executable statement sends nothing. -/
theorem Reaches.sent_eq_nil (h : Reaches o T sessions c) {i : Fin n}
    (hi : (sessions i).info.hasExecutable = false) : sent (c.logOf i) = [] := by
  obtain ⟨l, hhandled⟩ := h.handles i
  obtain ⟨kept, hsub, hgate, hsent⟩ := hhandled.faithful.of_append.sent
  rw [(sessions i).hasExecutable_eq, List.any_eq_false] at hi
  rw [sent, hsent, List.map_eq_nil_iff, List.eq_nil_iff_forall_not_mem]
  intro ev hev
  exact hi ev (hsub.subset hev) (Bool.and_eq_true_iff.mp (hgate ev hev)).1

/-- At any moment the records of a session are those of its first events, in order. -/
theorem Reaches.recorded_prefix (h : Reaches o T sessions c) (i : Fin n) :
    Replay.recorded (c.logOf i) <+: (sessions i).events.map Event.fingerprintId := by
  obtain ⟨l, hhandled⟩ := h.handles i
  refine ⟨l.filterMap Act.recorded?, ?_⟩
  rw [Replay.recorded, ← List.filterMap_append]
  exact hhandled.recorded

/-- The flag having flipped at `c₁` or before, each session sends at most one more captured
statement. In a session with an executable statement one event at most is in progress at `c₁`, its
turn having come without a record, and every record of an event behind the begun ones is that it is
not run. The records are of the events in order, and of all of them when the session has
returned. -/
theorem abort_stops (h : Reaches o T sessions c₁) (hflag : c₁.shared.shutdown = true)
    (hrun : Tasks.Reachable (PassState.Responds o T) PassState.Flips c₁ c) (i : Fin n) :
    (sent (c.logOf i)).length ≤ (sent (c₁.logOf i)).length + 1 ∧
      ((∃ ev ∈ (sessions i).events, shouldExecute ev.query o.allowWrites = true) →
        begun (c₁.logOf i) ≤ (tallies (c₁.logOf i)).length + 1 ∧
          ∀ k, begun (c₁.logOf i) ≤ k →
            ∀ tally, (tallies (c.logOf i))[k]? = some tally → tally = .notRun) ∧
      recorded (c.logOf i) <+: (sessions i).events.map Event.fingerprintId ∧
      ((c.task i).isDone = true →
        recorded (c.logOf i) = (sessions i).events.map Event.fingerprintId) := by
  have hreaches := h.trans hrun
  refine ⟨?_, fun hexec ↦ ?_, hreaches.recorded_prefix i, hreaches.recorded⟩
  -- with the flag up no event is begun
  all_goals
    obtain ⟨-, hlog⟩ := Tasks.Reachable.log_extends (P := fun s ↦ s.shutdown = true)
      (E := fun e ↦ Mark.begun ∉ mark e.1 e.2) (fun _ _ _ _ hs hr ↦ hr.shutdown hs)
      (fun _ _ hs hflip ↦ by rw [hflip]) hrun hflag
    obtain ⟨t, ht, hquiet⟩ := hlog i
    have hmarks : observe mark (c.logOf i) = observe mark (c₁.logOf i) ++ observe mark t := by
      rw [ht, observe, List.flatMap_append]
      rfl
    have hnone : Mark.begun ∉ observe mark t := by
      intro hmem
      obtain ⟨e, he, hbegun⟩ := List.mem_flatMap.mp hmem
      exact hquiet e he hbegun
  · -- a statement is sent in an event that has been begun, and one of them may be in progress
    by_cases hexec : (sessions i).info.hasExecutable = true
    · obtain ⟨l, hturns⟩ := hreaches.turns hexec
      rw [hmarks, List.append_assoc] at hturns
      rw [sent_eq, sent_eq, hmarks, List.filterMap_append, List.length_append]
      exact Nat.add_le_add_left (hturns.sent_le hnone) _
    · rw [hreaches.sent_eq_nil (Bool.eq_false_of_not_eq_true hexec)]
      exact Nat.zero_le _
  · have hinfo : (sessions i).info.hasExecutable = true := by
      rw [(sessions i).hasExecutable_eq, List.any_eq_true]
      exact hexec
    obtain ⟨l, hturns⟩ := hreaches.turns hinfo
    obtain ⟨l₁, hturns₁⟩ := h.turns hinfo
    rw [tallies_eq, tallies_eq]
    refine ⟨hturns₁.begun_le, fun k hk tally htally ↦ hturns.notRun_of_mem_drop ?_⟩
    have hcount : (observe mark (c.logOf i)).count .begun = begun (c₁.logOf i) := by
      rw [hmarks, List.count_append, List.count_eq_zero.mpr hnone]
      rfl
    rw [← Nat.add_sub_cancel' hk, ← hcount, ← List.getElem?_drop] at htally
    exact List.mem_of_getElem? htally

/-- A session whose first statement is about to be sent when the flag flips. -/
theorem abort_stops_sample :
    let sessions : Fin 1 → ReplaySession sampleOptions :=
      ![.ofEvents _ 1 [sampleEvent (ascii "SELECT 1") 7, sampleEvent (ascii "SELECT 2") 8,
        sampleEvent (ascii "SELECT 3") 9]]
    ∃ c₁ c : Pass 1, Reaches sampleOptions .plain sessions c₁ ∧ c₁.shared.shutdown = true ∧
      sent (c₁.logOf 0) = [] ∧ begun (c₁.logOf 0) = 1 ∧ sent (c.logOf 0) = [ascii "SELECT 1"] ∧
      tallies (c.logOf 0) = [.executed, .notRun, .notRun] ∧
      (sent (c.logOf 0)).length ≤ (sent (c₁.logOf 0)).length + 1 ∧
      (∀ k, begun (c₁.logOf 0) ≤ k →
        ∀ tally, (tallies (c.logOf 0))[k]? = some tally → tally = .notRun) ∧
      recorded (c.logOf 0) = [7, 8, 9] := by
  intro sessions
  let c₀ := run sampleOptions sessions (List.replicate 5 0)
  let c₁ : Pass 1 := { c₀ with shared := { c₀.shared with shutdown := true } }
  let c := Tasks.schedule (PassState.oblige sampleOptions .plain) (List.replicate 8 0) c₁
  have hreaches : Reaches sampleOptions .plain sessions c₁ :=
    (reaches_run sampleOptions sessions (List.replicate 5 0)).trans (.single (.env rfl))
  have hrun : Tasks.Reachable (PassState.Responds sampleOptions .plain) PassState.Flips c₁ c :=
    Tasks.reachable_schedule PassState.responds_of_oblige _ _
  obtain ⟨hsent, hnotRun, -, hrecorded⟩ := abort_stops hreaches rfl hrun 0
  have hexec : ∃ ev ∈ (sessions 0).events,
      shouldExecute ev.query sampleOptions.allowWrites = true :=
    ⟨_, List.mem_cons_self, by decide +kernel⟩
  have hdone : (c.task 0).isDone = true := by decide +kernel
  exact ⟨c₁, c, hreaches, rfl, by decide +kernel, by decide +kernel, by decide +kernel,
    by decide +kernel, hsent, (hnotRun hexec).2, hrecorded hdone⟩

end Pass

end SqlReplay
