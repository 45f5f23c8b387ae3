import Mathlib.Algebra.BigOperators.Fin
import Mathlib.Logic.Relation
import SqlReplay.Task.Program

/-!
# Interleaved tasks

Tasks that run side by side over one shared state. A step is an operation of one task, whose effect
relates the shared state before, the response and the shared state after, or a step of the
environment. Nothing is said about who comes next, so a statement about the reachable states is one
about every schedule.

Three facts connect a run with its parts. Each task has taken a path through its own program
(`Reachable.steps`). A part of the shared state that only operations change, each in a fixed way,
is the fold of the log (`Reachable.foldl_log`). And a sum over the log is the sum over the tasks
(`sum_log`).
-/

namespace SqlReplay

variable {Op : Type} {Res : Op → Type} {σ ι V β : Type}

/-- The shared state, what is left of each task, and all operations so far. -/
structure Tasks (Res : Op → Type) (σ ι : Type) where
  shared : σ
  task : ι → Program Res Unit
  log : List (ι × ((op : Op) × Res op))

namespace Tasks

/-- Before the first step. -/
def start (s : σ) (task : ι → Program Res Unit) : Tasks Res σ ι := ⟨s, task, []⟩

variable [DecidableEq ι]

/-- The operations of one task. -/
def logOf (c : Tasks Res σ ι) (i : ι) : Trace Res :=
  (c.log.filter fun e ↦ e.1 = i).map Prod.snd

/-- Every task has returned. -/
def Finished (c : Tasks Res σ ι) : Prop := ∀ i, (c.task i).isDone = true

/-- A step of a task or of the environment. -/
inductive Step (effect : σ → (op : Op) → Res op → σ → Prop) (env : σ → σ → Prop) :
    Tasks Res σ ι → Tasks Res σ ι → Prop
  | act {c : Tasks Res σ ι} {i : ι} {op : Op} {next : Res op → Program Res Unit} {r : Res op}
      {s : σ} : c.task i = .call op next → effect c.shared op r s →
      Step effect env c ⟨s, Function.update c.task i (next r), c.log ++ [(i, ⟨op, r⟩)]⟩
  | env {c : Tasks Res σ ι} {s : σ} : env c.shared s → Step effect env c { c with shared := s }

/-- What a run leads to. -/
def Reachable (effect : σ → (op : Op) → Res op → σ → Prop) (env : σ → σ → Prop) :
    Tasks Res σ ι → Tasks Res σ ι → Prop :=
  Relation.ReflTransGen (Step effect env)

variable {effect : σ → (op : Op) → Res op → σ → Prop} {env : σ → σ → Prop}
  {s : σ} {task : ι → Program Res Unit} {c : Tasks Res σ ι}

/-- An operation of a task extends its own log, and no other. -/
theorem logOf_act (c : Tasks Res σ ι) (s : σ) (task : ι → Program Res Unit) (j : ι)
    (e : (op : Op) × Res op) (i : ι) :
    logOf ⟨s, task, c.log ++ [(j, e)]⟩ i = c.logOf i ++ if j = i then [e] else [] := by
  rw [logOf, logOf, List.filter_append, List.map_append]
  congr 1
  by_cases hij : j = i
  · simp [hij]
  · simp [hij]

/-- Every task has taken a path through its own program. -/
theorem Reachable.steps (h : Reachable effect env (start s task) c) (i : ι) :
    (task i).Steps (c.logOf i) (c.task i) := by
  induction h with
  | refl => exact .refl
  | @tail c c' _ hstep ih =>
    cases hstep with
    | @act j op next r s' htask heffect =>
      rw [logOf_act]
      dsimp only
      by_cases hij : j = i
      · obtain rfl := hij
        rw [if_pos rfl, Function.update_self]
        exact .call r (htask ▸ ih)
      · rw [if_neg hij, List.append_nil, Function.update_of_ne (Ne.symm hij)]
        exact ih
    | env _ => exact ih

/-- A part of the shared state that each operation changes in a fixed way, and the environment
does not change, is the fold of the log. -/
theorem Reachable.foldl_log {f : σ → β} {g : β → (op : Op) × Res op → β}
    (heffect : ∀ s op r s', effect s op r s' → f s' = g (f s) ⟨op, r⟩)
    (henv : ∀ s s', env s s' → f s' = f s) (h : Reachable effect env (start s task) c) :
    f c.shared = (c.log.map Prod.snd).foldl g (f s) := by
  induction h with
  | refl => rfl
  | tail _ hstep ih =>
    cases hstep with
    | act htask hact =>
      rw [List.map_append, List.foldl_append, ← ih, heffect _ _ _ _ hact]
      rfl
    | env hs => exact (henv _ _ hs).trans ih

/-- From a moment on at which the shared state is in a set that no step leaves, the log is extended
by what can happen there. -/
theorem Reachable.log_extends {P : σ → Prop} {E : (op : Op) × Res op → Prop} {c' : Tasks Res σ ι}
    (heffect : ∀ s op r s', P s → effect s op r s' → P s' ∧ E ⟨op, r⟩)
    (henv : ∀ s s', P s → env s s' → P s') (h : Reachable effect env c c') (hc : P c.shared) :
    P c'.shared ∧ ∀ i, ∃ t, c'.logOf i = c.logOf i ++ t ∧ ∀ e ∈ t, E e := by
  induction h with
  | refl =>
    refine ⟨hc, fun i ↦ ⟨[], (List.append_nil _).symm, ?_⟩⟩
    exact fun e he ↦ absurd he List.not_mem_nil
  | tail _ hstep ih =>
    obtain ⟨hmid, hlog⟩ := ih
    cases hstep with
    | @act j op next r s' _ hact =>
      obtain ⟨hs', hE⟩ := heffect _ _ _ _ hmid hact
      refine ⟨hs', fun i ↦ ?_⟩
      obtain ⟨t, ht, hall⟩ := hlog i
      refine ⟨t ++ if j = i then [⟨op, r⟩] else [], ?_, ?_⟩
      · rw [logOf_act, ht, List.append_assoc]
      · intro e he
        rcases List.mem_append.mp he with he | he
        · exact hall e he
        · split_ifs at he
          · rwa [List.mem_singleton.mp he]
          · exact absurd he List.not_mem_nil
    | env hs => exact ⟨henv _ _ hmid hs, hlog⟩

/-- A sum over the log is the sum over the tasks. -/
theorem sum_log [Fintype ι] (c : Tasks Res σ ι) (w : (op : Op) × Res op → ℕ) :
    (c.log.map fun e ↦ w e.2).sum = ∑ i, ((c.logOf i).map w).sum := by
  unfold logOf
  induction c.log with
  | nil => simp
  | cons e log ih =>
    have hsplit : ∀ i, ((((e :: log).filter fun e ↦ e.1 = i).map Prod.snd).map w).sum =
        (if e.1 = i then w e.2 else 0) +
          (((log.filter fun e ↦ e.1 = i).map Prod.snd).map w).sum := by
      intro i
      by_cases hi : e.1 = i
      · simp [hi]
      · simp [hi]
    rw [List.map_cons, List.sum_cons, ih, Finset.sum_congr rfl fun i _ ↦ hsplit i,
      Finset.sum_add_distrib, Finset.sum_ite_eq, if_pos (Finset.mem_univ _)]

/-! ## Schedules -/

/-- A run by a schedule, the rest of the world answering as `answer` says, or not yet. A task that
has returned or waits is passed over. -/
def schedule (answer : σ → (op : Op) → Option (Res op × σ)) :
    List ι → Tasks Res σ ι → Tasks Res σ ι
  | [], c => c
  | i :: is, c =>
    match c.task i with
    | .done _ => schedule answer is c
    | .call op next =>
      match answer c.shared op with
      | none => schedule answer is c
      | some (r, s) =>
        schedule answer is ⟨s, Function.update c.task i (next r), c.log ++ [(i, ⟨op, r⟩)]⟩

/-- What a schedule leads to is reachable, when the answers are possible ones. -/
theorem reachable_schedule {answer : σ → (op : Op) → Option (Res op × σ)}
    (h : ∀ s op r s', answer s op = some (r, s') → effect s op r s') (is : List ι)
    (c : Tasks Res σ ι) : Reachable effect env c (schedule answer is c) := by
  induction is generalizing c with
  | nil => exact .refl
  | cons i is ih =>
    unfold schedule
    split
    · exact ih c
    · next op next htask =>
      split
      · exact ih c
      · next r s hanswer => exact .head (.act htask (h _ _ _ _ hanswer)) (ih _)

end Tasks

/-- A measure that every step of a fold raises by the weight of its argument. -/
theorem foldl_measure {γ : Type} {g : β → γ → β} (μ : β → ℕ) (w : γ → ℕ)
    (h : ∀ b e, μ (g b e) = μ b + w e) (b : β) (l : List γ) :
    μ (l.foldl g b) = μ b + (l.map w).sum := by
  induction l generalizing b with
  | nil => rfl
  | cons e l ih => rw [List.foldl_cons, ih, h, List.map_cons, List.sum_cons, Nat.add_assoc]

end SqlReplay
