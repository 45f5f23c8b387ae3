import SqlReplay.Task.Interleave

/-!
# Tasks that keep to a protocol

An invariant of the shared state that relates it to what the single tasks are doing (who holds
what, and in which condition) speaks of no task's program. What it needs of a task is what the task
knows and which operations it may perform in that knowledge: a `Protocol`. That a program keeps to
one (`Program.Obeys`) is shown for each program alone, by the rules below; that the invariant is
kept by every operation the protocol allows is shown for each operation alone; and
`Tasks.Reachable.invariant` puts the two together for every interleaving.
-/

namespace SqlReplay

variable {Op : Type} {Res : Op → Type} {α β γ σ ι : Type}

/-- What a task may do, and what it knows behind a response. -/
structure Protocol (Res : Op → Type) (γ : Type) where
  allows : γ → Op → Prop
  learn : γ → (op : Op) → Res op → γ

/-- What is known behind a trace. -/
def Protocol.after (P : Protocol Res γ) (g : γ) (t : Trace Res) : γ :=
  t.foldl (fun g e ↦ P.learn g e.1 e.2) g

namespace Program

/-- Whatever the responses, the program performs allowed operations only, and returns with a
knowledge and a result that meet `Q`. -/
def Obeys (P : Protocol Res γ) : Program Res α → γ → (γ → α → Prop) → Prop
  | done a, g, Q => Q g a
  | call op next, g, Q => P.allows g op ∧ ∀ r, (next r).Obeys P (P.learn g op r) Q

variable {P : Protocol Res γ}

/-- Performing an operation. -/
theorem obeys_perform {op : Op} {g : γ} {f : Res op → Program Res α} {Q : γ → α → Prop}
    (hallows : P.allows g op) (h : ∀ r, (f r).Obeys P (P.learn g op r) Q) :
    (perform op >>= f).Obeys P g Q :=
  ⟨hallows, h⟩

/-- Performing an operation that teaches nothing. -/
theorem obeys_hidden {op : Op} {g : γ} {f : Res op → Program Res α} {Q : γ → α → Prop}
    (hallows : P.allows g op) (hlearn : ∀ r, P.learn g op r = g)
    (h : ∀ r, (f r).Obeys P g Q) : (perform op >>= f).Obeys P g Q :=
  ⟨hallows, fun r ↦ (hlearn r).symm ▸ h r⟩

theorem Obeys.mono {p : Program Res α} {g : γ} {Q Q' : γ → α → Prop} (h : p.Obeys P g Q)
    (hQ : ∀ g a, Q g a → Q' g a) : p.Obeys P g Q' := by
  induction p generalizing g with
  | done a => exact hQ g a h
  | call op next ih => exact ⟨h.1, fun r ↦ ih r (h.2 r)⟩

/-- The rule of sequential composition. -/
theorem obeys_bind {p : Program Res α} {f : α → Program Res β} {g : γ} {Q : γ → β → Prop}
    (h : p.Obeys P g fun g' a ↦ (f a).Obeys P g' Q) : (p >>= f).Obeys P g Q := by
  induction p generalizing g with
  | done a => exact h
  | call op next ih => exact ⟨h.1, fun r ↦ ih r (h.2 r)⟩

theorem Steps.obeys {p p' : Program Res α} {t : Trace Res} {g : γ} {Q : γ → α → Prop}
    (h : p.Obeys P g Q) (hsteps : Steps p t p') : p'.Obeys P (P.after g t) Q := by
  induction hsteps with
  | refl => exact h
  | call r _ ih =>
    rw [Protocol.after, List.foldl_append]
    exact ih.2 r

end Program

namespace Tasks

variable [DecidableEq ι] {effect : σ → (op : Op) → Res op → σ → Prop} {env : σ → σ → Prop}
  {s : σ} {task : ι → Program Res Unit} {c : Tasks Res σ ι} {P : ι → Protocol Res γ}

/-- What each task knows. -/
def known (P : ι → Protocol Res γ) (g : γ) (c : Tasks Res σ ι) (i : ι) : γ :=
  (P i).after g (c.logOf i)

/-- Each task keeps to its protocol to the end. -/
theorem Reachable.obeys {g : γ} {Q : ι → γ → Unit → Prop}
    (hobeys : ∀ i, (task i).Obeys (P i) g (Q i))
    (h : Reachable effect env (start s task) c) (i : ι) :
    (c.task i).Obeys (P i) (c.known P g i) (Q i) :=
  Program.Steps.obeys (hobeys i) (h.steps i)

/-- An invariant of the shared state and of what the tasks know, under every interleaving. -/
theorem Reachable.invariant {g : γ} {Q : ι → γ → Unit → Prop} (Inv : σ → (ι → γ) → Prop)
    (hobeys : ∀ i, (task i).Obeys (P i) g (Q i)) (hstart : Inv s fun _ ↦ g)
    (hact : ∀ s k i op r s', Inv s k → (P i).allows (k i) op → effect s op r s' →
      Inv s' (Function.update k i ((P i).learn (k i) op r)))
    (henv : ∀ s k s', Inv s k → env s s' → Inv s' k)
    (h : Reachable effect env (start s task) c) : Inv c.shared (c.known P g) := by
  induction h with
  | refl => exact hstart
  | @tail c c' hreach hstep ih =>
    cases hstep with
    | @act j op next r s' htask heffect =>
      have hallowed := Reachable.obeys hobeys hreach j
      rw [htask] at hallowed
      have hknown : known P g ⟨s', Function.update c.task j (next r), c.log ++ [(j, ⟨op, r⟩)]⟩ =
          Function.update (c.known P g) j ((P j).learn (c.known P g j) op r) := by
        funext i
        rw [known, logOf_act]
        by_cases hij : j = i
        · obtain rfl := hij
          rw [if_pos rfl, Function.update_self, Protocol.after, List.foldl_append]
          rfl
        · rw [if_neg hij, List.append_nil, Function.update_of_ne (Ne.symm hij), known]
      rw [hknown]
      exact hact _ _ _ _ _ _ ih hallowed.1 heffect
    | env hs => exact henv _ _ _ ih hs

end Tasks

end SqlReplay
