import SqlReplay.Task.Interleave

/-!
# Shared states of different detail

Two interleaved systems may differ in what they keep of the shared state only. One that keeps more
is seen as the other through a function `g` that forgets. Its runs are runs of the other
(`mapShared`); and every run of the other is seen of a run of its own, when the environment can
always bring about what an operation has to wait for (`exists_mapShared`).
-/

namespace SqlReplay

namespace Tasks

variable {Op : Type} {Res : Op → Type} {σ τ ι : Type}

/-- A configuration with what is seen of the shared state. -/
def mapShared (g : σ → τ) (c : Tasks Res σ ι) : Tasks Res τ ι := ⟨g c.shared, c.task, c.log⟩

variable [DecidableEq ι] {g : σ → τ} {effect : σ → (op : Op) → Res op → σ → Prop}
  {env : σ → σ → Prop} {effect' : τ → (op : Op) → Res op → τ → Prop} {env' : τ → τ → Prop}
  {c c' : Tasks Res σ ι}

/-- Operations are seen as operations, and what the environment does is seen or not. -/
theorem Reachable.mapShared (heffect : ∀ s op r s', effect s op r s' → effect' (g s) op r (g s'))
    (henv : ∀ s s', env s s' → env' (g s) (g s') ∨ g s' = g s) (h : Reachable effect env c c') :
    Reachable effect' env' (c.mapShared g) (c'.mapShared g) := by
  induction h with
  | refl => exact .refl
  | @tail d _ _ hstep ih =>
    cases hstep with
    | act htask hact => exact ih.tail (.act htask (heffect _ _ _ _ hact))
    | @env s hs =>
      rcases henv _ _ hs with hseen | hsame
      · exact ih.tail (.env hseen)
      · have heq : Tasks.mapShared g { d with shared := s } = Tasks.mapShared g d := by
          rw [Tasks.mapShared, Tasks.mapShared, hsame]
        rw [heq]
        exact ih

/-- Steps of the environment alone. -/
theorem Reachable.of_env {s s' : σ} (h : Relation.ReflTransGen env s s') (hs : c.shared = s) :
    Reachable effect env c { c with shared := s' } := by
  subst hs
  induction h with
  | refl => exact .refl
  | @tail s₁ s₂ _ hstep ih =>
    exact ih.tail (Step.env (c := { c with shared := s₁ }) hstep)

/-- What is seen of the runs are all runs, if the environment can get ready for every operation. -/
theorem Reachable.exists_mapShared
    (heffect : ∀ s op r t, effect' (g s) op r t →
      ∃ s₁ s', Relation.ReflTransGen env s s₁ ∧ effect s₁ op r s' ∧ g s' = t)
    (henv : ∀ s t, env' (g s) t → ∃ s', env s s' ∧ g s' = t) {d : Tasks Res τ ι}
    (h : Reachable effect' env' (c.mapShared g) d) :
    ∃ c', Reachable effect env c c' ∧ c'.mapShared g = d := by
  induction h with
  | refl => exact ⟨c, .refl, rfl⟩
  | tail _ hstep ih =>
    obtain ⟨c', hreach, rfl⟩ := ih
    cases hstep with
    | act htask hact =>
      obtain ⟨s₁, s', hwait, hact', rfl⟩ := heffect _ _ _ _ hact
      have hready : Reachable effect env c { c' with shared := s₁ } :=
        hreach.trans (Reachable.of_env hwait rfl)
      exact ⟨_, hready.tail (Step.act (c := { c' with shared := s₁ }) htask hact'), rfl⟩
    | env hs =>
      obtain ⟨s', hs', rfl⟩ := henv _ _ hs
      exact ⟨_, hreach.tail (.env hs'), rfl⟩

end Tasks

end SqlReplay
