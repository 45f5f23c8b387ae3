import SqlReplay.Task.Program

/-!
# A program in its environment

A program that runs by itself, over a state that its environment may change between any two of its
operations. Of what it returns one proves triples: from a state with `P`, it comes to one with `Q`.
The environment does not wait, so `P` has to be a property that it cannot take away (`Stable`), and
with this one condition there is a rule for each way to build a program.
-/

namespace SqlReplay.Program

variable {Op : Type} {Res : Op → Type} {α β σ : Type}

/-- A run of a program, with the state before it, what it returns and the state behind it. -/
inductive Runs (effect : σ → (op : Op) → Res op → σ → Prop) (env : σ → σ → Prop) :
    Program Res α → σ → α → σ → Prop
  | done {s : σ} (a : α) : Runs effect env (done a) s a s
  | env {p : Program Res α} {s s' t : σ} {a : α} :
      env s s' → Runs effect env p s' a t → Runs effect env p s a t
  | call {op : Op} {next : Res op → Program Res α} {r : Res op} {s s' t : σ} {a : α} :
      effect s op r s' → Runs effect env (next r) s' a t → Runs effect env (call op next) s a t

variable {effect : σ → (op : Op) → Res op → σ → Prop} {env : σ → σ → Prop} {s t : σ}

/-- A run of a sequence has a run of its first part in it. -/
theorem Runs.of_bind {p : Program Res α} {f : α → Program Res β} {b : β}
    (h : Runs effect env (p >>= f) s b t) :
    ∃ a s', Runs effect env p s a s' ∧ Runs effect env (f a) s' b t := by
  generalize hq : p >>= f = q at h
  induction h generalizing p with
  | @done s b =>
    -- a sequence that has returned is one whose first part has
    cases p with
    | done a =>
      rw [done_bind] at hq
      exact ⟨a, s, .done a, hq ▸ .done b⟩
    | call op next =>
      rw [call_bind] at hq
      cases hq
  | env henv _ ih =>
    obtain ⟨a, s', hp, hf⟩ := ih hq
    exact ⟨a, s', .env henv hp, hf⟩
  | @call op next r s s' t b heffect hnext ih =>
    cases p with
    | done a =>
      rw [done_bind] at hq
      exact ⟨a, s, .done a, hq ▸ .call heffect hnext⟩
    | call op' next' =>
      rw [call_bind] at hq
      cases hq
      obtain ⟨a, s₁, hp, hf⟩ := ih rfl
      exact ⟨a, s₁, .call heffect hp, hf⟩

/-- A program whose operations can always be performed can run to its end. -/
theorem exists_runs (h : ∀ s op, ∃ r s', effect s op r s') (p : Program Res α) (s : σ) :
    ∃ a t, Runs effect env p s a t := by
  induction p generalizing s with
  | done a => exact ⟨a, s, .done a⟩
  | call op next ih =>
    obtain ⟨r, s', heffect⟩ := h s op
    obtain ⟨a, t, hrun⟩ := ih r s'
    exact ⟨a, t, .call heffect hrun⟩

/-! ## Triples -/

/-- The environment cannot take a property away. -/
def Stable (env : σ → σ → Prop) (P : σ → Prop) : Prop := ∀ s s', env s s' → P s → P s'

/-- From a state with `P`, the program comes to a state and a result with `Q`. -/
def Triple (effect : σ → (op : Op) → Res op → σ → Prop) (env : σ → σ → Prop) (P : σ → Prop)
    (p : Program Res α) (Q : α → σ → Prop) : Prop :=
  ∀ s a t, P s → Runs effect env p s a t → Q a t

variable {P P' : σ → Prop} {Q : α → σ → Prop}

theorem triple_done {a : α} (hstable : Stable env P) (h : ∀ s, P s → Q a s) :
    Triple effect env P (done a) Q := by
  intro s b t hs hrun
  generalize hq : (done a : Program Res α) = q at hrun
  induction hrun with
  | done b =>
    cases hq
    exact h _ hs
  | env henv _ ih => exact ih (hstable _ _ henv hs) hq
  | call _ _ _ => cases hq

/-- The rule of an operation. -/
theorem triple_call {op : Op} {next : Res op → Program Res α} {M : Res op → σ → Prop}
    (hstable : Stable env P) (hop : ∀ s r s', P s → effect s op r s' → M r s')
    (hnext : ∀ r, Triple effect env (M r) (next r) Q) :
    Triple effect env P (call op next) Q := by
  intro s b t hs hrun
  generalize hq : call op next = q at hrun
  induction hrun with
  | done b => cases hq
  | env henv _ ih => exact ih (hstable _ _ henv hs) hq
  | call heffect hrun _ =>
    cases hq
    exact hnext _ _ _ _ (hop _ _ _ hs heffect) hrun

/-- The rule of sequential composition. -/
theorem Triple.bind {p : Program Res α} {f : α → Program Res β} {R : β → σ → Prop}
    (hp : Triple effect env P p Q) (hf : ∀ a, Triple effect env (Q a) (f a) R) :
    Triple effect env P (p >>= f) R := by
  intro s b t hs hrun
  obtain ⟨a, s', hfirst, hsecond⟩ := hrun.of_bind
  exact hf a s' b t (hp s a s' hs hfirst) hsecond

/-- The rule of consequence. -/
theorem Triple.weaken {p : Program Res α} (h : Triple effect env P' p Q) (hP : ∀ s, P s → P' s) :
    Triple effect env P p Q :=
  fun s a t hs hrun ↦ h s a t (hP s hs) hrun

end SqlReplay.Program
