import Mathlib.Algebra.Order.BigOperators.Group.Finset
import SqlReplay.Task.Interleave

/-!
# Tasks that come to an end

A program without a loop performs boundedly many operations, whatever the responses are: `Within`
bounds them, with one rule for each way to build a program. Over tasks side by side the bounds add
up (`Tasks.Reachable.length_log_le`), so no schedule goes on for ever. What is left is that tasks
wait for each other in a circle. When it is known of every reachable state that some task can go on,
or that all have returned, then no run stops before its end, and every run can be brought to it
(`Tasks.Reachable.exists_finished`). The environment need not help.
-/

namespace SqlReplay

variable {Op : Type} {Res : Op → Type} {α β σ ι : Type}

namespace Program

/-! ## Bounded programs -/

/-- At most this many operations are performed, whatever the responses. -/
def Within : ℕ → Program Res α → Prop
  | _, done _ => True
  | 0, call _ _ => False
  | n + 1, call _ next => ∀ r, (next r).Within n

variable {m n : ℕ}

theorem within_done (a : α) : (done a : Program Res α).Within n := by
  cases n <;> trivial

/-- Performing an operation. -/
theorem within_perform {op : Op} {f : Res op → Program Res α} (h : ∀ r, (f r).Within n) :
    (perform op >>= f).Within (n + 1) :=
  h

theorem Within.mono {p : Program Res α} (h : p.Within m) (hmn : m ≤ n) : p.Within n := by
  induction p generalizing m n with
  | done a => exact within_done a
  | call op next ih =>
    rcases m with _ | m
    · exact h.elim
    · rcases n with _ | n
      · exact absurd hmn (Nat.not_succ_le_zero m)
      · exact fun r ↦ ih r (h r) (Nat.le_of_succ_le_succ hmn)

/-- The rule of sequential composition. -/
theorem Within.bind {p : Program Res α} {f : α → Program Res β} (h : p.Within m)
    (hf : ∀ a, (f a).Within n) : (p >>= f).Within (m + n) := by
  induction p generalizing m with
  | done a => exact (hf a).mono (Nat.le_add_left n m)
  | call op next ih =>
    rcases m with _ | m
    · exact h.elim
    · rw [Nat.succ_add]
      exact fun r ↦ ih r (h r)

/-- A path is no longer than the bound, and what is left of the program is within the rest of it. -/
theorem Steps.within {p p' : Program Res α} {t : Trace Res} (h : p.Within n)
    (hsteps : Steps p t p') : t.length ≤ n ∧ p'.Within (n - t.length) := by
  induction hsteps with
  | refl => exact ⟨Nat.zero_le n, h⟩
  | @call t op next r _ ih =>
    obtain ⟨hle, hleft⟩ := ih
    rw [List.length_append, List.length_singleton]
    rcases hk : n - t.length with _ | k
    · rw [hk] at hleft
      exact hleft.elim
    · rw [hk] at hleft
      refine ⟨by omega, ?_⟩
      rw [show n - (t.length + 1) = k by omega]
      exact hleft r

end Program

namespace Tasks

/-! ## Runs that end -/

/-- A task can go on. -/
def CanAct (effect : σ → (op : Op) → Res op → σ → Prop) (c : Tasks Res σ ι) (i : ι) : Prop :=
  ∃ op next r s, c.task i = .call op next ∧ effect c.shared op r s

variable [DecidableEq ι] {effect : σ → (op : Op) → Res op → σ → Prop} {env : σ → σ → Prop}
  {s : σ} {task : ι → Program Res Unit} {c : Tasks Res σ ι} {b : ι → ℕ}

/-- No run is longer than the bounds of its tasks together. -/
theorem Reachable.length_log_le [Fintype ι] (hb : ∀ i, (task i).Within (b i))
    (h : Reachable effect env (start s task) c) : c.log.length ≤ ∑ i, b i := by
  have hlength : c.log.length = ∑ i, (c.logOf i).length := by
    have hsum := c.sum_log fun _ ↦ 1
    simp only [List.map_const', List.sum_replicate, smul_eq_mul, mul_one] at hsum
    exact hsum
  rw [hlength]
  exact Finset.sum_le_sum fun i _ ↦ ((h.steps i).within (hb i)).1

/-- What the tasks can do alone, they can do with an environment around them. -/
theorem Reachable.of_tasks {c' : Tasks Res σ ι}
    (h : Reachable effect (fun _ _ ↦ False) c c') : Reachable effect env c c' := by
  refine Relation.ReflTransGen.mono (fun c₁ c₂ hstep ↦ ?_) _ _ h
  cases hstep with
  | act htask heffect => exact .act htask heffect
  | env hfalse => exact hfalse.elim

/-- When every reachable state is one in which a task can go on or all have returned, every run can
be brought to its end by the tasks alone. -/
theorem Reachable.exists_finished [Fintype ι] (hb : ∀ i, (task i).Within (b i))
    (hprogress : ∀ c, Reachable effect env (start s task) c →
      c.Finished ∨ ∃ i, c.CanAct effect i)
    (h : Reachable effect env (start s task) c) :
    ∃ c', Reachable effect (fun _ _ ↦ False) c c' ∧ c'.Finished := by
  -- by induction on the operations that the bounds leave
  induction hk : (∑ i, b i) - c.log.length generalizing c with
  | zero =>
    rcases hprogress c h with hfinished | ⟨i, op, next, r, s', htask, heffect⟩
    · exact ⟨c, .refl, hfinished⟩
    · have hle := Reachable.length_log_le hb (h.tail (.act htask heffect))
      rw [List.length_append, List.length_singleton] at hle
      omega
  | succ k ih =>
    rcases hprogress c h with hfinished | ⟨i, op, next, r, s', htask, heffect⟩
    · exact ⟨c, .refl, hfinished⟩
    · obtain ⟨c', hrun, hfinished⟩ := ih (h.tail (.act htask heffect)) (by
        rw [List.length_append, List.length_singleton]
        omega)
      exact ⟨c', .head (.act htask heffect) hrun, hfinished⟩

end Tasks

end SqlReplay
