import Mathlib.Order.Basic
import Mathlib.Algebra.Order.Ring.Int

/-!
# Loops that may panic

A loop of the source as a step on its variables: an iteration panics, leaves the loop with a result,
or goes on with new values. `Loop.run` makes so many iterations and no more, and running out of them
is `none` as a panic is. So a loop that gives a result from enough iterations on has been shown to
end, where a recursive function would have had to be accepted before it could be spoken about.

The rule is `Loop.run_of_invariant`: an invariant under which no iteration panics, and a measure
that each of them decreases.
-/

namespace SqlReplay

variable {σ ρ : Type}

/-- What an iteration comes to. -/
inductive Iteration (σ ρ : Type)
  | next (s : σ)
  | done (r : ρ)

namespace Loop

/-- At most `n` iterations. -/
def run (step : σ → Option (Iteration σ ρ)) : ℕ → σ → Option ρ
  | 0, _ => none
  | n + 1, s =>
    match step s with
    | none => none
    | some (.done r) => some r
    | some (.next s) => run step n s

variable {step : σ → Option (Iteration σ ρ)} {inv : σ → Prop} {measure : σ → ℕ} {post : ρ → Prop}

/-- An iteration from a state that satisfies the invariant: it leaves the loop with a result that
is as it should be, or goes on with the invariant kept and the measure decreased. -/
inductive Progress (inv : σ → Prop) (measure : σ → ℕ) (post : ρ → Prop) (s : σ) :
    Option (Iteration σ ρ) → Prop
  | done {r : ρ} (hr : post r) : Progress inv measure post s (some (.done r))
  | next {s' : σ} (hs : inv s') (hlt : measure s' < measure s) :
    Progress inv measure post s (some (.next s'))

/-- A loop whose iterations make progress ends, and its result is as it should be. -/
theorem run_of_invariant (hstep : ∀ s, inv s → Progress inv measure post s (step s)) (n : ℕ) {s : σ}
    (hs : inv s) (hn : measure s < n) : ∃ r, run step n s = some r ∧ post r := by
  induction n generalizing s with
  | zero => exact absurd hn (Nat.not_lt_zero _)
  | succ n ih =>
    have hprogress := hstep s hs
    rw [run]
    generalize step s = out at hprogress
    cases hprogress with
    | done hr => exact ⟨_, rfl, hr⟩
    | next hs' hlt => exact ih hs' (hlt.trans_le (Nat.le_of_lt_succ hn))

end Loop

end SqlReplay
