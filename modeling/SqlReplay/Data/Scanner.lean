import Mathlib.Data.List.Infix

/-!
# Scanners and what they visit

A scanner is a loop over a text. In each turn it looks at what is left, says what kind of text
stands at the head of it, and goes on behind some part of that, or returns. A `Scanner` is the turn
of such a loop; `run` is the loop, with the state it ends in and the kind that it gave to each
position it moved over.

Two scanners that cut a text at different places may still agree on what is in it. The rule for
that is `labels_of_step`: if a labelling of texts is such that each turn moves over positions that
bear the label it gives them, then the whole run does. Scanners that run under one labelling agree
with each other, whatever their states and wherever their turns end.
-/

namespace SqlReplay

variable {σ τ κ : Type*}

/-- One label for the positions of a text before its suffix `after`. -/
def span (b after : List τ) (k : κ) : List κ := List.replicate (b.length - after.length) k

@[simp] theorem span_self (b : List τ) (k : κ) : span b b k = [] := by
  rw [span, Nat.sub_self, List.replicate_zero]

theorem span_cons {b after : List τ} (h : after <:+ b) (c : τ) (k : κ) :
    span (c :: b) after k = k :: span b after k := by
  rw [span, span, List.length_cons, Nat.succ_sub h.length_le, List.replicate_succ]

theorem span_append (p after : List τ) (k : κ) :
    span (p ++ after) after k = List.replicate p.length k := by
  rw [span, List.length_append, Nat.add_sub_cancel]

theorem span_append_right (b after t : List τ) (k : κ) :
    span (b ++ t) (after ++ t) k = span b after k := by
  rw [span, List.length_append, List.length_append, Nat.add_sub_add_right, span]

theorem span_trans {b mid after : List τ} (h : mid <:+ b) (h' : after <:+ mid) (k : κ) :
    span b after k = span b mid k ++ span mid after k := by
  rw [span, span, span, ← List.replicate_add]
  congr 1
  have := h.length_le
  have := h'.length_le
  omega

theorem length_span {b after : List τ} (h : after <:+ b) (k : κ) :
    (span b after k).length + after.length = b.length := by
  rw [span, List.length_replicate, Nat.sub_add_cancel h.length_le]

/-- The turn of a loop over a text. It gives the kind of what it moves over, and unless the loop
returns the next state and what is left. -/
structure Scanner (σ τ κ : Type*) where
  step : σ → τ → List τ → κ × Option (σ × List τ)
  step_suffix : ∀ {s c rest k s' after}, step s c rest = (k, some (s', after)) → after <:+ rest

namespace Scanner

/-- The loop: the state at the end of the text, or none where it returned before, and the kinds of
the positions that it moved over. -/
def run (m : Scanner σ τ κ) (s : σ) : List τ → Option σ × List κ
  | [] => (some s, [])
  | c :: rest =>
    match _h : m.step s c rest with
    | (_, none) => (none, [])
    | (k, some (s', after)) =>
      ((m.run s' after).1, span (c :: rest) after k ++ (m.run s' after).2)
termination_by b => b.length
decreasing_by
  all_goals exact Nat.lt_succ_of_le (m.step_suffix _h).length_le

/-- The state that the loop ends in. -/
def final (m : Scanner σ τ κ) (s : σ) (b : List τ) : Option σ := (m.run s b).1

/-- The kinds that the loop gives to the positions it visits. -/
def visits (m : Scanner σ τ κ) (s : σ) (b : List τ) : List κ := (m.run s b).2

variable {m : Scanner σ τ κ} {s s' : σ} {c : τ} {rest after : List τ} {k : κ}

@[simp] theorem final_nil (m : Scanner σ τ κ) (s : σ) : m.final s [] = some s := by
  rw [final, run]

@[simp] theorem visits_nil (m : Scanner σ τ κ) (s : σ) : m.visits s [] = [] := by
  rw [visits, run]

theorem run_of_return (h : m.step s c rest = (k, none)) : m.run s (c :: rest) = (none, []) := by
  rw [run]
  split
  · rfl
  · next heq => cases h.symm.trans heq

theorem run_of_step (h : m.step s c rest = (k, some (s', after))) :
    m.run s (c :: rest) =
      ((m.run s' after).1, span (c :: rest) after k ++ (m.run s' after).2) := by
  rw [run]
  split
  · next heq => cases h.symm.trans heq
  · next heq =>
    obtain ⟨rfl, hnext⟩ := Prod.mk.inj (h.symm.trans heq)
    obtain ⟨rfl, rfl⟩ := Prod.mk.inj (Option.some.inj hnext)
    rfl

theorem final_of_return (h : m.step s c rest = (k, none)) : m.final s (c :: rest) = none := by
  rw [final, run_of_return h]

theorem visits_of_return (h : m.step s c rest = (k, none)) : m.visits s (c :: rest) = [] := by
  rw [visits, run_of_return h]

theorem final_of_step (h : m.step s c rest = (k, some (s', after))) :
    m.final s (c :: rest) = m.final s' after := by rw [final, run_of_step h, final]

theorem visits_of_step (h : m.step s c rest = (k, some (s', after))) :
    m.visits s (c :: rest) = span (c :: rest) after k ++ m.visits s' after := by
  rw [visits, run_of_step h, visits]

/-- Induction along the loop. -/
theorem induction {motive : σ → List τ → Prop} (m : Scanner σ τ κ)
    (nil : ∀ s, motive s [])
    (returns : ∀ s c rest k, m.step s c rest = (k, none) → motive s (c :: rest))
    (step : ∀ s c rest k s' after, m.step s c rest = (k, some (s', after)) → motive s' after →
      motive s (c :: rest)) (s : σ) (b : List τ) : motive s b := by
  induction hn : b.length using Nat.strong_induction_on generalizing s b with
  | _ n ih =>
  subst hn
  match b with
  | [] => exact nil s
  | c :: rest =>
    rcases hstep : m.step s c rest with ⟨k, _ | ⟨s', after⟩⟩
    · exact returns s c rest k hstep
    · have hlt := Nat.lt_succ_of_le (m.step_suffix hstep).length_le
      exact step s c rest k s' after hstep (ih _ hlt s' after rfl)

/-- **Scanners under a labelling.** Each turn moves over positions that bear the label it gives
them; then the loop gives every position it visits its label, and a loop that does not return visits
them all. `P` is what is known of the text, and of what is left of it in every turn. -/
theorem labels_of_step (m : Scanner σ τ κ) {labels : List τ → List κ} {P : List τ → Prop}
    (hP : ∀ b after, P b → after <:+ b → P after) (hnil : labels [] = [])
    (hstep : ∀ s c rest k s' after, P (c :: rest) → m.step s c rest = (k, some (s', after)) →
      labels (c :: rest) = span (c :: rest) after k ++ labels after)
    (s : σ) {b : List τ} (hb : P b) :
    m.visits s b <+: labels b ∧ ((m.final s b).isSome → m.visits s b = labels b) := by
  induction s, b using m.induction with
  | nil s =>
    rw [visits_nil, hnil]
    exact ⟨List.prefix_refl _, fun _ ↦ rfl⟩
  | returns s c rest k h =>
    rw [visits_of_return h, final_of_return h]
    exact ⟨List.nil_prefix, fun h ↦ absurd h Bool.false_ne_true⟩
  | step s c rest k s' after h ih =>
    have hafter := hP _ _ hb ((m.step_suffix h).trans (List.suffix_cons c rest))
    obtain ⟨hstart, hall⟩ := ih hafter
    rw [visits_of_step h, final_of_step h, hstep s c rest k s' after hb h]
    exact ⟨(List.prefix_append_right_inj _).mpr hstart, fun hsome ↦ by rw [hall hsome]⟩

end Scanner

end SqlReplay
