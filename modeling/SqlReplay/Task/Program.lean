import Mathlib.Data.List.Basic

/-!
# Effect programs

The body of an asynchronous task, as a tree: it returns, or it performs an operation and goes on
with the response. What an operation does to the rest of the world is not the tree's business, and
every response of the operation's type has a branch, so a statement about all branches holds
whatever the world does.

A path through the tree is a `Trace`, the operations performed with their responses. What one wants
to know of a task is mostly about a few of its operations: `view` maps an operation and its response
to the observations made of it. `Ensures` is the weakest precondition of a postcondition on the
observations of a whole run, with one rule for each way to build a program; `Program.Steps` is the
path itself, and `Steps.ensures` says that the two agree.
-/

namespace SqlReplay

/-- A program over the operations `Op`, where `op` has responses of type `Res op`. -/
inductive Program {Op : Type} (Res : Op → Type) (α : Type) where
  | done (a : α)
  | call (op : Op) (next : Res op → Program Res α)

/-- The operations of a run, each with its response. -/
abbrev Trace {Op : Type} (Res : Op → Type) := List ((op : Op) × Res op)

namespace Program

variable {Op : Type} {Res : Op → Type} {α β : Type}

/-- Perform an operation and return its response. -/
def perform (op : Op) : Program Res (Res op) := call op done

protected def bind : Program Res α → (α → Program Res β) → Program Res β
  | done a, f => f a
  | call op next, f => call op fun r ↦ (next r).bind f

instance : Monad (Program Res) where
  pure := done
  bind := Program.bind

@[simp]
theorem pure_eq (a : α) : (pure a : Program Res α) = done a := rfl

@[simp]
theorem done_bind (a : α) (f : α → Program Res β) : done a >>= f = f a := rfl

@[simp]
theorem call_bind (op : Op) (next : Res op → Program Res α) (f : α → Program Res β) :
    call op next >>= f = call op fun r ↦ next r >>= f := rfl

@[simp]
theorem perform_bind (op : Op) (f : Res op → Program Res β) : perform op >>= f = call op f := rfl

/-- The program has returned. -/
def isDone : Program Res α → Bool
  | done _ => true
  | call _ _ => false

theorem eq_done_of_isDone {p : Program Res α} (h : p.isDone = true) : ∃ a, p = done a := by
  cases p with
  | done a => exact ⟨a, rfl⟩
  | call op next => nomatch h

/-! ## Observations -/

variable {V : Type}

/-- Whatever the responses, the observations of a whole run and its result meet `Q`. -/
def Ensures (view : (op : Op) → Res op → List V) :
    Program Res α → (List V → α → Prop) → Prop
  | done a, Q => Q [] a
  | call op next, Q => ∀ r, (next r).Ensures view fun l a ↦ Q (view op r ++ l) a

variable {view : (op : Op) → Res op → List V}

@[simp]
theorem ensures_done (a : α) (Q : List V → α → Prop) :
    (done a : Program Res α).Ensures view Q ↔ Q [] a := Iff.rfl

/-- Performing one operation. -/
theorem ensures_perform {op : Op} {f : Res op → Program Res α} {Q : List V → α → Prop} :
    (perform op >>= f).Ensures view Q ↔
      ∀ r, (f r).Ensures view fun l a ↦ Q (view op r ++ l) a := Iff.rfl

/-- Performing an operation that is not observed. -/
theorem ensures_hidden {op : Op} (hidden : ∀ r, view op r = []) {f : Res op → Program Res α}
    {Q : List V → α → Prop} :
    (perform op >>= f).Ensures view Q ↔ ∀ r, (f r).Ensures view Q := by
  simp only [ensures_perform, hidden, List.nil_append]

theorem Ensures.mono {p : Program Res α} {Q Q' : List V → α → Prop} (h : p.Ensures view Q)
    (hQ : ∀ l a, Q l a → Q' l a) : p.Ensures view Q' := by
  induction p generalizing Q Q' with
  | done a => exact hQ _ _ h
  | call op next ih => exact fun r ↦ ih r (h r) fun l a ↦ hQ _ a

/-- The rule of sequential composition. -/
theorem ensures_bind {p : Program Res α} {f : α → Program Res β} {Q : List V → β → Prop} :
    (p >>= f).Ensures view Q ↔
      p.Ensures view fun l a ↦ (f a).Ensures view fun l' b ↦ Q (l ++ l') b := by
  induction p generalizing Q with
  | done a => exact Iff.rfl
  | call op next ih =>
    refine forall_congr' fun r ↦ ?_
    simp only [List.append_assoc]
    exact ih r

/-- A coarser view sees what is kept of the finer one. -/
theorem ensures_filterMap {W : Type} {g : V → Option W} {p : Program Res α}
    {Q : List W → α → Prop} :
    (p.Ensures (fun op r ↦ (view op r).filterMap g) Q) ↔
      p.Ensures view fun l a ↦ Q (l.filterMap g) a := by
  induction p generalizing Q with
  | done a => exact Iff.rfl
  | call op next ih =>
    refine forall_congr' fun r ↦ ?_
    simp only [List.filterMap_append]
    exact ih r

/-! ## Paths -/

/-- The observations of a trace. -/
def observe (view : (op : Op) → Res op → List V) (t : Trace Res) : List V :=
  t.flatMap fun e ↦ view e.1 e.2

/-- The trace leads from one program to what is left of it. -/
inductive Steps (p : Program Res α) : Trace Res → Program Res α → Prop
  | refl : Steps p [] p
  | call {t : Trace Res} {op : Op} {next : Res op → Program Res α} (r : Res op) :
      Steps p t (call op next) → Steps p (t ++ [⟨op, r⟩]) (next r)

theorem Steps.ensures {p p' : Program Res α} {t : Trace Res} {Q : List V → α → Prop}
    (h : p.Ensures view Q) (hsteps : Steps p t p') :
    p'.Ensures view fun l a ↦ Q (observe view t ++ l) a := by
  induction hsteps with
  | refl => exact h
  | @call t op next r _ ih =>
    refine (ih r).mono fun l a hQ ↦ ?_
    rw [observe, List.flatMap_append, List.flatMap_singleton, List.append_assoc]
    exact hQ

/-- A finished run meets the postcondition. -/
theorem Steps.ensures_done {p : Program Res α} {t : Trace Res} {a : α} {Q : List V → α → Prop}
    (h : p.Ensures view Q) (hsteps : Steps p t (done a)) : Q (observe view t) a := by
  have hdone := hsteps.ensures h
  rwa [Program.ensures_done, List.append_nil] at hdone

/-- When every operation has a response, every program can run to its end. -/
theorem exists_of_ensures [∀ op, Nonempty (Res op)] {p : Program Res α}
    {Q : List V → α → Prop} (h : p.Ensures view Q) : ∃ l a, Q l a := by
  induction p generalizing Q with
  | done a => exact ⟨[], a, h⟩
  | call op next ih =>
    obtain ⟨r⟩ := (inferInstance : Nonempty (Res op))
    obtain ⟨l, a, hQ⟩ := ih r (h r)
    exact ⟨_, a, hQ⟩

/-- What holds of the observations of every finished run, and of all their beginnings, holds at any
moment of an unfinished one. -/
theorem Steps.observe_of_front [∀ op, Nonempty (Res op)] {p p' : Program Res α} {t : Trace Res}
    {P : List V → Prop} (hfront : ∀ l l', P (l ++ l') → P l)
    (h : p.Ensures view fun l _ ↦ P l) (hsteps : Steps p t p') : P (observe view t) := by
  obtain ⟨l, -, hP⟩ := exists_of_ensures (hsteps.ensures h)
  exact hfront _ l hP

end Program

end SqlReplay
