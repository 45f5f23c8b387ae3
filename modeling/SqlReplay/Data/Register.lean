import Mathlib.Data.Option.Basic
import Mathlib.Data.List.Basic
import Mathlib.Tactic.SplitIfs

/-!
# Registers

A register holds a value or nothing. A section of a history may write it, reads it behind its own
write, and may clear it at its end. What a later section reads then depends on what the register
held before if and only if nothing in between wrote or cleared it and the section does not write it
itself. Where the history leaves a register alone, its old value leaks.
-/

namespace SqlReplay

/-- What a section does to a register. -/
structure RegisterOp (α : Type*) where
  write : Option α
  clears : Bool

namespace RegisterOp

variable {α : Type*}

/-- What a section reads, behind its own write. -/
def read (op : RegisterOp α) (v : Option α) : Option α := op.write.or v

/-- What it leaves. -/
def after (op : RegisterOp α) (v : Option α) : Option α := if op.clears then none else op.read v

/-- What sections leave, one after the other. -/
def run (ops : List (RegisterOp α)) (v : Option α) : Option α := ops.foldl (fun v op ↦ op.after v) v

/-- A section writes the register or clears it. -/
def Shields (ops : List (RegisterOp α)) : Prop :=
  ∃ op ∈ ops, op.write.isSome = true ∨ op.clears = true

variable {op : RegisterOp α} {ops : List (RegisterOp α)}

theorem shields_cons : Shields (op :: ops) ↔
    (op.write.isSome = true ∨ op.clears = true) ∨ Shields ops := by
  rw [Shields, List.exists_mem_cons_iff, Shields]

theorem read_of_write (h : op.write.isSome = true) (v w : Option α) : op.read v = op.read w := by
  obtain ⟨x, hx⟩ := Option.isSome_iff_exists.mp h
  rw [read, read, hx, Option.some_or, Option.some_or]

theorem read_of_not_write (h : ¬op.write.isSome = true) (v : Option α) : op.read v = v := by
  rw [read, Option.not_isSome_iff_eq_none.mp h, Option.none_or]

theorem after_of_shields (h : op.write.isSome = true ∨ op.clears = true) (v w : Option α) :
    op.after v = op.after w := by
  rw [after, after]
  split_ifs with hclears
  · rfl
  · exact read_of_write (h.resolve_right hclears) v w

theorem run_of_shields (h : Shields ops) (v w : Option α) : run ops v = run ops w := by
  induction ops generalizing v w with
  | nil =>
    obtain ⟨op, hop, -⟩ := h
    exact absurd hop List.not_mem_nil
  | cons op ops ih =>
    rcases shields_cons.mp h with hop | hops
    · rw [run, List.foldl_cons, after_of_shields hop v w]
      rfl
    · exact ih hops _ _

theorem run_of_not_shields (h : ¬Shields ops) (v : Option α) : run ops v = v := by
  induction ops with
  | nil => rfl
  | cons op ops ih =>
    rw [shields_cons, not_or, not_or] at h
    have hafter : op.after v = v := by
      rw [after, if_neg h.1.2]
      exact read_of_not_write h.1.1 v
    rw [run, List.foldl_cons, hafter]
    exact ih h.2

/-- What a section reads behind others does not depend on what the register held before. -/
theorem read_run_of_shields (h : op.write.isSome = true ∨ Shields ops) (v w : Option α) :
    op.read (run ops v) = op.read (run ops w) := by
  rcases h with h | h
  · exact read_of_write h _ _
  · rw [run_of_shields h v w]

/-- It is what the register held before. -/
theorem read_run_of_not_shields (h : ¬(op.write.isSome = true ∨ Shields ops)) (v : Option α) :
    op.read (run ops v) = v := by
  rw [not_or] at h
  rw [read_of_not_write h.1, run_of_not_shields h.2]

end RegisterOp

end SqlReplay
