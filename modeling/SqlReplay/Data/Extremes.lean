import Mathlib.Order.Bounds.Basic
import Mathlib.Order.MinMax

/-!
# Running extremes

A minimum kept while going through a list, from a start that is usually the greatest value there is:
the fold gives the least of the entries and the start, and with an entry the start does not show.
-/

namespace SqlReplay

variable {α : Type*} [LinearOrder α]

/-- A running minimum is the least of the entries and the start. -/
theorem isLeast_foldl_min (l : List α) (a : α) : IsLeast {b | b = a ∨ b ∈ l} (l.foldl min a) := by
  induction l generalizing a with
  | nil => exact ⟨Or.inl rfl, fun b hb ↦ (hb.resolve_right List.not_mem_nil).ge⟩
  | cons x l ih =>
    rw [List.foldl_cons]
    obtain ⟨hmem, hle⟩ := ih (min a x)
    have hmin : l.foldl min (min a x) ≤ min a x := hle (Or.inl rfl)
    constructor
    · rcases hmem with h | h
      · rcases min_choice a x with hx | hx
        · exact Or.inl (h.trans hx)
        · exact Or.inr (List.mem_cons.mpr (Or.inl (h.trans hx)))
      · exact Or.inr (List.mem_cons_of_mem x h)
    · rintro b (rfl | hb)
      · exact hmin.trans (min_le_left _ _)
      · rcases List.mem_cons.mp hb with rfl | hb
        · exact hmin.trans (min_le_right _ _)
        · exact hle (Or.inr hb)

/-- With entries, none above the start, it is the least of the entries. -/
theorem isLeast_foldl_min_of_le {l : List α} {a : α} (hl : l ≠ []) (ha : ∀ b ∈ l, b ≤ a) :
    IsLeast {b | b ∈ l} (l.foldl min a) := by
  obtain ⟨hmem, hle⟩ := isLeast_foldl_min l a
  refine ⟨?_, fun b hb ↦ hle (Or.inr hb)⟩
  rcases hmem with hstart | hmem
  · obtain ⟨b, hb⟩ := List.exists_mem_of_ne_nil l hl
    have heq : l.foldl min a = b := (hle (Or.inr hb)).antisymm (hstart.symm ▸ ha b hb)
    rw [heq]
    exact hb
  · exact hmem

/-- With entries, none below the start, it is the greatest of the entries. -/
theorem isGreatest_foldl_max_of_le {l : List α} {a : α} (hl : l ≠ []) (ha : ∀ b ∈ l, a ≤ b) :
    IsGreatest {b | b ∈ l} (l.foldl max a) :=
  isLeast_foldl_min_of_le (α := αᵒᵈ) hl ha

end SqlReplay
