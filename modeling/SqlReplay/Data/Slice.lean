import Mathlib.Data.List.Basic
import Mathlib.Order.Bounds.Basic

/-!
# Slices of a stream, and its covered prefix

A receiver that puts a stream together from slices of it has two questions to answer: are the
bytes it appends the next bytes of the stream, and how far could it have come. The first is about
`IsSlice`: what a slice says from position `n` on extends the prefix of length `n`. The second is
about a set of positions: the longest prefix inside it ends at its first gap.
-/

namespace SqlReplay

variable {α : Type*}

/-- `d` is what stands in `S` from position `o` on. -/
def IsSlice (S : List α) (o : ℕ) (d : List α) : Prop :=
  ∃ before after, S = before ++ d ++ after ∧ before.length = o

namespace IsSlice

variable {S : List α} {o : ℕ} {d : List α}

theorem end_le (h : IsSlice S o d) : o + d.length ≤ S.length := by
  obtain ⟨before, after, rfl, rfl⟩ := h
  rw [List.length_append, List.length_append]
  exact Nat.le_add_right _ _

theorem take_end (h : IsSlice S o d) : S.take (o + d.length) = S.take o ++ d := by
  obtain ⟨before, after, rfl, rfl⟩ := h
  rw [← List.length_append, List.take_left, List.append_assoc, List.take_left]

/-- The bytes of a slice from position `n` on extend the prefix of length `n`. -/
theorem take_append_drop (h : IsSlice S o d) {n : ℕ} (ho : o ≤ n) (hn : n ≤ o + d.length) :
    S.take n ++ d.drop (n - o) = S.take (o + d.length) := by
  have hsplit : S.take n = S.take o ++ d.take (n - o) := by
    have htake := congrArg (List.take n) h.take_end
    have hlen : (S.take o).length = o :=
      List.length_take_of_le ((Nat.le_add_right o _).trans h.end_le)
    rw [List.take_take, min_eq_left hn, List.take_append, hlen,
      List.take_of_length_le (hlen.le.trans ho)] at htake
    exact htake
  rw [hsplit, List.append_assoc, List.take_append_drop, h.take_end]

/-- Every stretch of a list is a slice of it. -/
theorem of_take_drop {S : List α} {o n : ℕ} (h : o ≤ S.length) :
    IsSlice S o ((S.drop o).take n) := by
  refine ⟨S.take o, (S.drop o).drop n, ?_, List.length_take_of_le h⟩
  rw [List.append_assoc, List.take_append_drop, List.take_append_drop]

end IsSlice

/-- The longest prefix of positions inside `P` ends at the first position outside. -/
theorem isGreatest_prefix {P : ℕ → Prop} {n : ℕ} (hbelow : ∀ p < n, P p) (hn : ¬P n) :
    IsGreatest {m | ∀ p < m, P p} n := by
  refine ⟨hbelow, fun m hm ↦ ?_⟩
  by_contra hlt
  exact hn (hm n (not_le.mp hlt))

end SqlReplay
