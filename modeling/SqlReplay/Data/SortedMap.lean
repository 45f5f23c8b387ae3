import Mathlib.Data.List.Pairwise
import Mathlib.Algebra.Order.Ring.Int

/-!
# Sorted maps

A map kept as its entries in increasing order of the keys, with the two operations a reorder
buffer needs: inserting under a vacant key, and popping the entry with the least key. Sortedness
is a field, so a map with two entries under one key cannot be built, and the least entry is the
head.
-/

namespace SqlReplay

/-- A finite map from `α` to `β`, its entries sorted by key. -/
@[ext]
structure SortedMap (α β : Type*) [LinearOrder α] where
  entries : List (α × β)
  sorted : entries.Pairwise (·.1 < ·.1)

namespace SortedMap

variable {α β : Type*} [LinearOrder α]

instance : Membership (α × β) (SortedMap α β) := ⟨fun m e ↦ e ∈ m.entries⟩

theorem mem_def {m : SortedMap α β} {e : α × β} : e ∈ m ↔ e ∈ m.entries := Iff.rfl

/-- The map without entries. -/
def empty : SortedMap α β := ⟨[], List.Pairwise.nil⟩

@[simp]
theorem not_mem_empty (e : α × β) : e ∉ (empty : SortedMap α β) := List.not_mem_nil

/-! ## Inserting under a vacant key -/

/-- No entry lies under the key. -/
def Vacant (m : SortedMap α β) (k : α) : Prop := ∀ e ∈ m, e.1 ≠ k

instance (m : SortedMap α β) (k : α) : Decidable (m.Vacant k) :=
  inferInstanceAs (Decidable (∀ e ∈ m.entries, e.1 ≠ k))

/-- The entries with `(k, v)` in its place, unless the key is there. -/
def insertEntries (k : α) (v : β) : List (α × β) → List (α × β)
  | [] => [(k, v)]
  | e :: es =>
    if k < e.1 then (k, v) :: e :: es else if k = e.1 then e :: es else e :: insertEntries k v es

theorem mem_insertEntries_imp {k : α} {v : β} {es : List (α × β)} {e : α × β}
    (h : e ∈ insertEntries k v es) : e = (k, v) ∨ e ∈ es := by
  induction es with
  | nil => exact Or.inl (List.mem_singleton.mp h)
  | cons f es ih =>
    rw [insertEntries] at h
    split_ifs at h
    · exact List.mem_cons.mp h
    · exact Or.inr h
    · rcases List.mem_cons.mp h with rfl | h
      · exact Or.inr List.mem_cons_self
      · exact (ih h).imp_right (List.mem_cons_of_mem _)

theorem sorted_insertEntries (k : α) (v : β) {es : List (α × β)}
    (h : es.Pairwise (·.1 < ·.1)) : (insertEntries k v es).Pairwise (·.1 < ·.1) := by
  induction es with
  | nil => exact List.pairwise_singleton _ _
  | cons e es ih =>
    obtain ⟨he, hes⟩ := List.pairwise_cons.mp h
    rw [insertEntries]
    split_ifs with hlt heq
    · refine List.pairwise_cons.mpr ⟨fun f hf ↦ ?_, h⟩
      rcases List.mem_cons.mp hf with rfl | hf
      · exact hlt
      · exact hlt.trans (he f hf)
    · exact h
    · refine List.pairwise_cons.mpr ⟨fun f hf ↦ ?_, ih hes⟩
      rcases mem_insertEntries_imp hf with rfl | hf
      · exact lt_of_le_of_ne (not_lt.mp hlt) (Ne.symm heq)
      · exact he f hf

/-- The map with `v` under `k`, which is left alone when the key is occupied. -/
def insertVacant (m : SortedMap α β) (k : α) (v : β) : SortedMap α β :=
  ⟨insertEntries k v m.entries, sorted_insertEntries k v m.sorted⟩

/-- A vacant key adds its entry to the others. -/
theorem insertVacant_perm {m : SortedMap α β} {k : α} (h : m.Vacant k) (v : β) :
    (m.insertVacant k v).entries.Perm ((k, v) :: m.entries) := by
  obtain ⟨es, hes⟩ := m
  change (insertEntries k v es).Perm ((k, v) :: es)
  replace h : ∀ e ∈ es, e.1 ≠ k := h
  clear hes
  induction es with
  | nil => exact List.Perm.refl _
  | cons f es ih =>
    rw [insertEntries]
    have hne : k ≠ f.1 := (h f List.mem_cons_self).symm
    by_cases hlt : k < f.1
    · rw [if_pos hlt]
    · have hperm := ih fun e he ↦ h e (List.mem_cons_of_mem _ he)
      rw [if_neg hlt, if_neg hne]
      exact (hperm.cons f).trans (List.Perm.swap _ _ _)

theorem mem_insertVacant {m : SortedMap α β} {k : α} (h : m.Vacant k) (v : β) {e : α × β} :
    e ∈ m.insertVacant k v ↔ e = (k, v) ∨ e ∈ m := by
  rw [mem_def, (insertVacant_perm h v).mem_iff, List.mem_cons, mem_def]

/-! ## Popping the least entry -/

/-- The entry with the least key and the map without it. -/
def popFirst (m : SortedMap α β) : Option ((α × β) × SortedMap α β) :=
  match m with
  | ⟨[], _⟩ => none
  | ⟨e :: es, h⟩ => some (e, ⟨es, (List.pairwise_cons.mp h).2⟩)

theorem eq_empty_of_popFirst {m : SortedMap α β} (h : m.popFirst = none) : m = empty := by
  obtain ⟨es, hes⟩ := m
  cases es with
  | nil => rfl
  | cons e es => exact absurd h (Option.some_ne_none _)

section

variable {m m' : SortedMap α β} {e : α × β}

theorem entries_of_popFirst (h : m.popFirst = some (e, m')) : m.entries = e :: m'.entries := by
  obtain ⟨es, hes⟩ := m
  cases es with
  | nil => nomatch h
  | cons f es =>
    obtain ⟨rfl, rfl⟩ := Prod.mk.inj (Option.some.inj h)
    rfl

theorem mem_of_popFirst (h : m.popFirst = some (e, m')) {f : α × β} :
    f ∈ m ↔ f = e ∨ f ∈ m' := by
  rw [mem_def, entries_of_popFirst h, List.mem_cons, mem_def]

/-- What is left lies strictly above what was popped. -/
theorem lt_of_popFirst (h : m.popFirst = some (e, m')) {f : α × β} (hf : f ∈ m') :
    e.1 < f.1 := by
  have hsorted := m.sorted
  rw [entries_of_popFirst h] at hsorted
  exact (List.pairwise_cons.mp hsorted).1 f hf

theorem length_of_popFirst (h : m.popFirst = some (e, m')) :
    m'.entries.length < m.entries.length := by
  rw [entries_of_popFirst h, List.length_cons]
  exact Nat.lt_succ_self _

end

end SortedMap

end SqlReplay
