import Mathlib.Data.List.GetD
import Mathlib.Data.List.Pairwise
import Mathlib.Order.Lattice
import Mathlib.Order.Defs.LinearOrder
import Mathlib.Data.Nat.Init

/-!
# Samples and medians

A `Sample` is a list with an entry, so that what is taken of one (its first entry, its median) is
there. The median sorts and takes the middle entry, or of the two middle entries what `mid` makes of
them; any `mid` that stays between its arguments will do, so the rounding mean of integers and the
exact mean of a field are both instances.

Two facts carry everything said about medians. The sorted list of a sample does not depend on the
order of its entries (`sorted_perm`), and a median has an entry on either side of it
(`between_median`); that the median of equal entries is that entry is a case of the second.
-/

namespace SqlReplay

/-- A list with a first entry. -/
structure Sample (α : Type*) where
  first : α
  rest : List α
  deriving DecidableEq, Repr

namespace Sample

variable {α β : Type*}

def toList (s : Sample α) : List α := s.first :: s.rest

def single (a : α) : Sample α := ⟨a, []⟩

/-- One more entry at the end. -/
def push (s : Sample α) (a : α) : Sample α := ⟨s.first, s.rest ++ [a]⟩

def map (f : α → β) (s : Sample α) : Sample β := ⟨f s.first, s.rest.map f⟩

/-- The sample of a list that has an entry. -/
def ofList? : List α → Option (Sample α)
  | [] => none
  | a :: l => some ⟨a, l⟩

variable {s : Sample α} {l : List α}

theorem first_mem (s : Sample α) : s.first ∈ s.toList := List.mem_cons_self

theorem toList_map (f : α → β) (s : Sample α) : (s.map f).toList = s.toList.map f := rfl

theorem mem_map {f : α → β} {b : β} : b ∈ (s.map f).toList ↔ ∃ a ∈ s.toList, f a = b := by
  rw [toList_map]
  exact List.mem_map

theorem ofList?_eq_some : ofList? l = some s ↔ s.toList = l := by
  cases l with
  | nil => exact iff_of_false (Option.some_ne_none s).symm (List.cons_ne_nil _ _)
  | cons a l =>
    constructor
    · intro h
      exact Option.some.inj h ▸ rfl
    · intro h
      rw [← h]
      rfl

theorem ofList?_eq_none : ofList? l = none ↔ l = [] := by
  cases l with
  | nil => exact iff_of_true rfl rfl
  | cons a l => exact iff_of_false (Option.some_ne_none _) (List.cons_ne_nil _ _)

/-- One entry more, at the end of the list: the sample grows, or begins. -/
theorem ofList?_concat (l : List α) (a : α) :
    ofList? (l ++ [a]) = some (((ofList? l).map fun s ↦ s.push a).getD (single a)) := by
  cases l <;> rfl

end Sample

/-- A value with an entry of the list on either side. -/
def Between {α : Type*} [LE α] (m : α) (l : List α) : Prop := (∃ a ∈ l, a ≤ m) ∧ ∃ b ∈ l, m ≤ b

theorem Between.of_mem {α : Type*} [Preorder α] {m : α} {l : List α} (h : m ∈ l) : Between m l :=
  ⟨⟨m, h, le_rfl⟩, m, h, le_rfl⟩

/-- Among equal entries only that entry is between. -/
theorem Between.eq {α : Type*} [PartialOrder α] {m c : α} {l : List α} (h : Between m l)
    (hc : ∀ a ∈ l, a = c) : m = c := by
  obtain ⟨⟨a, ha, ham⟩, b, hb, hmb⟩ := h
  exact ((hc b hb) ▸ hmb).antisymm ((hc a ha) ▸ ham)

/-- A choice between two values in order. -/
def IsMid {α : Type*} [LE α] (mid : α → α → α) : Prop := ∀ a b, a ≤ b → a ≤ mid a b ∧ mid a b ≤ b

theorem isMid_nat : IsMid fun a b : ℕ ↦ (a + b) / 2 := by
  intro a b h
  change a ≤ (a + b) / 2 ∧ (a + b) / 2 ≤ b
  omega

section Median

variable {α : Type*} {mid : α → α → α}

/-- The middle entry of a list, or what `mid` makes of the two middle entries. -/
def middle (mid : α → α → α) (d : α) (v : List α) : α :=
  if v.length % 2 = 1 then v.getD (v.length / 2) d
  else mid (v.getD (v.length / 2 - 1) d) (v.getD (v.length / 2) d)

/-- With an entry, the middle does not depend on the default. -/
theorem middle_default {v : List α} (hv : v ≠ []) (d d' : α) :
    middle mid d v = middle mid d' v := by
  have hlen : 0 < v.length := List.length_pos_iff.mpr hv
  have hget (i : ℕ) (hi : i < v.length) : v.getD i d = v.getD i d' := by
    rw [List.getD_eq_getElem _ _ hi, List.getD_eq_getElem _ _ hi]
  unfold middle
  rw [hget (v.length / 2) (by omega), hget (v.length / 2 - 1) (by omega)]

variable [LinearOrder α] {s s' : Sample α}

/-- The entries in order. -/
def Sample.sorted (s : Sample α) : List α := s.toList.mergeSort

/-- The median. -/
def median (mid : α → α → α) (s : Sample α) : α := middle mid s.first s.sorted

theorem Sample.sorted_perm_toList (s : Sample α) : s.sorted.Perm s.toList :=
  List.mergeSort_perm _ _

theorem Sample.pairwise_sorted (s : Sample α) : s.sorted.Pairwise (· ≤ ·) := by
  have h : s.sorted.Pairwise fun a b ↦ decide (a ≤ b) = true := by
    refine List.pairwise_mergeSort (fun a b c hab hbc ↦ ?_) (fun a b ↦ ?_) s.toList
    · exact decide_eq_true ((of_decide_eq_true hab).trans (of_decide_eq_true hbc))
    · rw [Bool.or_eq_true, decide_eq_true_iff, decide_eq_true_iff]
      exact le_total a b
  exact h.imp fun hab ↦ of_decide_eq_true hab

theorem Sample.sorted_ne_nil (s : Sample α) : s.sorted ≠ [] := by
  intro h
  have hp := s.sorted_perm_toList
  rw [h] at hp
  exact List.cons_ne_nil _ _ hp.nil_eq.symm

theorem Sample.sorted_perm (h : s.toList.Perm s'.toList) : s.sorted = s'.sorted :=
  List.Perm.eq_of_pairwise (fun _ _ _ _ hab hba ↦ hab.antisymm hba) s.pairwise_sorted
    s'.pairwise_sorted ((s.sorted_perm_toList.trans h).trans s'.sorted_perm_toList.symm)

/-- The median does not depend on the order of the entries. -/
theorem median_perm (mid : α → α → α) (h : s.toList.Perm s'.toList) :
    median mid s = median mid s' := by
  unfold median
  rw [Sample.sorted_perm h]
  exact middle_default s'.sorted_ne_nil _ _

/-- The median has an entry on either side. -/
theorem between_median (hmid : IsMid mid) (s : Sample α) : Between (median mid s) s.toList := by
  have hlen : 0 < s.sorted.length := List.length_pos_iff.mpr s.sorted_ne_nil
  have hmem (i : ℕ) (hi : i < s.sorted.length) : s.sorted.getD i s.first ∈ s.toList := by
    rw [List.getD_eq_getElem _ _ hi, ← s.sorted_perm_toList.mem_iff]
    exact List.getElem_mem hi
  unfold median middle
  by_cases hodd : s.sorted.length % 2 = 1
  · rw [if_pos hodd]
    exact Between.of_mem (hmem _ (by omega))
  · -- Both middle entries are there, and in order.
    rw [if_neg hodd]
    have hlow : s.sorted.length / 2 - 1 < s.sorted.length := by omega
    have hhigh : s.sorted.length / 2 < s.sorted.length := by omega
    have hle : s.sorted.getD (s.sorted.length / 2 - 1) s.first ≤
        s.sorted.getD (s.sorted.length / 2) s.first := by
      rw [List.getD_eq_getElem _ _ hlow, List.getD_eq_getElem _ _ hhigh]
      exact List.pairwise_iff_getElem.mp s.pairwise_sorted _ _ hlow hhigh (by omega)
    obtain ⟨hl, hr⟩ := hmid _ _ hle
    exact ⟨⟨_, hmem _ hlow, hl⟩, _, hmem _ hhigh, hr⟩

/-- The median of equal entries is that entry. -/
theorem median_eq_of_forall (hmid : IsMid mid) {c : α} (hc : ∀ a ∈ s.toList, a = c) :
    median mid s = c :=
  (between_median hmid s).eq hc

end Median

end SqlReplay
