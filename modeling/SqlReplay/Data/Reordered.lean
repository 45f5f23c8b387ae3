import Mathlib.Data.List.Basic
import Mathlib.Order.Basic

/-!
# Lists in another order

What a loop or a sort makes of a list in another order. A loop ends in a related state, where its
steps keep the relation and the relation does not tell the order of two steps. A sort by ranks shows
the same ranks, where different ranks do not compare as equal.
-/

namespace SqlReplay

/-- A fold over a list in another order, up to a relation that its steps keep and that does not tell
their order. -/
theorem foldl_perm {σ α : Type} {step : σ → α → σ} {R : σ → σ → Prop} (hrefl : ∀ s, R s s)
    (htrans : ∀ {s t u}, R s t → R t u → R s u) (hstep : ∀ {s t} a, R s t → R (step s a) (step t a))
    (hswap : ∀ s a b, R (step (step s a) b) (step (step s b) a)) {l l' : List α} (h : l.Perm l') :
    ∀ s, R (l.foldl step s) (l'.foldl step s) := by
  have hfold (l : List α) {s t : σ} (hst : R s t) : R (l.foldl step s) (l.foldl step t) := by
    induction l generalizing s t with
    | nil => exact hst
    | cons a l ih => exact ih (hstep a hst)
  induction h with
  | nil => exact hrefl
  | cons a _ ih => exact fun s ↦ ih (step s a)
  | swap a b l => exact fun s ↦ hfold l (hswap s b a)
  | trans _ _ ih ih' => exact fun s ↦ htrans (ih s) (ih' s)

/-! ## Related options -/

section Rel

variable {α β : Type} {R : α → α → Prop} {S : β → β → Prop}

theorem rel_refl (hrefl : ∀ a, R a a) (o : Option α) : Option.Rel R o o := by
  cases o with
  | none => exact .none
  | some a => exact .some (hrefl a)

theorem rel_trans (htrans : ∀ {a b c}, R a b → R b c → R a c) {o o' o'' : Option α}
    (h : Option.Rel R o o') (h' : Option.Rel R o' o'') : Option.Rel R o o'' := by
  cases h with
  | none => exact h'
  | some h =>
    cases h' with
    | some h' => exact .some (htrans h h')

theorem rel_map {f g : α → β} (hmap : ∀ {a b}, R a b → S (f a) (g b)) {o o' : Option α}
    (h : Option.Rel R o o') : Option.Rel S (o.map f) (o'.map g) := by
  cases h with
  | none => exact .none
  | some h => exact .some (hmap h)

theorem any_eq_of_rel {p : α → Bool} (hp : ∀ {a b}, R a b → p a = p b) {o o' : Option α}
    (h : Option.Rel R o o') : o.any p = o'.any p := by
  cases h with
  | none => rfl
  | some h => exact hp h

end Rel

/-! ## Sorting by a rank -/

section Rank

open Std

variable {α κ μ : Type} (cmp₁ : κ → κ → Ordering) (cmp₂ : μ → μ → Ordering)

theorem transCmp_pair [TransCmp cmp₁] [TransCmp cmp₂] :
    TransCmp fun a b : κ × μ ↦ (cmp₁ a.1 b.1).then (cmp₂ a.2 b.2) := by
  have h₁ : TransCmp fun a b : κ × μ ↦ cmp₁ a.1 b.1 :=
    { eq_swap := OrientedCmp.eq_swap, isLE_trans := TransCmp.isLE_trans }
  have h₂ : TransCmp fun a b : κ × μ ↦ cmp₂ a.2 b.2 :=
    { eq_swap := OrientedCmp.eq_swap, isLE_trans := TransCmp.isLE_trans }
  exact inferInstanceAs (TransCmp (compareLex _ _))

theorem lawfulEqCmp_pair [LawfulEqCmp cmp₁] [LawfulEqCmp cmp₂] :
    LawfulEqCmp fun a b : κ × μ ↦ (cmp₁ a.1 b.1).then (cmp₂ a.2 b.2) where
  compare_self := by
    intro a
    have h₁ : cmp₁ a.1 a.1 = .eq := ReflCmp.compare_self
    have h₂ : cmp₂ a.2 a.2 = .eq := ReflCmp.compare_self
    rw [h₁, h₂]
    rfl
  eq_of_compare := by
    intro a b h
    obtain ⟨h₁, h₂⟩ := Ordering.then_eq_eq.mp h
    exact Prod.ext (LawfulEqCmp.eq_of_compare h₁) (LawfulEqCmp.eq_of_compare h₂)

/-- A list in another order is sorted to the same ranks. -/
theorem map_mergeSort_perm [TransCmp cmp₁] [LawfulEqCmp cmp₁] (rank : α → κ) {l l' : List α}
    (h : l.Perm l') :
    (l.mergeSort fun a b ↦ (cmp₁ (rank a) (rank b)).isLE).map rank =
      (l'.mergeSort fun a b ↦ (cmp₁ (rank a) (rank b)).isLE).map rank := by
  have htotal (a b : κ) : ((cmp₁ a b).isLE || (cmp₁ b a).isLE) = true := by
    have hswap : cmp₁ b a = (cmp₁ a b).swap := OrientedCmp.eq_swap
    rw [hswap]
    cases cmp₁ a b <;> rfl
  have hsorted (l : List α) : ((l.map rank).mergeSort fun a b ↦ (cmp₁ a b).isLE).Pairwise
      fun a b ↦ (cmp₁ a b).isLE = true :=
    List.pairwise_mergeSort (fun _ _ _ ↦ TransCmp.isLE_trans) htotal _
  rw [List.map_mergeSort (s := fun a b ↦ (cmp₁ a b).isLE) fun _ _ _ _ ↦ rfl,
    List.map_mergeSort (s := fun a b ↦ (cmp₁ a b).isLE) fun _ _ _ _ ↦ rfl]
  refine List.Perm.eq_of_pairwise ?_ (hsorted l) (hsorted l')
    (((List.mergeSort_perm _ _).trans (h.map rank)).trans (List.mergeSort_perm _ _).symm)
  exact fun a b _ _ hab hba ↦ LawfulEqCmp.eq_of_compare (OrientedCmp.isLE_antisymm hab hba)

end Rank

end SqlReplay
