import Mathlib.Data.Set.Function

/-!
# Prefix codes

An encoding is a prefix code when what follows an encoded value cannot be mistaken for a part of
it. That is what makes a concatenation of encodings readable, whatever the lengths of the parts:
`PrefixCode.flatMap_injOn` says that a list of encoded values determines the values.

The codes here are relative to a set of values, since the usual ways to tell where an encoding
stops, a length that fits its field or a terminator that does not occur in the text, are properties
of the values.
-/

namespace SqlReplay

variable {α β γ : Type*}

/-- Whatever follows the encoding of a value of `s`, the value is the only one of `s` that it can be
read as. -/
def PrefixCode (s : Set α) (encode : α → List β) : Prop :=
  ∀ a ∈ s, ∀ b ∈ s, ∀ x y, encode a ++ x = encode b ++ y → a = b

namespace PrefixCode

variable {s : Set α} {encode : α → List β}

/-- Encodings of one length that differ. -/
theorem of_length (n : ℕ) (hlength : ∀ a ∈ s, (encode a).length = n) (h : Set.InjOn encode s) :
    PrefixCode s encode := by
  intro a ha b hb x y hxy
  have heq := List.append_inj hxy ((hlength a ha).trans (hlength b hb).symm)
  exact h ha hb heq.1

/-- What follows is determined as well. -/
theorem append_inj (h : PrefixCode s encode) {a b : α} (ha : a ∈ s) (hb : b ∈ s) {x y : List β}
    (hxy : encode a ++ x = encode b ++ y) : a = b ∧ x = y := by
  obtain rfl := h a ha b hb x y hxy
  exact ⟨rfl, List.append_cancel_left hxy⟩

/-- A list of encoded values determines the values. -/
theorem flatMap_injOn (h : PrefixCode s encode) (hne : ∀ a ∈ s, encode a ≠ []) :
    Set.InjOn (List.flatMap encode) {l | ∀ a ∈ l, a ∈ s} := by
  intro l hl m hm hlm
  induction l generalizing m with
  | nil =>
    cases m with
    | nil => rfl
    | cons b m =>
      rw [List.flatMap_nil, List.flatMap_cons] at hlm
      exact absurd (List.append_eq_nil_iff.mp hlm.symm).1 (hne b (hm b List.mem_cons_self))
  | cons a l ih =>
    cases m with
    | nil =>
      rw [List.flatMap_nil, List.flatMap_cons] at hlm
      exact absurd (List.append_eq_nil_iff.mp hlm).1 (hne a (hl a List.mem_cons_self))
    | cons b m =>
      rw [List.flatMap_cons, List.flatMap_cons] at hlm
      obtain ⟨rfl, hrest⟩ := h.append_inj (hl a List.mem_cons_self) (hm b List.mem_cons_self) hlm
      rw [ih (fun c hc ↦ hl c (List.mem_cons_of_mem a hc))
        (fun c hc ↦ hm c (List.mem_cons_of_mem a hc)) hrest]

/-- Text up to a terminator that does not occur in it. -/
theorem terminated (z : β) : PrefixCode {t : List β | z ∉ t} fun t ↦ t ++ [z] := by
  intro a ha b hb x y hxy
  dsimp only at hxy
  rw [List.append_assoc, List.append_assoc] at hxy
  induction a generalizing b with
  | nil =>
    cases b with
    | nil => rfl
    | cons c b =>
      obtain ⟨rfl, -⟩ := List.cons.inj hxy
      exact absurd List.mem_cons_self hb
  | cons c a ih =>
    cases b with
    | nil =>
      obtain ⟨rfl, -⟩ := List.cons.inj hxy
      exact absurd List.mem_cons_self ha
    | cons d b =>
      obtain ⟨rfl, hrest⟩ := List.cons.inj hxy
      rw [ih (fun h ↦ ha (List.mem_cons_of_mem c h)) b (fun h ↦ hb (List.mem_cons_of_mem c h))
        hrest]

end PrefixCode

end SqlReplay
