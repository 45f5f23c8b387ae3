import Mathlib.Data.List.Basic

/-!
# What a reader reads back

A reader takes some of its input and leaves the rest, or fails. `Reads x b a` says that `x` takes
exactly `b` and returns `a`, whatever stands behind `b`: this is what it means for `b` to be an
encoding of `a`, and it is closed under everything readers are built with. A reader of two fields
reads the two encodings one after the other (`Reads.bind`), and so on through the whole layout.

A format is what a reader should take, as a relation between encodings and values.
`Recognizes x format` says that it takes these encodings and nothing else: where the reader
succeeds, what it has taken is in the format. It is closed under the same operations.
-/

namespace SqlReplay

universe u

variable {τ α β : Type u}

/-- The reader takes `b`, whatever follows it, and returns `a`. -/
def Reads (x : StateT (List τ) Option α) (b : List τ) (a : α) : Prop :=
  ∀ rest, x (b ++ rest) = some (a, rest)

namespace Reads

variable {x : StateT (List τ) Option α} {b c : List τ} {a : α}

/-- An encoding that ends the input. -/
theorem apply (h : Reads x b a) : x b = some (a, []) := by
  have hrest := h []
  rwa [List.append_nil] at hrest

/-- An empty encoding. -/
protected theorem pure (a : α) : Reads (pure a : StateT (List τ) Option α) [] a := fun _ ↦ rfl

theorem pure_of_eq {a' : α} (h : a = a') : Reads (Pure.pure a : StateT (List τ) Option α) [] a' :=
  h ▸ Reads.pure a

theorem bind {f : α → StateT (List τ) Option β} {r : β} (h : Reads x b a) (hf : Reads (f a) c r) :
    Reads (x >>= f) (b ++ c) r := by
  intro rest
  have hx : x.run (b ++ (c ++ rest)) = some (a, c ++ rest) := h (c ++ rest)
  show (x >>= f).run (b ++ c ++ rest) = some (r, rest)
  rw [List.append_assoc, StateT.run_bind, hx]
  exact hf rest

/-- A field whose encoding ends the reader. -/
theorem bind_pure {f : α → StateT (List τ) Option β} {r : β} (h : Reads x b a)
    (hf : Reads (f a) [] r) : Reads (x >>= f) b r := by
  have hbind := h.bind hf
  rwa [List.append_nil] at hbind

theorem map (f : α → β) (h : Reads x b a) : Reads (f <$> x) b (f a) := by
  intro rest
  have hx : x.run (b ++ rest) = some (a, rest) := h rest
  show (f <$> x).run (b ++ rest) = some (f a, rest)
  rw [StateT.run_map, hx]
  rfl

end Reads

/-- The reader takes the encodings of a format, and nothing else. -/
structure Recognizes (x : StateT (List τ) Option α) (format : List τ → α → Prop) : Prop where
  complete : ∀ b a, format b a → Reads x b a
  sound : ∀ b a rest, x b = some (a, rest) → ∃ c, b = c ++ rest ∧ format c a

namespace Recognizes

variable {x : StateT (List τ) Option α} {format format' : List τ → α → Prop}

theorem congr (h : Recognizes x format) (heq : ∀ b a, format b a ↔ format' b a) :
    Recognizes x format' := by
  have hformat : format = format' := funext fun b ↦ funext fun a ↦ propext (heq b a)
  exact hformat ▸ h

protected theorem pure (a : α) :
    Recognizes (pure a : StateT (List τ) Option α) fun b a' ↦ b = [] ∧ a' = a where
  complete b a' := by
    rintro ⟨rfl, rfl⟩
    exact Reads.pure a'
  sound b a' rest h := by
    obtain ⟨rfl, rfl⟩ := Prod.mk.inj (Option.some.inj h)
    exact ⟨[], rfl, rfl, rfl⟩

protected theorem fail :
    Recognizes (failure : StateT (List τ) Option α) fun _ _ ↦ False where
  complete _ _ := False.elim
  sound _ _ _ h := absurd h.symm (Option.some_ne_none _)

/-- A reader that takes nothing, and fails unless a condition holds. -/
protected theorem guard (c : Prop) [Decidable c] (a : α) :
    Recognizes (if c then Pure.pure a else failure : StateT (List τ) Option α)
      fun b a' ↦ b = [] ∧ a' = a ∧ c := by
  split_ifs with hc
  · refine (Recognizes.pure a).congr fun b a' ↦ and_congr_right fun _ ↦ ?_
    rw [and_iff_left hc]
  · exact Recognizes.fail.congr fun b a' ↦ (iff_false_intro fun h ↦ hc h.2.2).symm

theorem bind {f : α → StateT (List τ) Option β} {next : α → List τ → β → Prop}
    (h : Recognizes x format) (hf : ∀ a, Recognizes (f a) (next a)) :
    Recognizes (x >>= f) fun b r ↦ ∃ a c d, b = c ++ d ∧ format c a ∧ next a d r where
  complete b r := by
    rintro ⟨a, c, d, rfl, hc, hd⟩
    exact (h.complete c a hc).bind ((hf a).complete d r hd)
  sound b r rest hrun := by
    change (x >>= f).run b = some (r, rest) at hrun
    rw [StateT.run_bind] at hrun
    obtain ⟨⟨a, b'⟩, hx, hnext⟩ := Option.bind_eq_some_iff.mp hrun
    obtain ⟨c, rfl, hc⟩ := h.sound b a b' hx
    obtain ⟨d, rfl, hd⟩ := (hf a).sound b' r rest hnext
    exact ⟨c ++ d, (List.append_assoc c d rest).symm, a, c, d, rfl, hc, hd⟩

end Recognizes

end SqlReplay
