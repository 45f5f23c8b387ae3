import SqlReplay.Data.Checked

/-!
# Checked readers

A reader in the source is a slice and a position in it. Each of its operations compares, adds and
slices positions, and can go wrong in two ways: it can fail, which the caller handles, and it can
panic. `CheckedReader` keeps the two apart. The plain reader of the same format works on the
elements that are left and cannot panic.

`Checks limit x y ok` compares the two on data of at most `limit` elements: where `ok` holds of what
is left the checked reader does what the plain one does, and where it does not, it panics. It is
closed under sequencing, so that a format's checked reader is compared with its plain one step by
step, and what remains is the condition of the one step that can go wrong.
-/

namespace SqlReplay

variable {τ α β : Type}

/-- A slice and a position in it. -/
structure Cursor (τ : Type) where
  data : List τ
  pos : ℕ
  deriving DecidableEq

namespace Cursor

/-- What is left to read. -/
def left (r : Cursor τ) : List τ := r.data.drop r.pos

/-- The position is in the slice, and the slice is within its limit. -/
structure Valid (limit : ℕ) (r : Cursor τ) : Prop where
  pos_le : r.pos ≤ r.data.length
  bounded : r.data.length ≤ limit

theorem length_left (r : Cursor τ) : r.left.length = r.data.length - r.pos := List.length_drop

theorem Valid.left_le {limit : ℕ} {r : Cursor τ} (h : r.Valid limit) : r.left.length ≤ limit := by
  rw [length_left]
  exact (Nat.sub_le _ _).trans h.bounded

/-- The cursor at the front of the data. -/
theorem valid_start {limit : ℕ} {data : List τ} (h : data.length ≤ limit) :
    (⟨data, 0⟩ : Cursor τ).Valid limit := ⟨Nat.zero_le _, h⟩

end Cursor

/-- A reader that can panic, `none`, and can fail, `some none`. -/
def CheckedReader (τ α : Type) := Cursor τ → Option (Option (α × Cursor τ))

namespace CheckedReader

instance : Monad (CheckedReader τ) where
  pure a r := some (some (a, r))
  bind x f r :=
    match x r with
    | none => none
    | some none => some none
    | some (some (a, r)) => f a r

/-- The failure that the caller handles. -/
def fail : CheckedReader τ α := fun _ ↦ some none

/-- A checked operation on values. -/
def lift (o : Option α) : CheckedReader τ α := fun r ↦ o.map fun a ↦ some (a, r)

/-- `rest`. -/
def rest : CheckedReader τ (List τ) := fun r ↦
  (Checked.sliceFrom r.data r.pos).map fun s ↦ some (s, r)

/-- `take`. -/
def take (n : ℕ) : CheckedReader τ (List τ) := fun r ↦ do
  let left ← Checked.sub r.data.length r.pos
  if left < n then some none
  else
    let stop ← Checked.add 64 r.pos n
    let s ← Checked.slice r.data r.pos stop
    some (some (s, ⟨r.data, stop⟩))

end CheckedReader

/-! ## Comparison -/

/-- The checked outcome is the plain one: both fail, or both succeed with the same value and the
same elements left. -/
def Agrees (limit : ℕ) : Option (Option (α × Cursor τ)) → Option (α × List τ) → Prop
  | some none, none => True
  | some (some (a, r)), some (a', rest) => a = a' ∧ r.Valid limit ∧ r.left = rest
  | _, _ => False

/-- The checked reader does what the plain one does where `ok` holds, and panics elsewhere. -/
def Checks (limit : ℕ) (x : CheckedReader τ α) (y : StateT (List τ) Option α)
    (ok : List τ → Prop) : Prop :=
  ∀ r, r.Valid limit → (ok r.left → Agrees limit (x r) (y r.left)) ∧ (¬ok r.left → x r = none)

/-- The checked reader never panics. -/
def Safe (limit : ℕ) (x : CheckedReader τ α) (y : StateT (List τ) Option α) : Prop :=
  Checks limit x y fun _ ↦ True

/-- The plain reader can return `a` on data within the limit. -/
def Returns (limit : ℕ) (y : StateT (List τ) Option α) (a : α) : Prop :=
  ∃ b rest, b.length ≤ limit ∧ y b = some (a, rest)

/-- A computation that gives `a` where `P` holds, and panics elsewhere. -/
def PanicsUnless (P : Prop) (o : Option α) (a : α) : Prop := (P → o = some a) ∧ (¬P → o = none)

/-- A computation that never panics. -/
theorem PanicsUnless.of_eq {P : Prop} {o : Option α} {a : α} (hP : P) (h : o = some a) :
    PanicsUnless P o a := ⟨fun _ ↦ h, fun hnot ↦ absurd hP hnot⟩

/-- A step that never panics behind one that can. -/
theorem PanicsUnless.bind {P : Prop} {o : Option α} {a : α} {f : α → Option β} {b : β}
    (h : PanicsUnless P o a) (hf : f a = some b) : PanicsUnless P (o.bind f) b := by
  constructor
  · intro hP
    rw [h.1 hP]
    exact hf
  · intro hP
    rw [h.2 hP]
    rfl

section Comparison

variable {limit : ℕ} {x : CheckedReader τ α} {y : StateT (List τ) Option α} {ok : List τ → Prop}
  {a : α} {o : Option α} {r : Cursor τ}

/-- Where the plain reader fails, the checked one does. -/
theorem Agrees.of_none {out : Option (Option (α × Cursor τ))} (h : Agrees limit out none) :
    out = some none := by
  rcases out with _ | _ | p
  · exact h.elim
  · rfl
  · exact h.elim

/-- Where the plain reader succeeds, the checked one does, and has the same left. -/
theorem Agrees.of_some {out : Option (Option (α × Cursor τ))} {rest : List τ}
    (h : Agrees limit out (some (a, rest))) :
    ∃ r : Cursor τ, r.Valid limit ∧ r.left = rest ∧ out = some (some (a, r)) := by
  rcases out with _ | _ | ⟨a', r⟩
  · exact h.elim
  · exact h.elim
  · obtain ⟨rfl, hvalid, hleft⟩ := h
    exact ⟨r, hvalid, hleft, rfl⟩

/-- What the checked reader returns is what the plain one returns. -/
theorem Agrees.exists_map_fst {out : Option (Option (α × Cursor τ))} {plain : Option (α × List τ)}
    (h : Agrees limit out plain) :
    ∃ res, out = some res ∧ res.map Prod.fst = plain.map Prod.fst := by
  cases plain with
  | none => exact ⟨none, h.of_none, rfl⟩
  | some p =>
    obtain ⟨r, -, -, hout⟩ := h.of_some
    exact ⟨some (p.1, r), hout, rfl⟩

theorem Checks.congr {ok' : List τ → Prop} (h : Checks limit x y ok) (hok : ∀ b, ok b ↔ ok' b) :
    Checks limit x y ok' := by
  have heq : ok = ok' := funext fun b ↦ propext (hok b)
  exact heq ▸ h

theorem Safe.of_agrees (h : ∀ r : Cursor τ, r.Valid limit → Agrees limit (x r) (y r.left)) :
    Safe limit x y := fun r hr ↦ ⟨fun _ ↦ h r hr, fun hfalse ↦ absurd trivial hfalse⟩

/-- A computation with the value that a reader returns: it is the plain reader's value where `ok`
holds, and a panic elsewhere. -/
theorem Checks.panicsUnless (h : Checks limit x y ok) (hr : r.Valid limit) (g : Option α → β) :
    PanicsUnless (ok r.left) ((x r).bind fun out ↦ some (g (out.map Prod.fst)))
      (g ((y r.left).map Prod.fst)) := by
  constructor
  · intro hok
    obtain ⟨out, hx, hout⟩ := ((h r hr).1 hok).exists_map_fst
    rw [hx, Option.bind_some, hout]
  · intro hok
    rw [(h r hr).2 hok]
    rfl

theorem Safe.agrees (h : Safe limit x y) (hr : r.Valid limit) :
    Agrees limit (x r) (y r.left) := (h r hr).1 trivial

/-- The two ways that a reader which never panics can go. -/
theorem Safe.outcome (h : Safe limit x y) (hr : r.Valid limit) :
    y r.left = none ∧ x r = some none ∨
      ∃ (a : α) (r' : Cursor τ), r'.Valid limit ∧ Returns limit y a ∧ y r.left = some (a, r'.left) ∧
        x r = some (some (a, r')) := by
  have hagrees := h.agrees hr
  cases hy : y r.left with
  | none =>
    rw [hy] at hagrees
    exact .inl ⟨rfl, hagrees.of_none⟩
  | some p =>
    rw [hy] at hagrees
    obtain ⟨r', hr', hleft, hx⟩ := hagrees.of_some
    exact .inr ⟨p.1, r', hr', ⟨r.left, p.2, hr.left_le, hy⟩, by rw [hleft], hx⟩

protected theorem Safe.pure (a : α) : Safe limit (τ := τ) (pure a) (pure a) :=
  .of_agrees fun _ hr ↦ ⟨rfl, hr, rfl⟩

protected theorem Safe.fail :
    Safe limit (τ := τ) (CheckedReader.fail : CheckedReader τ α) failure :=
  .of_agrees fun _ _ ↦ trivial

/-- An operation on values that cannot go wrong. -/
theorem Safe.lift (h : o = some a) : Safe limit (τ := τ) (CheckedReader.lift o) (pure a) := by
  subst h
  exact Safe.pure a

/-- An operation on values that goes wrong exactly when `P` does not hold. -/
theorem Checks.lift {P : Prop} (h : P → o = some a) (hnot : ¬P → o = none) :
    Checks limit (τ := τ) (CheckedReader.lift o) (pure a) fun _ ↦ P := by
  intro r hr
  constructor
  · intro hP
    rw [h hP]
    exact ⟨rfl, hr, rfl⟩
  · intro hP
    rw [hnot hP]
    rfl

/-- Two readers that branch alike. -/
theorem Safe.ite {c : Prop} [Decidable c] {x' : CheckedReader τ α} {y' : StateT (List τ) Option α}
    (h : c → Safe limit x y) (h' : ¬c → Safe limit x' y') :
    Safe limit (if c then x else x') (if c then y else y') := by
  split_ifs with hc
  · exact h hc
  · exact h' hc

/-- A checked operation in front of a reader. -/
theorem Checks.lift_bind {f : α → CheckedReader τ β} {z : StateT (List τ) Option β} (h : o = some a)
    (hf : Checks limit (f a) z ok) : Checks limit (CheckedReader.lift o >>= f) z ok := by
  subst h
  exact hf

/-- One reader after the other. The second one need only be compared on values that the first one
returns. -/
theorem Checks.bind {f : α → CheckedReader τ β} {g : α → StateT (List τ) Option β}
    {okf : α → List τ → Prop} (h : Checks limit x y ok)
    (hf : ∀ a, Returns limit y a → Checks limit (f a) (g a) (okf a)) :
    Checks limit (x >>= f) (y >>= g)
      fun b ↦ ok b ∧ ∀ a rest, y b = some (a, rest) → okf a rest := by
  intro r hr
  have hbind : (y >>= g) r.left = (y r.left).bind fun p ↦ g p.1 p.2 := by
    show StateT.bind y g r.left = _
    cases hy : y r.left <;> simp [StateT.bind, hy]
  by_cases hok : ok r.left
  · have hagrees := (h r hr).1 hok
    cases hy : y r.left with
    | none =>
      rw [hy] at hagrees
      have hx : (x >>= f) r = some none := by
        show (match x r with
          | none => none | some none => some none | some (some (a, r)) => f a r) = _
        rw [hagrees.of_none]
      rw [hbind, hy, hx]
      refine ⟨fun _ ↦ trivial, fun hnot ↦ (hnot ⟨hok, ?_⟩).elim⟩
      intro a rest hsome
      exact absurd (hy.symm.trans hsome) (Option.some_ne_none _).symm
    | some p =>
      rw [hy] at hagrees
      obtain ⟨r', hr', hleft, hxr⟩ := hagrees.of_some
      have hx : (x >>= f) r = f p.1 r' := by
        show (match x r with
          | none => none | some none => some none | some (some (a, r)) => f a r) = _
        rw [hxr]
      have hcheck := hf p.1 ⟨r.left, p.2, hr.left_le, hy⟩ r' hr'
      rw [hleft] at hcheck
      rw [hbind, hy, hx]
      refine ⟨fun hall ↦ hcheck.1 (hall.2 p.1 p.2 hy),
        fun hnot ↦ hcheck.2 fun hokf ↦ hnot ⟨hok, ?_⟩⟩
      intro a rest hsome
      obtain rfl := Option.some.inj (hy.symm.trans hsome)
      exact hokf
  · refine ⟨fun hall ↦ absurd hall.1 hok, fun _ ↦ ?_⟩
    show (match x r with | none => none | some none => some none | some (some (a, r)) => f a r) = _
    rw [(h r hr).2 hok]

/-- A reader that never panics in front of one that can. -/
theorem Safe.bind_checks {f : α → CheckedReader τ β} {g : α → StateT (List τ) Option β}
    {okf : α → List τ → Prop} (h : Safe limit x y)
    (hf : ∀ a, Returns limit y a → Checks limit (f a) (g a) (okf a)) :
    Checks limit (x >>= f) (y >>= g) fun b ↦ ∀ a rest, y b = some (a, rest) → okf a rest :=
  (Checks.bind h hf).congr fun _ ↦ and_iff_right trivial

theorem Safe.bind {f : α → CheckedReader τ β} {g : α → StateT (List τ) Option β}
    (h : Safe limit x y) (hf : ∀ a, Returns limit y a → Safe limit (f a) (g a)) :
    Safe limit (x >>= f) (y >>= g) :=
  (h.bind_checks hf).congr fun _ ↦ iff_true_intro fun _ _ _ ↦ trivial

/-- The value of a reader, as a function of what it reads. -/
protected theorem Safe.map (g : α → β) (h : Safe limit x y) :
    Safe limit (x >>= fun a ↦ pure (g a)) (g <$> y) := by
  rw [map_eq_pure_bind]
  exact h.bind fun a _ ↦ Safe.pure (g a)

/-- A panic of the first reader is a panic of the whole. -/
theorem Checks.bind_safe {f : α → CheckedReader τ β} {g : α → StateT (List τ) Option β}
    (h : Checks limit x y ok) (hf : ∀ a, Returns limit y a → Safe limit (f a) (g a)) :
    Checks limit (x >>= f) (y >>= g) ok :=
  (Checks.bind h hf).congr fun _ ↦ and_iff_left fun _ _ _ ↦ trivial

/-! ## The reader's own operations -/

/-- The position never passes the end, so what is left can be sliced. -/
protected theorem Safe.rest :
    Safe limit (CheckedReader.rest : CheckedReader τ (List τ)) fun b ↦ some (b, b) := by
  apply Safe.of_agrees
  intro r hr
  rw [CheckedReader.rest, Checked.sliceFrom_of_le hr.pos_le]
  exact ⟨rfl, hr, rfl⟩

/-- `take` compares before it adds, so neither the sum nor the slice can go wrong. -/
protected theorem Safe.take (hlimit : limit < 2 ^ 64) (n : ℕ) :
    Safe limit (CheckedReader.take n : CheckedReader τ (List τ))
      fun b ↦ if b.length < n then none else some (b.take n, b.drop n) := by
  apply Safe.of_agrees
  intro r hr
  have hpos := hr.pos_le
  have hbound := hr.bounded
  show Agrees limit ((Checked.sub r.data.length r.pos).bind _) _
  rw [Checked.sub_of_le hpos, ← r.length_left, Option.bind_some]
  split_ifs with hshort
  · trivial
  · have hstop : r.pos + n ≤ r.data.length := by
      rw [r.length_left] at hshort
      omega
    show Agrees limit ((Checked.add 64 r.pos n).bind _) _
    rw [Checked.add_of_lt (by omega), Option.bind_some]
    show Agrees limit ((Checked.slice r.data r.pos (r.pos + n)).bind _) _
    rw [Checked.slice_of_le (Nat.le_add_right _ _) hstop, Option.bind_some]
    refine ⟨?_, ⟨hstop, hbound⟩, ?_⟩
    · rw [Cursor.left, List.take_drop]
    · rw [Cursor.left, Cursor.left, List.drop_drop]

end Comparison

end SqlReplay
