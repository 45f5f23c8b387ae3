import Mathlib.Data.List.Basic
import Mathlib.Algebra.Order.Ring.Int

/-!
# Checked operations

In a checked build an operation whose result does not fit its type ends the program, and in every
build a slice or an index beyond the end does. Such an operation is an `Option` here, and `none` is
the panic. A function of the source written with these operations can be compared with the one
written with the plain operations: where they agree, nothing overflows and nothing is out of range.
-/

namespace SqlReplay

namespace Checked

/-- `a - b` of an unsigned type. -/
def sub (a b : ℕ) : Option ℕ := if b ≤ a then some (a - b) else none

/-- `a + b` of an unsigned type of `bits` bits. -/
def add (bits a b : ℕ) : Option ℕ := if a + b < 2 ^ bits then some (a + b) else none

/-- `a * b` of an unsigned type of `bits` bits. -/
def mul (bits a b : ℕ) : Option ℕ := if a * b < 2 ^ bits then some (a * b) else none

/-- `a - b` of a signed type of 64 bits. -/
def subI64 (a b : ℤ) : Option ℤ :=
  if -2 ^ 63 ≤ a - b ∧ a - b < 2 ^ 63 then some (a - b) else none

variable {α : Type*}

/-- `&xs[i..]`. -/
def sliceFrom (xs : List α) (i : ℕ) : Option (List α) :=
  if i ≤ xs.length then some (xs.drop i) else none

/-- `&xs[i..j]`. -/
def slice (xs : List α) (i j : ℕ) : Option (List α) :=
  if i ≤ j ∧ j ≤ xs.length then some ((xs.take j).drop i) else none

/-- `xs[i]`. -/
def index (xs : List α) (i : ℕ) : Option α := xs[i]?

/-- `[xs[i], xs[j], ..]`. -/
def indices (xs : List α) : List ℕ → Option (List α)
  | [] => some []
  | i :: is => do
    let a ← index xs i
    let as ← indices xs is
    some (a :: as)

/-- `xs.try_into().expect(..)`, into an array of `n` elements. -/
def exactly (n : ℕ) (xs : List α) : Option (List α) := if xs.length = n then some xs else none

/-- `n.div_ceil(d)` of an unsigned type of `bits` bits. -/
def divCeil (bits n d : ℕ) : Option ℕ := if 0 < n % d then add bits (n / d) 1 else some (n / d)

/-- The shift amount of a type of `bits` bits. -/
def shiftAmount (bits i : ℕ) : Option ℕ := if i < bits then some i else none

/-- `Vec::with_capacity(n)` for elements of `size` bytes: an allocation is at most `isize::MAX`. -/
def capacity (size n : ℕ) : Option Unit := if size * n < 2 ^ 63 then some () else none

theorem sub_of_le {a b : ℕ} (h : b ≤ a) : sub a b = some (a - b) := if_pos h

theorem add_of_lt {bits a b : ℕ} (h : a + b < 2 ^ bits) : add bits a b = some (a + b) := if_pos h

theorem mul_of_lt {bits a b : ℕ} (h : a * b < 2 ^ bits) : mul bits a b = some (a * b) := if_pos h

theorem sliceFrom_of_le {xs : List α} {i : ℕ} (h : i ≤ xs.length) :
    sliceFrom xs i = some (xs.drop i) := if_pos h

theorem slice_of_le {xs : List α} {i j : ℕ} (hij : i ≤ j) (hj : j ≤ xs.length) :
    slice xs i j = some ((xs.take j).drop i) := if_pos ⟨hij, hj⟩

theorem index_of_lt (xs : List α) (i : ℕ) (d : α) (h : i < xs.length) :
    index xs i = some (xs.getD i d) := by
  rw [index, List.getD_eq_getElem?_getD, List.getElem?_eq_getElem h, Option.getD_some]

/-- Consecutive elements are a slice. -/
theorem indices_range' (xs : List α) (i n : ℕ) (h : i + n ≤ xs.length) :
    indices xs (List.range' i n) = some ((xs.drop i).take n) := by
  induction n generalizing i with
  | zero => rfl
  | succ n ih =>
    have hi : i < xs.length := by omega
    have hget : index xs i = some xs[i] := List.getElem?_eq_getElem hi
    rw [List.range'_succ, List.drop_eq_getElem_cons hi, List.take_succ_cons]
    show (index xs i).bind _ = _
    rw [hget, Option.bind_some]
    show (indices xs (List.range' (i + 1) n)).bind _ = _
    rw [ih (i + 1) (by omega), Option.bind_some]

theorem exactly_of_length {n : ℕ} {xs : List α} (h : xs.length = n) : exactly n xs = some xs :=
  if_pos h

theorem shiftAmount_of_lt {bits i : ℕ} (h : i < bits) : shiftAmount bits i = some i := if_pos h

theorem capacity_of_lt {size n : ℕ} (h : size * n < 2 ^ 63) : capacity size n = some () := if_pos h

/-- Rounding up cannot overflow when the divisor is not one. -/
theorem divCeil_eq {bits n d : ℕ} (hd : 1 < d) (hn : n < 2 ^ bits) :
    divCeil bits n d = some ((n + (d - 1)) / d) := by
  have hdiv : (n + (d - 1)) / d = if 0 < n % d then n / d + 1 else n / d := by
    have hmod := Nat.mod_lt n (by omega : 0 < d)
    have hsplit := Nat.div_add_mod n d
    split_ifs with hr
    · apply Nat.div_eq_of_lt_le
      · rw [Nat.mul_comm, Nat.mul_add, Nat.mul_one]
        omega
      · rw [Nat.mul_comm, Nat.mul_add, Nat.mul_add]
        omega
    · apply Nat.div_eq_of_lt_le
      · rw [Nat.mul_comm]
        omega
      · rw [Nat.mul_comm, Nat.mul_add]
        omega
  rw [divCeil, hdiv]
  split_ifs with hr
  · refine add_of_lt (lt_of_le_of_lt (Nat.succ_le_of_lt (Nat.div_lt_self ?_ hd)) hn)
    exact Nat.pos_of_ne_zero fun hzero ↦ by simp [hzero] at hr
  · rfl

end Checked

end SqlReplay
