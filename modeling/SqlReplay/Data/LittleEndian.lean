import SqlReplay.Bytes
import Mathlib.Algebra.Order.Ring.Int

/-!
# Little-endian integers

Numbers as bytes, the least significant first, in both directions. A number that fits its width
comes back (`leNat_leBytes`), and so do bytes (`leBytes_leNat`).
-/

namespace SqlReplay

/-- Little-endian bytes as a number. -/
def leNat : Bytes → ℕ
  | [] => 0
  | b :: rest => b.toNat + 256 * leNat rest

/-- A number in `n` little-endian bytes, what does not fit cut off: `to_le_bytes`. -/
def leBytes : ℕ → ℕ → Bytes
  | 0, _ => []
  | n + 1, x => x.toUInt8 :: leBytes n (x / 256)

@[simp] theorem length_leBytes (n x : ℕ) : (leBytes n x).length = n := by
  induction n generalizing x with
  | zero => rfl
  | succ n ih => rw [leBytes, List.length_cons, ih]

theorem leNat_lt (b : Bytes) : leNat b < 256 ^ b.length := by
  induction b with
  | nil => exact Nat.one_pos
  | cons c rest ih =>
    have hc := c.toNat_lt
    rw [leNat, List.length_cons, Nat.pow_succ]
    omega

theorem leNat_leBytes_mod (n x : ℕ) : leNat (leBytes n x) = x % 256 ^ n := by
  induction n generalizing x with
  | zero => rw [leBytes, leNat, Nat.pow_zero, Nat.mod_one]
  | succ n ih =>
    rw [leBytes, leNat, ih, Nat.pow_succ, Nat.mul_comm (256 ^ n), Nat.mod_mul]
    rfl

/-- A number that fits comes back. -/
theorem leNat_leBytes {n x : ℕ} (h : x < 256 ^ n) : leNat (leBytes n x) = x := by
  rw [leNat_leBytes_mod, Nat.mod_eq_of_lt h]

theorem leBytes_injOn (n : ℕ) : Set.InjOn (leBytes n) {x | x < 256 ^ n} := by
  intro x hx y hy h
  rw [← leNat_leBytes hx, h, leNat_leBytes hy]

/-- Bytes come back. -/
theorem leBytes_leNat (b : Bytes) : leBytes b.length (leNat b) = b := by
  induction b with
  | nil => rfl
  | cons c rest ih =>
    have hc : c.toNat < 256 := c.toNat_lt
    rw [List.length_cons, leBytes, leNat, Nat.add_mul_div_left _ _ (by decide),
      Nat.div_eq_of_lt hc, Nat.zero_add, ih]
    congr 1
    rw [← UInt8.toNat_inj, Nat.toUInt8, UInt8.toNat_ofNat', Nat.add_mul_mod_self_left]
    exact Nat.mod_eq_of_lt hc

/-- `u64::to_le_bytes`. -/
def leU64 (v : UInt64) : Bytes := leBytes 8 v.toNat

@[simp] theorem length_leU64 (v : UInt64) : (leU64 v).length = 8 := length_leBytes 8 v.toNat

theorem leU64_injective : Function.Injective leU64 := by
  intro v w h
  exact UInt64.toNat_inj.mp (leBytes_injOn 8 v.toNat_lt w.toNat_lt h)

end SqlReplay
