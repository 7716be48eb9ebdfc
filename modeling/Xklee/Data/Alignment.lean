/-
Rounding up to a multiple of an alignment.
-/
import Mathlib.Algebra.Order.Ring.Nat
import Mathlib.Algebra.Ring.Divisibility.Basic

set_option autoImplicit false

namespace Xklee

/-- The least multiple of `a` from `n` on. -/
def alignUp (n a : ℕ) : ℕ := (n + a - 1) / a * a

variable {n m a b : ℕ}

theorem dvd_alignUp (n a : ℕ) : a ∣ alignUp n a := Dvd.intro_left _ rfl

theorem le_alignUp (n : ℕ) (ha : 0 < a) : n ≤ alignUp n a := by
  have hsplit := Nat.div_add_mod (n + a - 1) a
  have hmod := Nat.mod_lt (n + a - 1) ha
  unfold alignUp
  rw [Nat.mul_comm]
  omega

theorem alignUp_lt (n : ℕ) (ha : 0 < a) : alignUp n a < n + a := by
  have hle := Nat.div_mul_le_self (n + a - 1) a
  unfold alignUp
  omega

/-- No multiple from `n` on is smaller. -/
theorem alignUp_le (hnm : n ≤ m) (hm : a ∣ m) (ha : 0 < a) : alignUp n a ≤ m := by
  obtain ⟨k, rfl⟩ := hm
  obtain ⟨j, hj⟩ := dvd_alignUp n a
  have hlt := alignUp_lt n ha
  rw [hj] at hlt ⊢
  apply Nat.mul_le_mul_left
  by_contra hkj
  have hsucc : a * (k + 1) ≤ a * j := Nat.mul_le_mul_left a (by omega)
  rw [Nat.mul_succ] at hsucc
  omega

theorem alignUp_of_dvd (h : a ∣ n) (ha : 0 < a) : alignUp n a = n :=
  Nat.le_antisymm (alignUp_le le_rfl h ha) (le_alignUp n ha)

end Xklee
