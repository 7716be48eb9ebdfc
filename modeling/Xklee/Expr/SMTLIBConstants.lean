/-
The constants of the SMT-LIB printer.

A constant of width 1 is a truth value. The others are literals: a binary or a hexadecimal one
has as many digits as the width needs, so that its own width is that of the constant. A
hexadecimal digit stands for four bits, and a width that is not a multiple of four has no
hexadecimal literal.
-/
import Xklee.Expr.SMTLIBPrinter

set_option autoImplicit false

namespace Xklee

open SMTLIB (Term Literal)

namespace ExprSMTLIBPrinter

/-! ## Digits -/

section Digits

variable {radix k : ℕ} {c : APInt}

theorem digits_ne_nil (radix : ℕ) (c : APInt) : digits radix c ≠ [] := by
  unfold digits
  split_ifs with hzero
  · simp
  · rw [ne_eq, List.reverse_eq_nil_iff, Nat.digits_eq_nil_iff_eq_zero]
    exact hzero

theorem digits_lt (hradix : 1 < radix) {d : ℕ} (hd : d ∈ digits radix c) : d < radix := by
  unfold digits at hd
  split_ifs at hd with hzero
  · rw [List.mem_singleton.mp hd]
    omega
  · exact Nat.digits_lt_base hradix (List.mem_reverse.mp hd)

theorem ofDigits_digits (radix : ℕ) (c : APInt) :
    Nat.ofDigits radix (digits radix c).reverse = c.toNat := by
  unfold digits
  split_ifs with hzero
  · rw [hzero]
    rfl
  · rw [List.reverse_reverse, Nat.ofDigits_digits]

/-- There are not more digits than the value can need. -/
theorem length_digits_le (hradix : 1 < radix) (hk : 0 < k) (hlt : c.toNat < radix ^ k) :
    (digits radix c).length ≤ k := by
  unfold digits
  split_ifs with hzero
  · exact hk
  · rw [List.length_reverse, Nat.digits_length_le_iff hradix]
    exact hlt

/-- The digits with zeros before them, up to `k` digits: `zeroPad` is an `unsigned`. -/
theorem padded_spec (hradix : 1 < radix) (hk : 0 < k) (h32 : k < 2 ^ 32)
    (hlt : c.toNat < radix ^ k) {ds : List ℕ}
    (hds : ds = List.replicate ((k + 2 ^ 32 - (digits radix c).length) % 2 ^ 32) 0 ++ digits radix c) :
    ds.length = k ∧ (ds ≠ [] ∧ ∀ d ∈ ds, d < radix) ∧ Nat.ofDigits radix ds.reverse = c.toNat := by
  have hle := length_digits_le hradix hk hlt
  have hpad : (k + 2 ^ 32 - (digits radix c).length) % 2 ^ 32 = k - (digits radix c).length := by
    have hne := List.length_pos_iff.mpr (digits_ne_nil radix c)
    omega
  rw [hpad] at hds
  subst hds
  refine ⟨?_, ⟨?_, ?_⟩, ?_⟩
  · rw [List.length_append, List.length_replicate]
    omega
  · intro hnil
    exact digits_ne_nil radix c (List.append_eq_nil_iff.mp hnil).2
  · intro d hd
    rcases List.mem_append.mp hd with hd | hd
    · rw [List.eq_of_mem_replicate hd]
      omega
    · exact digits_lt hradix hd
  · rw [List.reverse_append, List.reverse_replicate, Nat.ofDigits_append_replicate_zero]
    exact ofDigits_digits radix c

end Digits

/-! ## Constants -/

variable {c : APInt}

/-- A constant is a truth value exactly when it is one bit wide. -/
theorem isTrue_or_isFalse_iff : (c.isTrue = true ∨ c.isFalse = true) ↔ c.width = 1 := by
  simp only [APInt.isTrue, APInt.isFalse, Bool.and_eq_true, beq_iff_eq, bne_iff_ne]
  constructor
  · rintro (h | h)
    · exact h.1
    · exact h.1
  · intro hwidth
    by_cases hzero : c.toNat = 0
    · exact .inr ⟨hwidth, hzero⟩
    · exact .inl ⟨hwidth, hzero⟩

/-- What is printed for a constant that is not a truth value. -/
theorem printConstant_of_width (cdm : ConstantDisplayMode) (hwidth : c.width ≠ 1) :
    printConstant cdm c = .literal
      (match cdm with
        | .BINARY => .bin (List.replicate ((c.width + 2 ^ 32 - (digits 2 c).length) % 2 ^ 32) 0
            ++ digits 2 c)
        | .HEX => .hex (List.replicate ((c.width / 4 + 2 ^ 32 - (digits 16 c).length) % 2 ^ 32) 0
            ++ digits 16 c)
        | .DECIMAL => .dec c.toNat c.width) := by
  have htrue : ¬c.isTrue = true := fun h => hwidth (isTrue_or_isFalse_iff.mp (.inl h))
  have hfalse : ¬c.isFalse = true := fun h => hwidth (isTrue_or_isFalse_iff.mp (.inr h))
  unfold printConstant
  rw [if_neg htrue, if_neg hfalse]
  cases cdm with
  | BINARY => rfl
  | HEX => rfl
  | DECIMAL => rfl

/-- An integer from its width and its value. -/
theorem ofNat_eq {w v : ℕ} (hw : w = c.width) (hv : v = c.toNat) : APInt.ofNat w v = c := by
  refine APInt.ext_toNat hw ?_
  rw [APInt.ofNat, APInt.toNat_mk, BitVec.toNat_ofNat, hw, hv, Nat.mod_eq_of_lt c.toNat_lt]

/-- A constant of more than one bit is read as itself; in the hexadecimal mode, if its width is
a multiple of four. One of one bit is printed as a truth value. -/
theorem printConstant_value (cdm : ConstantDisplayMode) (hpos : 0 < c.width)
    (hwidth : c.width < 2 ^ 32) :
    (c.width = 1 → printConstant cdm c = .bool (decide (c.toNat = 1)))
      ∧ (c.width ≠ 1 → (cdm = .HEX → 4 ∣ c.width) →
        ∃ l, printConstant cdm c = .literal l ∧ l.value = some c) := by
  constructor
  · intro hone
    have hlt := c.toNat_lt
    rw [hone] at hlt
    unfold printConstant APInt.isTrue APInt.isFalse
    rw [hone]
    obtain hv | hv : c.toNat = 0 ∨ c.toNat = 1 := by omega
    · rw [hv]
      rfl
    · rw [hv]
      rfl
  · intro hne hhex
    refine ⟨_, printConstant_of_width cdm hne, ?_⟩
    cases cdm with
    | BINARY =>
      obtain ⟨hlength, hdigits, hvalue⟩ := padded_spec (by decide) hpos hwidth c.toNat_lt rfl
      dsimp only
      rw [Literal.value, if_pos hdigits, hlength, hvalue, ofNat_eq rfl rfl]
    | HEX =>
      obtain ⟨k, hk⟩ := hhex rfl
      have hdiv : c.width / 4 = k := by omega
      have hlt : c.toNat < 16 ^ k := by
        have h := c.toNat_lt
        rw [hk, pow_mul] at h
        exact h
      obtain ⟨hlength, hdigits, hvalue⟩ := padded_spec (by decide) (show 0 < k by omega)
        (show k < 2 ^ 32 by omega) hlt rfl
      dsimp only
      rw [hdiv, Literal.value, if_pos hdigits, hlength, hvalue, ofNat_eq hk.symm rfl]
    | DECIMAL => exact Literal.value_dec hpos

/-- The byte 5 in hexadecimal digits. -/
theorem printConstant_value_byte :
    ∃ l, printConstant .HEX (.ofNat 8 5) = .literal l ∧ l.value = some (.ofNat 8 5) :=
  (printConstant_value .HEX (by decide) (by decide)).2 (by decide) (fun _ => by decide)

/-- A bit is no bit vector when it is printed. -/
theorem printConstant_bit :
    ¬∀ (cdm : ConstantDisplayMode) (c : APInt), 0 < c.width → c.width < 2 ^ 32 →
      ∃ l, printConstant cdm c = .literal l ∧ l.value = some c := by
  intro h
  obtain ⟨l, hl, -⟩ := h .BINARY (.ofNat 1 1) (by decide) (by decide)
  exact absurd hl (by simp [printConstant, APInt.isTrue, APInt.ofNat])

end ExprSMTLIBPrinter

end Xklee
