/-
Bit tricks: `include/klee/util/Bits.h`.

The functions of `bits64`, and `indexOfSingleBit` of `bits32`, with what the comments in the source
say of them: a single bit is found, and the rightmost bit of a word is isolated.
-/
import Mathlib

set_option autoImplicit false

namespace Xklee

namespace bits32

/-- `bits32::indexOfSingleBit`. -/
def indexOfSingleBit (x : BitVec 32) : ℕ :=
  (if x &&& 0xFFFF0000#32 ≠ 0 then 16 else 0) + (if x &&& 0xFF00FF00#32 ≠ 0 then 8 else 0)
    + (if x &&& 0xF0F0F0F0#32 ≠ 0 then 4 else 0) + (if x &&& 0xCCCCCCCC#32 ≠ 0 then 2 else 0)
    + (if x &&& 0xAAAAAAAA#32 ≠ 0 then 1 else 0)

end bits32

namespace bits64

/-- `bits64::truncateToNBits`, for `0 < n ≤ 64`. -/
def truncateToNBits (x : BitVec 64) (n : ℕ) : BitVec 64 := x &&& (BitVec.allOnes 64 >>> (64 - n))

/-- `bits64::maxValueOfNBits`, for `n ≤ 64`. -/
def maxValueOfNBits (n : ℕ) : BitVec 64 := if n = 0 then 0 else BitVec.allOnes 64 >>> (64 - n)

/-- `bits64::isolateRightmostBit`. -/
def isolateRightmostBit (x : BitVec 64) : BitVec 64 := x &&& -x

/-- `bits64::withoutRightmostBit`. -/
def withoutRightmostBit (x : BitVec 64) : BitVec 64 := x &&& (x - 1)

/-- `bits64::isPowerOfTwo`. -/
def isPowerOfTwo (x : BitVec 64) : Bool := x != 0 && x &&& (x - 1) == 0

/-- `bits64::indexOfSingleBit`. -/
def indexOfSingleBit (x : BitVec 64) : ℕ :=
  bits32.indexOfSingleBit ((x ||| x >>> 32).setWidth 32)
    + if x &&& (0xFFFFFFFF#64 <<< 32) ≠ 0 then 32 else 0

/-- `bits64::indexOfRightmostBit`. -/
def indexOfRightmostBit (x : BitVec 64) : ℕ := indexOfSingleBit (isolateRightmostBit x)

end bits64

/-! ## Low bits -/

variable {n k : ℕ} {x : BitVec 64}

theorem toNat_allOnes_shiftRight (hn : n ≤ 64) :
    (BitVec.allOnes 64 >>> (64 - n)).toNat = 2 ^ n - 1 := by
  have hall : ∀ n : Fin 65, (BitVec.allOnes 64 >>> (64 - n.val)).toNat = 2 ^ n.val - 1 := by decide
  exact hall ⟨n, by omega⟩

theorem toNat_maxValueOfNBits (hn : n ≤ 64) :
    (bits64.maxValueOfNBits n).toNat = 2 ^ n - 1 := by
  unfold bits64.maxValueOfNBits
  split
  next h =>
    rw [h]
    rfl
  next => exact toNat_allOnes_shiftRight hn

/-- What is cut off a word does not count at the width. -/
theorem toNat_truncateToNBits (x : BitVec 64) {w : ℕ} (hle : w ≤ 64) :
    (bits64.truncateToNBits x w).toNat = x.toNat % 2 ^ w := by
  rw [bits64.truncateToNBits, BitVec.toNat_and, toNat_allOnes_shiftRight hle,
    Nat.and_two_pow_sub_one_eq_mod]

/-! ## Single bits -/

theorem bits64.indexOfSingleBit_twoPow (hk : k < 64) :
    bits64.indexOfSingleBit (BitVec.twoPow 64 k) = k := by
  have hall : ∀ k : Fin 64, bits64.indexOfSingleBit (BitVec.twoPow 64 k) = k := by decide
  exact hall ⟨k, hk⟩

/-- The bits of the rightmost bit. -/
theorem getLsbD_isolateRightmostBit (x : BitVec 64) (i : ℕ) :
    (bits64.isolateRightmostBit x).getLsbD i = true
      ↔ x.getLsbD i = true ∧ ∀ j < i, x.getLsbD j = false := by
  have hiff : (∀ j < i, x.getLsbD j = false) ↔ ¬∃ j < i, x.getLsbD j = true := by
    push Not
    simp only [Bool.not_eq_true]
  rw [bits64.isolateRightmostBit, BitVec.getLsbD_and, BitVec.getLsbD_neg, hiff]
  by_cases hi : i < 64
  · by_cases hlow : ∃ j < i, x.getLsbD j = true
    · rw [decide_eq_true hlow, decide_eq_true hi]
      simp [hlow]
    · rw [decide_eq_false hlow]
      simp [hlow]
  · simp [BitVec.getLsbD_of_ge x i (by omega)]

/-- The rightmost bit of a word. -/
theorem exists_isolateRightmostBit (hx : x ≠ 0) :
    ∃ k < 64, bits64.isolateRightmostBit x = BitVec.twoPow 64 k ∧ x.getLsbD k = true
      ∧ ∀ j < k, x.getLsbD j = false := by
  have hsome : ∃ k, x.getLsbD k = true := by
    by_contra hnone
    refine hx (BitVec.eq_of_getLsbD_eq ?_)
    intro i _
    simpa using not_exists.mp hnone i
  have hk := Nat.find_spec hsome
  have hlow : ∀ j < Nat.find hsome, x.getLsbD j = false := fun j hj => by
    simpa using Nat.find_min hsome hj
  have hlt : Nat.find hsome < 64 := BitVec.lt_of_getLsbD hk
  refine ⟨Nat.find hsome, hlt, ?_, hk, hlow⟩
  apply BitVec.eq_of_getLsbD_eq
  intro i _
  rw [Bool.eq_iff_iff, getLsbD_isolateRightmostBit, BitVec.getLsbD_twoPow]
  constructor
  · rintro ⟨hi, hnone⟩
    have heq : Nat.find hsome = i := by
      by_contra hne
      obtain h | h := Nat.lt_or_gt_of_ne hne
      · exact absurd (hnone _ h) (by simp [hk])
      · exact absurd (hlow i h) (by simp [hi])
    simp [heq ▸ hlt, heq]
  · intro h
    obtain rfl : Nat.find hsome = i := by simpa [hlt] using h
    exact ⟨hk, hlow⟩

theorem getLsbD_withoutRightmostBit (x : BitVec 64) (i : ℕ) :
    (bits64.withoutRightmostBit x).getLsbD i = true
      ↔ x.getLsbD i = true ∧ ∃ j < i, x.getLsbD j = true := by
  have hsub : x - 1 = ~~~(-x) := by
    rw [BitVec.not_eq_neg_add, BitVec.neg_neg]
    rfl
  rw [bits64.withoutRightmostBit, hsub, BitVec.getLsbD_and, BitVec.getLsbD_not, BitVec.getLsbD_neg]
  by_cases hi : i < 64
  · by_cases hlow : ∃ j < i, x.getLsbD j = true
    · simp [hlow, hi]
    · simp [hlow, hi]
  · simp [BitVec.getLsbD_of_ge x i (by omega)]

/-- A power of two has one bit. -/
theorem exists_eq_twoPow (h : bits64.isPowerOfTwo x = true) :
    ∃ k < 64, x = BitVec.twoPow 64 k := by
  rw [bits64.isPowerOfTwo, Bool.and_eq_true, bne_iff_ne, beq_iff_eq] at h
  obtain ⟨k, hk, -, hbit, hlow⟩ := exists_isolateRightmostBit h.1
  refine ⟨k, hk, BitVec.eq_of_getLsbD_eq ?_⟩
  intro i _
  rw [BitVec.getLsbD_twoPow, decide_eq_true hk, Bool.true_and]
  rcases Nat.lt_trichotomy k i with hki | rfl | hki
  · -- a second bit would be left when the rightmost one is taken off
    have hclear : x.getLsbD i = false := by
      rw [← Bool.not_eq_true]
      intro hi
      have hrest := (getLsbD_withoutRightmostBit x i).mpr ⟨hi, k, hki, hbit⟩
      rw [bits64.withoutRightmostBit, h.2] at hrest
      exact absurd hrest (by simp)
    rw [hclear, decide_eq_false hki.ne]
  · rw [hbit, decide_eq_true rfl]
  · rw [hlow i hki, decide_eq_false hki.ne']

theorem bits64.indexOfRightmostBit_eq (hk : k < 64)
    (h : bits64.isolateRightmostBit x = BitVec.twoPow 64 k) : bits64.indexOfRightmostBit x = k := by
  rw [bits64.indexOfRightmostBit, h, bits64.indexOfSingleBit_twoPow hk]

/-! ## Setting and clearing a bit -/

section

variable {w : ℕ} {x : BitVec w} {k : ℕ}

theorem and_twoPow_eq_zero (h : x.getLsbD k = false) : x &&& BitVec.twoPow w k = 0#w := by
  apply BitVec.eq_of_getLsbD_eq
  intro i _
  rw [BitVec.getLsbD_and, BitVec.getLsbD_twoPow, BitVec.getLsbD_zero]
  by_cases hi : k = i
  · subst hi
    simp [h]
  · simp [hi]

/-- A bit that is clear is set. -/
theorem or_twoPow_eq_add (h : x.getLsbD k = false) :
    x ||| BitVec.twoPow w k = x + BitVec.twoPow w k :=
  (BitVec.add_eq_or_of_and_eq_zero x _ (and_twoPow_eq_zero h)).symm

theorem xor_twoPow_eq_add (h : x.getLsbD k = false) :
    x ^^^ BitVec.twoPow w k = x + BitVec.twoPow w k := by
  rw [← or_twoPow_eq_add h]
  apply BitVec.eq_of_getLsbD_eq
  intro i _
  rw [BitVec.getLsbD_xor, BitVec.getLsbD_or, BitVec.getLsbD_twoPow]
  by_cases hi : k = i
  · subst hi
    simp [h]
  · simp [hi]

/-- A bit that is set is cleared. -/
theorem xor_twoPow_eq_sub (h : x.getLsbD k = true) :
    x ^^^ BitVec.twoPow w k = x - BitVec.twoPow w k := by
  have hk : k < w := BitVec.lt_of_getLsbD h
  have hclear : (x ^^^ BitVec.twoPow w k).getLsbD k = false := by
    rw [BitVec.getLsbD_xor, BitVec.getLsbD_twoPow, h]
    simp [hk]
  have hback := xor_twoPow_eq_add hclear
  rw [BitVec.xor_assoc, BitVec.xor_self, BitVec.xor_zero] at hback
  exact eq_sub_of_add_eq hback.symm

theorem twoPow_add_self : BitVec.twoPow w k + BitVec.twoPow w k = BitVec.twoPow w (k + 1) := by
  apply BitVec.eq_of_toNat_eq
  rw [BitVec.toNat_add, BitVec.toNat_twoPow, BitVec.toNat_twoPow, ← Nat.add_mod, pow_succ,
    Nat.mul_two]

end

end Xklee
