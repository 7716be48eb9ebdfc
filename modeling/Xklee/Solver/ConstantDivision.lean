/-
Constants for multiplications and divisions without multiplying and dividing:
`lib/Solver/ConstantDivision.cpp`.

A factor is written as a difference of two words with few bits. A division by a constant becomes a
multiplication by a constant near to a power of two over the divisor, whose upper half is shifted.
-/
import Xklee.Util.Bits

set_option autoImplicit false

namespace Xklee

/-! ## Multiplication -/

/-- The word that is looked at, and the two that are built. -/
structure MultConstants where
  x : BitVec 64
  add : BitVec 64
  sub : BitVec 64

namespace MultConstants

/-- One round of the loop of `ComputeMultConstants64`. -/
def round (s : MultConstants) : MultConstants :=
  let low := bits64.indexOfRightmostBit s.x
  let lowbit := BitVec.twoPow 64 low
  let p := s.x + lowbit
  let q := bits64.isolateRightmostBit p
  let high := if q ≠ 0 then bits64.indexOfSingleBit q else 64
  if high = low + 1 then
    { x := p ^^^ q, add := s.add ||| lowbit, sub := s.sub }
  else
    -- Optimize +(1<<x) - (1<<(x+1)) to -(1<<x).
    let optimize := low ≠ 0 ∧ s.add &&& (lowbit >>> 1) ≠ 0
    let add := if optimize then s.add ^^^ (lowbit >>> 1) else s.add
    let sub := if optimize then s.sub ^^^ (lowbit >>> 1) else s.sub ||| lowbit
    { x := p ^^^ q, add := if high ≠ 64 then add ||| BitVec.twoPow 64 high else add, sub := sub }

/-- The loop. The first argument bounds the rounds. -/
def loop : ℕ → MultConstants → MultConstants
  | 0, s => s
  | n + 1, s => if s.x ≠ 0 then loop n s.round else s

end MultConstants

/-- `ComputeMultConstants64`, which asserts that the difference is the factor. -/
def ComputeMultConstants64 (multiplicand : BitVec 64) : Option (BitVec 64 × BitVec 64) :=
  let s := MultConstants.loop 64 ⟨multiplicand, 0, 0⟩
  if multiplicand = s.add - s.sub then some (s.add, s.sub) else none

/-! ## Division -/

/-- `ones`. -/
def ones (x : BitVec 32) : BitVec 32 :=
  let x := x - ((x >>> 1) &&& 0x55555555#32)
  let x := ((x >>> 2) &&& 0x33333333#32) + (x &&& 0x33333333#32)
  let x := ((x >>> 4) + x) &&& 0x0f0f0f0f#32
  let x := x + (x >>> 8)
  let x := x + (x >>> 16)
  x &&& 0x0000003f#32

/-- `ldz`. -/
def ldz (x : BitVec 32) : BitVec 32 :=
  let x := x ||| (x >>> 1)
  let x := x ||| (x >>> 2)
  let x := x ||| (x >>> 4)
  let x := x ||| (x >>> 8)
  let x := x ||| (x >>> 16)
  32 - ones x

/-- `LOG2_CEIL`. -/
def LOG2_CEIL (x : BitVec 32) : BitVec 32 := 32 - ldz (x - 1)

/-- `exp_base_2`. -/
def exp_base_2 (n : BitVec 32) : BitVec 32 :=
  let x := ~~~n &&& (n - 32)
  let x := x >>> 31
  x <<< n.toNat

/-- `ComputeUDivConstants32`. It divides by the divisor. -/
def ComputeUDivConstants32 (d : BitVec 32) : Option (BitVec 32 × BitVec 32 × BitVec 32) :=
  if d = 0 then none
  else
    let l := LOG2_CEIL d
    let mid := exp_base_2 l - d
    let mprime := BitVec.ofNat 32 (2 ^ 32 * mid.toNat / d.toNat + 1)
    let sh1 := if l.slt 1 then l else 1
    let sh2 := if (l - 1).slt 0 then 0 else l - 1
    some (mprime, sh1, sh2)

/-- `ComputeSDivConstants32`. It divides by the absolute value of the divisor. -/
def ComputeSDivConstants32 (d : BitVec 32) : Option (BitVec 32 × BitVec 32 × BitVec 32) :=
  if d = 0 then none
  else
    let abs_d := d.toInt.natAbs
    let l := LOG2_CEIL (BitVec.ofNat 32 abs_d)
    let l := if l.ult 1 then 1 else l
    let l := if abs_d = 2 ^ 31 then 31 else l
    let mid := exp_base_2 (l - 1)
    let m : ℕ := 2 ^ 32 * mid.toNat / abs_d + 1
    let mprime := BitVec.ofInt 32 ((m : ℤ) - 2 ^ 32)
    let dsign := d.sshiftRight 31
    let shpost := l - 1
    some (mprime, dsign, shpost)

example : ComputeUDivConstants32 7 = some (613566757, 1, 2) := by decide

/-! ## The factor -/

namespace MultConstants

/-- The difference with what is left is the factor. The words that are built have their bits below
`u`, and what is left has them from `u` on. -/
structure Inv (multiplicand : BitVec 64) (u : ℕ) (s : MultConstants) : Prop where
  value : s.add - s.sub + s.x = multiplicand
  x_low : ∀ j < u, s.x.getLsbD j = false
  add_high : ∀ j, u ≤ j → s.add.getLsbD j = false
  sub_high : ∀ j, u ≤ j + 1 → s.sub.getLsbD j = false
  apart : ∀ j, s.add.getLsbD j = true → s.sub.getLsbD j = false

variable {x multiplicand : BitVec 64} {k u : ℕ} {s : MultConstants}

/-- What is below the lowest bit of a word is added to it: no bit up to this one is left. -/
theorem getLsbD_add_rightmost (hk : k < 64) (hx : x.getLsbD k = true)
    (hlow : ∀ j < k, x.getLsbD j = false) :
    ∀ j < k + 1, (x + BitVec.twoPow 64 k).getLsbD j = false := by
  have hmod : x.toNat % 2 ^ (k + 1) = 2 ^ k := by
    apply Nat.eq_of_testBit_eq
    intro i
    rw [Nat.testBit_mod_two_pow, Nat.testBit_two_pow]
    change (decide (i < k + 1) && x.getLsbD i) = decide (k = i)
    by_cases hi : k = i
    · subst hi
      simp [hx]
    · by_cases hlt : i < k
      · simp [hlow i hlt, hi]
      · have hge : ¬i < k + 1 := by omega
        simp [hge, hi]
  have hdvd : (2 : ℕ) ^ (k + 1) ∣ 2 ^ 64 := Nat.pow_dvd_pow 2 hk
  have hsum : (x + BitVec.twoPow 64 k).toNat % 2 ^ (k + 1) = 0 := by
    rw [BitVec.toNat_add, BitVec.toNat_twoPow_of_lt hk, Nat.mod_mod_of_dvd _ hdvd, Nat.add_mod, hmod,
      Nat.mod_eq_of_lt (Nat.pow_lt_pow_right (by omega) (Nat.lt_succ_self k)), ← Nat.mul_two,
      ← pow_succ, Nat.mod_self]
  intro j hj
  have htest := Nat.testBit_mod_two_pow (x + BitVec.twoPow 64 k).toNat (k + 1) j
  rw [hsum, Nat.zero_testBit, decide_eq_true hj, Bool.true_and] at htest
  exact htest.symm

/-- The lowest bit of the word, at `low`, and the lowest one when it is added, at `high`. Nothing
up to `high` is left. -/
theorem round_shape (hx : x ≠ 0) (hlow : ∀ j < u, x.getLsbD j = false) :
    ∃ low high, u ≤ low ∧ low < high ∧ high ≤ 64 ∧ bits64.indexOfRightmostBit x = low
      ∧ (let p := x + BitVec.twoPow 64 low
        let q := bits64.isolateRightmostBit p
        (if q ≠ 0 then bits64.indexOfSingleBit q else 64) = high
          ∧ p ^^^ q = p - BitVec.twoPow 64 high
          ∧ ∀ j < high + 1, (p ^^^ q).getLsbD j = false) := by
  obtain ⟨low, hlt, hiso, hbit, hbelow⟩ := exists_isolateRightmostBit hx
  have hu : u ≤ low := by
    by_contra hnot
    rw [hlow low (by omega)] at hbit
    exact Bool.false_ne_true hbit
  have hclear := getLsbD_add_rightmost hlt hbit hbelow
  by_cases hp : x + BitVec.twoPow 64 low = 0
  · -- the bits reach up to the top
    refine ⟨low, 64, hu, hlt, le_rfl, bits64.indexOfRightmostBit_eq hlt hiso, ?_⟩
    dsimp only
    rw [hp]
    refine ⟨by decide, by decide, ?_⟩
    intro j _
    have hzero : (0 : BitVec 64) ^^^ bits64.isolateRightmostBit 0 = 0 := by decide
    rw [hzero]
    exact BitVec.getLsbD_zero
  · obtain ⟨high, hhigh, hiso', hbit', hbelow'⟩ := exists_isolateRightmostBit hp
    have hlt' : low < high := by
      by_contra hnot
      rw [hclear high (by omega)] at hbit'
      exact Bool.false_ne_true hbit'
    refine ⟨low, high, hu, hlt', hhigh.le, bits64.indexOfRightmostBit_eq hlt hiso, ?_⟩
    dsimp only
    rw [hiso']
    have hne : BitVec.twoPow 64 high ≠ 0 := by
      intro hzero
      have hnat := congrArg BitVec.toNat hzero
      rw [BitVec.toNat_twoPow_of_lt hhigh] at hnat
      exact absurd hnat (by simp)
    refine ⟨?_, xor_twoPow_eq_sub hbit', ?_⟩
    · rw [if_pos hne, bits64.indexOfSingleBit_twoPow hhigh]
    · intro j hj
      rw [BitVec.getLsbD_xor, BitVec.getLsbD_twoPow]
      obtain hj | rfl := Nat.lt_succ_iff_lt_or_eq.mp hj
      · simp [hbelow' j hj, hj.ne']
      · simp [hbit', hhigh]

theorem ushiftRight_twoPow (hk : k ≠ 0) (hlt : k < 64) :
    BitVec.twoPow 64 k >>> 1 = BitVec.twoPow 64 (k - 1) := by
  apply BitVec.eq_of_toNat_eq
  rw [BitVec.toNat_ushiftRight, BitVec.toNat_twoPow_of_lt hlt, BitVec.toNat_twoPow_of_lt (by omega),
    Nat.shiftRight_eq_div_pow, pow_one]
  obtain ⟨k, rfl⟩ := Nat.exists_eq_succ_of_ne_zero hk
  rw [pow_succ, Nat.mul_div_cancel _ (by omega)]
  rfl

/-- One round keeps the difference, and clears the rightmost run of bits. -/
theorem round_inv (h : Inv multiplicand u s) (hx : s.x ≠ 0) :
    ∃ u', u < u' ∧ Inv multiplicand u' s.round := by
  obtain ⟨low, high, hu, hlt, hle, hindex, hshape⟩ := round_shape hx h.x_low
  obtain ⟨hhigh, hnext, hclear⟩ := hshape
  have hlow64 : low < 64 := by omega
  refine ⟨high + 1, by omega, ?_⟩
  unfold round
  dsimp only
  rw [hindex, hhigh]
  have haddLow : s.add.getLsbD low = false := h.add_high low hu
  by_cases hone : high = low + 1
  · -- just one bit
    subst hone
    rw [if_pos rfl, or_twoPow_eq_add haddLow]
    refine ⟨?_, hclear, ?_, fun j hj => h.sub_high j (by omega), ?_⟩
    · change s.add + _ - s.sub + (_ ^^^ _) = multiplicand
      rw [hnext, ← h.value, ← twoPow_add_self]
      ring
    · intro j hj
      change (s.add + BitVec.twoPow 64 low).getLsbD j = false
      rw [← or_twoPow_eq_add haddLow, BitVec.getLsbD_or, h.add_high j (by omega),
        BitVec.getLsbD_twoPow]
      simp
      omega
    · intro j hj
      change s.sub.getLsbD j = false
      change (s.add + BitVec.twoPow 64 low).getLsbD j = true at hj
      rw [← or_twoPow_eq_add haddLow, BitVec.getLsbD_or, BitVec.getLsbD_twoPow, Bool.or_eq_true] at hj
      obtain hj | hj := hj
      · exact h.apart j hj
      · obtain rfl : low = j := by simpa [hlow64] using hj
        exact h.sub_high low (by omega)
  · rw [if_neg hone]
    -- the bit at `high` is added, unless it is past the top
    have hadd : ∀ add : BitVec 64, add.getLsbD high = false →
        (if high ≠ 64 then add ||| BitVec.twoPow 64 high else add) = add + BitVec.twoPow 64 high := by
      intro add hbit
      by_cases htop : high = 64
      · subst htop
        have hzero : BitVec.twoPow 64 64 = 0 := by decide
        rw [if_neg (not_not.mpr rfl), hzero, add_zero]
      · rw [if_pos htop, or_twoPow_eq_add hbit]
    -- it is enough to take the bit at `low` off the difference, in bits below `high`
    have hrest : ∀ add sub : BitVec 64, add - sub = s.add - s.sub - BitVec.twoPow 64 low →
        (∀ j, u ≤ j → add.getLsbD j = false) → (∀ j, high ≤ j → sub.getLsbD j = false) →
        (∀ j, add.getLsbD j = true → sub.getLsbD j = false) →
        Inv multiplicand (high + 1) ⟨(s.x + BitVec.twoPow 64 low) ^^^
            bits64.isolateRightmostBit (s.x + BitVec.twoPow 64 low),
          if high ≠ 64 then add ||| BitVec.twoPow 64 high else add, sub⟩ := by
      intro add sub hdiff haddHigh hsubHigh hapart
      have hbit : add.getLsbD high = false := haddHigh high (by omega)
      refine ⟨?_, hclear, ?_, fun j hj => hsubHigh j (by omega), ?_⟩
      · change (if high ≠ 64 then add ||| BitVec.twoPow 64 high else add) - sub + (_ ^^^ _) = _
        rw [hadd add hbit, hnext, ← h.value]
        have hsum : add + BitVec.twoPow 64 high - sub = add - sub + BitVec.twoPow 64 high := by ring
        rw [hsum, hdiff]
        ring
      · intro j hj
        change (if high ≠ 64 then add ||| BitVec.twoPow 64 high else add).getLsbD j = false
        rw [hadd add hbit, ← or_twoPow_eq_add hbit, BitVec.getLsbD_or, haddHigh j (by omega),
          BitVec.getLsbD_twoPow]
        simp
        omega
      · intro j hj
        change (if high ≠ 64 then add ||| BitVec.twoPow 64 high else add).getLsbD j = true at hj
        rw [hadd add hbit, ← or_twoPow_eq_add hbit, BitVec.getLsbD_or, BitVec.getLsbD_twoPow,
          Bool.or_eq_true] at hj
        obtain hj | hj := hj
        · exact hapart j hj
        · have heq : high = j := by
            rw [Bool.and_eq_true, decide_eq_true_eq, decide_eq_true_eq] at hj
            exact hj.2
          exact hsubHigh j heq.le
    by_cases hopt : low ≠ 0 ∧ s.add &&& BitVec.twoPow 64 low >>> 1 ≠ 0
    · -- the bit below `low` was to be added, so it is subtracted instead of the one at `low`
      obtain ⟨hzero, hand⟩ := id hopt
      rw [if_pos hopt, if_pos hopt]
      rw [ushiftRight_twoPow hzero hlow64] at hand ⊢
      have hset : s.add.getLsbD (low - 1) = true := by
        by_contra hnot
        exact hand (and_twoPow_eq_zero (Bool.eq_false_iff.mpr hnot))
      have hlowU : low = u := by
        by_contra hne
        rw [h.add_high (low - 1) (by omega)] at hset
        exact Bool.false_ne_true hset
      have hunset : s.sub.getLsbD (low - 1) = false := h.sub_high (low - 1) (by omega)
      refine hrest _ _ ?_ ?_ ?_ ?_
      · rw [xor_twoPow_eq_sub hset, xor_twoPow_eq_add hunset]
        have hdouble := @twoPow_add_self 64 (low - 1)
        rw [Nat.sub_add_cancel (Nat.one_le_iff_ne_zero.mpr hzero)] at hdouble
        rw [← hdouble]
        ring
      · intro j hj
        rw [BitVec.getLsbD_xor, h.add_high j hj, BitVec.getLsbD_twoPow]
        simp
        omega
      · intro j hj
        rw [BitVec.getLsbD_xor, h.sub_high j (by omega), BitVec.getLsbD_twoPow]
        simp
        omega
      · intro j hj
        rw [BitVec.getLsbD_xor, BitVec.getLsbD_twoPow] at hj ⊢
        by_cases heq : low - 1 = j
        · subst heq
          simp [hset] at hj
          omega
        · simp only [heq, decide_false, Bool.and_false, Bool.xor_false] at hj ⊢
          exact h.apart j hj
    · -- the run of bits is the one at `high` less the one at `low`
      have hsubLow : s.sub.getLsbD low = false := h.sub_high low (by omega)
      rw [if_neg hopt, if_neg hopt, or_twoPow_eq_add hsubLow]
      refine hrest _ _ (by ring) h.add_high ?_ ?_
      · intro j hj
        rw [← or_twoPow_eq_add hsubLow, BitVec.getLsbD_or, h.sub_high j (by omega),
          BitVec.getLsbD_twoPow]
        simp
        omega
      · intro j hj
        rw [← or_twoPow_eq_add hsubLow, BitVec.getLsbD_or, h.apart j hj, BitVec.getLsbD_twoPow]
        by_cases heq : low = j
        · subst heq
          rw [haddLow] at hj
          exact absurd hj Bool.false_ne_true
        · simp [heq]

/-- The loop ends before the rounds do. -/
theorem loop_inv (n : ℕ) (h : Inv multiplicand u s) (hn : 64 ≤ u + n) :
    (loop n s).x = 0 ∧ (loop n s).add - (loop n s).sub = multiplicand
      ∧ ∀ j, (loop n s).add.getLsbD j = true → (loop n s).sub.getLsbD j = false := by
  -- a word without bits is zero, and the difference is the factor then
  have hdone : ∀ s : MultConstants, s.x = 0 → ∀ u, Inv multiplicand u s →
      s.add - s.sub = multiplicand := by
    intro s hx u h
    rw [← h.value, hx, add_zero]
  induction n generalizing u s with
  | zero =>
    have hx : s.x = 0 := by
      apply BitVec.eq_of_getLsbD_eq
      intro j hj
      rw [h.x_low j (by omega)]
      exact BitVec.getLsbD_zero.symm
    exact ⟨hx, hdone s hx u h, h.apart⟩
  | succ n ih =>
    unfold loop
    by_cases hx : s.x = 0
    · rw [if_neg (not_not.mpr hx)]
      exact ⟨hx, hdone s hx u h, h.apart⟩
    · rw [if_pos hx]
      obtain ⟨u', hlt, h'⟩ := round_inv h hx
      exact ih h' (by omega)

end MultConstants

/-- After 64 rounds nothing is left of the factor, so the loop has ended. -/
theorem MultConstants.loop_ends (multiplicand : BitVec 64) :
    (MultConstants.loop 64 ⟨multiplicand, 0, 0⟩).x = 0
      ∧ (MultConstants.loop 64 ⟨multiplicand, 0, 0⟩).add
        - (MultConstants.loop 64 ⟨multiplicand, 0, 0⟩).sub = multiplicand
      ∧ ∀ j, (MultConstants.loop 64 ⟨multiplicand, 0, 0⟩).add.getLsbD j = true →
        (MultConstants.loop 64 ⟨multiplicand, 0, 0⟩).sub.getLsbD j = false := by
  have hinv : MultConstants.Inv multiplicand 0 ⟨multiplicand, 0, 0⟩ := by
    refine ⟨?_, by simp, by simp, by simp, by simp⟩
    change (0 : BitVec 64) - 0 + multiplicand = multiplicand
    ring
  exact MultConstants.loop_inv 64 hinv (by omega)

/-- The factor is the difference of the two words, which have no bit in common. -/
theorem ComputeMultConstants64_eq (multiplicand : BitVec 64) :
    ∃ add sub, ComputeMultConstants64 multiplicand = some (add, sub) ∧ add - sub = multiplicand
      ∧ ∀ j, add.getLsbD j = true → sub.getLsbD j = false := by
  obtain ⟨-, hvalue, hapart⟩ := MultConstants.loop_ends multiplicand
  exact ⟨_, _, if_pos hvalue.symm, hvalue, hapart⟩

example : ComputeMultConstants64 27 = some (32, 5) := by decide

/-! ## Logarithms -/

/-- All bits below the highest one of a word. -/
def smear (x : BitVec 32) : BitVec 32 :=
  let x := x ||| (x >>> 1)
  let x := x ||| (x >>> 2)
  let x := x ||| (x >>> 4)
  let x := x ||| (x >>> 8)
  x ||| (x >>> 16)

/-- Every step doubles the distance over which bits are seen. -/
theorem getLsbD_smear_step {x y : BitVec 32} {k : ℕ}
    (h : ∀ i, y.getLsbD i = true ↔ ∃ j < k, x.getLsbD (i + j) = true) (i : ℕ) :
    (y ||| y >>> k).getLsbD i = true ↔ ∃ j < k + k, x.getLsbD (i + j) = true := by
  rw [BitVec.getLsbD_or, BitVec.getLsbD_ushiftRight, Bool.or_eq_true, h, h]
  constructor
  · rintro (⟨j, hj, hx⟩ | ⟨j, hj, hx⟩)
    · exact ⟨j, by omega, hx⟩
    · refine ⟨k + j, by omega, ?_⟩
      rwa [show i + (k + j) = k + i + j by omega]
  · rintro ⟨j, hj, hx⟩
    by_cases hlt : j < k
    · exact Or.inl ⟨j, hlt, hx⟩
    · refine Or.inr ⟨j - k, by omega, ?_⟩
      rwa [show k + i + (j - k) = i + j by omega]

theorem smear_eq (x : BitVec 32) : smear x = BitVec.ofNat 32 (2 ^ x.toNat.size - 1) := by
  have h₁ := getLsbD_smear_step (x := x) (y := x) (k := 1) (by
    intro i
    constructor
    · exact fun hx => ⟨0, by omega, hx⟩
    · rintro ⟨j, hj, hx⟩
      rwa [show i + j = i by omega] at hx)
  have h₅ := getLsbD_smear_step (getLsbD_smear_step (getLsbD_smear_step (getLsbD_smear_step h₁)))
  apply BitVec.eq_of_getLsbD_eq
  intro i hi
  rw [Bool.eq_iff_iff, BitVec.getLsbD_ofNat, Nat.testBit_two_pow_sub_one, Bool.and_eq_true,
    decide_eq_true_eq, decide_eq_true_eq, Nat.lt_size]
  constructor
  · intro hsmear
    obtain ⟨j, -, hj⟩ := (h₅ i).mp hsmear
    have hge := Nat.ge_two_pow_of_testBit hj
    exact ⟨hi, le_trans (Nat.pow_le_pow_right (by omega) (by omega)) hge⟩
  · rintro ⟨-, hge⟩
    obtain ⟨j, hle, hj⟩ := Nat.exists_ge_and_testBit_of_ge_two_pow hge
    refine (h₅ i).mpr ⟨j - i, ?_, ?_⟩
    · have hlt : j < 32 := BitVec.lt_of_getLsbD hj
      omega
    · rwa [show i + (j - i) = j by omega]

variable {n D l : ℕ} {d : BitVec 32}

theorem ones_two_pow_sub_one (hn : n ≤ 32) :
    ones (BitVec.ofNat 32 (2 ^ n - 1)) = BitVec.ofNat 32 n := by
  have hall : ∀ n : Fin 33, ones (BitVec.ofNat 32 (2 ^ n.val - 1)) = BitVec.ofNat 32 n.val := by
    decide
  exact hall ⟨n, by omega⟩

/-- The number of bits of the word before. -/
theorem LOG2_CEIL_eq (d : BitVec 32) : LOG2_CEIL d = BitVec.ofNat 32 (d - 1).toNat.size := by
  have hle : (d - 1).toNat.size ≤ 32 := Nat.size_le.mpr (d - 1).isLt
  change 32 - (32 - ones (smear (d - 1))) = _
  rw [smear_eq, ones_two_pow_sub_one hle]
  ring

theorem exp_base_2_eq (hn : n ≤ 32) :
    exp_base_2 (BitVec.ofNat 32 n) = BitVec.ofNat 32 (2 ^ n) := by
  have hall : ∀ n : Fin 33, exp_base_2 (BitVec.ofNat 32 n.val) = BitVec.ofNat 32 (2 ^ n.val) := by
    decide
  exact hall ⟨n, by omega⟩

/-- A number lies between the powers of two around it. -/
theorem two_pow_size_pred (hD : 0 < D) : D ≤ 2 ^ (D - 1).size ∧ 2 ^ (D - 1).size < 2 * D := by
  have hlt := Nat.lt_size_self (D - 1)
  refine ⟨by omega, ?_⟩
  rcases Nat.eq_zero_or_pos (D - 1).size with hzero | hpos
  · rw [hzero]
    omega
  · have hge : 2 ^ ((D - 1).size - 1) ≤ D - 1 := Nat.lt_size.mp (by omega)
    have hpow : 2 ^ (D - 1).size = 2 * 2 ^ ((D - 1).size - 1) := by
      rw [← pow_succ', Nat.sub_add_cancel hpos]
    omega

/-! ## Reciprocals -/

section Reciprocal

variable {A D m e N : ℕ}

/-- The quotient and the one after it, times what stands for the divisor. -/
theorem quotient_bounds (hD : 0 < D) : N / D * A * D ≤ N * A ∧ (N + 1) * A ≤ (N / D + 1) * A * D := by
  have hlower : N / D * D ≤ N := Nat.div_mul_le_self N D
  have hupper : N + 1 ≤ (N / D + 1) * D := by
    rw [Nat.mul_comm]
    exact Nat.lt_mul_div_succ N hD
  constructor
  · calc N / D * A * D = N / D * D * A := by ring
      _ ≤ N * A := Nat.mul_le_mul_right A hlower
  · calc (N + 1) * A ≤ (N / D + 1) * D * A := Nat.mul_le_mul_right A hupper
      _ = (N / D + 1) * A * D := by ring

/-- A factor that is a little above `A / D` divides by `D` when the product is divided by `A`. -/
theorem mul_reciprocal_div (hD : 0 < D) (hA : 0 < A) (hm : m * D = A + e) (he : e * N < A) :
    N * m / A = N / D := by
  obtain ⟨hlower, hupper⟩ := @quotient_bounds A D N hD
  have hprod : N * m * D = N * A + e * N := by
    rw [Nat.mul_assoc, hm, Nat.mul_add, Nat.mul_comm N e]
  have hge : N / D * A ≤ N * m := by
    apply Nat.le_of_mul_le_mul_right _ hD
    omega
  have hlt : N * m < (N / D + 1) * A := by
    apply Nat.lt_of_mul_lt_mul_right (a := D)
    have hexpand : (N + 1) * A = N * A + A := by ring
    omega
  have hexpand : (N / D + 1) * A = N / D * A + A := by ring
  rw [Nat.div_eq_iff hA]
  omega

/-- For negative numbers the quotient is rounded down. -/
theorem neg_mul_reciprocal_div (hD : 0 < D) (hm : m * D = A + e) (hN : 0 < N) (he₀ : 0 < e)
    (he : e * N ≤ A) : -(N * m : ℤ) / A = -((N / D : ℕ) : ℤ) - 1 := by
  obtain ⟨hlower, hupper⟩ := @quotient_bounds A D N hD
  have hprod : N * m * D = N * A + e * N := by
    rw [Nat.mul_assoc, hm, Nat.mul_add, Nat.mul_comm N e]
  have hpos : 0 < e * N := Nat.mul_pos he₀ hN
  have hA : (0 : ℤ) < A := by exact_mod_cast lt_of_lt_of_le hpos he
  have hgt : N / D * A < N * m := by
    apply Nat.lt_of_mul_lt_mul_right (a := D)
    omega
  have hle : N * m ≤ (N / D + 1) * A := by
    apply Nat.le_of_mul_le_mul_right _ hD
    have hexpand : (N + 1) * A = N * A + A := by ring
    omega
  have hgt' : ((N / D : ℕ) : ℤ) * A < N * m := by exact_mod_cast hgt
  have hle' : (N : ℤ) * m ≤ (((N / D : ℕ) : ℤ) + 1) * A := by exact_mod_cast hle
  rw [Int.ediv_eq_iff_of_pos hA]
  constructor
  · linarith
  · linarith

end Reciprocal

/-! ## Unsigned division -/

/-- The constants for a divisor, as numbers. -/
theorem ComputeUDivConstants32_eq (hd : d ≠ 0) (hl : (d.toNat - 1).size = l) :
    ComputeUDivConstants32 d = some (BitVec.ofNat 32 (2 ^ 32 * (2 ^ l - d.toNat) / d.toNat + 1),
      BitVec.ofNat 32 (min l 1), BitVec.ofNat 32 (l - 1)) := by
  have hpos : 0 < d.toNat := Nat.pos_of_ne_zero fun h => hd (BitVec.eq_of_toNat_eq h)
  have hd32 : d.toNat < 2 ^ 32 := d.isLt
  obtain ⟨hle, hlt⟩ := two_pow_size_pred hpos
  have hl32 : (d.toNat - 1).size ≤ 32 := Nat.size_le.mpr (by omega)
  rw [hl] at hle hlt hl32
  have hpred : (d - 1).toNat = d.toNat - 1 := BitVec.toNat_sub_of_le (y := 1) hpos
  have hmid : (exp_base_2 (LOG2_CEIL d) - d).toNat = 2 ^ l - d.toNat := by
    rw [LOG2_CEIL_eq, hpred, hl, exp_base_2_eq hl32, BitVec.toNat_sub, BitVec.toNat_ofNat]
    rcases Nat.lt_or_eq_of_le hl32 with hsmall | htop
    · have hpow : 2 ^ l < 2 ^ 32 := Nat.pow_lt_pow_right (by omega) hsmall
      rw [Nat.mod_eq_of_lt hpow]
      omega
    · rw [htop] at hle hlt ⊢
      omega
  unfold ComputeUDivConstants32
  rw [if_neg hd]
  dsimp only
  rw [hmid, LOG2_CEIL_eq, hpred, hl]
  -- `l` is one of 33 numbers, so the signed minimum and maximum can be evaluated
  have hsh : ∀ l : Fin 33, (if (BitVec.ofNat 32 l.val).slt 1 then BitVec.ofNat 32 l.val else 1)
        = BitVec.ofNat 32 (min l.val 1)
      ∧ (if (BitVec.ofNat 32 l.val - 1).slt 0 then 0 else BitVec.ofNat 32 l.val - 1)
        = BitVec.ofNat 32 (l.val - 1) := by decide
  obtain ⟨hsh₁, hsh₂⟩ := hsh ⟨l, by omega⟩
  rw [hsh₁, hsh₂]

/-- The factor, and what the upper half of the product with it comes to. -/
theorem udiv_reciprocal {N : ℕ} (hD : 0 < D) (hle : D ≤ 2 ^ l) (hlt : 2 ^ l < 2 * D)
    (hD32 : D < 2 ^ 32) (hN : N < 2 ^ 32) :
    let mprime := 2 ^ 32 * (2 ^ l - D) / D + 1
    let t1 := N * mprime / 2 ^ 32
    mprime < 2 ^ 32 ∧ t1 ≤ N ∧ (N + t1) / 2 ^ l = N / D := by
  intro mprime t1
  have hmul : D * (2 ^ 32 * (2 ^ l - D) / D) + 2 ^ 32 * (2 ^ l - D) % D = 2 ^ 32 * (2 ^ l - D) :=
    Nat.div_add_mod _ D
  have hmod : 2 ^ 32 * (2 ^ l - D) % D < D := Nat.mod_lt _ hD
  have hmprime : mprime < 2 ^ 32 := by
    have hquot : 2 ^ 32 * (2 ^ l - D) / D < 2 ^ 32 - 1 := by
      rw [Nat.div_lt_iff_lt_mul hD]
      omega
    omega
  have hsum : N * (2 ^ 32 + mprime) / 2 ^ 32 = N + t1 := by
    rw [Nat.mul_add, Nat.add_comm, Nat.add_mul_div_right _ _ (by omega), Nat.add_comm]
  have hfactor : (2 ^ 32 + mprime) * D
      = 2 ^ 32 * 2 ^ l + (D - 2 ^ 32 * (2 ^ l - D) % D) := by
    have hexpand : (2 ^ 32 + mprime) * D
        = 2 ^ 32 * D + D * (2 ^ 32 * (2 ^ l - D) / D) + D := by ring
    rw [hexpand]
    omega
  refine ⟨hmprime, ?_, ?_⟩
  · have hprod : N * mprime ≤ N * 2 ^ 32 := Nat.mul_le_mul_left N hmprime.le
    exact Nat.div_le_of_le_mul (by rwa [Nat.mul_comm (2 ^ 32)])
  · rw [← hsum, Nat.div_div_eq_div_mul]
    refine mul_reciprocal_div hD (by positivity) hfactor ?_
    calc (D - 2 ^ 32 * (2 ^ l - D) % D) * N ≤ 2 ^ l * N := Nat.mul_le_mul_right N (by omega)
      _ < 2 ^ l * 2 ^ 32 := Nat.mul_lt_mul_of_pos_left hN (by positivity)
      _ = 2 ^ 32 * 2 ^ l := Nat.mul_comm _ _

/-- The constants divide: by the upper half of a product, two shifts, a subtraction and a sum. -/
theorem ComputeUDivConstants32_spec (n : BitVec 32) (hd : d ≠ 0) :
    ∃ mprime sh1 sh2, ComputeUDivConstants32 d = some (mprime, sh1, sh2)
      ∧ sh1.toNat < 32 ∧ sh2.toNat < 32
      ∧ (let t1 := BitVec.ofNat 32 (n.toNat * mprime.toNat / 2 ^ 32)
        ((n - t1) >>> sh1.toNat + t1) >>> sh2.toNat = n / d) := by
  have hpos : 0 < d.toNat := Nat.pos_of_ne_zero fun h => hd (BitVec.eq_of_toNat_eq h)
  have hd32 : d.toNat < 2 ^ 32 := d.isLt
  have hn32 : n.toNat < 2 ^ 32 := n.isLt
  obtain ⟨hle, hlt⟩ := two_pow_size_pred hpos
  have hl32 : (d.toNat - 1).size ≤ 32 := Nat.size_le.mpr (by omega)
  have hconstants := ComputeUDivConstants32_eq hd rfl
  generalize (d.toNat - 1).size = l at hle hlt hl32 hconstants
  obtain ⟨hmprime, ht1, hdiv⟩ := udiv_reciprocal hpos hle hlt hd32 hn32
  have hsh1 : (BitVec.ofNat 32 (min l 1)).toNat = min l 1 := by
    rw [BitVec.toNat_ofNat]
    omega
  have hsh2 : (BitVec.ofNat 32 (l - 1)).toNat = l - 1 := by
    rw [BitVec.toNat_ofNat]
    omega
  refine ⟨_, _, _, hconstants, by omega, by omega, ?_⟩
  dsimp only
  rw [hsh1, hsh2, BitVec.toNat_ofNat, Nat.mod_eq_of_lt hmprime]
  generalize n.toNat * (2 ^ 32 * (2 ^ l - d.toNat) / d.toNat + 1) / 2 ^ 32 = t1 at ht1 hdiv
  have ht1Nat : (BitVec.ofNat 32 t1).toNat = t1 := by
    rw [BitVec.toNat_ofNat]
    omega
  apply BitVec.eq_of_toNat_eq
  have hhalf : (n.toNat - t1) / 2 ^ min l 1 ≤ n.toNat - t1 := Nat.div_le_self _ _
  rw [BitVec.toNat_ushiftRight, BitVec.toNat_add, BitVec.toNat_ushiftRight,
    BitVec.toNat_sub_of_le (by rw [BitVec.le_def, ht1Nat]; exact ht1), ht1Nat,
    Nat.shiftRight_eq_div_pow, Nat.shiftRight_eq_div_pow, Nat.mod_eq_of_lt (by omega),
    BitVec.toNat_udiv, ← hdiv]
  rcases Nat.eq_zero_or_pos l with rfl | hl
  · rw [Nat.zero_min, Nat.zero_sub, pow_zero, Nat.div_one, Nat.div_one, Nat.div_one]
    have hone : d.toNat = 1 := by
      rw [pow_zero] at hle
      omega
    rw [hone, pow_zero, Nat.div_one, Nat.div_one] at hdiv
    omega
  · have hpow : 2 ^ l = 2 * 2 ^ (l - 1) := by rw [← pow_succ', Nat.sub_add_cancel hl]
    rw [Nat.min_eq_right hl, pow_one, hpow, ← Nat.div_div_eq_div_mul]
    congr 1
    omega

/-! ## Signed division -/

/-- The constants for a divisor, as numbers. -/
theorem ComputeSDivConstants32_eq (hd : d ≠ 0) :
    ∃ l, 0 < l ∧ l ≤ 31 ∧ d.toInt.natAbs ≤ 2 ^ l
      ∧ (d.toInt.natAbs < 2 → l = 1) ∧ (2 ≤ d.toInt.natAbs → 2 ^ l < 2 * d.toInt.natAbs)
      ∧ ComputeSDivConstants32 d = some
        (BitVec.ofInt 32 (((2 ^ 32 * 2 ^ (l - 1) / d.toInt.natAbs + 1 : ℕ) : ℤ) - 2 ^ 32),
          d.sshiftRight 31, BitVec.ofNat 32 (l - 1)) := by
  have hle : d.toInt.natAbs ≤ 2 ^ 31 := by
    have hlower := d.le_toInt
    have hupper := d.toInt_lt
    omega
  have hpos : 0 < d.toInt.natAbs := by
    apply Int.natAbs_pos.mpr
    intro hzero
    exact hd (BitVec.eq_of_toInt_eq (hzero.trans BitVec.toInt_zero.symm))
  have hsize : (d.toInt.natAbs - 1).size ≤ 31 := Nat.size_le.mpr (by omega)
  obtain ⟨hpow, hpow'⟩ := two_pow_size_pred hpos
  have habs : (BitVec.ofNat 32 d.toInt.natAbs - 1).toNat = d.toInt.natAbs - 1 := by
    have hnat : (BitVec.ofNat 32 d.toInt.natAbs).toNat = d.toInt.natAbs := by
      rw [BitVec.toNat_ofNat]
      omega
    rw [BitVec.toNat_sub_of_le (by rw [BitVec.le_def, hnat]; exact hpos), hnat]
    rfl
  have hmax : ∀ l : Fin 32, (if (BitVec.ofNat 32 l.val).ult 1 then 1 else BitVec.ofNat 32 l.val)
      = BitVec.ofNat 32 (max 1 l.val) := by decide
  have hexp : ∀ l : Fin 32, (exp_base_2 (BitVec.ofNat 32 (max 1 l.val) - 1)).toNat
      = 2 ^ (max 1 l.val - 1) ∧ BitVec.ofNat 32 (max 1 l.val) - 1 = BitVec.ofNat 32 (max 1 l.val - 1) := by
    decide
  have hsmall : d.toInt.natAbs < 2 → (d.toInt.natAbs - 1).size = 0 := by
    intro hlt
    rw [show d.toInt.natAbs - 1 = 0 by omega, Nat.size_zero]
  have hlarge : 2 ≤ d.toInt.natAbs → 0 < (d.toInt.natAbs - 1).size := by
    intro hge
    exact Nat.size_pos.mpr (by omega)
  have htop : d.toInt.natAbs = 2 ^ 31 → (d.toInt.natAbs - 1).size = 31 := by
    intro heq
    apply le_antisymm hsize
    rw [heq] at hpow ⊢
    exact (Nat.pow_le_pow_iff_right (by omega)).mp hpow
  unfold ComputeSDivConstants32
  rw [if_neg hd]
  dsimp only
  rw [LOG2_CEIL_eq, habs]
  generalize (d.toInt.natAbs - 1).size = k at hpow hpow' hsize hsmall hlarge htop
  obtain ⟨hmid, hpred⟩ := hexp ⟨k, by omega⟩
  have hmaxK := hmax ⟨k, by omega⟩
  dsimp only at hmid hpred hmaxK
  have hwhole : (if d.toInt.natAbs = 2 ^ 31 then 31 else BitVec.ofNat 32 (max 1 k))
      = BitVec.ofNat 32 (max 1 k) := by
    by_cases heq : d.toInt.natAbs = 2 ^ 31
    · rw [if_pos heq, htop heq]
      rfl
    · rw [if_neg heq]
  refine ⟨max 1 k, by omega, by omega, ?_, by omega, ?_, ?_⟩
  · exact le_trans hpow (Nat.pow_le_pow_right (by omega) (le_max_right 1 k))
  · intro hge
    rw [max_eq_right (hlarge hge)]
    exact hpow'
  · rw [hmaxK, hwhole, hmid, hpred]

/-- The logarithm of a divisor without its sign. -/
theorem LOG2_CEIL_natAbs (hd : d ≠ 0) :
    ∃ k < 32, LOG2_CEIL (BitVec.ofNat 32 d.toInt.natAbs) = BitVec.ofNat 32 k := by
  have hle : d.toInt.natAbs ≤ 2 ^ 31 := by
    have hlower := d.le_toInt
    have hupper := d.toInt_lt
    omega
  have hpos : 0 < d.toInt.natAbs := by
    apply Int.natAbs_pos.mpr
    intro hzero
    exact hd (BitVec.eq_of_toInt_eq (hzero.trans BitVec.toInt_zero.symm))
  have hnat : (BitVec.ofNat 32 d.toInt.natAbs).toNat = d.toInt.natAbs := by
    rw [BitVec.toNat_ofNat]
    omega
  have hpred : (BitVec.ofNat 32 d.toInt.natAbs - 1).toNat = d.toInt.natAbs - 1 := by
    rw [BitVec.toNat_sub_of_le (by rw [BitVec.le_def, hnat]; exact hpos), hnat]
    rfl
  refine ⟨(d.toInt.natAbs - 1).size, ?_, by rw [LOG2_CEIL_eq, hpred]⟩
  have hsize : (d.toInt.natAbs - 1).size ≤ 31 := Nat.size_le.mpr (by omega)
  omega

/-- The upper half of the product of the sign-extended words. -/
theorem extractLsb'_signExtend_mul (n m : BitVec 32) :
    (n.signExtend 64 * m.signExtend 64).extractLsb' 32 32
      = BitVec.ofInt 32 (n.toInt * m.toInt / 2 ^ 32) := by
  have hprod : n.signExtend 64 * m.signExtend 64 = BitVec.ofInt 64 (n.toInt * m.toInt) := by
    rw [BitVec.ofInt_mul]
    rfl
  apply BitVec.eq_of_toNat_eq
  rw [hprod, BitVec.extractLsb'_toNat, BitVec.toNat_ofInt, BitVec.toNat_ofInt,
    Nat.shiftRight_eq_div_pow]
  generalize n.toInt * m.toInt = z
  omega

/-- A word is shifted with its sign by extending, shifting and cutting. -/
theorem extractLsb'_signExtend_ushiftRight (p : BitVec 32) {s : ℕ} (hs : s < 32) :
    ((p.signExtend 64) >>> s).extractLsb' 0 32 = BitVec.ofInt 32 (p.toInt / 2 ^ s) := by
  have hshift : ((p.signExtend 64) >>> s).extractLsb' 0 32 = p.sshiftRight s := by
    apply BitVec.eq_of_getLsbD_eq
    intro i hi
    rw [BitVec.getLsbD_extractLsb', BitVec.getLsbD_ushiftRight, BitVec.getLsbD_signExtend,
      BitVec.getLsbD_sshiftRight]
    have hlt : s + i < 64 := by omega
    have hnot : ¬32 ≤ i := by omega
    simp [hi, hlt, hnot]
  rw [hshift, ← @BitVec.ofInt_toInt 32 (p.sshiftRight s), BitVec.toInt_sshiftRight,
    Int.shiftRight_eq_div_pow]
  norm_cast

/-- The sum of a word and the upper half of its product with the constant, shifted: the quotient,
and one less where the word is negative. -/
theorem sdiv_reciprocal {n : ℤ} (hD : 0 < D) (hl : 0 < l) (hle : D ≤ 2 ^ l) (hn : -2 ^ 31 ≤ n)
    (hn' : n < 2 ^ 31) :
    (n + n * (((2 ^ 32 * 2 ^ (l - 1) / D + 1 : ℕ) : ℤ) - 2 ^ 32) / 2 ^ 32) / 2 ^ (l - 1)
      = n.tdiv D - (if n < 0 then 1 else 0) := by
  have hpow : 2 ^ l = 2 * 2 ^ (l - 1) := by rw [← pow_succ', Nat.sub_add_cancel hl]
  have hmul : D * (2 ^ 32 * 2 ^ (l - 1) / D) + 2 ^ 32 * 2 ^ (l - 1) % D = 2 ^ 32 * 2 ^ (l - 1) :=
    Nat.div_add_mod _ D
  have hmod : 2 ^ 32 * 2 ^ (l - 1) % D < D := Nat.mod_lt _ hD
  have hfactor : (2 ^ 32 * 2 ^ (l - 1) / D + 1) * D
      = 2 ^ 32 * 2 ^ (l - 1) + (D - 2 ^ 32 * 2 ^ (l - 1) % D) := by
    rw [Nat.add_mul, Nat.one_mul, Nat.mul_comm _ D]
    omega
  generalize 2 ^ 32 * 2 ^ (l - 1) / D + 1 = m at hfactor
  generalize hrest : D - 2 ^ 32 * 2 ^ (l - 1) % D = e at hfactor
  have he : 0 < e ∧ e ≤ D := by omega
  -- the two divisions are one
  have hsum : n + n * ((m : ℤ) - 2 ^ 32) / 2 ^ 32 = n * m / 2 ^ 32 := by
    have hsplit : n * (m : ℤ) = n * ((m : ℤ) - 2 ^ 32) + n * 2 ^ 32 := by ring
    rw [hsplit, Int.add_mul_ediv_right _ _ (by norm_num), add_comm]
  have hboth : n * (m : ℤ) / 2 ^ 32 / 2 ^ (l - 1) = n * m / ((2 ^ 32 * 2 ^ (l - 1) : ℕ) : ℤ) := by
    rw [Int.ediv_ediv_of_nonneg (by norm_num)]
    norm_cast
  have hbound : ∀ N : ℕ, e * N ≤ 2 ^ l * N := fun N =>
    Nat.mul_le_mul_right N (le_trans he.2 hle)
  rw [hsum, hboth]
  by_cases hneg : n < 0
  · obtain ⟨N, rfl⟩ : ∃ N : ℕ, n = -(N : ℤ) := ⟨n.natAbs, by omega⟩
    have hN : 0 < N := by omega
    have hN31 : N ≤ 2 ^ 31 := by omega
    rw [if_pos hneg, neg_mul, neg_mul_reciprocal_div hD hfactor hN he.1, Int.neg_tdiv]
    · norm_cast
    · calc e * N ≤ 2 ^ l * N := hbound N
        _ ≤ 2 ^ l * 2 ^ 31 := Nat.mul_le_mul_left _ hN31
        _ = 2 ^ 32 * 2 ^ (l - 1) := by rw [hpow]; ring
  · obtain ⟨N, rfl⟩ : ∃ N : ℕ, n = (N : ℤ) := ⟨n.natAbs, by omega⟩
    have hN31 : N < 2 ^ 31 := by omega
    have hlt : e * N < 2 ^ 32 * 2 ^ (l - 1) := by
      calc e * N ≤ 2 ^ l * N := hbound N
        _ < 2 ^ l * 2 ^ 31 := Nat.mul_lt_mul_of_pos_left hN31 (by positivity)
        _ = 2 ^ 32 * 2 ^ (l - 1) := by rw [hpow]; ring
    have hdiv := mul_reciprocal_div hD (by positivity) hfactor hlt
    rw [if_neg hneg, sub_zero, ← Nat.cast_mul, ← Int.natCast_div, hdiv, ← Int.ofNat_tdiv]

/-- The factor is a word above `2 ^ 31`, one more than a word, or two more. -/
theorem sdiv_factor_bounds (hD : 0 < D) (hl : 0 < l) (hle : D ≤ 2 ^ l) (hsmall : D < 2 → l = 1)
    (hlarge : 2 ≤ D → 2 ^ l < 2 * D) :
    2 ^ 31 ≤ 2 ^ 32 * 2 ^ (l - 1) / D + 1 ∧ 2 ^ 32 * 2 ^ (l - 1) / D + 1 ≤ 2 ^ 32 + 1
      ∧ (l ≠ 1 → 2 ^ 32 * 2 ^ (l - 1) / D + 1 ≤ 2 ^ 32) := by
  have hpow : 2 ^ l = 2 * 2 ^ (l - 1) := by rw [← pow_succ', Nat.sub_add_cancel hl]
  have hlower : 2 ^ 31 ≤ 2 ^ 32 * 2 ^ (l - 1) / D := by
    rw [Nat.le_div_iff_mul_le hD]
    omega
  have hupper : 2 ≤ D → 2 ^ 32 * 2 ^ (l - 1) / D < 2 ^ 32 := by
    intro hge
    have hlt := hlarge hge
    rw [Nat.div_lt_iff_lt_mul hD]
    omega
  refine ⟨by omega, ?_, fun hne => hupper (by omega)⟩
  by_cases hge : 2 ≤ D
  · have hlt := hupper hge
    omega
  · obtain rfl : D = 1 := by omega
    rw [hsmall (by omega)]
    norm_num

theorem sdiv_sum_bounds {n : ℤ} {m : ℕ} (hm : m ≤ 2 ^ 32) :
    min n 0 ≤ n + n * ((m : ℤ) - 2 ^ 32) / 2 ^ 32 ∧ n + n * ((m : ℤ) - 2 ^ 32) / 2 ^ 32 ≤ max n 0 := by
  obtain ⟨k, hk⟩ : ∃ k : ℕ, k + m = 2 ^ 32 := ⟨2 ^ 32 - m, by omega⟩
  have hk' : (m : ℤ) - 2 ^ 32 = -k := by
    have hcast : (k : ℤ) + m = 2 ^ 32 := by exact_mod_cast hk
    linarith
  rw [hk']
  have hle : k ≤ 2 ^ 32 := by omega
  rcases le_or_gt 0 n with hpos | hneg
  · have hlower : -(2 ^ 32 : ℤ) * n ≤ n * -k := by
      have hcast : (k : ℤ) ≤ 2 ^ 32 := by exact_mod_cast hle
      nlinarith
    have hupper : n * -(k : ℤ) ≤ 0 := by
      have hnonneg : 0 ≤ n * k := Int.mul_nonneg hpos (Int.natCast_nonneg k)
      linarith
    omega
  · have hlower : 0 ≤ n * -(k : ℤ) := by
      have hnonneg : 0 ≤ -n * k := Int.mul_nonneg (by omega) (Int.natCast_nonneg k)
      linarith
    have hupper : n * -(k : ℤ) ≤ 2 ^ 32 * -n := by
      have hcast : (k : ℤ) ≤ 2 ^ 32 := by exact_mod_cast hle
      nlinarith
    omega

/-- One is added where the word is negative. -/
theorem ofInt_sub_sign (z : ℤ) (n : BitVec 32) :
    BitVec.ofInt 32 (z - if n.toInt < 0 then 1 else 0) - (if n.msb then BitVec.allOnes 32 else 0)
      = BitVec.ofInt 32 z := by
  rw [BitVec.msb_eq_toInt]
  by_cases hneg : n.toInt < 0
  · have hone : BitVec.ofInt 32 (-1) = BitVec.allOnes 32 := by decide
    rw [if_pos hneg, decide_eq_true hneg, if_pos rfl, Int.sub_eq_add_neg, BitVec.ofInt_add, hone,
      add_sub_cancel_right]
  · rw [if_neg hneg, decide_eq_false hneg, if_neg Bool.false_ne_true, Int.sub_zero]
    exact sub_zero _

/-- A word changes its sign with the divisor. -/
theorem xor_sub_sign (x d : BitVec 32) :
    (x ^^^ d.sshiftRight 31) - d.sshiftRight 31 = if d.msb then -x else x := by
  have hsign : d.sshiftRight 31 = if d.msb then BitVec.allOnes 32 else 0 := by
    apply BitVec.eq_of_getLsbD_eq
    intro i hi
    have hnot : ¬32 ≤ i := by omega
    have hbit : (if 31 + i < 32 then d.getLsbD (31 + i) else d.msb) = d.msb := by
      by_cases hzero : i = 0
      · rw [hzero, if_pos (by omega), BitVec.msb_eq_getLsbD_last]
      · rw [if_neg (by omega)]
    rw [BitVec.getLsbD_sshiftRight, hbit, decide_eq_false hnot]
    cases d.msb with
    | false => exact BitVec.getLsbD_zero.symm
    | true => rw [if_pos rfl, BitVec.getLsbD_allOnes, decide_eq_true hi]; rfl
  rw [hsign]
  cases d.msb with
  | false =>
    rw [if_neg Bool.false_ne_true, if_neg Bool.false_ne_true]
    exact (sub_zero _).trans BitVec.xor_zero
  | true =>
    rw [if_pos rfl, if_pos rfl, BitVec.xor_allOnes, BitVec.neg_eq_not_add, sub_eq_add_neg]
    rfl

/-- The constants divide with sign: by the upper half of a product, a shift and corrections for the
signs. -/
theorem ComputeSDivConstants32_spec (n : BitVec 32) (hd : d ≠ 0) :
    ∃ mprime dsign shpost, ComputeSDivConstants32 d = some (mprime, dsign, shpost)
      ∧ shpost.toNat < 32
      ∧ (let mulsh := (n.signExtend 64 * mprime.signExtend 64).extractLsb' 32 32
        let shifted := (((n + mulsh).signExtend 64) >>> shpost.toNat).extractLsb' 0 32
        let q0 := shifted - (if n.msb then BitVec.allOnes 32 else 0)
        (q0 ^^^ dsign) - dsign = n.sdiv d) := by
  obtain ⟨l, hl, hl31, hle, hsmall, hlarge, hconstants⟩ := ComputeSDivConstants32_eq hd
  have hn := n.le_toInt
  have hn' := n.toInt_lt
  have hpos : 0 < d.toInt.natAbs := by
    apply Int.natAbs_pos.mpr
    intro hzero
    exact hd (BitVec.eq_of_toInt_eq (hzero.trans BitVec.toInt_zero.symm))
  have hrecip := sdiv_reciprocal (n := n.toInt) hpos hl hle (by omega) (by omega)
  have hshpost : (BitVec.ofNat 32 (l - 1)).toNat = l - 1 := by
    rw [BitVec.toNat_ofNat]
    omega
  obtain ⟨hm, hm', hmTop⟩ := sdiv_factor_bounds hpos hl hle hsmall hlarge
  generalize 2 ^ 32 * 2 ^ (l - 1) / d.toInt.natAbs + 1 = m at hrecip hconstants hm hm' hmTop
  refine ⟨_, _, _, hconstants, by omega, ?_⟩
  have hmprime : (BitVec.ofInt 32 ((m : ℤ) - 2 ^ 32)).toInt = (m : ℤ) - 2 ^ 32 := by
    rw [BitVec.toInt_ofInt, Int.bmod_eq_of_le (by omega) (by omega)]
  dsimp only
  rw [extractLsb'_signExtend_mul, hmprime, hshpost,
    extractLsb'_signExtend_ushiftRight _ (by omega)]
  generalize hP : n.toInt + n.toInt * ((m : ℤ) - 2 ^ 32) / 2 ^ 32 = P at hrecip
  have hsum : n + BitVec.ofInt 32 (n.toInt * ((m : ℤ) - 2 ^ 32) / 2 ^ 32) = BitVec.ofInt 32 P := by
    rw [← hP, BitVec.ofInt_add, BitVec.ofInt_toInt]
  -- without a shift it does not matter whether the sum overflows, and with one it does not
  have hshifted : BitVec.ofInt 32 ((BitVec.ofInt 32 P).toInt / 2 ^ (l - 1))
      = BitVec.ofInt 32 (P / 2 ^ (l - 1)) := by
    by_cases hone : l = 1
    · rw [hone, Nat.sub_self, pow_zero, Int.ediv_one, Int.ediv_one, BitVec.ofInt_toInt]
    · have hbounds := sdiv_sum_bounds (n := n.toInt) (m := m) (hmTop hone)
      rw [hP] at hbounds
      rw [BitVec.toInt_ofInt, Int.bmod_eq_of_le (by omega) (by omega)]
  rw [hsum, hshifted, hrecip, ofInt_sub_sign, xor_sub_sign, BitVec.msb_eq_toInt]
  apply BitVec.eq_of_toInt_eq
  rw [BitVec.toInt_sdiv, ← BitVec.toInt_ofInt]
  congr 1
  by_cases hneg : d.toInt < 0
  · rw [decide_eq_true hneg, if_pos rfl, ← BitVec.ofInt_neg, ← Int.tdiv_neg]
    congr 2
    omega
  · rw [decide_eq_false hneg, if_neg Bool.false_ne_true]
    congr 2
    omega

end Xklee
