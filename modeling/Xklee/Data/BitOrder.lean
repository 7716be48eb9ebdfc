/-
The order of words and their bits.

Of two words, the smaller one has a 0 at the highest bit where they differ. From this
come the bounds of a disjunction over two intervals: which ends of the intervals can be
changed at a bit, and what changing them gives.
-/
import Mathlib.Data.Nat.Bitwise

set_option autoImplicit false

namespace Xklee

namespace BitOrder

variable {w : ℕ} {x y a b c d : BitVec w} {i k : ℕ}

theorem lt_of_le_of_lt (h : x ≤ y) (h' : y < a) : x < a := by
  rw [BitVec.le_def] at h
  rw [BitVec.lt_def] at h' ⊢
  exact Nat.lt_of_le_of_lt h h'

theorem lt_of_lt_of_le (h : x < y) (h' : y ≤ a) : x < a := by
  rw [BitVec.le_def] at h'
  rw [BitVec.lt_def] at h ⊢
  exact Nat.lt_of_lt_of_le h h'

/-! ## The highest bit that differs -/

/-- `x` has a 0 where `y` has a 1, and above they agree. -/
def DiffersAt (x y : BitVec w) (i : ℕ) : Prop :=
  x.getLsbD i = false ∧ y.getLsbD i = true ∧ ∀ j > i, x.getLsbD j = y.getLsbD j

/-- The words agree from a bit on. -/
def AgreeFrom (x y : BitVec w) (k : ℕ) : Prop := ∀ j ≥ k, x.getLsbD j = y.getLsbD j

theorem lt_of_differsAt (h : DiffersAt x y i) : x < y := by
  rw [BitVec.lt_def]
  apply Nat.lt_of_testBit i
  · rw [BitVec.testBit_toNat]
    exact h.1
  · rw [BitVec.testBit_toNat]
    exact h.2.1
  · intro j hj
    rw [BitVec.testBit_toNat, BitVec.testBit_toNat]
    exact h.2.2 j hj

theorem exists_differsAt_of_ne (h : x ≠ y) : ∃ i, DiffersAt x y i ∨ DiffersAt y x i := by
  have hxor : (x ^^^ y).toNat ≠ 0 := by
    intro hzero
    have heq : x ^^^ y = 0#w := BitVec.eq_of_toNat_eq hzero
    exact h (BitVec.xor_eq_zero_iff.mp heq)
  obtain ⟨i, hi, habove⟩ := Nat.exists_most_significant_bit hxor
  rw [BitVec.testBit_toNat, BitVec.getLsbD_xor] at hi
  have hagree : ∀ j > i, x.getLsbD j = y.getLsbD j := by
    intro j hj
    have hj' := habove j hj
    rw [BitVec.testBit_toNat, BitVec.getLsbD_xor] at hj'
    simpa using hj'
  refine ⟨i, ?_⟩
  cases hx : x.getLsbD i with
  | false =>
    left
    exact ⟨hx, by simpa [hx] using hi, hagree⟩
  | true =>
    right
    exact ⟨by simpa [hx] using hi, hx, fun j hj => (hagree j hj).symm⟩

theorem exists_differsAt (h : x < y) : ∃ i, DiffersAt x y i := by
  have hne : x ≠ y := by
    rintro rfl
    exact absurd h (BitVec.lt_irrefl x)
  obtain ⟨i, hi | hi⟩ := exists_differsAt_of_ne hne
  · exact ⟨i, hi⟩
  · exact absurd (BitVec.lt_asymm h) (not_not.mpr (lt_of_differsAt hi))

/-- A word is at most another one if no bit says otherwise. -/
theorem le_of_not_differsAt (h : ∀ i, ¬DiffersAt y x i) : x ≤ y := by
  rw [← BitVec.not_lt]
  intro hlt
  obtain ⟨i, hi⟩ := exists_differsAt hlt
  exact h i hi

/-- Where the greater word has a 0 and the smaller one a 1, they differ further up. -/
theorem exists_differsAt_above (h : x ≤ y) (hx : x.getLsbD i = true) (hy : y.getLsbD i = false) :
    ∃ j > i, DiffersAt x y j := by
  have hne : x ≠ y := by
    rintro rfl
    rw [hx] at hy
    exact absurd hy (by decide)
  obtain ⟨j, hj⟩ := exists_differsAt (BitVec.lt_of_le_ne h hne)
  refine ⟨j, ?_, hj⟩
  by_contra hle
  obtain heq | hlt := Nat.eq_or_lt_of_le (Nat.le_of_not_gt hle)
  · have hzero := hj.1
    rw [heq, hx] at hzero
    exact absurd hzero (by decide)
  · have hagree := hj.2.2 i hlt
    rw [hx, hy] at hagree
    exact absurd hagree (by decide)

/-! ## Complements -/

theorem not_lt_not : ~~~x < ~~~y ↔ y < x := by
  have hx := x.isLt
  have hy := y.isLt
  rw [BitVec.lt_def, BitVec.lt_def, BitVec.toNat_not, BitVec.toNat_not]
  omega

theorem not_le_not : ~~~x ≤ ~~~y ↔ y ≤ x := by
  rw [← BitVec.not_lt, ← BitVec.not_lt, not_lt_not]

/-! ## Rounding to a bit -/

/-- The bit is set and those below are cleared. -/
def roundUp (a : BitVec w) (k : ℕ) : BitVec w := (a ||| BitVec.twoPow w k) &&& -BitVec.twoPow w k

/-- The bit is cleared and those below are set. -/
def roundDown (b : BitVec w) (k : ℕ) : BitVec w :=
  b &&& ~~~BitVec.twoPow w k ||| (BitVec.twoPow w k - 1)

theorem getLsbD_neg_twoPow (hk : k < w) (i : ℕ) :
    (-BitVec.twoPow w k).getLsbD i = (decide (i < w) && decide (k ≤ i)) := by
  have hexists : (∃ j < i, (BitVec.twoPow w k).getLsbD j = true) ↔ k < i := by
    simp [BitVec.getLsbD_twoPow, hk]
  rw [BitVec.getLsbD_neg, BitVec.getLsbD_twoPow, decide_eq_true hk, Bool.true_and]
  simp only [hexists]
  by_cases hi : i < w
  · rcases Nat.lt_trichotomy k i with h | h | h
    · simp [hi, h, h.le, h.ne]
    · subst h
      simp [hi]
    · simp [h.ne', Nat.not_le.mpr h, Nat.not_lt.mpr h.le]
  · have hne : k ≠ i := by omega
    simp [hi, hne]

theorem getLsbD_twoPow_sub_one (hk : k < w) (i : ℕ) :
    (BitVec.twoPow w k - 1).getLsbD i = decide (i < k) := by
  have hpow : 2 ^ k < 2 ^ w := Nat.pow_lt_pow_right (by decide) hk
  have hpos : 0 < 2 ^ k := Nat.two_pow_pos k
  have hnat : (BitVec.twoPow w k - 1).toNat = 2 ^ k - 1 := by
    have hone : (1 : BitVec w).toNat = 1 := BitVec.toNat_one (by omega)
    rw [BitVec.toNat_sub_of_le, BitVec.toNat_twoPow, Nat.mod_eq_of_lt hpow, hone]
    rw [BitVec.le_def, BitVec.toNat_twoPow, Nat.mod_eq_of_lt hpow, hone]
    exact hpos
  rw [← BitVec.testBit_toNat, hnat, Nat.testBit_two_pow_sub_one]

theorem getLsbD_roundUp (hk : k < w) (i : ℕ) :
    (roundUp a k).getLsbD i = (decide (k ≤ i) && (a.getLsbD i || decide (k = i))) := by
  rw [roundUp, BitVec.getLsbD_and, BitVec.getLsbD_or, BitVec.getLsbD_twoPow,
    getLsbD_neg_twoPow hk, decide_eq_true hk, Bool.true_and]
  by_cases hi : i < w
  · simp [hi, Bool.and_comm]
  · have hne : k ≠ i := by omega
    simp [hi, hne, BitVec.getLsbD_of_ge a i (by omega)]

theorem getLsbD_roundDown (hk : k < w) (i : ℕ) :
    (roundDown b k).getLsbD i = (decide (i < k) || (b.getLsbD i && decide (k ≠ i))) := by
  rw [roundDown, BitVec.getLsbD_or, BitVec.getLsbD_and, BitVec.getLsbD_not, BitVec.getLsbD_twoPow,
    getLsbD_twoPow_sub_one hk, decide_eq_true hk, Bool.true_and]
  by_cases hi : i < w
  · simp [hi, Bool.or_comm]
  · simp [hi, BitVec.getLsbD_of_ge b i (by omega)]

/-- Between a word and where it is rounded up to, the high bits stay the same. -/
theorem agreeFrom_of_lt_roundUp (hk : k < w) (hax : a ≤ x)
    (hx : x < roundUp a k) : AgreeFrom x a k := by
  intro j hj
  by_contra hne
  have hne' : a ≠ x := by
    rintro rfl
    exact hne rfl
  obtain ⟨i, hi0, hi1, habove⟩ := exists_differsAt (BitVec.lt_of_le_ne hax hne')
  have hji : j ≤ i := by
    by_contra hlt
    exact hne (habove j (Nat.lt_of_not_le hlt)).symm
  -- from the bit on, the rounded word has no 1 that `x` does not have
  obtain ⟨l, hl0, hl1, habove'⟩ := exists_differsAt hx
  rw [getLsbD_roundUp hk] at hl1
  have hkl : k ≤ l := by
    by_contra hlt
    simp [hlt] at hl1
  rcases Nat.lt_trichotomy i l with hil | rfl | hil
  · have hkl' : k ≠ l := by omega
    rw [habove l hil] at hl1
    simp [hl0, hkl'] at hl1
  · rw [hi1] at hl0
    exact absurd hl0 (by decide)
  · have hagree := habove' i hil
    have hki : k ≠ i := by omega
    rw [hi1, getLsbD_roundUp hk, hi0] at hagree
    simp [hki] at hagree

theorem roundUp_eq_not_roundDown (hk : k < w) : roundUp a k = ~~~roundDown (~~~a) k := by
  apply BitVec.eq_of_getLsbD_eq
  intro i hi
  rw [getLsbD_roundUp hk, BitVec.getLsbD_not, getLsbD_roundDown hk, BitVec.getLsbD_not]
  by_cases hki : k ≤ i
  · simp [hi, hki, Nat.not_lt.mpr hki]
  · simp [hi, hki, Nat.lt_of_not_le hki]

theorem roundDown_le (hb : b.getLsbD k = true) : roundDown b k ≤ b := by
  have hk : k < w := BitVec.lt_of_getLsbD hb
  apply le_of_not_differsAt
  rintro i ⟨hi0, hi1, habove⟩
  rw [getLsbD_roundDown hk, hi0, Bool.false_and, Bool.or_false, decide_eq_true_eq] at hi1
  have hagree := habove k hi1
  rw [hb, getLsbD_roundDown hk] at hagree
  simp at hagree

/-- Between a word and where it is rounded down to, the high bits stay the same. -/
theorem agreeFrom_of_roundDown_lt (hk : k < w) (hxb : x ≤ b)
    (hx : roundDown b k < x) : AgreeFrom x b k := by
  have hround : roundUp (~~~b) k = ~~~roundDown b k := by
    rw [roundUp_eq_not_roundDown hk, BitVec.not_not]
  have hagree : AgreeFrom (~~~x) (~~~b) k := by
    apply agreeFrom_of_lt_roundUp hk
    · exact not_le_not.mpr hxb
    · rw [hround]
      exact not_lt_not.mpr hx
  intro j hj
  have hj' := hagree j hj
  rw [BitVec.getLsbD_not, BitVec.getLsbD_not] at hj'
  by_cases hjw : j < w
  · simpa [hjw] using hj'
  · rw [BitVec.getLsbD_of_ge x j (by omega), BitVec.getLsbD_of_ge b j (by omega)]

/-! ## Disjunctions over intervals -/

/-- From a bit on, a number below is not raised by its own interval where only the other
number has the bit. -/
def LowEnds (x y a c : BitVec w) (k : ℕ) : Prop :=
  ∀ j ≥ k, (a.getLsbD j = false → c.getLsbD j = true → AgreeFrom x a j)
    ∧ (a.getLsbD j = true → c.getLsbD j = false → AgreeFrom y c j)

/-- From a bit on, neither number is lowered where both have the bit. -/
def HighEnds (x y b d : BitVec w) (k : ℕ) : Prop :=
  ∀ j ≥ k, b.getLsbD j = true → d.getLsbD j = true → AgreeFrom x b j ∧ AgreeFrom y d j

theorem lowEnds_of_succ (h : LowEnds x y a c (k + 1))
    (hx : a.getLsbD k = false → c.getLsbD k = true → AgreeFrom x a k)
    (hy : a.getLsbD k = true → c.getLsbD k = false → AgreeFrom y c k) : LowEnds x y a c k := by
  intro j hj
  obtain rfl | hlt := Nat.eq_or_lt_of_le hj
  · exact ⟨hx, hy⟩
  · exact h j hlt

theorem highEnds_of_succ (h : HighEnds x y b d (k + 1))
    (hk : b.getLsbD k = true → d.getLsbD k = true → AgreeFrom x b k ∧ AgreeFrom y d k) :
    HighEnds x y b d k := by
  intro j hj
  obtain rfl | hlt := Nat.eq_or_lt_of_le hj
  · exact hk
  · exact h j hlt

theorem LowEnds.symm (h : LowEnds x y a c k) : LowEnds y x c a k :=
  fun j hj => ⟨fun hc ha => (h j hj).2 ha hc, fun hc ha => (h j hj).1 ha hc⟩

/-- Where the disjunction of the lower ends has a 1, the one of the numbers has a 1 as well,
if they agree further up. -/
theorem LowEnds.not_lt (h : LowEnds x y a c (i + 1)) (hax : a ≤ x) (ha : a.getLsbD i = true)
    (hx : x.getLsbD i = false)
    (habove : ∀ j > i, (x ||| y).getLsbD j = (a ||| c).getLsbD j) : False := by
  -- `x` is greater than `a` further up, so there `c` has the bit and `x` is raised
  obtain ⟨j, hij, hj⟩ := exists_differsAt_above hax ha hx
  have hor := habove j hij
  rw [BitVec.getLsbD_or, BitVec.getLsbD_or, hj.2.1, hj.1, Bool.true_or, Bool.false_or] at hor
  have hagree := (h j hij).1 hj.1 hor.symm j (Nat.le_refl j)
  rw [hj.2.1, hj.1] at hagree
  exact absurd hagree (by decide)

/-- The disjunction of the lower ends is the least one, if no number is raised. -/
theorem LowEnds.or_le (h : LowEnds x y a c 0) (hax : a ≤ x) (hcy : c ≤ y) :
    a ||| c ≤ x ||| y := by
  apply le_of_not_differsAt
  rintro i ⟨hi0, hi1, habove⟩
  have hends : LowEnds x y a c (i + 1) := fun j _ => h j (Nat.zero_le j)
  rw [BitVec.getLsbD_or, Bool.or_eq_false_iff] at hi0
  rw [BitVec.getLsbD_or, Bool.or_eq_true] at hi1
  rcases hi1 with ha | hc
  · exact hends.not_lt hax ha hi0.1 habove
  · refine hends.symm.not_lt hcy hc hi0.2 ?_
    rw [BitVec.or_comm y, BitVec.or_comm c]
    exact habove

/-- Raising one of the lower ends where only the other one has the bit gives a bound, too. -/
theorem LowEnds.roundUp_or_le (h : LowEnds x y a c (k + 1)) (hk : k < w) (hc : c.getLsbD k = true)
    (hax : a ≤ x) (hcy : c ≤ y) : roundUp a k ||| c ≤ x ||| y := by
  apply le_of_not_differsAt
  rintro i ⟨hi0, hi1, habove⟩
  have hends : ∀ j > k, (roundUp a k ||| c).getLsbD j = (a ||| c).getLsbD j := by
    intro j hj
    have hne : k ≠ j := by omega
    rw [BitVec.getLsbD_or, BitVec.getLsbD_or, getLsbD_roundUp hk]
    simp [hj.le, hne]
  rw [BitVec.getLsbD_or, Bool.or_eq_false_iff] at hi0
  rcases Nat.lt_trichotomy i k with hik | rfl | hik
  · -- below the bit, only `c` is left
    have hci : c.getLsbD i = true := by
      rw [BitVec.getLsbD_or, getLsbD_roundUp hk] at hi1
      simpa [Nat.not_le.mpr hik] using hi1
    obtain ⟨j, hij, hj⟩ := exists_differsAt_above hcy hci hi0.2
    have hor := habove j hij
    rw [BitVec.getLsbD_or, BitVec.getLsbD_or, hj.2.1, hj.1, Bool.or_true, Bool.or_false,
      getLsbD_roundUp hk] at hor
    have hkj : k < j := by
      rcases Nat.lt_trichotomy k j with hlt | rfl | hlt
      · exact hlt
      · exact absurd (hj.1.symm.trans hc) (by decide)
      · simp [Nat.not_le.mpr hlt] at hor
    have hkj' : k ≠ j := by omega
    have haj : a.getLsbD j = true := by simpa [hkj.le, hkj'] using hor
    have hagree := (h j hkj).2 haj hj.1 j (Nat.le_refl j)
    rw [hj.2.1, hj.1] at hagree
    exact absurd hagree (by decide)
  · refine h.symm.not_lt hcy hc hi0.2 ?_
    intro j hj
    rw [BitVec.or_comm y, BitVec.or_comm c, habove j hj, hends j hj]
  · have hends' : LowEnds x y a c (i + 1) := fun j hj => h j (by omega)
    have habove' : ∀ j > i, (x ||| y).getLsbD j = (a ||| c).getLsbD j := by
      intro j hj
      rw [habove j hj, hends j (by omega)]
    rw [hends i hik, BitVec.getLsbD_or, Bool.or_eq_true] at hi1
    rcases hi1 with hai | hci
    · exact hends'.not_lt hax hai hi0.1 habove'
    · refine hends'.symm.not_lt hcy hci hi0.2 ?_
      rw [BitVec.or_comm y, BitVec.or_comm c]
      exact habove'

theorem HighEnds.symm (h : HighEnds x y b d k) : HighEnds y x d b k :=
  fun j hj hd hb => (h j hj hb hd).symm

/-- Where the disjunction of the upper ends has a 0, the numbers have a 0 as well, if they
agree further up. -/
theorem HighEnds.not_lt (h : HighEnds x y b d (i + 1)) (hxb : x ≤ b) (hyd : y ≤ d)
    (hx : x.getLsbD i = true) (hb : b.getLsbD i = false)
    (habove : ∀ j > i, (b ||| d).getLsbD j = (x ||| y).getLsbD j) : False := by
  -- `x` is less than `b` further up, at a bit that `y` has
  obtain ⟨j, hij, hj⟩ := exists_differsAt_above hxb hx hb
  have hor := habove j hij
  rw [BitVec.getLsbD_or, BitVec.getLsbD_or, hj.1, hj.2.1, Bool.true_or, Bool.false_or] at hor
  cases hd : d.getLsbD j with
  | true =>
    have hagree := (h j hij hj.2.1 hd).1 j (Nat.le_refl j)
    rw [hj.1, hj.2.1] at hagree
    exact absurd hagree (by decide)
  | false =>
    -- so `y` is less than `d` still further up, at a bit that both upper ends have
    obtain ⟨l, hjl, hl⟩ := exists_differsAt_above hyd hor.symm hd
    have hor' := habove l (by omega)
    rw [BitVec.getLsbD_or, BitVec.getLsbD_or, hl.1, hl.2.1, Bool.or_true, Bool.or_false,
      hj.2.2 l hjl] at hor'
    have hagree := (h l (by omega) hor'.symm hl.2.1).2 l (Nat.le_refl l)
    rw [hl.1, hl.2.1] at hagree
    exact absurd hagree (by decide)

/-- The disjunction of the upper ends is the greatest one, if no number is lowered. -/
theorem HighEnds.le_or (h : HighEnds x y b d 0) (hxb : x ≤ b) (hyd : y ≤ d) :
    x ||| y ≤ b ||| d := by
  apply le_of_not_differsAt
  rintro i ⟨hi0, hi1, habove⟩
  have hends : HighEnds x y b d (i + 1) := fun j _ => h j (Nat.zero_le j)
  rw [BitVec.getLsbD_or, Bool.or_eq_false_iff] at hi0
  rw [BitVec.getLsbD_or, Bool.or_eq_true] at hi1
  rcases hi1 with hx | hy
  · exact hends.not_lt hxb hyd hx hi0.1 habove
  · refine hends.symm.not_lt hyd hxb hy hi0.2 ?_
    rw [BitVec.or_comm d, BitVec.or_comm y]
    exact habove

/-- Lowering one of the upper ends where the other one has the bit, too, gives a bound. -/
theorem HighEnds.le_roundDown_or (h : HighEnds x y b d (k + 1)) (hk : k < w)
    (hd : d.getLsbD k = true) (hxb : x ≤ b) (hyd : y ≤ d) : x ||| y ≤ roundDown b k ||| d := by
  apply le_of_not_differsAt
  rintro i ⟨hi0, hi1, habove⟩
  have hki : k < i := by
    rw [BitVec.getLsbD_or, Bool.or_eq_false_iff, getLsbD_roundDown hk] at hi0
    rcases Nat.lt_trichotomy k i with hlt | rfl | hlt
    · exact hlt
    · exact absurd (hi0.2.symm.trans hd) (by decide)
    · simp [hlt] at hi0
  have hends : ∀ j > k, (roundDown b k ||| d).getLsbD j = (b ||| d).getLsbD j := by
    intro j hj
    have hne : k ≠ j := by omega
    rw [BitVec.getLsbD_or, BitVec.getLsbD_or, getLsbD_roundDown hk]
    simp [Nat.not_lt.mpr hj.le, hne]
  have hends' : HighEnds x y b d (i + 1) := fun j hj => h j (by omega)
  have habove' : ∀ j > i, (b ||| d).getLsbD j = (x ||| y).getLsbD j := by
    intro j hj
    rw [← hends j (by omega), habove j hj]
  rw [hends i hki, BitVec.getLsbD_or, Bool.or_eq_false_iff] at hi0
  rw [BitVec.getLsbD_or, Bool.or_eq_true] at hi1
  rcases hi1 with hx | hy
  · exact hends'.not_lt hxb hyd hx hi0.1 habove'
  · refine hends'.symm.not_lt hyd hxb hy hi0.2 ?_
    rw [BitVec.or_comm d, BitVec.or_comm y]
    exact habove'

end BitOrder

end Xklee
