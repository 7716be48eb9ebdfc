/-
Multiplications and divisions by constants, as `STPBuilder` builds them.

A product with a constant is a sum of shifts, one for each bit of the two words whose difference the
constant is. A quotient by a constant is the upper half of a product, shifted and corrected. Both
are exact: the terms have the values of the product and of the quotient.
-/
import Xklee.Solver.ShiftTerms

set_option autoImplicit false

namespace Xklee

open SMTTerm (app₁ app₂ app₃)

/-! ## Products with the bits from one on -/

section Product

variable {w : ℕ} (add sub : BitVec 64)

/-- The bits of a word from `j` on. -/
def upperBits (x : BitVec 64) (j : ℕ) : ℕ := x.toNat / 2 ^ j * 2 ^ j

theorem upperBits_zero (x : BitVec 64) : upperBits x 0 = x.toNat := by
  rw [upperBits, pow_zero, Nat.div_one, Nat.mul_one]

theorem upperBits_top (x : BitVec 64) : upperBits x 64 = 0 := by
  rw [upperBits, Nat.div_eq_of_lt x.isLt, Nat.zero_mul]

theorem upperBits_succ (x : BitVec 64) (j : ℕ) :
    upperBits x j = upperBits x (j + 1) + (if x.getLsbD j then 2 ^ j else 0) := by
  have hbit : x.toNat / 2 ^ j % 2 = if x.getLsbD j then 1 else 0 := by
    rw [← BitVec.testBit_toNat, Nat.testBit_eq_decide_div_mod_eq]
    by_cases hone : x.toNat / 2 ^ j % 2 = 1
    · rw [decide_eq_true hone, if_pos rfl, hone]
    · rw [decide_eq_false hone, if_neg Bool.false_ne_true]
      omega
  have hdiv : x.toNat / 2 ^ (j + 1) = x.toNat / 2 ^ j / 2 := by
    rw [pow_succ, Nat.div_div_eq_div_mul]
  have hsplit : x.toNat / 2 ^ j * 2 ^ j
      = x.toNat / 2 ^ j / 2 * (2 ^ j * 2) + x.toNat / 2 ^ j % 2 * 2 ^ j := by
    calc x.toNat / 2 ^ j * 2 ^ j
        = (2 * (x.toNat / 2 ^ j / 2) + x.toNat / 2 ^ j % 2) * 2 ^ j := by rw [Nat.div_add_mod]
      _ = x.toNat / 2 ^ j / 2 * (2 ^ j * 2) + x.toNat / 2 ^ j % 2 * 2 ^ j := by ring
  rw [upperBits, upperBits, hdiv, pow_succ, hsplit, hbit, ite_mul, Nat.one_mul, Nat.zero_mul]

/-- The product with the difference of two words, of which the bits from `j` on are taken. -/
def productFrom (j : ℕ) (x : BitVec w) : BitVec w :=
  x * BitVec.ofNat w (upperBits add j) - x * BitVec.ofNat w (upperBits sub j)

variable {add sub} {j : ℕ} (x : BitVec w)

theorem productFrom_top : productFrom add sub 64 x = 0 := by
  rw [productFrom, upperBits_top, upperBits_top]
  exact sub_self _

theorem shiftLeft_eq_mul (x : BitVec w) (j : ℕ) : x <<< j = x * BitVec.ofNat w (2 ^ j) := by
  rw [BitVec.shiftLeft_eq_mul_twoPow]
  congr 1
  apply BitVec.eq_of_toNat_eq
  rw [BitVec.toNat_twoPow, BitVec.toNat_ofNat]

/-- A bit of the first word is added. -/
theorem productFrom_add (ha : add.getLsbD j = true) (hs : sub.getLsbD j = false) :
    productFrom add sub j x = productFrom add sub (j + 1) x + x <<< j := by
  rw [productFrom, productFrom, upperBits_succ add j, upperBits_succ sub j, ha, hs, if_pos rfl,
    if_neg Bool.false_ne_true, shiftLeft_eq_mul, Nat.add_zero, BitVec.ofNat_add (upperBits add _), mul_add]
  abel

/-- A bit of the second word is subtracted. -/
theorem productFrom_sub (ha : add.getLsbD j = false) (hs : sub.getLsbD j = true) :
    productFrom add sub j x = productFrom add sub (j + 1) x - x <<< j := by
  rw [productFrom, productFrom, upperBits_succ add j, upperBits_succ sub j, ha, hs, if_pos rfl,
    if_neg Bool.false_ne_true, shiftLeft_eq_mul, Nat.add_zero, BitVec.ofNat_add (upperBits sub _), mul_add]
  abel

theorem productFrom_none (ha : add.getLsbD j = false) (hs : sub.getLsbD j = false) :
    productFrom add sub j x = productFrom add sub (j + 1) x := by
  rw [productFrom, productFrom, upperBits_succ add j, upperBits_succ sub j, ha, hs]
  simp only [Bool.false_eq_true, if_false, Nat.add_zero]

end Product

/-- The product with the whole difference. -/
theorem productFrom_zero {add sub x : BitVec 64} {w : ℕ} (hle : w ≤ 64)
    (hx : add - sub = x) (y : BitVec w) :
    productFrom (bits64.truncateToNBits add w) (bits64.truncateToNBits sub w) 0 y
      = y * x.setWidth w := by
  have hofNat : ∀ z : BitVec 64, BitVec.ofNat w (z.toNat % 2 ^ w) = z.setWidth w := by
    intro z
    apply BitVec.eq_of_toNat_eq
    rw [BitVec.toNat_ofNat, BitVec.toNat_setWidth, Nat.mod_mod]
  have hsub : x.setWidth w = add.setWidth w - sub.setWidth w := by
    rw [eq_sub_iff_add_eq, ← BitVec.setWidth_add _ _ hle, ← hx, sub_add_cancel]
  rw [productFrom, upperBits_zero, upperBits_zero, toNat_truncateToNBits _ hle,
    toNat_truncateToNBits _ hle, hofNat, hofNat, hsub]
  ring

/-- A bit of the words, as the loop tests it. -/
theorem and_bit_ne_zero_iff (x : BitVec 64) {j : ℕ} (hj : j < 64) :
    x &&& (1#64 <<< j) ≠ 0 ↔ x.getLsbD j = true := by
  change x &&& BitVec.twoPow 64 j ≠ 0 ↔ _
  constructor
  · intro hne
    by_contra hfalse
    exact hne (and_twoPow_eq_zero (Bool.eq_false_iff.mpr hfalse))
  · intro hset hzero
    have hbit : (x &&& BitVec.twoPow 64 j).getLsbD j = true := by
      rw [BitVec.getLsbD_and, BitVec.getLsbD_twoPow, hset, decide_eq_true hj, decide_eq_true rfl]
      rfl
    rw [hzero] at hbit
    exact Bool.false_ne_true (BitVec.getLsbD_zero.symm.trans hbit)

/-! ## Multiplication by a constant -/

namespace STPBuilder

open STP

variable {w : ℕ}

/-- What the loop has built: nothing where no bit was seen. -/
def ProductTerm (add sub : BitVec 64) (f : Contents → BitVec w) (j : ℕ) : Option QueryTerm → Prop
  | none => ∀ x : BitVec w, productFrom add sub j x = 0
  | some t => t = .bitVec w fun C => productFrom add sub j (f C)

theorem ofLength_eq (f : Contents → BitVec w) :
    ofLength w (some (.bitVec w f)) = some (.bitVec w f) := by
  change ((guard (w = w) : Option Unit) >>= fun _ => some (SMTTerm.bitVec w f)) = _
  rw [Partial.guard_bind rfl]

theorem vc_bvPlusExpr_eq (f g : Contents → BitVec w) :
    vc_bvPlusExpr w (.bitVec w f) (.bitVec w g) = some (.bitVec w fun C => f C + g C) := by
  rw [vc_bvPlusExpr, SMTTerm.app₂_bitVec, ofLength_eq]
  rfl

theorem vc_bvMinusExpr_eq (f g : Contents → BitVec w) :
    vc_bvMinusExpr w (.bitVec w f) (.bitVec w g) = some (.bitVec w fun C => f C - g C) := by
  rw [vc_bvMinusExpr, SMTTerm.app₂_bitVec, ofLength_eq]
  rfl

/-- One round takes one more bit. -/
theorem mulRound_spec (hw : 0 < w) {add sub : BitVec 64} {shiftBits : ℕ} (hbits : w ≤ 2 ^ shiftBits)
    (haddHigh : ∀ j, w ≤ j → add.getLsbD j = false) (hsubHigh : ∀ j, w ≤ j → sub.getLsbD j = false)
    (hapart : ∀ j, add.getLsbD j = true → sub.getLsbD j = false) (f : Contents → BitVec w) {j : ℕ}
    (hj : j < 64) {res : Option QueryTerm} (hres : ProductTerm add sub f (j + 1) res) :
    ∃ res', mulRound (.bitVec w f) w shiftBits add sub j res = some res' ∧ ProductTerm add sub f j res' := by
  unfold mulRound
  dsimp only
  simp only [and_bit_ne_zero_iff _ hj]
  cases ha : add.getLsbD j with
  | true =>
    have hs : sub.getLsbD j = false := hapart j ha
    have hlt : j < w := by
      by_contra hge
      rw [haddHigh j (by omega)] at ha
      exact Bool.false_ne_true ha
    rw [if_pos (Or.inl rfl), Partial.guard_bind (by rw [hs]; simp), bvLeftShift_eq hw,
      Nat.mod_eq_of_lt (by omega), Option.bind_eq_bind, Option.bind_some, if_pos rfl]
    cases res with
    | none =>
      refine ⟨_, rfl, ?_⟩
      change SMTTerm.bitVec w _ = SMTTerm.bitVec w _
      congr 1
      funext C
      have hzero := hres (f C)
      rw [productFrom_add _ ha hs, hzero]
      exact (zero_add _).symm
    | some t =>
      obtain rfl := hres
      refine ⟨some (.bitVec w fun C => productFrom add sub (j + 1) (f C) + f C <<< j), ?_, ?_⟩
      · change some <$> vc_bvPlusExpr w _ _ = _
        rw [vc_bvPlusExpr_eq]
        rfl
      · change SMTTerm.bitVec w _ = SMTTerm.bitVec w _
        congr 1
        funext C
        exact (productFrom_add _ ha hs).symm
  | false =>
    cases hs : sub.getLsbD j with
    | true =>
      have hlt : j < w := by
        by_contra hge
        rw [hsubHigh j (by omega)] at hs
        exact Bool.false_ne_true hs
      rw [if_pos (Or.inr rfl), Partial.guard_bind (by simp), bvLeftShift_eq hw,
        Nat.mod_eq_of_lt (by omega), Option.bind_eq_bind, Option.bind_some,
        if_neg Bool.false_ne_true]
      cases res with
      | none =>
        refine ⟨_, rfl, ?_⟩
        change SMTTerm.bitVec w _ = SMTTerm.bitVec w _
        congr 1
        funext C
        have hzero := hres (f C)
        rw [productFrom_sub _ ha hs, hzero]
        exact (zero_sub _).symm
      | some t =>
        obtain rfl := hres
        refine ⟨some (.bitVec w fun C => productFrom add sub (j + 1) (f C) - f C <<< j), ?_, ?_⟩
        · change some <$> vc_bvMinusExpr w _ _ = _
          rw [vc_bvMinusExpr_eq]
          rfl
        · change SMTTerm.bitVec w _ = SMTTerm.bitVec w _
          congr 1
          funext C
          exact (productFrom_sub _ ha hs).symm
    | false =>
      rw [if_neg (by simp)]
      refine ⟨res, rfl, ?_⟩
      cases res with
      | none =>
        intro x
        rw [productFrom_none _ ha hs]
        exact hres x
      | some t =>
        obtain rfl := hres
        change SMTTerm.bitVec w _ = SMTTerm.bitVec w _
        congr 1
        funext C
        exact (productFrom_none _ ha hs).symm

/-- The sum of shifts is the product. -/
theorem constructMulByConstant_eq (hw : 0 < w) (hle : w ≤ 64) (f : Contents → BitVec w)
    (x : BitVec 64) : constructMulByConstant (.bitVec w f) w x
      = some (.bitVec w fun C => f C * x.setWidth w) := by
  obtain ⟨add, sub, hconstants, hx, hapart⟩ := ComputeMultConstants64_eq x
  have hbits := le_two_pow_getShiftBits hw
  have hbit : ∀ (y : BitVec 64) (j : ℕ), (bits64.truncateToNBits y w).getLsbD j
      = (decide (j < w) && y.getLsbD j) := by
    intro y j
    rw [← BitVec.testBit_toNat, toNat_truncateToNBits y hle, Nat.testBit_mod_two_pow,
      BitVec.testBit_toNat]
  have hhigh : ∀ (y : BitVec 64) (j : ℕ), w ≤ j → (bits64.truncateToNBits y w).getLsbD j = false := by
    intro y j hj
    rw [hbit, decide_eq_false (by omega), Bool.false_and]
  have hloop := Partial.foldrM_range (n := 64)
    (f := mulRound (.bitVec w f) w (getShiftBits w) (bits64.truncateToNBits add w)
      (bits64.truncateToNBits sub w))
    (P := ProductTerm (bits64.truncateToNBits add w) (bits64.truncateToNBits sub w) f)
    (fun j hj res hres => mulRound_spec hw hbits (hhigh add) (hhigh sub) (fun j haj => by
      rw [hbit, Bool.and_eq_true] at haj
      rw [hbit, hapart j haj.2, Bool.and_false]) f hj hres)
    (b := none) (fun y => productFrom_top y)
  obtain ⟨res, hrun, hres⟩ := hloop
  unfold constructMulByConstant
  dsimp only
  rw [hconstants, Option.bind_eq_bind, Option.bind_some, hrun, Option.bind_eq_bind, Option.bind_some]
  cases res with
  | none =>
    change bvZero w = _
    rw [bvZero_eq hw]
    congr 2
    funext C
    rw [← productFrom_zero hle hx]
    exact (hres (f C)).symm
  | some t =>
    obtain rfl := hres
    change some _ = some _
    congr 2
    funext C
    exact productFrom_zero hle hx (f C)

/-! ## Division by a constant -/

/-- The upper half of a product of zero-extended words. -/
theorem extract_setWidth_mul (n m : BitVec 32) :
    (n.setWidth 64 * (m.setWidth 64).setWidth 64).extractLsb' 32 32
      = BitVec.ofNat 32 (n.toNat * m.toNat / 2 ^ 32) := by
  apply BitVec.eq_of_toNat_eq
  have hn := n.isLt
  have hm := m.isLt
  have hprod : n.toNat * m.toNat < 2 ^ 64 := by
    calc n.toNat * m.toNat < 2 ^ 32 * 2 ^ 32 := Nat.mul_lt_mul'' hn hm
      _ = 2 ^ 64 := (pow_add 2 32 32).symm
  rw [BitVec.extractLsb'_toNat, BitVec.setWidth_eq, BitVec.toNat_mul,
    BitVec.toNat_setWidth_of_le (by omega), BitVec.toNat_setWidth_of_le (by omega),
    Nat.mod_eq_of_lt hprod, BitVec.toNat_ofNat, Nat.shiftRight_eq_div_pow]

theorem getShiftBits_32 : getShiftBits 32 = 5 := by decide

theorem getShiftBits_64 : getShiftBits 64 = 6 := by decide

/-- A shift by a constant amount that is small enough. -/
theorem bvVarRightShift_const (hw : 1 < w) {bits : ℕ} (hbits : getShiftBits w = bits) (hle : bits ≤ 32)
    (f : Contents → BitVec w) (amount : ℕ) (hamount : amount < 2 ^ bits) :
    bvVarRightShift (.bitVec w f) (.bitVec 32 fun _ => BitVec.ofNat 32 amount) w
      = some (.bitVec w fun C => f C >>> amount) := by
  have hpow : 2 ^ bits ≤ 2 ^ 32 := Nat.pow_le_pow_right (by omega) hle
  rw [bvVarRightShift_eq hw _ _ (by omega), hbits, BitVec.toNat_ofNat,
    Nat.mod_eq_of_lt (a := amount) (by omega), Nat.mod_eq_of_lt hamount]

/-- The term is the quotient. -/
theorem constructUDivByConstant_eq (f : Contents → BitVec 32) {d : BitVec 64}
    (hd : d.setWidth 32 ≠ 0) : constructUDivByConstant (.bitVec 32 f) 32 d
      = some (.bitVec 32 fun C => f C / d.setWidth 32) := by
  obtain ⟨mprime, sh1, sh2, hconstants, hsh1, hsh2, -⟩ := ComputeUDivConstants32_spec 0 hd
  have hquotient : ∀ n : BitVec 32, (let t1 := BitVec.ofNat 32 (n.toNat * mprime.toNat / 2 ^ 32)
      ((n - t1) >>> sh1.toNat + t1) >>> sh2.toNat = n / d.setWidth 32) := by
    intro n
    obtain ⟨mprime', sh1', sh2', hconstants', -, -, hn⟩ := ComputeUDivConstants32_spec n hd
    obtain ⟨rfl, rfl, rfl⟩ : mprime = mprime' ∧ sh1 = sh1' ∧ sh2 = sh2' := by
      simpa using hconstants.symm.trans hconstants'
    exact hn
  have hzero : bvZero 32 = some (.bitVec 32 fun _ => 0#32) := bvZero_eq (by omega)
  -- the upper half of the product
  have h64 : vc_bvConcatExpr (.bitVec 32 fun _ => 0#32) (.bitVec 32 f)
      = some (.bitVec 64 fun C => (f C).setWidth 64) := by
    rw [vc_bvConcatExpr_eq, concat_zero_eq]
  have ht1 : vc_bvExtract (.bitVec 64 fun C => (f C).setWidth 64 * (mprime.setWidth 64).setWidth 64) 63 32
      = some (.bitVec 32 fun C => BitVec.ofNat 32 ((f C).toNat * mprime.toNat / 2 ^ 32)) := by
    rw [vc_bvExtract, SMTTerm.extract_of_lt _ (by omega) (by omega)]
    congr 2
    funext C
    exact extract_setWidth_mul (f C) mprime
  have hshift := fun (g : Contents → BitVec 32) (sh : BitVec 32) (hsh : sh.toNat < 32) =>
    bvVarRightShift_const (by omega) getShiftBits_32 (by omega) g sh.toNat hsh
  unfold constructUDivByConstant
  dsimp only
  rw [Partial.guard_bind rfl, Partial.bind_of_eq hconstants]
  dsimp only
  rw [Partial.bind_of_eq (bvConst32_eq (by omega) _), Partial.bind_of_eq (bvConst32_eq (by omega) _),
    Partial.bind_of_eq hzero, Partial.bind_of_eq h64,
    Partial.bind_of_eq (constructMulByConstant_eq (by omega) (by omega) _ _),
    Partial.bind_of_eq ht1, Partial.bind_of_eq (vc_bvMinusExpr_eq _ _),
    Partial.bind_of_eq (hshift _ sh1 hsh1), Partial.bind_of_eq (vc_bvPlusExpr_eq _ _),
    hshift _ sh2 hsh2]
  congr 2
  funext C
  exact hquotient (f C)

/-- The term is the quotient that is rounded towards zero. -/
theorem constructSDivByConstant_eq (f : Contents → BitVec 32) {d : BitVec 64}
    (hd : d.setWidth 32 ≠ 0) : constructSDivByConstant (.bitVec 32 f) 32 d
      = some (.bitVec 32 fun C => (f C).sdiv (d.setWidth 32)) := by
  obtain ⟨mprime, dsign, shpost, hconstants, hshpost, -⟩ := ComputeSDivConstants32_spec 0 hd
  have hquotient : ∀ n : BitVec 32,
      (let mulsh := (n.signExtend 64 * mprime.signExtend 64).extractLsb' 32 32
        let shifted := (((n + mulsh).signExtend 64) >>> shpost.toNat).extractLsb' 0 32
        let q0 := shifted - (if n.msb then BitVec.allOnes 32 else 0)
        (q0 ^^^ dsign) - dsign = n.sdiv (d.setWidth 32)) := by
    intro n
    obtain ⟨mprime', dsign', shpost', hconstants', -, hn⟩ := ComputeSDivConstants32_spec n hd
    obtain ⟨rfl, rfl, rfl⟩ : mprime = mprime' ∧ dsign = dsign' ∧ shpost = shpost' := by
      simpa using hconstants.symm.trans hconstants'
    exact hn
  have hextract : ∀ (g : Contents → BitVec 64) {high low : ℕ}, low ≤ high → high < 64 →
      high - low + 1 = 32 → vc_bvExtract (.bitVec 64 g) high low
        = some (.bitVec 32 fun C => (g C).extractLsb' low 32) := by
    intro g high low hle hlt hwidth
    rw [vc_bvExtract, SMTTerm.extract_of_lt g hle hlt]
    congr 1
    apply SMTTerm.bitVec_ext hwidth
    intro C
    rw [BitVec.extractLsb'_toNat, BitVec.extractLsb'_toNat, hwidth]
  have hsign : (fun C => (f C).getLsbD 31) = fun C => (f C).msb := by
    funext C
    rw [BitVec.msb_eq_getLsbD_last]
  have hxsign : vc_iteExpr (.bool fun C => (f C).msb) (.bitVec 32 fun _ => BitVec.allOnes 32)
      (.bitVec 32 fun _ => 0)
        = some (.bitVec 32 fun C => if (f C).msb then BitVec.allOnes 32 else 0) :=
    SMTTerm.app₃_ite _ _ _
  have hxor : ∀ g h : Contents → BitVec 32, vc_bvXorExpr (.bitVec 32 g) (.bitVec 32 h)
      = some (.bitVec 32 fun C => g C ^^^ h C) := fun g h => SMTTerm.app₂_bitVec g h .bvxor
  unfold constructSDivByConstant
  dsimp only
  rw [Partial.guard_bind rfl, Partial.bind_of_eq hconstants]
  dsimp only
  rw [Partial.bind_of_eq (bvConst32_eq (by omega) _), Partial.bind_of_eq (bvConst32_eq (by omega) _),
    Partial.bind_of_eq (vc_bvSignExtend_eq f (by omega)),
    Partial.bind_of_eq (constructMulByConstant_eq (by omega) (by omega) _ _),
    Partial.bind_of_eq (hextract _ (by omega) (by omega) rfl), Partial.bind_of_eq (vc_bvPlusExpr_eq _ _),
    Partial.bind_of_eq (vc_bvSignExtend_eq _ (by omega)),
    Partial.bind_of_eq (bvVarRightShift_const (by omega) getShiftBits_64 (by omega) _ shpost.toNat
      (by omega)),
    Partial.bind_of_eq (hextract _ (by omega) (by omega) rfl),
    Partial.bind_of_eq (bvBoolExtract_eq f (by omega)), hsign, Partial.bind_of_eq (bvMinusOne_eq (by omega)),
    Partial.bind_of_eq (bvZero_eq (by omega)), Partial.bind_of_eq hxsign,
    Partial.bind_of_eq (vc_bvMinusExpr_eq _ _), Partial.bind_of_eq (hxor _ _), vc_bvMinusExpr_eq]
  congr 2
  funext C
  have hdsign : BitVec.ofNat 32 dsign.toNat = dsign := by
    rw [BitVec.ofNat_toNat, BitVec.setWidth_eq]
  rw [hdsign, BitVec.setWidth_eq]
  exact hquotient (f C)

/-- The loop ends, with words that have no bit in common and whose difference is the factor; and the
sum of shifts that is built from them is the product, at every width. -/
theorem constructMulByConstant_exact (m : BitVec 64) :
    (∃ s, MultConstants.loop 64 ⟨m, 0, 0⟩ = s ∧ s.x = 0
      ∧ ComputeMultConstants64 m = some (s.add, s.sub) ∧ s.add &&& s.sub = 0 ∧ s.add - s.sub = m)
    ∧ ∀ w, 0 < w → w ≤ 64 → ∀ f : Contents → BitVec w,
      constructMulByConstant (.bitVec w f) w m = some (.bitVec w fun C => f C * m.setWidth w) := by
  constructor
  · obtain ⟨hx, hvalue, hapart⟩ := MultConstants.loop_ends m
    refine ⟨_, rfl, hx, if_pos hvalue.symm, ?_, hvalue⟩
    apply BitVec.eq_of_getLsbD_eq
    intro j _
    rw [BitVec.getLsbD_and]
    cases hadd : (MultConstants.loop 64 ⟨m, 0, 0⟩).add.getLsbD j with
    | true =>
      rw [hapart j hadd]
      exact BitVec.getLsbD_zero.symm
    | false => exact BitVec.getLsbD_zero.symm
  · intro w hw hle f
    exact constructMulByConstant_eq hw hle f m

/-- Seven bits, with a factor whose run of ones reaches the top. -/
theorem constructMulByConstant_exact_top :
    constructMulByConstant (.bitVec 7 fun _ => 3#7) 7 (-5#64) = some (.bitVec 7 fun _ => 113#7) := by
  rw [(constructMulByConstant_exact (-5#64)).2 7 (by decide) (by decide) fun _ => 3#7]
  rfl

/-- For every divisor but 0, the constants turn the quotient into the upper half of a product, two
shifts, a subtraction and a sum, all modulo a power of two; and that is the term that is built. -/
theorem constructUDivByConstant_exact (d : BitVec 32) (hd : d ≠ 0) :
    (∃ mprime sh1 sh2, ComputeUDivConstants32 d = some (mprime, sh1, sh2)
      ∧ ∀ n : BitVec 32,
        (let t1 := ((mprime.setWidth 64 * n.setWidth 64) >>> 32).setWidth 32;
          ((n - t1) >>> sh1 + t1) >>> sh2 = n / d))
    ∧ ∀ f : Contents → BitVec 32, constructUDivByConstant (.bitVec 32 f) 32 (d.setWidth 64)
      = some (.bitVec 32 fun C => f C / d) := by
  have hback : (d.setWidth 64).setWidth 32 = d := BitVec.setWidth_setWidth_of_le _ (by omega)
  constructor
  · obtain ⟨mprime, sh1, sh2, hconstants, -, -, -⟩ := ComputeUDivConstants32_spec 0 hd
    refine ⟨mprime, sh1, sh2, hconstants, ?_⟩
    intro n
    obtain ⟨mprime', sh1', sh2', hconstants', -, -, hn⟩ := ComputeUDivConstants32_spec n hd
    obtain ⟨rfl, rfl, rfl⟩ : mprime = mprime' ∧ sh1 = sh1' ∧ sh2 = sh2' := by
      simpa using hconstants.symm.trans hconstants'
    have hhalf : ((mprime.setWidth 64 * n.setWidth 64) >>> 32).setWidth 32
        = BitVec.ofNat 32 (n.toNat * mprime.toNat / 2 ^ 32) := by
      rw [mul_comm, ← extract_setWidth_mul n mprime, BitVec.setWidth_eq]
      apply BitVec.eq_of_toNat_eq
      rw [BitVec.toNat_setWidth, BitVec.toNat_ushiftRight, BitVec.extractLsb'_toNat]
    rw [hhalf]
    exact hn
  · intro f
    rw [constructUDivByConstant_eq f (by rwa [hback]), hback]

/-- Above `2 ^ 31` the number of bits is 32, and a power of two wraps to 0. -/
theorem constructUDivByConstant_exact_top :
    0xfffffffe#32 ≠ 0 ∧ constructUDivByConstant (.bitVec 32 fun _ => 0xffffffff#32) 32
      (BitVec.setWidth 64 0xfffffffe#32) = some (.bitVec 32 fun _ => 1#32) := by
  refine ⟨by decide, ?_⟩
  rw [(constructUDivByConstant_exact 0xfffffffe#32 (by decide)).2 fun _ => 0xffffffff#32]
  rfl

/-- For every divisor but 0, the term that is built is the quotient rounded towards zero, modulo
`2 ^ 32`. -/
theorem constructSDivByConstant_exact (d : BitVec 32) (hd : d ≠ 0) (f : Contents → BitVec 32) :
    constructSDivByConstant (.bitVec 32 f) 32 (d.setWidth 64)
      = some (.bitVec 32 fun C => BitVec.ofInt 32 ((f C).toInt.tdiv d.toInt)) := by
  have hback : (d.setWidth 64).setWidth 32 = d := BitVec.setWidth_setWidth_of_le _ (by omega)
  rw [constructSDivByConstant_eq f (by rwa [hback]), hback]
  congr 2
  funext C
  apply BitVec.eq_of_toInt_eq
  rw [BitVec.toInt_sdiv, BitVec.toInt_ofInt]

/-- The one quotient that overflows wraps. -/
theorem constructSDivByConstant_exact_wraps :
    (-1#32) ≠ 0 ∧ constructSDivByConstant (.bitVec 32 fun _ => BitVec.intMin 32) 32
      ((-1#32).setWidth 64) = some (.bitVec 32 fun _ => BitVec.intMin 32) := by
  refine ⟨by decide, ?_⟩
  rw [constructSDivByConstant_exact (-1#32) (by decide) fun _ => BitVec.intMin 32]
  rfl

end STPBuilder

end Xklee
