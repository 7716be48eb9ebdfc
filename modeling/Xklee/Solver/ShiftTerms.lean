/-
The constants and the shifts of the builders.

On a bit vector of the width that the builder takes it for, each function gives the bit vector it is
meant to: of the shift amount the low bits count, as many as number the bits of the operand.
-/
import Xklee.Data.Partial
import Xklee.Solver.STPBuilder

set_option autoImplicit false

namespace Xklee

open SMTTerm (app₂ app₃)

/-! ## Shift amounts -/

theorem size_eq_size_half {n : ℕ} (h : 0 < n) : n.size = (n / 2).size + 1 := by
  have hself := Nat.lt_size_self (n / 2)
  apply le_antisymm
  · rw [Nat.size_le, pow_succ]
    omega
  · rw [Nat.add_one_le_iff, Nat.lt_size]
    rcases Nat.eq_zero_or_pos (n / 2).size with hzero | hpos
    · rw [hzero]
      exact h
    · have hhalf : 2 ^ ((n / 2).size - 1) ≤ n / 2 := Nat.lt_size.mp (by omega)
      have hpow : 2 ^ (n / 2).size = 2 * 2 ^ ((n / 2).size - 1) := by
        rw [← pow_succ', Nat.sub_add_cancel hpos]
      omega

theorem getShiftBitsLoop_eq (n : ℕ) {amount : ℕ} (bits : ℕ) (h : amount < 2 ^ n) (hpos : 0 < amount) :
    getShiftBitsLoop n amount bits + 1 = bits + amount.size := by
  induction n generalizing amount bits with
  | zero => omega
  | succ n ih =>
    unfold getShiftBitsLoop
    dsimp only
    rw [Nat.shiftRight_one, size_eq_size_half hpos]
    by_cases hzero : amount / 2 = 0
    · rw [if_neg (not_not.mpr hzero), hzero, Nat.size_zero]
    · rw [if_pos hzero, ih (bits + 1) (by omega) (by omega)]
      omega

/-- The bits of a shift amount number the bits of the operand, and are fewer. -/
theorem getShiftBits_spec {width : ℕ} (h : 1 < width) :
    0 < getShiftBits width ∧ getShiftBits width < width ∧ width ≤ 2 ^ getShiftBits width := by
  have hself : width - 1 < 2 ^ (width - 1) := Nat.lt_two_pow_self
  have hlt : width - 1 < 2 ^ width := lt_of_lt_of_le hself (Nat.pow_le_pow_right (by omega) (by omega))
  have hloop := getShiftBitsLoop_eq width 1 hlt (by omega)
  have heq : getShiftBits width = (width - 1).size := by
    unfold getShiftBits
    omega
  have hpos : 0 < (width - 1).size := Nat.size_pos.mpr (by omega)
  have hle : (width - 1).size ≤ width - 1 := Nat.size_le.mpr hself
  have hpow := Nat.lt_size_self (width - 1)
  rw [heq]
  exact ⟨hpos, by omega, by omega⟩

/-- All amounts that shift within the operand can be told apart, also at one bit. -/
theorem le_two_pow_getShiftBits {width : ℕ} (h : 0 < width) : width ≤ 2 ^ getShiftBits width := by
  rcases Nat.lt_or_ge 1 width with hlt | hle
  · exact (getShiftBits_spec hlt).2.2
  · have hone : width = 1 := by omega
    rw [hone]
    decide

/-- The mask of a shift amount. -/
theorem and_shiftMask (amount shiftBits : ℕ) :
    amount &&& (1 <<< shiftBits - 1) = amount % 2 ^ shiftBits := by
  rw [Nat.one_shiftLeft, Nat.and_two_pow_sub_one_eq_mod]

/-! ## Constants -/

namespace STPBuilder

open STP

variable {w w' : ℕ}

theorem bvConst32_eq (hw : 0 < w) (value : ℕ) :
    bvConst32 w value = some (.bitVec w fun _ => BitVec.ofNat w value) :=
  SMTTerm.const_of_pos hw value

theorem bvConst64_eq (hw : 0 < w) (value : BitVec 64) :
    bvConst64 w value = some (.bitVec w fun _ => value.setWidth w) := by
  rw [← BitVec.ofNat_toNat]
  exact SMTTerm.const_of_pos hw value.toNat

theorem vc_bvConcatExpr_eq (f : Contents → BitVec w) (g : Contents → BitVec w') :
    vc_bvConcatExpr (.bitVec w f) (.bitVec w' g) = some (.bitVec (w + w') fun C => f C ++ g C) := rfl

theorem vc_bvSignExtend_eq (f : Contents → BitVec w) (h : w ≤ w') :
    vc_bvSignExtend (.bitVec w f) w' = some (.bitVec w' fun C => (f C).signExtend w') := by
  have hterm : SMTTerm.bitVec (w + (w' - w)) (fun C => (f C).signExtend (w + (w' - w)))
      = .bitVec w' fun C => (f C).signExtend w' := by
    rw [Nat.add_sub_cancel' h]
  change ((guard (w ≤ w') : Option Unit) >>= fun _ =>
    some (SMTTerm.bitVec (w + (w' - w)) fun C => (f C).signExtend (w + (w' - w)))) = _
  rw [Partial.guard_bind h, hterm]

/-- Zeros in front. -/
theorem concat_zero_eq (f : Contents → BitVec w) :
    (SMTTerm.bitVec (w' + w) fun C => BitVec.ofNat w' 0 ++ f C)
      = (.bitVec (w' + w) fun C => (f C).setWidth (w' + w) : QueryTerm) := by
  congr 1
  funext C
  apply BitVec.eq_of_getLsbD_eq
  intro i hi
  rw [BitVec.getLsbD_append, BitVec.getLsbD_setWidth, BitVec.getLsbD_zero, decide_eq_true hi]
  by_cases hlt : i < w
  · rw [if_pos hlt, Bool.true_and]
  · rw [if_neg hlt, BitVec.getLsbD_of_ge _ _ (by omega), Bool.true_and]

theorem bvZExtConstLoop_eq (n : ℕ) {width : ℕ} (hpos : 0 < width) (hn : width ≤ 64 * n)
    (f : Contents → BitVec w) :
    bvZExtConstLoop (.bitVec 64 fun _ => 0) n width (.bitVec w f)
      = some (.bitVec (width + w) fun C => (f C).setWidth (width + w)) := by
  induction n generalizing width w with
  | zero => omega
  | succ n ih =>
    unfold bvZExtConstLoop
    by_cases hlt : 64 < width
    · rw [if_pos hlt, vc_bvConcatExpr_eq]
      change bvZExtConstLoop _ n (width - 64) (SMTTerm.bitVec (64 + w) fun C => 0#64 ++ f C) = _
      rw [concat_zero_eq, ih (by omega) (by omega)]
      congr 1
      apply SMTTerm.bitVec_ext (by omega)
      intro C
      rw [BitVec.toNat_setWidth_of_le (by omega), BitVec.toNat_setWidth_of_le (by omega),
        BitVec.toNat_setWidth_of_le (by omega)]
    · rw [if_neg hlt, bvConst64_eq hpos]
      change some (SMTTerm.bitVec (width + w) fun C => (0#64).setWidth width ++ f C) = _
      rw [BitVec.setWidth_zero, concat_zero_eq]

theorem bvZExtConst_eq (hw : 0 < w) (value : BitVec 64) :
    bvZExtConst w value = some (.bitVec w fun _ => value.setWidth w) := by
  unfold bvZExtConst
  by_cases hle : w ≤ 64
  · rw [if_pos hle, bvConst64_eq hw]
  · rw [if_neg hle, bvConst64_eq (by omega), bvConst64_eq (by omega)]
    change bvZExtConstLoop (.bitVec 64 fun _ => (0 : BitVec 64).setWidth 64) w (w - 64)
      (.bitVec 64 fun _ => value.setWidth 64) = _
    rw [BitVec.setWidth_eq, BitVec.setWidth_eq, bvZExtConstLoop_eq w (by omega) (by omega),
      Nat.sub_add_cancel (by omega)]

theorem bvSExtConst_eq (hw : 0 < w) (value : BitVec 64) :
    bvSExtConst w value = some (.bitVec w fun _ => value.signExtend w) := by
  unfold bvSExtConst
  by_cases hle : w ≤ 64
  · rw [if_pos hle, bvConst64_eq hw, BitVec.signExtend_eq_setWidth_of_le _ hle]
  · rw [if_neg hle, bvConst64_eq (by omega)]
    change vc_bvSignExtend (.bitVec 64 fun _ => value.setWidth 64) w = _
    rw [BitVec.setWidth_eq, vc_bvSignExtend_eq _ (by omega)]

theorem bvZero_eq (hw : 0 < w) : bvZero w = some (.bitVec w fun _ => 0) := by
  rw [bvZero, bvZExtConst_eq hw]
  exact congrArg (fun v => some (SMTTerm.bitVec w fun _ => v)) (BitVec.setWidth_zero w 64)

theorem bvOne_eq (hw : 0 < w) : bvOne w = some (.bitVec w fun _ => 1) := by
  rw [bvOne, bvZExtConst_eq hw]
  have hone : (1 : BitVec 64).setWidth w = 1 := BitVec.setWidth_ofNat_one_eq_ofNat_one_of_lt (by omega)
  exact congrArg (fun v => some (SMTTerm.bitVec w fun _ => v)) hone

theorem bvMinusOne_eq (hw : 0 < w) : bvMinusOne w = some (.bitVec w fun _ => BitVec.allOnes w) := by
  rw [bvMinusOne, bvSExtConst_eq hw]
  have hones : (-1 : BitVec 64).signExtend w = BitVec.allOnes w := by
    apply BitVec.eq_of_getLsbD_eq
    intro i hi
    have hbits : (-1 : BitVec 64) = BitVec.allOnes 64 := by decide
    rw [hbits, BitVec.getLsbD_signExtend, BitVec.getLsbD_allOnes, BitVec.getLsbD_allOnes,
      BitVec.msb_allOnes (by omega)]
    by_cases hlt : i < 64
    · simp [hi, hlt]
    · simp [hi, hlt]
  exact congrArg (fun v => some (SMTTerm.bitVec w fun _ => v)) hones

/-! ## Extracts -/

theorem bvExtract_eq (f : Contents → BitVec w) {top bottom : ℕ} (hle : bottom ≤ top) (hlt : top < w) :
    bvExtract (.bitVec w f) top bottom
      = some (.bitVec (top - bottom + 1) fun C => (f C).extractLsb' bottom (top - bottom + 1)) :=
  SMTTerm.extract_of_lt f hle hlt

theorem bvBoolExtract_eq (f : Contents → BitVec w) {bit : ℕ} (hlt : bit < w) :
    bvBoolExtract (.bitVec w f) bit = some (.bool fun C => (f C).getLsbD bit) := by
  have hbit : SMTTerm.bitVec (bit - bit + 1) (fun C => (f C).extractLsb' bit (bit - bit + 1))
      = .bitVec 1 fun C => BitVec.ofBool ((f C).getLsbD bit) := by
    apply SMTTerm.bitVec_ext_getLsbD (by omega)
    intro C i hi
    obtain rfl : i = 0 := by omega
    simp
  unfold bvBoolExtract
  rw [bvExtract_eq f le_rfl hlt, hbit, bvOne_eq (by omega)]
  change app₂ .eq (.bitVec 1 fun C => BitVec.ofBool ((f C).getLsbD bit)) (.bitVec 1 fun _ => 1) = _
  rw [SMTTerm.app₂_eq]
  congr 2
  funext C
  cases (f C).getLsbD bit <;> rfl

/-! ## Shifts by constants -/

theorem bvRightShift_eq (hw : 0 < w) (f : Contents → BitVec w) (amount shiftBits : ℕ) :
    bvRightShift (.bitVec w f) amount shiftBits
      = some (.bitVec w fun C => f C >>> (amount % 2 ^ shiftBits)) := by
  change (if amount &&& (1 <<< shiftBits - 1) = 0 then _ else _) = _
  rw [and_shiftMask]
  generalize amount % 2 ^ shiftBits = shift
  by_cases hzero : shift = 0
  · rw [if_pos hzero, hzero]
    rfl
  · rw [if_neg hzero]
    by_cases hle : w ≤ shift
    · rw [if_pos hle, bvZero_eq hw]
      congr 2
      funext C
      exact (BitVec.ushiftRight_eq_zero hle).symm
    · rw [if_neg hle, bvZero_eq (by omega), bvExtract_eq f (by omega) (by omega)]
      change some (SMTTerm.bitVec (shift + (w - 1 - shift + 1)) fun C => BitVec.ofNat shift 0 ++
        (f C).extractLsb' shift (w - 1 - shift + 1)) = _
      rw [concat_zero_eq]
      congr 1
      apply SMTTerm.bitVec_ext_getLsbD (by omega)
      intro C i hi
      rw [BitVec.getLsbD_setWidth, BitVec.getLsbD_extractLsb', BitVec.getLsbD_ushiftRight,
        decide_eq_true hi, Bool.true_and]
      by_cases hlt : i < w - 1 - shift + 1
      · rw [decide_eq_true hlt, Bool.true_and]
      · rw [decide_eq_false hlt, Bool.false_and, BitVec.getLsbD_of_ge _ _ (by omega)]

theorem bvLeftShift_eq (hw : 0 < w) (f : Contents → BitVec w) (amount shiftBits : ℕ) :
    bvLeftShift (.bitVec w f) amount shiftBits
      = some (.bitVec w fun C => f C <<< (amount % 2 ^ shiftBits)) := by
  change (if amount &&& (1 <<< shiftBits - 1) = 0 then _ else _) = _
  rw [and_shiftMask]
  generalize amount % 2 ^ shiftBits = shift
  by_cases hzero : shift = 0
  · rw [if_pos hzero, hzero]
    congr 2
    funext C
    exact (BitVec.shiftLeft_zero _).symm
  · rw [if_neg hzero]
    by_cases hle : w ≤ shift
    · rw [if_pos hle, bvZero_eq hw]
      congr 2
      funext C
      exact (BitVec.shiftLeft_eq_zero hle).symm
    · rw [if_neg hle, bvZero_eq (by omega), bvExtract_eq f (by omega) (by omega)]
      change some (SMTTerm.bitVec (w - shift - 1 - 0 + 1 + shift) fun C =>
        (f C).extractLsb' 0 (w - shift - 1 - 0 + 1) ++ BitVec.ofNat shift 0) = _
      congr 1
      apply SMTTerm.bitVec_ext_getLsbD (by omega)
      intro C i hi
      rw [BitVec.getLsbD_append, BitVec.getLsbD_extractLsb', BitVec.getLsbD_shiftLeft,
        BitVec.getLsbD_zero, Nat.zero_add]
      have hiw : i < w := by omega
      by_cases hlt : i < shift
      · simp [hlt]
      · have hlt' : i - shift < w - shift - 1 - 0 + 1 := by omega
        rw [if_neg hlt, decide_eq_true hlt', decide_eq_true hiw, decide_eq_false hlt]
        rfl

/-! ## Shifts by variable amounts -/

/-- The cases of a shift amount are tried from the largest to the smallest. -/
theorem foldrM_shiftCase (n : ℕ) {step : ℕ → QueryTerm → Option QueryTerm} (s : Contents → ℕ)
    (shifted : ℕ → Contents → BitVec w)
    (hstep : ∀ i < n, ∀ res : Contents → BitVec w, step i (.bitVec w res)
      = some (.bitVec w fun C => if s C = i then shifted i C else res C)) (res : Contents → BitVec w) :
    (List.range n).foldrM step (.bitVec w res)
      = some (.bitVec w fun C => if s C < n then shifted (s C) C else res C) := by
  induction n generalizing res with
  | zero => rfl
  | succ n ih =>
    rw [List.range_succ, List.foldrM_append]
    change ((step n (.bitVec w res) >>= fun b => some b) >>= fun b => (List.range n).foldrM step b) = _
    rw [hstep n (by omega)]
    change (List.range n).foldrM step _ = _
    rw [ih fun i hi => hstep i (by omega)]
    congr 2
    funext C
    by_cases hlt : s C < n
    · rw [if_pos hlt, if_pos (by omega)]
    · rw [if_neg hlt]
      by_cases heq : s C = n
      · rw [if_pos heq, if_pos (by omega), heq]
      · rw [if_neg heq, if_neg (by omega)]

/-- A shift amount is compared with one of its values. -/
theorem shiftCase_eq {shiftBits i : ℕ} (hbits : 0 < shiftBits) (hi : i < 2 ^ shiftBits)
    (shift : Contents → BitVec shiftBits) (shifted res : Contents → BitVec w) :
    shiftCase (.bitVec shiftBits shift) shiftBits i (some (.bitVec w shifted)) (.bitVec w res)
      = some (.bitVec w fun C => if (shift C).toNat = i then shifted C else res C) := by
  unfold shiftCase
  rw [bvConst32_eq hbits]
  change (app₂ .eq (.bitVec shiftBits shift) (.bitVec shiftBits fun _ => BitVec.ofNat shiftBits i)
    >>= fun cond => vc_iteExpr cond (.bitVec w shifted) (.bitVec w res)) = _
  rw [SMTTerm.app₂_eq, Option.bind_eq_bind, Option.bind_some, vc_iteExpr, SMTTerm.app₃_ite]
  congr 2
  funext C
  have hiff : (shift C == BitVec.ofNat shiftBits i) = true ↔ (shift C).toNat = i := by
    rw [beq_iff_eq, ← BitVec.toNat_inj, BitVec.toNat_ofNat, Nat.mod_eq_of_lt hi]
  by_cases heq : (shift C).toNat = i
  · rw [if_pos heq, if_pos (hiff.mpr heq)]
  · rw [if_neg heq, if_neg fun h => heq (hiff.mp h)]

/-- The low bits of a shift amount. -/
theorem extract_shiftBits {bits w' : ℕ} (hpos : 0 < bits) (hle : bits ≤ w')
    (g : Contents → BitVec w') : vc_bvExtract (.bitVec w' g) (bits - 1) 0
      = some (.bitVec bits fun C => (g C).extractLsb' 0 bits) := by
  rw [vc_bvExtract, SMTTerm.extract_of_lt g (by omega) (by omega)]
  congr 1
  apply SMTTerm.bitVec_ext (by omega)
  intro C
  rw [BitVec.extractLsb'_toNat, BitVec.extractLsb'_toNat, Nat.sub_zero, Nat.sub_add_cancel hpos]

theorem toNat_extract_shiftBits {bits w' : ℕ} (x : BitVec w') :
    (x.extractLsb' 0 bits).toNat = x.toNat % 2 ^ bits := by
  rw [BitVec.extractLsb'_toNat, Nat.shiftRight_zero]

theorem bvVarRightShift_eq (hw : 1 < w) (f : Contents → BitVec w) (g : Contents → BitVec w')
    (hbits : getShiftBits w ≤ w') : bvVarRightShift (.bitVec w f) (.bitVec w' g) w
      = some (.bitVec w fun C => f C >>> ((g C).toNat % 2 ^ getShiftBits w)) := by
  obtain ⟨hpos, -, hle⟩ := getShiftBits_spec hw
  unfold bvVarRightShift
  rw [bvZero_eq (by omega), Option.bind_eq_bind, Option.bind_some]
  dsimp only
  rw [extract_shiftBits hpos hbits, Option.bind_some,
    foldrM_shiftCase w (fun C => ((g C).extractLsb' 0 (getShiftBits w)).toNat)
      (fun i C => f C >>> i)]
  · congr 2
    funext C
    rw [toNat_extract_shiftBits]
    by_cases hlt : (g C).toNat % 2 ^ getShiftBits w < w
    · rw [if_pos hlt]
    · rw [if_neg hlt]
      exact (BitVec.ushiftRight_eq_zero (by omega)).symm
  · intro i hi res
    rw [bvRightShift_eq (by omega), Nat.mod_eq_of_lt (by omega), shiftCase_eq hpos (by omega)]

end STPBuilder

end Xklee
