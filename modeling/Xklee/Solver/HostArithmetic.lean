/-
What `lib/Solver/STPBuilder.cpp` computes on the host while it builds a term.

A division by a constant becomes a multiplication by a constant that `ConstantDivision.cpp` computes
with a division and with shifts of 32-bit and 64-bit words. A division by 0 stops the program, and a
shift by a negative amount or by the whole width is not defined. The functions here do these
computations and nothing else, and there is no result when one of them goes wrong.

The constructors leave a division by the constant 0 in place, and the builder computes its constants
like those of any other divisor.
-/
import Xklee.Expr.CanonicalForm
import Xklee.Solver.DivisionTerms

set_option autoImplicit false

namespace Xklee

/-! ## Checked computations -/

namespace Host

/-- The amount of a shift of a word is not negative, and less than the width. -/
def checkShift (width : ℕ) (amount : ℤ) : Option Unit :=
  if 0 ≤ amount ∧ amount < width then some () else none

/-- One round of the loop of `ComputeMultConstants64`. -/
def round (s : MultConstants) : Option MultConstants := do
  let low := bits64.indexOfRightmostBit s.x
  -- `1LL << low`
  checkShift 64 low
  let p := s.x + BitVec.twoPow 64 low
  let q := bits64.isolateRightmostBit p
  let high := if q ≠ 0 then bits64.indexOfSingleBit q else 64
  -- `1LL << high`, when there is more than one bit
  if high ≠ low + 1 ∧ high ≠ 64 then checkShift 64 high
  return s.round

/-- The loop. The first argument bounds the rounds. -/
def loop : ℕ → MultConstants → Option MultConstants
  | 0, s => some s
  | n + 1, s => if s.x ≠ 0 then (round s).bind (loop n) else some s

def ComputeMultConstants64 (multiplicand : BitVec 64) : Option (BitVec 64 × BitVec 64) := do
  let s ← loop 64 ⟨multiplicand, 0, 0⟩
  if multiplicand = s.add - s.sub then some (s.add, s.sub) else none

def ComputeUDivConstants32 (d : BitVec 32) : Option (BitVec 32 × BitVec 32 × BitVec 32) := do
  -- `x << n` of `exp_base_2`, where `n` is the logarithm
  checkShift 32 (LOG2_CEIL d).toInt
  guard (d ≠ 0)
  Xklee.ComputeUDivConstants32 d

def ComputeSDivConstants32 (d : BitVec 32) : Option (BitVec 32 × BitVec 32 × BitVec 32) := do
  let abs_d := d.toInt.natAbs
  let l := LOG2_CEIL (BitVec.ofNat 32 abs_d)
  let l := if l.ult 1 then 1 else l
  let l := if abs_d = 2 ^ 31 then 31 else l
  -- `x << n` of `exp_base_2`, where `n` is one less
  checkShift 32 (l - 1).toInt
  guard (abs_d ≠ 0)
  Xklee.ComputeSDivConstants32 d

/-- `constructMulByConstant`: the two words are truncated by a shift by `64 - width`. The other
shifts, of `1LL` by at most 63, are by constants. -/
def constructMulByConstant (width : ℕ) (x : BitVec 64) : Option Unit := do
  let _ ← ComputeMultConstants64 x
  checkShift 64 (64 - width)

def constructUDivByConstant (d : BitVec 64) : Option Unit := do
  let (mprime, _, _) ← ComputeUDivConstants32 (d.setWidth 32)
  constructMulByConstant 64 (mprime.setWidth 64)

def constructSDivByConstant (d : BitVec 64) : Option Unit := do
  let (mprime, _, _) ← ComputeSDivConstants32 (d.setWidth 32)
  constructMulByConstant 64 (mprime.signExtend 64)

end Host

namespace Host

/-! ## When they go wrong -/

theorem checkShift_eq {width : ℕ} {amount : ℤ} (h : 0 ≤ amount ∧ amount < width) :
    checkShift width amount = some () := if_pos h

theorem then_eq_some {a b : Option Unit} :
    (a.bind fun _ => b) = some () ↔ a = some () ∧ b = some () := by
  constructor
  · intro h
    obtain ⟨⟨⟩, ha, hb⟩ := Option.bind_eq_some_iff.mp h
    exact ⟨ha, hb⟩
  · rintro ⟨ha, hb⟩
    rw [ha, hb]
    rfl

/-- The runs of ones of a word are between its bits, and a shift to the top is left out. -/
theorem round_eq {s : MultConstants} (hx : s.x ≠ 0) : round s = some s.round := by
  obtain ⟨low, high, -, hlt, hle, hindex, hhigh, -, -⟩ :=
    MultConstants.round_shape hx (u := 0) (fun j hj => absurd hj (Nat.not_lt_zero j))
  unfold round
  dsimp only
  rw [hindex, hhigh, checkShift_eq ⟨by omega, by omega⟩]
  by_cases hshift : high ≠ low + 1 ∧ high ≠ 64
  · rw [if_pos hshift, checkShift_eq ⟨by omega, by omega⟩]
    rfl
  · rw [if_neg hshift]
    rfl

theorem loop_eq (n : ℕ) (s : MultConstants) : loop n s = some (MultConstants.loop n s) := by
  induction n generalizing s with
  | zero => rfl
  | succ n ih =>
    unfold loop MultConstants.loop
    by_cases hx : s.x ≠ 0
    · rw [if_pos hx, if_pos hx, round_eq hx, Option.bind_some, ih]
    · rw [if_neg hx, if_neg hx]

/-- The factors of a multiplication are computed for every multiplicand. -/
theorem ComputeMultConstants64_eq (m : BitVec 64) :
    ComputeMultConstants64 m = Xklee.ComputeMultConstants64 m := by
  show (loop 64 ⟨m, 0, 0⟩).bind _ = _
  rw [loop_eq]
  rfl

theorem constructMulByConstant_eq {width : ℕ} (hpos : 0 < width) (hle : width ≤ 64) (x : BitVec 64) :
    constructMulByConstant width x = some () := by
  obtain ⟨add, sub, heq, -⟩ := Xklee.ComputeMultConstants64_eq x
  show (ComputeMultConstants64 x).bind _ = _
  rw [ComputeMultConstants64_eq, heq]
  exact checkShift_eq ⟨by omega, by omega⟩

/-- The logarithm of a divisor is the whole width from above `2 ^ 31` on. -/
theorem checkShift_LOG2_CEIL {d : BitVec 32} (hd : d ≠ 0) :
    checkShift 32 (LOG2_CEIL d).toInt = some () ↔ d.toNat ≤ 2 ^ 31 := by
  have hpos : 0 < d.toNat := Nat.pos_of_ne_zero fun h => hd (BitVec.eq_of_toNat_eq h)
  have hpred : (d - 1).toNat = d.toNat - 1 := BitVec.toNat_sub_of_le (y := 1) hpos
  have hsize : (d.toNat - 1).size ≤ 32 := Nat.size_le.mpr (by omega)
  have hall : ∀ n : Fin 33, checkShift 32 (BitVec.ofNat 32 n.val).toInt = some () ↔ n.val ≤ 31 := by
    decide
  rw [LOG2_CEIL_eq, hpred, hall ⟨_, by omega⟩, Nat.size_le]
  omega

/-- The constants of an unsigned division. -/
theorem ComputeUDivConstants32_isSome (d : BitVec 32) :
    (∃ r, ComputeUDivConstants32 d = some r) ↔ d.toNat ≠ 0 ∧ d.toNat ≤ 2 ^ 31 := by
  have heq : ComputeUDivConstants32 d = (checkShift 32 (LOG2_CEIL d).toInt).bind fun _ =>
      (guard (d ≠ 0) : Option Unit) >>= fun _ => Xklee.ComputeUDivConstants32 d := rfl
  by_cases hd : d = 0
  · have hnone : ComputeUDivConstants32 0 = none := by decide
    rw [hd, hnone]
    simp
  · have hne : d.toNat ≠ 0 := fun h => hd (BitVec.eq_of_toNat_eq h)
    rw [heq, ← checkShift_LOG2_CEIL hd]
    constructor
    · rintro ⟨r, hr⟩
      obtain ⟨⟨⟩, hshift, -⟩ := Option.bind_eq_some_iff.mp hr
      exact ⟨hne, hshift⟩
    · rintro ⟨-, hshift⟩
      rw [hshift, Option.bind_some, Partial.guard_bind hd, ComputeUDivConstants32_eq hd rfl]
      exact ⟨_, rfl⟩

/-- The constants of a signed division. The divisor has at most 32 bits without its sign. -/
theorem ComputeSDivConstants32_isSome (d : BitVec 32) :
    (∃ r, ComputeSDivConstants32 d = some r) ↔ d.toNat ≠ 0 := by
  by_cases hd : d = 0
  · have hnone : ComputeSDivConstants32 0 = none := by decide
    rw [hd, hnone]
    simp
  · have hne : d.toNat ≠ 0 := fun h => hd (BitVec.eq_of_toNat_eq h)
    obtain ⟨l, -, -, -, -, -, hconstants⟩ := ComputeSDivConstants32_eq hd
    obtain ⟨k, hk, hlog⟩ := LOG2_CEIL_natAbs hd
    have hall : ∀ k : Fin 32, ∀ top : Bool, checkShift 32 ((if top then (31 : BitVec 32) else
        if (BitVec.ofNat 32 k.val).ult 1 then 1 else BitVec.ofNat 32 k.val) - 1).toInt = some () := by
      decide
    have hshift := hall ⟨k, hk⟩ (decide (d.toInt.natAbs = 2 ^ 31))
    have habs : d.toInt.natAbs ≠ 0 := by
      rw [Int.natAbs_ne_zero]
      intro hzero
      exact hd (BitVec.eq_of_toInt_eq (hzero.trans BitVec.toInt_zero.symm))
    have heq : ComputeSDivConstants32 d = Xklee.ComputeSDivConstants32 d := by
      simp only [decide_eq_true_eq] at hshift
      unfold ComputeSDivConstants32
      dsimp only
      rw [hlog, Partial.bind_of_eq hshift, Partial.guard_bind habs]
    exact ⟨fun _ => hne, fun _ => ⟨_, heq.trans hconstants⟩⟩

end Host

/-! ## The builder -/

namespace STPBuilder

mutual

/-- The cases of `constructActual`. The kinds that are not handled by themselves construct their
kids. -/
def constructHost (b : STPBuilder) : Expr → Option Unit
  | .Constant _ => some ()
  | .NotOptimized e | .Extract e _ _ | .Cast _ e _ | .Not e => b.constructHost e
  | .Read updates index => do
      b.getArrayForUpdateHost updates
      b.constructHost index
  | .Select c t f => do
      b.constructHost c
      b.constructHost t
      b.constructHost f
  | .Concat l r => do
      b.constructHost r
      b.constructHost l
  | .Binary .Mul l r => do
      b.constructHost r
      match l.constant64? with
      | some x => Host.constructMulByConstant r.width x
      | none => b.constructHost l
  | .Binary .UDiv l r => do
      b.constructHost l
      match r.constant64? with
      | some divisor =>
        if bits64.isPowerOfTwo divisor then return ()
        else if b.optimizeDivides ∧ l.width = 32 then
          Host.constructUDivByConstant ((divisor.setWidth 32).setWidth 64)
        else b.constructHost r
      | none => b.constructHost r
  | .Binary .SDiv l r => do
      b.constructHost l
      match r with
      | .Constant c =>
        if b.optimizeDivides ∧ l.width = 32 then
          let divisor ← ConstantExpr.getZExtValue 32 c
          Host.constructSDivByConstant divisor
        else b.constructHost r
      | _ => b.constructHost r
  | .Binary .URem l r => do
      b.constructHost l
      match r.constant64? with
      | some divisor =>
        if bits64.isPowerOfTwo divisor then return ()
        else if b.optimizeDivides ∧ l.width = 32 then
          Host.constructUDivByConstant ((divisor.setWidth 32).setWidth 64)
          Host.constructMulByConstant l.width divisor
        else b.constructHost r
      | none => b.constructHost r
  | .Binary _ l r | .Cmp _ l r => do
      b.constructHost l
      b.constructHost r

/-- The update nodes of an array. -/
def getArrayForUpdateHost (b : STPBuilder) : UpdateList → Option Unit
  | .root _ => some ()
  | .extend index value next => do
      b.getArrayForUpdateHost next
      b.constructHost index
      b.constructHost value

end

/-! ## Which expressions go wrong -/

variable {b : STPBuilder} {e l r : Expr}

/-- A division by a constant whose constants cannot be computed: by 0 there is a division by 0, and
above `2 ^ 31` an unsigned one has a shift by 32. -/
def BadDivision (b : STPBuilder) : Expr → Prop
  | .Binary .UDiv _ (.Constant c) | .Binary .URem _ (.Constant c) =>
      b.optimizeDivides = true ∧ c.width = 32 ∧ (c.toNat = 0 ∨ 2 ^ 31 < c.toNat)
  | .Binary .SDiv _ (.Constant c) => b.optimizeDivides = true ∧ c.width = 32 ∧ c.toNat = 0
  | _ => False

theorem constructUDivByConstant_isSome (d : BitVec 64) (hd : d.toNat < 2 ^ 32) :
    Host.constructUDivByConstant ((d.setWidth 32).setWidth 64) = some ()
      ↔ d.toNat ≠ 0 ∧ d.toNat ≤ 2 ^ 31 := by
  have hback : ((d.setWidth 32).setWidth 64).setWidth 32 = d.setWidth 32 :=
    BitVec.setWidth_setWidth_of_le _ (by decide)
  have hnat : (d.setWidth 32).toNat = d.toNat := by
    rw [BitVec.toNat_setWidth, Nat.mod_eq_of_lt hd]
  rw [← hnat, ← Host.ComputeUDivConstants32_isSome]
  unfold Host.constructUDivByConstant
  rw [hback]
  constructor
  · intro h
    obtain ⟨r, hr, -⟩ := Option.bind_eq_some_iff.mp h
    exact ⟨r, hr⟩
  · rintro ⟨r, hr⟩
    rw [Partial.bind_of_eq hr]
    exact Host.constructMulByConstant_eq (by decide) (by decide) _

theorem constructSDivByConstant_isSome (d : BitVec 64) (hd : d.toNat < 2 ^ 32) :
    Host.constructSDivByConstant d = some () ↔ d.toNat ≠ 0 := by
  have hnat : (d.setWidth 32).toNat = d.toNat := by
    rw [BitVec.toNat_setWidth, Nat.mod_eq_of_lt hd]
  rw [← hnat, ← Host.ComputeSDivConstants32_isSome]
  unfold Host.constructSDivByConstant
  constructor
  · intro h
    obtain ⟨r, hr, -⟩ := Option.bind_eq_some_iff.mp h
    exact ⟨r, hr⟩
  · rintro ⟨r, hr⟩
    rw [Partial.bind_of_eq hr]
    exact Host.constructMulByConstant_eq (by decide) (by decide) _

theorem constructHost_Constant (c : APInt) : b.constructHost (.Constant c) = some () := rfl

/-- The value of a constant that has at most 64 bits. -/
theorem constant64?_eq_some {x : BitVec 64} (h : r.constant64? = some x) :
    ∃ c, r = .Constant c ∧ c.width ≤ 64 ∧ x.toNat = c.toNat := by
  cases r with
  | Constant c =>
    unfold Expr.constant64? ConstantExpr.getZExtValue at h
    obtain ⟨hle, hx⟩ := Option.ite_none_right_eq_some.mp h
    obtain rfl := Option.some.inj hx
    refine ⟨c, rfl, hle, ?_⟩
    have hlt : c.toNat < 2 ^ 64 := c.bits.isLt.trans_le (Nat.pow_le_pow_right (by decide) hle)
    rw [BitVec.toNat_setWidth]
    exact Nat.mod_eq_of_lt hlt
  | _ => exact absurd h (by simp [Expr.constant64?])

/-- A constant that is too wide. -/
theorem constant64?_eq_none {c : APInt} (h : (Expr.Constant c).constant64? = none) : 64 < c.width := by
  by_contra hle
  have hsome : (Expr.Constant c).constant64? = some (c.bits.setWidth 64) := if_pos (Nat.not_lt.mp hle)
  exact Option.some_ne_none _ (hsome.symm.trans h)

/-- A power of two of at most 32 bits is at most `2 ^ 31`. -/
theorem isPowerOfTwo_bounds {x : BitVec 64} (h : bits64.isPowerOfTwo x = true)
    (hlt : x.toNat < 2 ^ 32) : x.toNat ≠ 0 ∧ x.toNat ≤ 2 ^ 31 := by
  obtain ⟨k, hk, rfl⟩ := exists_eq_twoPow h
  rw [BitVec.toNat_twoPow_of_lt hk] at hlt ⊢
  have hk32 : k < 32 := (Nat.pow_lt_pow_iff_right (by decide)).mp hlt
  exact ⟨(Nat.two_pow_pos k).ne', Nat.pow_le_pow_right (by decide) (by omega)⟩

/-- What an unsigned division, or a remainder, does with its divisor. -/
theorem divisor_iff {constants : BitVec 64 → Option Unit} {bad : Prop} (hw : l.width = r.width)
    (hconstants : l.width = 32 → ∀ d : BitVec 64, d.toNat < 2 ^ 32 →
      (constants d = some () ↔ d.toNat ≠ 0 ∧ d.toNat ≤ 2 ^ 31))
    (hbad : bad ↔ ∃ c, r = .Constant c ∧ b.optimizeDivides = true ∧ c.width = 32
      ∧ (c.toNat = 0 ∨ 2 ^ 31 < c.toNat)) :
    (match r.constant64? with
      | some divisor =>
        if bits64.isPowerOfTwo divisor then some ()
        else if b.optimizeDivides ∧ l.width = 32 then constants divisor
        else b.constructHost r
      | none => b.constructHost r) = some () ↔ b.constructHost r = some () ∧ ¬bad := by
  rw [hbad]
  cases hr : r.constant64? with
  | none =>
    show b.constructHost r = some () ↔ _
    refine ⟨fun h => ⟨h, ?_⟩, fun h => h.1⟩
    rintro ⟨c, rfl, -, hwidth, -⟩
    have hwide := constant64?_eq_none hr
    omega
  | some d =>
    obtain ⟨c, rfl, -, hd⟩ := constant64?_eq_some hr
    have hlt : c.width = 32 → d.toNat < 2 ^ 32 := by
      intro hwidth
      rw [hd, ← hwidth]
      exact c.bits.isLt
    have hwc : l.width = c.width := hw
    have hwrong : (∃ c', Expr.Constant c = .Constant c' ∧ b.optimizeDivides = true ∧ c'.width = 32
        ∧ (c'.toNat = 0 ∨ 2 ^ 31 < c'.toNat))
        ↔ b.optimizeDivides = true ∧ c.width = 32 ∧ (d.toNat = 0 ∨ 2 ^ 31 < d.toNat) := by
      rw [hd]
      constructor
      · rintro ⟨c', heq, h⟩
        obtain rfl := Expr.Constant.inj heq
        exact h
      · exact fun h => ⟨c, rfl, h⟩
    rw [hwrong, constructHost_Constant]
    show (if _ then _ else _) = _ ↔ _
    split_ifs with hpow hopt
    · refine ⟨fun _ => ⟨rfl, ?_⟩, fun _ => rfl⟩
      rintro ⟨-, hwidth, hzero⟩
      obtain ⟨hne, hle⟩ := isPowerOfTwo_bounds hpow (hlt hwidth)
      omega
    · have hwidth : c.width = 32 := hwc.symm.trans hopt.2
      rw [hconstants hopt.2 d (hlt hwidth)]
      constructor
      · rintro ⟨hne, hle⟩
        refine ⟨rfl, ?_⟩
        rintro ⟨-, -, hzero⟩
        omega
      · rintro ⟨-, hnot⟩
        have hrange : ¬(d.toNat = 0 ∨ 2 ^ 31 < d.toNat) := fun h => hnot ⟨hopt.1, hwidth, h⟩
        omega
    · refine ⟨fun _ => ⟨rfl, ?_⟩, fun _ => rfl⟩
      rintro ⟨hdivides, hwidth, -⟩
      exact hopt ⟨hdivides, hwc.trans hwidth⟩

/-- One node goes wrong by itself only if it is one of these divisions. -/
theorem constructHost_parts (h : e.WellTyped) :
    b.constructHost e = some ()
      ↔ (∀ k ∈ e.parts, b.constructHost k = some ()) ∧ ¬b.BadDivision e := by
  have hupdates : ∀ ul : UpdateList, b.getArrayForUpdateHost ul = some ()
      ↔ ∀ k ∈ ul.exprs, b.constructHost k = some () := by
    intro ul
    induction ul using UpdateList.nodeInduction with
    | root a => exact ⟨fun _ k hk => absurd hk List.not_mem_nil, fun _ => rfl⟩
    | extend i v next ih =>
      show ((b.getArrayForUpdateHost next).bind fun _ => (b.constructHost i).bind fun _ =>
        b.constructHost v) = some () ↔ _
      rw [Host.then_eq_some, Host.then_eq_some, ih]
      simp only [UpdateList.exprs, List.forall_mem_cons]
      tauto
  cases e with
  | Constant c => exact ⟨fun _ => ⟨fun k hk => absurd hk List.not_mem_nil, id⟩, fun _ => rfl⟩
  | NotOptimized e | Extract e off w | Cast k e w | Not e =>
    show b.constructHost e = some () ↔ _
    simp [Expr.parts, Expr.kids, BadDivision]
  | Read ul i =>
    show ((b.getArrayForUpdateHost ul).bind fun _ => b.constructHost i) = some () ↔ _
    rw [Host.then_eq_some, hupdates]
    simp only [Expr.parts, List.forall_mem_cons, BadDivision, not_false_eq_true, and_true]
    tauto
  | Select c t f =>
    show ((b.constructHost c).bind fun _ => (b.constructHost t).bind fun _ => b.constructHost f)
      = some () ↔ _
    rw [Host.then_eq_some, Host.then_eq_some]
    simp [Expr.parts, Expr.kids, BadDivision]
  | Concat l r =>
    show ((b.constructHost r).bind fun _ => b.constructHost l) = some () ↔ _
    rw [Host.then_eq_some]
    simp [Expr.parts, Expr.kids, BadDivision, and_comm]
  | Cmp kind l r =>
    show ((b.constructHost l).bind fun _ => b.constructHost r) = some () ↔ _
    rw [Host.then_eq_some]
    simp [Expr.parts, Expr.kids, BadDivision]
  | Binary kind l r =>
    have hw : l.width = r.width := h.2.2
    have hkids : (∀ k ∈ (Expr.Binary kind l r).parts, b.constructHost k = some ())
        ↔ b.constructHost l = some () ∧ b.constructHost r = some () := by
      simp [Expr.parts, Expr.kids]
    rw [hkids, and_assoc]
    cases kind with
    | Mul =>
      show ((b.constructHost r).bind fun _ => match l.constant64? with
        | some x => Host.constructMulByConstant r.width x
        | none => b.constructHost l) = some () ↔ _
      rw [Host.then_eq_some]
      cases hl : l.constant64? with
      | none => simp [BadDivision, and_comm]
      | some x =>
        obtain ⟨c, rfl, hle, -⟩ := constant64?_eq_some hl
        have hwidth : r.width = c.width := hw.symm
        have hmul : Host.constructMulByConstant r.width x = some () :=
          Host.constructMulByConstant_eq h.2.1.width_pos (hwidth ▸ hle) x
        simp [hmul, BadDivision, constructHost_Constant]
    | UDiv =>
      show ((b.constructHost l).bind fun _ => _) = some () ↔ _
      rw [Host.then_eq_some]
      apply and_congr_right'
      refine divisor_iff hw (fun _ d hd => constructUDivByConstant_isSome d hd) ?_
      cases r <;> simp [BadDivision]
    | URem =>
      show ((b.constructHost l).bind fun _ => _) = some () ↔ _
      rw [Host.then_eq_some]
      apply and_congr_right'
      have hconstants : l.width = 32 → ∀ d : BitVec 64, d.toNat < 2 ^ 32 →
          ((fun divisor : BitVec 64 =>
            (Host.constructUDivByConstant ((divisor.setWidth 32).setWidth 64)).bind fun _ =>
              Host.constructMulByConstant l.width divisor) d = some ()
            ↔ d.toNat ≠ 0 ∧ d.toNat ≤ 2 ^ 31) := by
        intro hwidth d hd
        show ((Host.constructUDivByConstant ((d.setWidth 32).setWidth 64)).bind fun _ =>
          Host.constructMulByConstant l.width d) = some () ↔ _
        rw [Host.then_eq_some, constructUDivByConstant_isSome d hd,
          Host.constructMulByConstant_eq h.1.width_pos (by omega)]
        simp
      refine divisor_iff hw hconstants ?_
      cases r <;> simp [BadDivision]
    | SDiv =>
      show ((b.constructHost l).bind fun _ => _) = some () ↔ _
      rw [Host.then_eq_some]
      apply and_congr_right'
      cases r with
      | Constant c =>
        have hwc : l.width = c.width := hw
        show (if b.optimizeDivides ∧ l.width = 32 then
          (ConstantExpr.getZExtValue 32 c).bind fun divisor => Host.constructSDivByConstant divisor
          else some ()) = some () ↔ _
        split_ifs with hopt
        · have hwidth : c.width = 32 := hwc.symm.trans hopt.2
          have hvalue : ConstantExpr.getZExtValue 32 c = some (c.bits.setWidth 64) :=
            if_pos hwidth.le
          have hlt : c.toNat < 2 ^ 32 := hwidth ▸ c.bits.isLt
          have hnat : (c.bits.setWidth 64).toNat = c.toNat := by
            rw [BitVec.toNat_setWidth]
            exact Nat.mod_eq_of_lt (hlt.trans (by decide))
          rw [hvalue, Option.bind_some, constructSDivByConstant_isSome _ (hnat ▸ hlt), hnat]
          simp [BadDivision, constructHost_Constant, hopt.1, hwidth]
        · have hgood : ¬b.BadDivision (.Binary .SDiv l (.Constant c)) :=
            fun hbad => hopt ⟨hbad.1, hwc.trans hbad.2.1⟩
          simp [hgood, constructHost_Constant]
      | _ => simp [BadDivision]
    | Add | Sub | SRem | And | Or | Xor | Shl | LShr | AShr =>
      show ((b.constructHost l).bind fun _ => b.constructHost r) = some () ↔ _
      rw [Host.then_eq_some]
      simp [BadDivision]

/-- Nothing goes wrong on the host while the term of an expression is built, if and only if no part
of it is one of these divisions. -/
theorem constructHost_iff (h : e.WellTyped) :
    b.constructHost e = some () ↔ ∀ x ∈ e.deep, ¬b.BadDivision x := by
  induction e using Expr.partsInduction with | _ e ih =>
  rw [constructHost_parts h]
  constructor
  · rintro ⟨hparts, hself⟩ x hx
    rcases Expr.mem_deep_iff.mp hx with rfl | ⟨k, hk, hx⟩
    · exact hself
    · exact (ih k hk (h.part hk)).mp (hparts k hk) x hx
  · intro hall
    refine ⟨fun k hk => (ih k hk (h.part hk)).mpr ?_, hall e (Expr.mem_deep_self e)⟩
    exact fun x hx => hall x (Expr.mem_deep_iff.mpr (.inr ⟨k, hk, hx⟩))

/-- A word that is not a constant. -/
def word : Expr := .Cast .ZExt (.Read (.root (.symbolic 0 "x" 1)) (.Constant ⟨32, 0⟩)) 32

theorem built_word : word.Built := by
  have hzero : (Expr.Constant ⟨32, 0⟩).Built :=
    .create (.Constant ⟨32, 0⟩) (fun k hk => absurd hk List.not_mem_nil) (show 0 < 32 by decide)
  have hread : (Expr.Read (.root ⟨0, "x", 1, [], .inl rfl⟩) (.Constant ⟨32, 0⟩)).Built := by
    apply Expr.Built.create (.Read (.root ⟨0, "x", 1, [], .inl rfl⟩) (.Constant ⟨32, 0⟩))
    · intro k hk
      obtain rfl := List.mem_singleton.mp hk
      exact hzero
    · exact ⟨trivial, by decide, rfl⟩
  apply Expr.Built.create word
  · intro k hk
    obtain rfl := List.mem_singleton.mp hk
    exact hread
  · exact ⟨by decide, by decide⟩

theorem constructHost_iff_word : (STPBuilder.mk true true fun x _ => x).constructHost
    (.Binary .UDiv word (.Constant ⟨32, 7⟩)) = some () := by
  rw [constructHost_iff (by decide)]
  intro x hx
  have hdeep : x = .Binary .UDiv word (.Constant ⟨32, 7⟩) ∨ ∀ k l r, x ≠ .Binary k l r := by
    simp only [Expr.deep, word, UpdateList.deep, List.mem_cons, List.mem_append, List.not_mem_nil,
      or_false] at hx
    rcases hx with rfl | (rfl | rfl | rfl) | rfl
    · exact .inl rfl
    all_goals exact .inr (fun k l r => Expr.noConfusion)
  rcases hdeep with rfl | hother
  · rintro ⟨-, -, hzero⟩
    exact absurd hzero (by decide)
  · cases x with
    | Binary k l r => exact absurd rfl (hother k l r)
    | _ => exact id

/-- A division by 0 that the constructors leave in place. -/
theorem constructHost_udiv_zero : ∃ (b : STPBuilder) (e : Expr), e.Built
    ∧ e = .Binary .UDiv word (.Constant ⟨32, 0⟩) ∧ b.constructHost e = none := by
  refine ⟨⟨true, true, fun x _ => x⟩, .Binary .UDiv word (.Constant ⟨32, 0⟩), ?_, rfl, by decide⟩
  apply Expr.Built.create (.Binary .UDiv word (.Constant ⟨32, 0⟩))
  · intro k hk
    rcases List.mem_pair.mp hk with rfl | rfl
    · exact built_word
    · exact .create (.Constant ⟨32, 0⟩) (fun k hk => absurd hk List.not_mem_nil)
        (show 0 < 32 by decide)
  · exact ⟨by decide, by decide, rfl⟩

end STPBuilder

end Xklee
