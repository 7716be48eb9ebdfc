/-
The rewriting constructors preserve meaning.

Every theorem here has one shape: operands that denote `x` and `y` give an
expression that denotes the operation applied to `x` and `y`. Well-typedness
and width are part of `Denotes`, so the constructors preserve those as well.

The partial constructors come first, each by induction on its non-constant
operand. Nothing is assumed of the operands beyond `Denotes`: they need not be
in canonical form, and reads out of bounds or divisors of zero inside them do
no harm, because the constructors only move sub-expressions around.
-/
import Xklee.Expr.CreateRec

set_option autoImplicit false

namespace Xklee

variable {σ : Env} {w : ℕ}

/-! ## Constants and the macros -/

theorem denotes_alloc {v : ℕ} (hw : 0 < w) : Denotes σ (ConstantExpr.alloc v w) (BitVec.ofNat w v) :=
  denotes_const hw _

theorem denotes_false : Denotes σ (.Constant (.ofBool false)) (BitVec.ofBool false) :=
  denotes_const Nat.one_pos _

theorem denotes_true : Denotes σ (.Constant (.ofBool true)) (BitVec.ofBool true) :=
  denotes_const Nat.one_pos _

variable {op : APInt → APInt → APInt} {general : Expr → Expr → Expr} {l r e : Expr} {w' n m w : ℕ}
  {y : BitVec w} {z : BitVec w'} {k : BinaryKind}

/-- A constructor made by `BCREATE_R` is right when its three parts are. -/
theorem BCREATE_R_denotes {partialL : Expr → APInt → Expr} {partialR : APInt → Expr → Expr}
    {x y : BitVec w} (hw' : 0 < w') (hl : Denotes σ l x) (hr : Denotes σ r y)
    (hop : op ⟨w, x⟩ ⟨w, y⟩ = ⟨w', z⟩) (hL : Denotes σ (partialL l ⟨w, y⟩) z)
    (hR : Denotes σ (partialR ⟨w, x⟩ r) z) (hG : Denotes σ (general l r) z) :
    Denotes σ (BCREATE_R op partialL partialR general l r) z := by
  unfold BCREATE_R
  split
  · obtain rfl := (denotes_Constant.mp hl).2
    obtain rfl := (denotes_Constant.mp hr).2
    rw [hop]
    exact denotes_const hw' z
  · obtain rfl := (denotes_Constant.mp hl).2
    exact hR
  · obtain rfl := (denotes_Constant.mp hr).2
    exact hL
  · exact hG

/-- A constructor made by `BCREATE` is right when its two parts are. -/
theorem BCREATE_denotes {x y : BitVec w} (hw' : 0 < w') (hl : Denotes σ l x) (hr : Denotes σ r y)
    (hop : op ⟨w, x⟩ ⟨w, y⟩ = ⟨w', z⟩) (hG : Denotes σ (general l r) z) :
    Denotes σ (BCREATE op general l r) z := by
  unfold BCREATE
  split
  · obtain rfl := (denotes_Constant.mp hl).2
    obtain rfl := (denotes_Constant.mp hr).2
    rw [hop]
    exact denotes_const hw' z
  · exact hG

/-! ## And, Or -/

theorem AndExpr_createPartial_denotes {x : BitVec w} (hl : Denotes σ l x) (y : BitVec w) :
    Denotes σ (AndExpr_createPartial l ⟨w, y⟩) (x &&& y) := by
  have hw := hl.width_pos
  rw [AndExpr_createPartial]
  split
  next h =>
    rw [APInt.isAllOnes_mk] at h
    rwa [h, BitVec.and_allOnes]
  next h =>
    split
    next h0 =>
      rw [APInt.isZero_mk] at h0
      rw [h0, BitVec.and_zero]
      exact denotes_const hw _
    next h0 => exact denotes_binary (k := .And) hl (denotes_const hw y)

theorem AndExpr_createPartialR_denotes (x : BitVec w) {y : BitVec w} (hr : Denotes σ r y) :
    Denotes σ (AndExpr_createPartialR ⟨w, x⟩ r) (x &&& y) := by
  rw [BitVec.and_comm]
  exact AndExpr_createPartial_denotes hr x

theorem AndExpr.create_denotes {x y : BitVec w} (hl : Denotes σ l x) (hr : Denotes σ r y) :
    Denotes σ (AndExpr.create l r) (x &&& y) :=
  BCREATE_R_denotes hl.width_pos hl hr (ConstantExpr.binary_mk .And x y)
    (AndExpr_createPartial_denotes hl y) (AndExpr_createPartialR_denotes x hr)
    (denotes_binary (k := .And) hl hr)

theorem OrExpr_createPartial_denotes {x : BitVec w} (hl : Denotes σ l x) (y : BitVec w) :
    Denotes σ (OrExpr_createPartial l ⟨w, y⟩) (x ||| y) := by
  have hw := hl.width_pos
  rw [OrExpr_createPartial]
  split
  next h =>
    rw [APInt.isAllOnes_mk] at h
    rw [h, BitVec.or_allOnes]
    exact denotes_const hw _
  next h =>
    split
    next h0 =>
      rw [APInt.isZero_mk] at h0
      rwa [h0, BitVec.or_zero]
    next h0 => exact denotes_binary (k := .Or) hl (denotes_const hw y)

theorem OrExpr_createPartialR_denotes (x : BitVec w) {y : BitVec w} (hr : Denotes σ r y) :
    Denotes σ (OrExpr_createPartialR ⟨w, x⟩ r) (x ||| y) := by
  rw [BitVec.or_comm]
  exact OrExpr_createPartial_denotes hr x

theorem OrExpr.create_denotes {x y : BitVec w} (hl : Denotes σ l x) (hr : Denotes σ r y) :
    Denotes σ (OrExpr.create l r) (x ||| y) :=
  BCREATE_R_denotes hl.width_pos hl hr (ConstantExpr.binary_mk .Or x y)
    (OrExpr_createPartial_denotes hl y) (OrExpr_createPartialR_denotes x hr)
    (denotes_binary (k := .Or) hl hr)

/-! ## Equality -/

theorem EqExpr_create_denotes {x y : BitVec w} (hl : Denotes σ l x) (hr : Denotes σ r y) :
    Denotes σ (EqExpr_create l r) (BitVec.ofBool (x == y)) := by
  rw [EqExpr_create]
  split
  next h =>
    subst h
    rw [hl.unique hr, beq_self_eq_true]
    exact denotes_true
  next h => exact denotes_cmp (k := .Eq) hl hr

/-- `EqExpr::create` with a constant on the right, from the partial constructor
for the operand at hand. -/
theorem EqExpr.create_const_denotes {y : BitVec w} (he : Denotes σ e y) (x : BitVec w)
    (ih : Denotes σ (EqExpr_createPartialR ⟨w, x⟩ e) (BitVec.ofBool (x == y))) :
    Denotes σ (EqExpr.create e (.Constant ⟨w, x⟩)) (BitVec.ofBool (x == y)) := by
  cases e with
  | Constant c =>
    obtain rfl := (denotes_Constant.mp he).2
    have hc : EqExpr.create (.Constant ⟨w, y⟩) (.Constant ⟨w, x⟩)
        = .Constant (ConstantExpr.compare .Eq ⟨w, y⟩ ⟨w, x⟩) := rfl
    rw [hc, ConstantExpr.compare_mk, CmpKind.holds, BEq.comm]
    exact denotes_const Nat.one_pos _
  | _ => exact ih

theorem ofBool_beq_ofBool (b c : Bool) : (BitVec.ofBool b == BitVec.ofBool c) = (b == c) := by
  cases b <;> cases c <;> rfl

theorem isTrue_mk_ofBool (b : Bool) : APInt.isTrue ⟨1, BitVec.ofBool b⟩ = b := by
  cases b <;> rfl

/-- Sign extension loses nothing. -/
theorem signExtend_beq (x : BitVec m) (y : BitVec n) (h : n ≤ m) :
    (x == y.signExtend m)
      = if x = (x.setWidth n).signExtend m then x.setWidth n == y else false := by
  have hback : (y.signExtend m).setWidth n = y := by
    apply BitVec.eq_of_getLsbD_eq
    intro i hi
    have him : i < m := by omega
    rw [BitVec.getLsbD_setWidth, BitVec.getLsbD_signExtend]
    simp only [hi, him, decide_true, Bool.true_and, if_true]
  split
  next hx =>
    by_cases hy : x.setWidth n = y
    · rw [hy] at hx ⊢
      simp [hx]
    · have : x ≠ y.signExtend m := by
        rintro rfl
        exact hy hback
      simp [this, hy]
  next hx =>
    have : x ≠ y.signExtend m := by
      rintro rfl
      exact hx (by rw [hback])
    simpa using this

/-- Zero extension loses nothing. -/
theorem setWidth_beq (x : BitVec m) (y : BitVec n) (h : n ≤ m) :
    (x == y.setWidth m)
      = if x = (x.setWidth n).setWidth m then x.setWidth n == y else false := by
  have hback : (y.setWidth m).setWidth n = y := by
    rw [BitVec.setWidth_setWidth_of_le _ h, BitVec.setWidth_eq]
  split
  next hx =>
    by_cases hy : x.setWidth n = y
    · rw [hy] at hx ⊢
      simp [hx]
    · have : x ≠ y.setWidth m := by
        rintro rfl
        exact hy hback
      simp [this, hy]
  next hx =>
    have : x ≠ y.setWidth m := by
      rintro rfl
      exact hx (by rw [hback])
    simpa using this

theorem EqExpr_createPartialR_denotes (hr : Denotes σ r y) (x : BitVec w) :
    Denotes σ (EqExpr_createPartialR ⟨w, x⟩ r) (BitVec.ofBool (x == y)) := by
  induction hs : r.size using Nat.strong_induction_on generalizing w r with | _ n ih =>
  subst hs
  have hgen : Denotes σ (EqExpr_create (.Constant ⟨w, x⟩) r) (BitVec.ofBool (x == y)) :=
    EqExpr_create_denotes (denotes_const hr.width_pos x) hr
  rw [EqExpr_createPartialR_eq]
  split
  next hw =>
    obtain rfl : w = 1 := hw
    obtain ⟨b, rfl⟩ := APInt.eq_ofBool_of_width_one x
    obtain ⟨c, rfl⟩ := APInt.eq_ofBool_of_width_one y
    rw [isTrue_mk_ofBool]
    rw [ofBool_beq_ofBool] at hgen ⊢
    split
    next hb =>
      subst hb
      simpa using hr
    next hb =>
      obtain rfl : b = false := by simpa using hb
      split
      next c' right =>
        split
        next hc' =>
          -- 0 == (0 == A)
          obtain ⟨n, u, v, hu, hv, hz⟩ := denotes_Cmp.mp hr
          obtain ⟨-, rfl⟩ := denotes_Constant.mp hu
          rw [APInt.isFalse_iff] at hc'
          obtain rfl : n = 1 := congrArg APInt.width hc'
          obtain rfl : u = BitVec.ofBool false := APInt.mk_inj.mp hc'
          obtain ⟨d, rfl⟩ := APInt.eq_ofBool_of_width_one v
          have hcd : c = (false == d) := by
            rw [CmpKind.holds, ofBool_beq_ofBool] at hz
            revert hz
            cases c <;> cases d <;> decide
          have hd : (false == c) = d := by
            rw [hcd]
            cases d <;> rfl
          rwa [hd]
        next => exact hgen
      next left right =>
        -- not(or(a,b))
        obtain ⟨u, v, hu, hv, hz⟩ := denotes_Binary.mp hr
        have hl := EqExpr.create_const_denotes hu 0#1 (ih _ (by simp) hu 0#1 rfl)
        have hrr := EqExpr.create_const_denotes hv 0#1 (ih _ (by simp) hv 0#1 rfl)
        have hzero : ∀ {e : Expr} {z : BitVec 1}, Denotes σ e z →
            e.createIsZero = EqExpr.create e (.Constant ⟨1, 0#1⟩) := by
          intro e z he
          rw [Expr.createIsZero, ConstantExpr.alloc, he.width_eq, APInt.ofNat]
        rw [hzero hu, hzero hv]
        have hval : BitVec.ofBool (false == c)
            = BitVec.ofBool (0#1 == u) &&& BitVec.ofBool (0#1 == v) := by
          have hall : ∀ (c : Bool) (u v : BitVec 1), BitVec.ofBool c = u ||| v →
              BitVec.ofBool (false == c) = BitVec.ofBool (0#1 == u) &&& BitVec.ofBool (0#1 == v) := by
            decide
          exact hall c u v hz
        rw [hval]
        exact AndExpr.create_denotes hl hrr
      next => exact hgen
  next hw =>
    split
    next src n =>
      obtain ⟨u, hu⟩ := hr.1.1.denotes (σ := σ) rfl
      obtain rfl : n = w := hr.width_eq
      have hle : src.width ≤ n := hr.1.2
      obtain rfl : y = u.signExtend n := hr.unique (denotes_SExt hu hle)
      rw [signExtend_beq x u hle]
      simp only [ConstantExpr.ZExt, ConstantExpr.SExt, APInt.zextOrTrunc, APInt.sextOrTrunc,
        APInt.mk_inj]
      split
      next hx =>
        exact EqExpr.create_const_denotes hu _ (ih _ (by simp) hu _ rfl)
      next hx => exact denotes_false
    next src n =>
      obtain ⟨u, hu⟩ := hr.1.1.denotes (σ := σ) rfl
      obtain rfl : n = w := hr.width_eq
      have hle : src.width ≤ n := hr.1.2
      obtain rfl : y = u.setWidth n := hr.unique (denotes_ZExt hu hle)
      rw [setWidth_beq x u hle]
      simp only [ConstantExpr.ZExt, APInt.zextOrTrunc, APInt.mk_inj]
      split
      next hx =>
        exact EqExpr.create_const_denotes hu _ (ih _ (by simp) hu _ rfl)
      next hx => exact denotes_false
    next c right =>
      obtain ⟨u, v, hu, hv, rfl⟩ := denotes_Binary.mp hr
      obtain ⟨-, rfl⟩ := denotes_Constant.mp hu
      have hval : (x == BinaryKind.Add.apply u v) = (BinaryKind.Sub.apply x u == v) := by
        rw [Bool.eq_iff_iff]
        simp only [beq_iff_eq, BinaryKind.apply]
        grind
      rw [hval, ConstantExpr.binary_mk]
      exact ih _ (by simp) hv _ rfl
    next c right =>
      obtain ⟨u, v, hu, hv, rfl⟩ := denotes_Binary.mp hr
      obtain ⟨-, rfl⟩ := denotes_Constant.mp hu
      have hval : (x == BinaryKind.Sub.apply u v) = (BinaryKind.Sub.apply u x == v) := by
        rw [Bool.eq_iff_iff]
        simp only [beq_iff_eq, BinaryKind.apply]
        grind
      rw [hval, ConstantExpr.binary_mk]
      exact ih _ (by simp) hv _ rfl
    next => exact hgen

theorem EqExpr.create_denotes {x y : BitVec w} (hl : Denotes σ l x) (hr : Denotes σ r y) :
    Denotes σ (EqExpr.create l r) (BitVec.ofBool (x == y)) := by
  refine BCREATE_R_denotes Nat.one_pos hl hr (ConstantExpr.compare_mk .Eq x y) ?_
    (EqExpr_createPartialR_denotes hr x) (EqExpr_create_denotes hl hr)
  rw [BEq.comm]
  exact EqExpr_createPartialR_denotes hl y

theorem Expr.createIsZero_denotes {x : BitVec w} (he : Denotes σ e x) :
    Denotes σ e.createIsZero (BitVec.ofBool (x == 0#w)) := by
  rw [Expr.createIsZero, he.width_eq]
  exact EqExpr.create_denotes he (denotes_alloc he.width_pos)

/-- `createIsZero` negates a truth value. -/
theorem Expr.createIsZero_denotes_not {b : Bool} (he : Denotes σ e (BitVec.ofBool b)) :
    Denotes σ e.createIsZero (BitVec.ofBool !b) := by
  have h := Expr.createIsZero_denotes he
  cases b <;> exact h

theorem NeExpr.create_denotes {x y : BitVec w} (hl : Denotes σ l x) (hr : Denotes σ r y) :
    Denotes σ (NeExpr.create l r) (BitVec.ofBool (x != y)) := by
  have h := EqExpr.create_denotes (denotes_alloc (v := 0) Nat.one_pos)
    (EqExpr.create_denotes hl hr)
  have hval : (BitVec.ofNat 1 0 == BitVec.ofBool (x == y)) = (x != y) := by
    rw [bne]
    cases x == y <;> rfl
  rwa [hval] at h

/-! ## Xor -/

theorem XorExpr_createPartialR_denotes {y : BitVec w} (hr : Denotes σ r y) (x : BitVec w) :
    Denotes σ (XorExpr_createPartialR ⟨w, x⟩ r) (x ^^^ y) := by
  rw [XorExpr_createPartialR]
  split
  next h =>
    rw [APInt.isZero_mk] at h
    rwa [h, BitVec.zero_xor]
  next h =>
    split
    next hw =>
      obtain rfl : w = 1 := hw
      have hval : x ^^^ y = BitVec.ofBool (0#1 == y) := by
        have hall : ∀ x y : BitVec 1, ¬x = 0#1 → x ^^^ y = BitVec.ofBool (0#1 == y) := by decide
        exact hall x y (by rwa [APInt.isZero_mk] at h)
      rw [hval]
      exact EqExpr_createPartialR_denotes hr 0#1
    next hw => exact denotes_binary (k := .Xor) (denotes_const hr.width_pos x) hr

theorem XorExpr.create_denotes {x y : BitVec w} (hl : Denotes σ l x) (hr : Denotes σ r y) :
    Denotes σ (XorExpr.create l r) (x ^^^ y) := by
  refine BCREATE_R_denotes hl.width_pos hl hr (ConstantExpr.binary_mk .Xor x y) ?_
    (XorExpr_createPartialR_denotes hr x) (denotes_binary (k := .Xor) hl hr)
  rw [BitVec.xor_comm]
  exact XorExpr_createPartialR_denotes hl y

/-! ## Add and Sub -/

/-- Addition and subtraction of truth values are exclusive or. -/
theorem add_eq_xor_of_width_one (x y : BitVec 1) : x + y = x ^^^ y := by
  revert x y
  decide

theorem sub_eq_xor_of_width_one (x y : BitVec 1) : x - y = x ^^^ y := by
  revert x y
  decide

/-- `AddExpr::create` and `SubExpr::create` of a constant and an operand for
which the partial constructor is right. -/
theorem AddExpr.createWith_const_denotes {x y : BitVec w} (hr : Denotes σ r y)
    (h : Denotes σ (AddExpr_createPartialR ⟨w, x⟩ r) (x + y)) :
    Denotes σ (AddExpr.createWith general (.Constant ⟨w, x⟩) r) (x + y) := by
  cases r with
  | Constant c =>
    obtain ⟨hw, rfl⟩ := denotes_Constant.mp hr
    change Denotes σ (.Constant (ConstantExpr.binary .Add ⟨w, x⟩ ⟨w, y⟩)) (x + y)
    rw [ConstantExpr.binary_mk]
    exact denotes_const hw _
  | _ => exact h

theorem SubExpr.createWith_const_denotes {x y : BitVec w} (hr : Denotes σ r y)
    (h : Denotes σ (SubExpr_createPartialR ⟨w, x⟩ r) (x - y)) :
    Denotes σ (SubExpr.createWith general (.Constant ⟨w, x⟩) r) (x - y) := by
  cases r with
  | Constant c =>
    obtain ⟨hw, rfl⟩ := denotes_Constant.mp hr
    change Denotes σ (.Constant (ConstantExpr.binary .Sub ⟨w, x⟩ ⟨w, y⟩)) (x - y)
    rw [ConstantExpr.binary_mk]
    exact denotes_const hw _
  | _ => exact h

/-- Both partial constructors at once, by induction on the operand: each calls
the other. -/
theorem AddSub_createPartialR_denotes (hr : Denotes σ r y) (x : BitVec w) :
    Denotes σ (AddExpr_createPartialR ⟨w, x⟩ r) (x + y)
      ∧ Denotes σ (SubExpr_createPartialR ⟨w, x⟩ r) (x - y) := by
  induction hs : r.size using Nat.strong_induction_on generalizing w r with | _ n ih =>
  subst hs
  have hw := hr.width_pos
  have hxor : ∀ z : BitVec w, w = 1 → z = x ^^^ y →
      Denotes σ (XorExpr_createPartialR ⟨w, x⟩ r) z := by
    rintro z - rfl
    exact XorExpr_createPartialR_denotes hr x
  constructor
  · rw [AddExpr_createPartialR_eq (fun l _ => l)]
    split
    next hw1 =>
      obtain rfl : w = 1 := hw1
      exact hxor _ rfl (add_eq_xor_of_width_one x y)
    next hw1 =>
      split
      next hz =>
        rw [APInt.isZero_mk] at hz
        rwa [hz, BitVec.zero_add]
      next hz =>
        split
        next c b =>
          obtain ⟨u, v, hu, hv, rfl⟩ := denotes_Binary.mp hr
          obtain ⟨-, rfl⟩ := denotes_Constant.mp hu
          rw [ConstantExpr.binary_mk, show x + BinaryKind.Add.apply u v = (x + u) + v from
            (BitVec.add_assoc x u v).symm]
          exact AddExpr.createWith_const_denotes hv (ih _ (by simp) hv _ rfl).1
        next c b =>
          obtain ⟨u, v, hu, hv, rfl⟩ := denotes_Binary.mp hr
          obtain ⟨-, rfl⟩ := denotes_Constant.mp hu
          have hval : x + BinaryKind.Sub.apply u v = (x + u) - v := by
            simp only [BinaryKind.apply]
            grind
          rw [ConstantExpr.binary_mk, hval]
          exact SubExpr.createWith_const_denotes hv (ih _ (by simp) hv _ rfl).2
        next => exact denotes_binary (k := .Add) (denotes_const hw x) hr
  · rw [SubExpr_createPartialR_eq (fun l _ => l)]
    split
    next hw1 =>
      obtain rfl : w = 1 := hw1
      exact hxor _ rfl (sub_eq_xor_of_width_one x y)
    next hw1 =>
      split
      next c b =>
        obtain ⟨u, v, hu, hv, rfl⟩ := denotes_Binary.mp hr
        obtain ⟨-, rfl⟩ := denotes_Constant.mp hu
        have hval : x - BinaryKind.Add.apply u v = (x - u) - v := by
          simp only [BinaryKind.apply]
          grind
        rw [ConstantExpr.binary_mk, hval]
        exact SubExpr.createWith_const_denotes hv (ih _ (by simp) hv _ rfl).2
      next c b =>
        obtain ⟨u, v, hu, hv, rfl⟩ := denotes_Binary.mp hr
        obtain ⟨-, rfl⟩ := denotes_Constant.mp hu
        have hval : x - BinaryKind.Sub.apply u v = (x - u) + v := by
          simp only [BinaryKind.apply]
          grind
        rw [ConstantExpr.binary_mk, hval]
        exact AddExpr.createWith_const_denotes hv (ih _ (by simp) hv _ rfl).1
      next => exact denotes_binary (k := .Sub) (denotes_const hw x) hr

theorem AddExpr_createPartial_denotes {x : BitVec w} (hl : Denotes σ l x) (y : BitVec w) :
    Denotes σ (AddExpr_createPartial l ⟨w, y⟩) (x + y) := by
  rw [BitVec.add_comm]
  exact (AddSub_createPartialR_denotes hl y).1

theorem SubExpr_createPartial_denotes {x : BitVec w} (hl : Denotes σ l x) (y : BitVec w) :
    Denotes σ (SubExpr_createPartial l ⟨w, y⟩) (x - y) := by
  have hval : x - y = x + (0#w - y) := by grind
  rw [SubExpr_createPartial, hval]
  change Denotes σ (AddExpr_createPartial l (ConstantExpr.binary .Sub ⟨w, 0#w⟩ ⟨w, y⟩)) _
  rw [ConstantExpr.binary_mk]
  exact AddExpr_createPartial_denotes hl (0#w - y)

/-- `AddExpr::create` is right when the general constructor under it is. -/
theorem AddExpr.createWith_denotes {x y : BitVec w} (hl : Denotes σ l x) (hr : Denotes σ r y)
    (hG : Denotes σ (general l r) (x + y)) :
    Denotes σ (AddExpr.createWith general l r) (x + y) :=
  BCREATE_R_denotes hl.width_pos hl hr (ConstantExpr.binary_mk .Add x y)
    (AddExpr_createPartial_denotes hl y) (AddSub_createPartialR_denotes hr x).1 hG

theorem SubExpr.createWith_denotes {x y : BitVec w} (hl : Denotes σ l x) (hr : Denotes σ r y)
    (hG : Denotes σ (general l r) (x - y)) :
    Denotes σ (SubExpr.createWith general l r) (x - y) :=
  BCREATE_R_denotes hl.width_pos hl hr (ConstantExpr.binary_mk .Sub x y)
    (SubExpr_createPartial_denotes hl y) (AddSub_createPartialR_denotes hr x).2 hG

/-- `f` computes the operation `op` on bit vectors of width `w`. -/
def Computes (σ : Env) (f : Expr → Expr → Expr) {w : ℕ} (op : BitVec w → BitVec w → BitVec w) :
    Prop :=
  ∀ ⦃l r : Expr⦄ ⦃x y : BitVec w⦄, Denotes σ l x → Denotes σ r y → Denotes σ (f l r) (op x y)

section AddSubBody

variable {add sub : Expr → Expr → Expr}

theorem AddExpr_createBody_denotes (hadd : Computes σ add (w := w) (· + ·))
    (hsub : Computes σ sub (w := w) (· - ·)) :
    Computes σ (AddExpr_createBody add sub) (w := w) (· + ·) := by
  intro l r x y hl hr
  change Denotes σ _ (x + y)
  unfold AddExpr_createBody
  split
  next hw1 =>
    obtain rfl : w = 1 := hl.width_eq.symm.trans hw1
    rw [add_eq_xor_of_width_one]
    exact denotes_binary (k := .Xor) hl hr
  next hw1 =>
    split
    next k a r =>
      -- (k+a)+b = k+(a+b)
      obtain ⟨u, v, hu, hv, rfl⟩ := denotes_Binary.mp hl
      rw [show BinaryKind.Add.apply u v + y = u + (v + y) from BitVec.add_assoc u v y]
      exact hadd hu (hadd hv hr)
    next k a r =>
      -- (k-a)+b = k+(b-a)
      obtain ⟨u, v, hu, hv, rfl⟩ := denotes_Binary.mp hl
      have hval : BinaryKind.Sub.apply u v + y = u + (y - v) := by
        simp only [BinaryKind.apply]
        grind
      rw [hval]
      exact hadd hu (hsub hr hv)
    next k b _ _ =>
      -- a + (k+b) = k+(a+b)
      obtain ⟨u, v, hu, hv, rfl⟩ := denotes_Binary.mp hr
      have hval : x + BinaryKind.Add.apply u v = u + (x + v) := by
        simp only [BinaryKind.apply]
        grind
      rw [hval]
      exact hadd hu (hadd hl hv)
    next k b _ _ =>
      -- a + (k-b) = k+(a-b)
      obtain ⟨u, v, hu, hv, rfl⟩ := denotes_Binary.mp hr
      have hval : x + BinaryKind.Sub.apply u v = u + (x - v) := by
        simp only [BinaryKind.apply]
        grind
      rw [hval]
      exact hadd hu (hsub hl hv)
    next => exact denotes_binary (k := .Add) hl hr

theorem SubExpr_createBody_denotes (hadd : Computes σ add (w := w) (· + ·))
    (hsub : Computes σ sub (w := w) (· - ·)) :
    Computes σ (SubExpr_createBody add sub) (w := w) (· - ·) := by
  intro l r x y hl hr
  have hw := hl.width_pos
  change Denotes σ _ (x - y)
  unfold SubExpr_createBody
  split
  next hw1 =>
    obtain rfl : w = 1 := hl.width_eq.symm.trans hw1
    rw [sub_eq_xor_of_width_one]
    exact denotes_binary (k := .Xor) hl hr
  next hw1 =>
    split
    next hlr =>
      subst hlr
      rw [hl.unique hr, BitVec.sub_self, hl.width_eq]
      exact denotes_alloc hw
    next hlr =>
      split
      next k a r =>
        -- (k+a)-b = k+(a-b)
        obtain ⟨u, v, hu, hv, rfl⟩ := denotes_Binary.mp hl
        have hval : BinaryKind.Add.apply u v - y = u + (v - y) := by
          simp only [BinaryKind.apply]
          grind
        rw [hval]
        exact hadd hu (hsub hv hr)
      next k a r =>
        -- (k-a)-b = k-(a+b)
        obtain ⟨u, v, hu, hv, rfl⟩ := denotes_Binary.mp hl
        have hval : BinaryKind.Sub.apply u v - y = u - (v + y) := by
          simp only [BinaryKind.apply]
          grind
        rw [hval]
        exact hsub hu (hadd hv hr)
      next k b _ _ =>
        -- a - (k+b) = (a-b) - k
        obtain ⟨u, v, hu, hv, rfl⟩ := denotes_Binary.mp hr
        have hval : x - BinaryKind.Add.apply u v = (x - v) - u := by
          simp only [BinaryKind.apply]
          grind
        rw [hval]
        exact hsub (hsub hl hv) hu
      next k b _ _ =>
        -- a - (k-b) = (a+b) - k
        obtain ⟨u, v, hu, hv, rfl⟩ := denotes_Binary.mp hr
        have hval : x - BinaryKind.Sub.apply u v = (x + v) - u := by
          simp only [BinaryKind.apply]
          grind
        rw [hval]
        exact hsub (hadd hl hv) hu
      next => exact denotes_binary (k := .Sub) hl hr

end AddSubBody

/-- The general constructors are right at every bound on the recursion. -/
theorem AddSub_createN_denotes (n : ℕ) : Computes σ (AddExpr_createN n) (w := w) (· + ·)
    ∧ Computes σ (SubExpr_createN n) (w := w) (· - ·) := by
  induction n with
  | zero =>
    exact ⟨fun l r x y hl hr => denotes_binary (k := .Add) hl hr,
      fun l r x y hl hr => denotes_binary (k := .Sub) hl hr⟩
  | succ n ih =>
    have hadd : Computes σ (AddExpr.createWith (AddExpr_createN n)) (w := w) (· + ·) :=
      fun l r x y hl hr => AddExpr.createWith_denotes hl hr (ih.1 hl hr)
    have hsub : Computes σ (SubExpr.createWith (SubExpr_createN n)) (w := w) (· - ·) :=
      fun l r x y hl hr => SubExpr.createWith_denotes hl hr (ih.2 hl hr)
    exact ⟨AddExpr_createBody_denotes hadd hsub, SubExpr_createBody_denotes hadd hsub⟩

theorem AddExpr.create_denotes : Computes σ AddExpr.create (w := w) (· + ·) :=
  fun _ _ _ _ hl hr => AddExpr.createWith_denotes hl hr ((AddSub_createN_denotes _).1 hl hr)

theorem SubExpr.create_denotes : Computes σ SubExpr.create (w := w) (· - ·) :=
  fun _ _ _ _ hl hr => SubExpr.createWith_denotes hl hr ((AddSub_createN_denotes _).2 hl hr)

/-! ## Mul -/

theorem MulExpr_createPartialR_denotes {y : BitVec w} (hr : Denotes σ r y) (x : BitVec w) :
    Denotes σ (MulExpr_createPartialR ⟨w, x⟩ r) (x * y) := by
  have hw := hr.width_pos
  rw [MulExpr_createPartialR]
  split
  next hw1 =>
    obtain rfl : w = 1 := hw1
    rw [(by decide : ∀ x y : BitVec 1, x * y = x &&& y)]
    exact AndExpr_createPartialR_denotes x hr
  next hw1 =>
    split
    next h1 =>
      rw [APInt.isOne_mk] at h1
      have hx : x = 1#w := by
        apply BitVec.eq_of_toNat_eq
        rw [h1, BitVec.toNat_ofNat, Nat.mod_eq_of_lt (Nat.one_lt_two_pow hw.ne')]
      rwa [hx, BitVec.one_mul]
    next h1 =>
      split
      next h0 =>
        rw [APInt.isZero_mk] at h0
        rw [h0, BitVec.zero_mul]
        exact denotes_const hw _
      next h0 => exact denotes_binary (k := .Mul) (denotes_const hw x) hr

theorem MulExpr.create_denotes {x y : BitVec w} (hl : Denotes σ l x) (hr : Denotes σ r y) :
    Denotes σ (MulExpr.create l r) (x * y) := by
  refine BCREATE_R_denotes hl.width_pos hl hr (ConstantExpr.binary_mk .Mul x y) ?_
    (MulExpr_createPartialR_denotes hr x) ?_
  · rw [BitVec.mul_comm]
    exact MulExpr_createPartialR_denotes hl y
  · rw [MulExpr_create]
    split
    next hw1 =>
      obtain rfl : w = 1 := hl.width_eq.symm.trans hw1
      rw [(by decide : ∀ x y : BitVec 1, x * y = x &&& y)]
      exact denotes_binary (k := .And) hl hr
    next => exact denotes_binary (k := .Mul) hl hr

/-! ## Division, remainder and shifts

At width 1 these kinds have a Boolean form. -/

theorem DivExpr_create_denotes (hk : k = .UDiv ∨ k = .SDiv) {x y : BitVec w} (hl : Denotes σ l x)
    (hr : Denotes σ r y) :
    Denotes σ (DivExpr_create k l r) (k.apply x y) := by
  rw [DivExpr_create]
  split
  next hw1 =>
    obtain rfl : w = 1 := hl.width_eq.symm.trans hw1
    have hval : k.apply x y = x := by
      rcases hk with rfl | rfl
      · exact (by decide : ∀ x y : BitVec 1,
          BinaryKind.UDiv.apply x y = x) x y
      · exact (by decide : ∀ x y : BitVec 1,
          BinaryKind.SDiv.apply x y = x) x y
    rwa [hval]
  next => exact denotes_binary hl hr

theorem RemExpr_create_denotes (hk : k = .URem ∨ k = .SRem) {x y : BitVec w} (hl : Denotes σ l x)
    (hr : Denotes σ r y) :
    Denotes σ (RemExpr_create k l r) (k.apply x y) := by
  rw [RemExpr_create]
  split
  next hw1 =>
    obtain rfl : w = 1 := hl.width_eq.symm.trans hw1
    have hval : k.apply x y = 0#1 := by
      rcases hk with rfl | rfl
      · exact (by decide : ∀ x y : BitVec 1,
          BinaryKind.URem.apply x y = 0#1) x y
      · exact (by decide : ∀ x y : BitVec 1,
          BinaryKind.SRem.apply x y = 0#1) x y
    rw [hval]
    exact denotes_alloc Nat.one_pos
  next => exact denotes_binary hl hr

theorem ShiftExpr_create_denotes (hk : k = .Shl ∨ k = .LShr) {x y : BitVec w} (hl : Denotes σ l x)
    (hr : Denotes σ r y) :
    Denotes σ (ShiftExpr_create k l r) (k.apply x y) := by
  rw [ShiftExpr_create]
  split
  next hw1 =>
    obtain rfl : w = 1 := hl.width_eq.symm.trans hw1
    have hval : k.apply x y = x &&& BitVec.ofBool (y == 0#1) := by
      revert x y
      rcases hk with rfl | rfl
      · exact fun _ _ => (by decide : ∀ x y : BitVec 1,
          BinaryKind.Shl.apply x y = x &&& BitVec.ofBool (y == 0#1)) _ _
      · exact fun _ _ => (by decide : ∀ x y : BitVec 1,
          BinaryKind.LShr.apply x y = x &&& BitVec.ofBool (y == 0#1)) _ _
    rw [hval]
    exact AndExpr.create_denotes hl (Expr.createIsZero_denotes hr)
  next => exact denotes_binary hl hr

theorem AShrExpr_create_denotes {x y : BitVec w} (hl : Denotes σ l x) (hr : Denotes σ r y) :
    Denotes σ (AShrExpr_create l r) (BinaryKind.AShr.apply x y) := by
  rw [AShrExpr_create]
  split
  next hw1 =>
    obtain rfl : w = 1 := hl.width_eq.symm.trans hw1
    rwa [(by decide : ∀ x y : BitVec 1, BinaryKind.AShr.apply x y = x)]
  next => exact denotes_binary hl hr

/-- `create` of every binary kind computes the operation of the kind. -/
theorem BinaryKind.create_denotes (k : BinaryKind) {x y : BitVec w} (hl : Denotes σ l x)
    (hr : Denotes σ r y) :
    Denotes σ (k.create l r) (k.apply x y) := by
  have hw := hl.width_pos
  cases k with
  | Add => exact AddExpr.create_denotes hl hr
  | Sub => exact SubExpr.create_denotes hl hr
  | Mul => exact MulExpr.create_denotes hl hr
  | UDiv =>
    exact BCREATE_denotes hw hl hr (ConstantExpr.binary_mk _ x y)
      (DivExpr_create_denotes (.inl rfl) hl hr)
  | SDiv =>
    exact BCREATE_denotes hw hl hr (ConstantExpr.binary_mk _ x y)
      (DivExpr_create_denotes (.inr rfl) hl hr)
  | URem =>
    exact BCREATE_denotes hw hl hr (ConstantExpr.binary_mk _ x y)
      (RemExpr_create_denotes (.inl rfl) hl hr)
  | SRem =>
    exact BCREATE_denotes hw hl hr (ConstantExpr.binary_mk _ x y)
      (RemExpr_create_denotes (.inr rfl) hl hr)
  | And => exact AndExpr.create_denotes hl hr
  | Or => exact OrExpr.create_denotes hl hr
  | Xor => exact XorExpr.create_denotes hl hr
  | Shl =>
    exact BCREATE_denotes hw hl hr (ConstantExpr.binary_mk _ x y)
      (ShiftExpr_create_denotes (.inl rfl) hl hr)
  | LShr =>
    exact BCREATE_denotes hw hl hr (ConstantExpr.binary_mk _ x y)
      (ShiftExpr_create_denotes (.inr rfl) hl hr)
  | AShr =>
    exact BCREATE_denotes hw hl hr (ConstantExpr.binary_mk _ x y)
      (AShrExpr_create_denotes hl hr)

/-! ## Orderings -/

/-- The Boolean forms of the four primitive orderings. -/
theorem holds_of_width_one (x y : BitVec 1) :
    BitVec.ofBool (x.ult y) = BitVec.ofBool (x == 0#1) &&& y
      ∧ BitVec.ofBool (x.ule y) = BitVec.ofBool (x == 0#1) ||| y
      ∧ BitVec.ofBool (x.slt y) = x &&& BitVec.ofBool (y == 0#1)
      ∧ BitVec.ofBool (x.sle y) = x ||| BitVec.ofBool (y == 0#1) := by
  revert x y
  decide

theorem UltExpr.create_denotes {x y : BitVec w} (hl : Denotes σ l x) (hr : Denotes σ r y) :
    Denotes σ (UltExpr.create l r) (BitVec.ofBool (x.ult y)) := by
  refine BCREATE_denotes Nat.one_pos hl hr (ConstantExpr.compare_mk .Ult x y) ?_
  rw [UltExpr_create]
  split
  next hw1 =>
    obtain rfl : w = 1 := hl.width_eq.symm.trans hw1
    rw [(holds_of_width_one x y).1]
    exact AndExpr.create_denotes (Expr.createIsZero_denotes hl) hr
  next => exact denotes_cmp (k := .Ult) hl hr

theorem UleExpr.create_denotes {x y : BitVec w} (hl : Denotes σ l x) (hr : Denotes σ r y) :
    Denotes σ (UleExpr.create l r) (BitVec.ofBool (x.ule y)) := by
  refine BCREATE_denotes Nat.one_pos hl hr (ConstantExpr.compare_mk .Ule x y) ?_
  rw [UleExpr_create]
  split
  next hw1 =>
    obtain rfl : w = 1 := hl.width_eq.symm.trans hw1
    rw [(holds_of_width_one x y).2.1]
    exact OrExpr.create_denotes (Expr.createIsZero_denotes hl) hr
  next => exact denotes_cmp (k := .Ule) hl hr

theorem SltExpr.create_denotes {x y : BitVec w} (hl : Denotes σ l x) (hr : Denotes σ r y) :
    Denotes σ (SltExpr.create l r) (BitVec.ofBool (x.slt y)) := by
  refine BCREATE_denotes Nat.one_pos hl hr (ConstantExpr.compare_mk .Slt x y) ?_
  rw [SltExpr_create]
  split
  next hw1 =>
    obtain rfl : w = 1 := hl.width_eq.symm.trans hw1
    rw [(holds_of_width_one x y).2.2.1]
    exact AndExpr.create_denotes hl (Expr.createIsZero_denotes hr)
  next => exact denotes_cmp (k := .Slt) hl hr

theorem SleExpr.create_denotes {x y : BitVec w} (hl : Denotes σ l x) (hr : Denotes σ r y) :
    Denotes σ (SleExpr.create l r) (BitVec.ofBool (x.sle y)) := by
  refine BCREATE_denotes Nat.one_pos hl hr (ConstantExpr.compare_mk .Sle x y) ?_
  rw [SleExpr_create]
  split
  next hw1 =>
    obtain rfl : w = 1 := hl.width_eq.symm.trans hw1
    rw [(holds_of_width_one x y).2.2.2]
    exact OrExpr.create_denotes hl (Expr.createIsZero_denotes hr)
  next => exact denotes_cmp (k := .Sle) hl hr

/-- `create` of every comparison kind computes the relation of the kind. -/
theorem CmpKind.create_denotes (k : CmpKind) {x y : BitVec w} (hl : Denotes σ l x)
    (hr : Denotes σ r y) :
    Denotes σ (k.create l r) (BitVec.ofBool (k.holds x y)) := by
  cases k with
  | Eq => exact EqExpr.create_denotes hl hr
  | Ne => exact NeExpr.create_denotes hl hr
  | Ult => exact UltExpr.create_denotes hl hr
  | Ule => exact UleExpr.create_denotes hl hr
  | Ugt => exact UltExpr.create_denotes hr hl
  | Uge => exact UleExpr.create_denotes hr hl
  | Slt => exact SltExpr.create_denotes hl hr
  | Sle => exact SleExpr.create_denotes hl hr
  | Sgt => exact SltExpr.create_denotes hr hl
  | Sge => exact SleExpr.create_denotes hr hl

end Xklee
