/-
A weight that rewriting does not increase.

The weight of an expression counts what is left to evaluate: constants weigh
nothing, every other expression weighs at least one, and a node weighs what its
kids weigh together. The constructors fold constants and move sub-expressions
around without copying them, so that the result of a constructor weighs no more
than its arguments. Replacing a sub-expression by a constant therefore makes the
rebuilt expression lighter. This is why the visitors that substitute constants
and visit the result again come to an end.
-/
import Xklee.Expr.CreateRec

set_option autoImplicit false

namespace Xklee

mutual

def Expr.weight : Expr → ℕ
  | .Constant _ => 0
  | .NotOptimized e => e.weight + 1
  | .Read ul i => ul.weight + i.weight + 1
  | .Select c t f => max 1 (c.weight + t.weight + f.weight)
  | .Concat l r => max 1 (l.weight + r.weight)
  | .Extract e _ _ => max 1 e.weight
  | .Cast _ e _ => max 1 e.weight
  | .Not e => max 1 e.weight
  | .Binary _ l r => max 1 (l.weight + r.weight)
  | .Cmp _ l r => max 1 (l.weight + r.weight)

def UpdateList.weight : UpdateList → ℕ
  | .root _ => 0
  | .extend i v next => i.weight + v.weight + next.weight

end

section Equations

variable (c t f e l r i : Expr) (off w : ℕ)

@[simp] theorem Expr.weight_Constant (a : APInt) : (Expr.Constant a).weight = 0 := rfl
@[simp] theorem Expr.weight_NotOptimized : (NotOptimized e).weight = e.weight + 1 := rfl
@[simp] theorem Expr.weight_Read (ul : UpdateList) :
    (Read ul i).weight = ul.weight + i.weight + 1 := rfl
@[simp] theorem Expr.weight_Select :
    (Select c t f).weight = max 1 (c.weight + t.weight + f.weight) := rfl
@[simp] theorem Expr.weight_Concat : (Concat l r).weight = max 1 (l.weight + r.weight) := rfl
@[simp] theorem Expr.weight_Extract : (Extract e off w).weight = max 1 e.weight := rfl
@[simp] theorem Expr.weight_Cast (k : CastKind) : (Cast k e w).weight = max 1 e.weight := rfl
@[simp] theorem Expr.weight_Not : (Not e).weight = max 1 e.weight := rfl
@[simp] theorem Expr.weight_Binary (k : BinaryKind) :
    (Binary k l r).weight = max 1 (l.weight + r.weight) := rfl
@[simp] theorem Expr.weight_Cmp (k : CmpKind) :
    (Cmp k l r).weight = max 1 (l.weight + r.weight) := rfl
@[simp] theorem UpdateList.weight_root (a : KArray) : (UpdateList.root a).weight = 0 := rfl
@[simp] theorem UpdateList.weight_extend (v : Expr) (next : UpdateList) :
    (UpdateList.extend i v next).weight = i.weight + v.weight + next.weight := rfl

end Equations

variable {e l r : Expr} {op : APInt → APInt → APInt} {partialL : Expr → APInt → Expr}
  {partialR : APInt → Expr → Expr} {general : Expr → Expr → Expr}

/-- Only constants weigh nothing. -/
theorem Expr.weight_pos (h : e.isConstant = false) : 0 < e.weight := by
  cases e with
  | Constant c => exact absurd h (by simp [Expr.isConstant])
  | _ => simp

theorem Expr.weight_eq_zero_iff : e.weight = 0 ↔ e.isConstant = true := by
  constructor
  · intro h
    cases hc : e.isConstant with
    | true => rfl
    | false => exact absurd h (Expr.weight_pos hc).ne'
  · intro h
    obtain ⟨c, rfl⟩ := Expr.eq_Constant_of_isConstant h
    rfl

/-! ## The macros -/

theorem BCREATE_R_weight (hL : ∀ c, l.isConstant = false → (partialL l c).weight ≤ l.weight)
    (hR : ∀ c, r.isConstant = false → (partialR c r).weight ≤ r.weight)
    (hG : l.isConstant = false → r.isConstant = false →
      (general l r).weight ≤ l.weight + r.weight) :
    (BCREATE_R op partialL partialR general l r).weight ≤ l.weight + r.weight := by
  cases hl : l.isConstant with
  | true =>
    obtain ⟨cl, rfl⟩ := Expr.eq_Constant_of_isConstant hl
    cases hr : r.isConstant with
    | true =>
      obtain ⟨cr, rfl⟩ := Expr.eq_Constant_of_isConstant hr
      exact Nat.zero_le _
    | false =>
      have h := hR cl hr
      rw [Expr.weight_Constant, Nat.zero_add]
      cases r with
      | Constant c => exact absurd hr (by simp [Expr.isConstant])
      | _ => exact h
  | false =>
    cases hr : r.isConstant with
    | true =>
      obtain ⟨cr, rfl⟩ := Expr.eq_Constant_of_isConstant hr
      have h := hL cr hl
      cases l with
      | Constant c => exact absurd hl (by simp [Expr.isConstant])
      | _ => exact h
    | false =>
      have h := hG hl hr
      cases l with
      | Constant c => exact absurd hl (by simp [Expr.isConstant])
      | _ =>
        cases r with
        | Constant c => exact absurd hr (by simp [Expr.isConstant])
        | _ => exact h

theorem BCREATE_weight (hG : l.isConstant = false ∨ r.isConstant = false →
      (general l r).weight ≤ l.weight + r.weight) :
    (BCREATE op general l r).weight ≤ l.weight + r.weight := by
  unfold BCREATE
  split
  next => exact Nat.zero_le _
  next h =>
    refine hG ?_
    by_contra hc
    simp only [not_or, Bool.not_eq_false] at hc
    obtain ⟨cl, rfl⟩ := Expr.eq_Constant_of_isConstant hc.1
    obtain ⟨cr, rfl⟩ := Expr.eq_Constant_of_isConstant hc.2
    exact h cl cr rfl rfl

/-! ## And, Or -/

theorem AndExpr_createPartial_weight (c : APInt) (hl : l.isConstant = false) :
    (AndExpr_createPartial l c).weight ≤ l.weight := by
  have := Expr.weight_pos hl
  rw [AndExpr_createPartial]
  split
  · exact le_rfl
  · split
    · simp
    · simp only [Expr.weight_Binary, Expr.weight_Constant]
      omega

theorem AndExpr.create_weight (l r : Expr) : (AndExpr.create l r).weight ≤ l.weight + r.weight := by
  refine BCREATE_R_weight (fun c => AndExpr_createPartial_weight c)
    (fun c => AndExpr_createPartial_weight c) (fun hl hr => ?_)
  have := Expr.weight_pos hl
  simp only [AndExpr_create, Expr.weight_Binary]
  omega

theorem OrExpr_createPartial_weight (c : APInt) (hl : l.isConstant = false) :
    (OrExpr_createPartial l c).weight ≤ l.weight := by
  have := Expr.weight_pos hl
  rw [OrExpr_createPartial]
  split
  · simp
  · split
    · exact le_rfl
    · simp only [Expr.weight_Binary, Expr.weight_Constant]
      omega

theorem OrExpr.create_weight (l r : Expr) : (OrExpr.create l r).weight ≤ l.weight + r.weight := by
  refine BCREATE_R_weight (fun c => OrExpr_createPartial_weight c)
    (fun c => OrExpr_createPartial_weight c) (fun hl hr => ?_)
  have := Expr.weight_pos hl
  simp only [OrExpr_create, Expr.weight_Binary]
  omega

/-! ## Equality -/

theorem EqExpr_create_weight (h : l.isConstant = false ∨ r.isConstant = false) :
    (EqExpr_create l r).weight ≤ l.weight + r.weight := by
  rw [EqExpr_create]
  split
  · simp
  · have hpos : 0 < l.weight + r.weight := by
      rcases h with h | h
      · have := Expr.weight_pos h
        omega
      · have := Expr.weight_pos h
        omega
    simp only [Expr.weight_Cmp]
    omega

/-- `EqExpr::create` with a constant, from its partial constructor. -/
theorem EqExpr.create_const_weight (c : APInt)
    (ih : e.isConstant = false → (EqExpr_createPartialR c e).weight ≤ e.weight) :
    (EqExpr.create e (.Constant c)).weight ≤ e.weight := by
  cases e with
  | Constant d => exact Nat.zero_le _
  | _ => exact ih rfl

theorem EqExpr_createPartialR_const_weight (c d : APInt) :
    (EqExpr_createPartialR c (.Constant d)).weight ≤ 1 := by
  have hgen : (EqExpr_create (.Constant c) (.Constant d)).weight ≤ 1 := by
    rw [EqExpr_create]
    split <;> simp
  rw [EqExpr_createPartialR_eq]
  split
  · split
    · simp
    · exact hgen
  · exact hgen

theorem EqExpr_createPartialR_weight (r : Expr) (c : APInt) (hr : r.isConstant = false) :
    (EqExpr_createPartialR c r).weight ≤ r.weight := by
  induction hs : r.size using Nat.strong_induction_on generalizing r c with | _ n ih =>
  subst hs
  have hgen : (EqExpr_create (.Constant c) r).weight ≤ r.weight := by
    have h := EqExpr_create_weight (l := .Constant c) (.inr hr)
    rwa [Expr.weight_Constant, Nat.zero_add] at h
  have hzero : ∀ e : Expr, e.size < r.size → e.createIsZero.weight ≤ e.weight := fun e he =>
    EqExpr.create_const_weight _ (fun hc => ih _ he e _ hc rfl)
  have hconst : ∀ (e : Expr) (d : APInt), e.size < r.size →
      (EqExpr.create e (.Constant d)).weight ≤ e.weight := fun e d he =>
    EqExpr.create_const_weight d (fun hc => ih _ he e d hc rfl)
  -- a constant operand is not folded away here, but it weighs nothing
  have hright : ∀ (e : Expr) (d : APInt), e.size < r.size →
      (EqExpr_createPartialR d e).weight ≤ max 1 e.weight := by
    intro e d he
    cases hc : e.isConstant with
    | true =>
      obtain ⟨d', rfl⟩ := Expr.eq_Constant_of_isConstant hc
      exact EqExpr_createPartialR_const_weight d d'
    | false => exact (ih _ he e d hc rfl).trans (le_max_right _ _)
  rw [EqExpr_createPartialR_eq]
  split
  next =>
    split
    next => exact le_rfl
    next =>
      split
      next c' right =>
        split
        · simp
        · exact hgen
      next left right =>
        have h1 := hzero left (by simp only [Expr.size_Binary]; omega)
        have h2 := hzero right (by simp only [Expr.size_Binary]; omega)
        have h3 := AndExpr.create_weight left.createIsZero right.createIsZero
        simp only [Expr.weight_Binary]
        omega
      next => exact hgen
  next =>
    split
    next src n =>
      split
      · have h := hconst src (ConstantExpr.ZExt c src.width) (by simp)
        simp only [Expr.weight_Cast]
        omega
      · simp
    next src n =>
      split
      · have h := hconst src (ConstantExpr.ZExt c src.width) (by simp)
        simp only [Expr.weight_Cast]
        omega
      · simp
    next d right =>
      have h := hright right (ConstantExpr.binary .Sub c d) (by simp)
      simp only [Expr.weight_Binary, Expr.weight_Constant, Nat.zero_add]
      exact h
    next d right =>
      have h := hright right (ConstantExpr.binary .Sub d c) (by simp)
      simp only [Expr.weight_Binary, Expr.weight_Constant, Nat.zero_add]
      exact h
    next => exact hgen

theorem EqExpr.create_weight (l r : Expr) : (EqExpr.create l r).weight ≤ l.weight + r.weight :=
  BCREATE_R_weight (fun c => EqExpr_createPartialR_weight l c)
    (fun c => EqExpr_createPartialR_weight r c) (fun hl _ => EqExpr_create_weight (.inl hl))

theorem Expr.createIsZero_weight (e : Expr) : e.createIsZero.weight ≤ e.weight :=
  EqExpr.create_weight e _

theorem NeExpr.create_weight (l r : Expr) : (NeExpr.create l r).weight ≤ l.weight + r.weight := by
  have h1 := EqExpr.create_weight (ConstantExpr.alloc 0 Expr.BoolWidth) (EqExpr.create l r)
  have h2 := EqExpr.create_weight l r
  rw [ConstantExpr.alloc, Expr.weight_Constant] at h1
  rw [NeExpr.create, ConstantExpr.alloc]
  omega

/-! ## Xor, Add and Sub -/

theorem XorExpr_createPartialR_weight (c : APInt) (hr : r.isConstant = false) :
    (XorExpr_createPartialR c r).weight ≤ r.weight := by
  have := Expr.weight_pos hr
  rw [XorExpr_createPartialR]
  split
  · exact le_rfl
  · split
    · exact EqExpr_createPartialR_weight r _ hr
    · simp only [Expr.weight_Binary, Expr.weight_Constant]
      omega

theorem XorExpr.create_weight (l r : Expr) : (XorExpr.create l r).weight ≤ l.weight + r.weight := by
  refine BCREATE_R_weight (fun c => XorExpr_createPartialR_weight c)
    (fun c => XorExpr_createPartialR_weight c) (fun hl hr => ?_)
  have := Expr.weight_pos hl
  simp only [XorExpr_create, Expr.weight_Binary]
  omega

/-- A constant on the left: the partial constructor decides. -/
theorem BCREATE_R_const_left_weight {c : APInt}
    (h : r.isConstant = false → (partialR c r).weight ≤ r.weight) :
    (BCREATE_R op partialL partialR general (.Constant c) r).weight ≤ r.weight := by
  cases r with
  | Constant d => exact Nat.zero_le _
  | _ => exact h rfl

/-- Both partial constructors at once. -/
theorem AddSub_createPartialR_weight (r : Expr) (c : APInt) (hr : r.isConstant = false) :
    (AddExpr_createPartialR c r).weight ≤ r.weight
      ∧ (SubExpr_createPartialR c r).weight ≤ r.weight := by
  induction hs : r.size using Nat.strong_induction_on generalizing r c with | _ n ih =>
  subst hs
  have hpos := Expr.weight_pos hr
  have hgen : ∀ k, (Expr.Binary k (.Constant c) r).weight ≤ r.weight := by
    intro k
    simp only [Expr.weight_Binary, Expr.weight_Constant]
    omega
  have hkid : ∀ (k : BinaryKind) (d : APInt) (y : Expr), r = .Binary k (.Constant d) y →
      ∀ d', (AddExpr.createWith AddExpr_create (.Constant d') y).weight ≤ r.weight
        ∧ (SubExpr.createWith SubExpr_create (.Constant d') y).weight ≤ r.weight := by
    rintro k d y rfl d'
    have hy : y.size < (Expr.Binary k (.Constant d) y).size := by simp
    have hadd : (AddExpr.createWith AddExpr_create (.Constant d') y).weight ≤ y.weight :=
      BCREATE_R_const_left_weight (fun hc => (ih _ hy y d' hc rfl).1)
    have hsub : (SubExpr.createWith SubExpr_create (.Constant d') y).weight ≤ y.weight :=
      BCREATE_R_const_left_weight (fun hc => (ih _ hy y d' hc rfl).2)
    simp only [Expr.weight_Binary, Expr.weight_Constant]
    omega
  constructor
  · rw [AddExpr_createPartialR.eq_def]
    split
    next => exact XorExpr_createPartialR_weight c hr
    next hw =>
      split
      next => exact le_rfl
      next hz =>
        clear hw hz
        split
        next d y =>
          have h := (hkid .Add d y rfl (ConstantExpr.binary .Add c d)).1
          cases y with
          | Constant d' => exact Nat.zero_le _
          | _ => exact h
        next d y =>
          have h := (hkid .Sub d y rfl (ConstantExpr.binary .Add c d)).2
          cases y with
          | Constant d' => exact Nat.zero_le _
          | _ => exact h
        next => exact hgen .Add
  · rw [SubExpr_createPartialR.eq_def]
    split
    next => exact XorExpr_createPartialR_weight c hr
    next hw =>
      clear hw
      split
      next d y =>
        have h := (hkid .Add d y rfl (ConstantExpr.binary .Sub c d)).2
        cases y with
        | Constant d' => exact Nat.zero_le _
        | _ => exact h
      next d y =>
        have h := (hkid .Sub d y rfl (ConstantExpr.binary .Sub c d)).1
        cases y with
        | Constant d' => exact Nat.zero_le _
        | _ => exact h
      next => exact hgen .Sub

theorem AddExpr.createWith_weight (h : l.isConstant = false → r.isConstant = false →
      (general l r).weight ≤ l.weight + r.weight) :
    (AddExpr.createWith general l r).weight ≤ l.weight + r.weight :=
  BCREATE_R_weight (fun c hl => (AddSub_createPartialR_weight l c hl).1)
    (fun c hr => (AddSub_createPartialR_weight r c hr).1) h

theorem SubExpr.createWith_weight (h : l.isConstant = false → r.isConstant = false →
      (general l r).weight ≤ l.weight + r.weight) :
    (SubExpr.createWith general l r).weight ≤ l.weight + r.weight :=
  BCREATE_R_weight (fun _ hl => (AddSub_createPartialR_weight l _ hl).1)
    (fun c hr => (AddSub_createPartialR_weight r c hr).2) h

/-- The result weighs no more than the operands. -/
def KeepsWeight (f : Expr → Expr → Expr) : Prop :=
  ∀ l r : Expr, (f l r).weight ≤ l.weight + r.weight

theorem AddSub_createBody_weight {add sub : Expr → Expr → Expr} (hadd : KeepsWeight add)
    (hsub : KeepsWeight sub) (hl : l.isConstant = false) :
    (AddExpr_createBody add sub l r).weight ≤ l.weight + r.weight
      ∧ (SubExpr_createBody add sub l r).weight ≤ l.weight + r.weight := by
  have hpos := Expr.weight_pos hl
  have hnode : ∀ k, (Expr.Binary k l r).weight ≤ l.weight + r.weight := by
    intro k
    simp only [Expr.weight_Binary]
    omega
  constructor
  · unfold AddExpr_createBody
    split
    next => exact hnode .Xor
    next hw =>
      clear hw
      split
      next k a =>
        have h1 := hadd (.Constant k) (add a r)
        have h2 := hadd a r
        simp only [Expr.weight_Binary, Expr.weight_Constant] at h1 ⊢
        omega
      next k a =>
        have h1 := hadd (.Constant k) (sub r a)
        have h2 := hsub r a
        simp only [Expr.weight_Binary, Expr.weight_Constant] at h1 ⊢
        omega
      next k b _ _ =>
        have h1 := hadd (.Constant k) (add l b)
        have h2 := hadd l b
        simp only [Expr.weight_Binary, Expr.weight_Constant] at h1 ⊢
        omega
      next k b _ _ =>
        have h1 := hadd (.Constant k) (sub l b)
        have h2 := hsub l b
        simp only [Expr.weight_Binary, Expr.weight_Constant] at h1 ⊢
        omega
      next => exact hnode .Add
  · unfold SubExpr_createBody
    split
    next => exact hnode .Xor
    next hw =>
      split
      next => exact Nat.zero_le _
      next hlr =>
        clear hw hlr
        split
        next k a =>
          have h1 := hadd (.Constant k) (sub a r)
          have h2 := hsub a r
          simp only [Expr.weight_Binary, Expr.weight_Constant] at h1 ⊢
          omega
        next k a =>
          have h1 := hsub (.Constant k) (add a r)
          have h2 := hadd a r
          simp only [Expr.weight_Binary, Expr.weight_Constant] at h1 ⊢
          omega
        next k b _ _ =>
          have h1 := hsub (sub l b) (.Constant k)
          have h2 := hsub l b
          simp only [Expr.weight_Binary, Expr.weight_Constant] at h1 ⊢
          omega
        next k b _ _ =>
          have h1 := hsub (add l b) (.Constant k)
          have h2 := hadd l b
          simp only [Expr.weight_Binary, Expr.weight_Constant] at h1 ⊢
          omega
        next => exact hnode .Sub

theorem AddSub_createN_weight (n : ℕ) (l r : Expr) (hl : l.isConstant = false) :
    (AddExpr_createN n l r).weight ≤ l.weight + r.weight
      ∧ (SubExpr_createN n l r).weight ≤ l.weight + r.weight := by
  induction n generalizing l r with
  | zero =>
    have hpos := Expr.weight_pos hl
    simp only [AddExpr_createN, SubExpr_createN, Expr.weight_Binary]
    omega
  | succ n ih =>
    have hadd : KeepsWeight (AddExpr.createWith (AddExpr_createN n)) :=
      fun l r => AddExpr.createWith_weight (fun hl _ => (ih l r hl).1)
    have hsub : KeepsWeight (SubExpr.createWith (SubExpr_createN n)) :=
      fun l r => SubExpr.createWith_weight (fun hl _ => (ih l r hl).2)
    exact AddSub_createBody_weight hadd hsub hl

theorem AddExpr.create_weight : KeepsWeight AddExpr.create :=
  fun l r => AddExpr.createWith_weight (fun hl _ => (AddSub_createN_weight _ l r hl).1)

theorem SubExpr.create_weight : KeepsWeight SubExpr.create :=
  fun l r => SubExpr.createWith_weight (fun hl _ => (AddSub_createN_weight _ l r hl).2)

/-! ## The other binary kinds and the comparisons -/

theorem MulExpr_createPartialR_weight (c : APInt) (hr : r.isConstant = false) :
    (MulExpr_createPartialR c r).weight ≤ r.weight := by
  have := Expr.weight_pos hr
  rw [MulExpr_createPartialR]
  split
  · exact AndExpr_createPartial_weight c hr
  · split
    · exact le_rfl
    · split
      · simp
      · simp only [Expr.weight_Binary, Expr.weight_Constant]
        omega

theorem weight_add_pos (h : l.isConstant = false ∨ r.isConstant = false) :
    0 < l.weight + r.weight := by
  rcases h with h | h
  · have := Expr.weight_pos h
    omega
  · have := Expr.weight_pos h
    omega

/-- A binary node of which an operand is not a constant. -/
theorem weight_Binary_le (k : BinaryKind) (h : l.isConstant = false ∨ r.isConstant = false) :
    (Expr.Binary k l r).weight ≤ l.weight + r.weight := by
  have := weight_add_pos h
  simp only [Expr.weight_Binary]
  omega

theorem weight_Cmp_le (k : CmpKind) (h : l.isConstant = false ∨ r.isConstant = false) :
    (Expr.Cmp k l r).weight ≤ l.weight + r.weight := by
  have := weight_add_pos h
  simp only [Expr.weight_Cmp]
  omega

theorem MulExpr.create_weight (l r : Expr) : (MulExpr.create l r).weight ≤ l.weight + r.weight := by
  refine BCREATE_R_weight (fun c => MulExpr_createPartialR_weight c)
    (fun c => MulExpr_createPartialR_weight c) (fun hl _ => ?_)
  rw [MulExpr_create]
  split
  · exact weight_Binary_le .And (.inl hl)
  · exact weight_Binary_le .Mul (.inl hl)

theorem BinaryKind.create_weight (k : BinaryKind) : KeepsWeight k.create := by
  intro l r
  have hdiv : ∀ k, (BCREATE (ConstantExpr.binary k) (DivExpr_create k) l r).weight
      ≤ l.weight + r.weight := by
    intro k
    refine BCREATE_weight (fun h => ?_)
    rw [DivExpr_create]
    split
    · exact Nat.le_add_right _ _
    · exact weight_Binary_le k h
  have hrem : ∀ k, (BCREATE (ConstantExpr.binary k) (RemExpr_create k) l r).weight
      ≤ l.weight + r.weight := by
    intro k
    refine BCREATE_weight (fun h => ?_)
    rw [RemExpr_create]
    split
    · exact Nat.zero_le _
    · exact weight_Binary_le k h
  have hshift : ∀ k, (BCREATE (ConstantExpr.binary k) (ShiftExpr_create k) l r).weight
      ≤ l.weight + r.weight := by
    intro k
    refine BCREATE_weight (fun h => ?_)
    rw [ShiftExpr_create]
    split
    · exact (AndExpr.create_weight _ _).trans (Nat.add_le_add_left r.createIsZero_weight _)
    · exact weight_Binary_le k h
  cases k with
  | Add => exact AddExpr.create_weight l r
  | Sub => exact SubExpr.create_weight l r
  | Mul => exact MulExpr.create_weight l r
  | UDiv => exact hdiv .UDiv
  | SDiv => exact hdiv .SDiv
  | URem => exact hrem .URem
  | SRem => exact hrem .SRem
  | And => exact AndExpr.create_weight l r
  | Or => exact OrExpr.create_weight l r
  | Xor => exact XorExpr.create_weight l r
  | Shl => exact hshift .Shl
  | LShr => exact hshift .LShr
  | AShr =>
    refine BCREATE_weight (fun h => ?_)
    rw [AShrExpr_create]
    split
    · exact Nat.le_add_right _ _
    · exact weight_Binary_le .AShr h

theorem UltExpr.create_weight : KeepsWeight UltExpr.create := by
  intro l r
  refine BCREATE_weight (fun h => ?_)
  rw [UltExpr_create]
  split
  · exact (AndExpr.create_weight _ _).trans (Nat.add_le_add_right l.createIsZero_weight _)
  · exact weight_Cmp_le .Ult h

theorem UleExpr.create_weight : KeepsWeight UleExpr.create := by
  intro l r
  refine BCREATE_weight (fun h => ?_)
  rw [UleExpr_create]
  split
  · exact (OrExpr.create_weight _ _).trans (Nat.add_le_add_right l.createIsZero_weight _)
  · exact weight_Cmp_le .Ule h

theorem SltExpr.create_weight : KeepsWeight SltExpr.create := by
  intro l r
  refine BCREATE_weight (fun h => ?_)
  rw [SltExpr_create]
  split
  · exact (AndExpr.create_weight _ _).trans (Nat.add_le_add_left r.createIsZero_weight _)
  · exact weight_Cmp_le .Slt h

theorem SleExpr.create_weight : KeepsWeight SleExpr.create := by
  intro l r
  refine BCREATE_weight (fun h => ?_)
  rw [SleExpr_create]
  split
  · exact (OrExpr.create_weight _ _).trans (Nat.add_le_add_left r.createIsZero_weight _)
  · exact weight_Cmp_le .Sle h

theorem CmpKind.create_weight (k : CmpKind) : KeepsWeight k.create := by
  intro l r
  cases k with
  | Eq => exact EqExpr.create_weight l r
  | Ne => exact NeExpr.create_weight l r
  | Ult => exact UltExpr.create_weight l r
  | Ule => exact UleExpr.create_weight l r
  | Ugt => exact (UltExpr.create_weight r l).trans_eq (Nat.add_comm _ _)
  | Uge => exact (UleExpr.create_weight r l).trans_eq (Nat.add_comm _ _)
  | Slt => exact SltExpr.create_weight l r
  | Sle => exact SleExpr.create_weight l r
  | Sgt => exact (SltExpr.create_weight r l).trans_eq (Nat.add_comm _ _)
  | Sge => exact (SleExpr.create_weight r l).trans_eq (Nat.add_comm _ _)

/-! ## Concat, Extract, casts, Select and Read -/

theorem ConcatExpr.createWith_weight {extract : Expr → ℕ → ℕ → Expr}
    (h : ∀ e off n off' n', l = .Extract e off n → (extract e off' n').weight ≤ e.weight) :
    (ConcatExpr.createWith extract l r).weight ≤ l.weight + r.weight := by
  rw [ConcatExpr.createWith.eq_def]
  split
  next => exact Nat.zero_le _
  next e off n e' off' n' =>
    split
    next =>
      have := h e off n off' (n + n') rfl
      simp only [Expr.weight_Extract]
      omega
    next =>
      simp only [Expr.weight_Concat, Expr.weight_Extract]
      omega
  next hc _ =>
    have hpos : 0 < l.weight + r.weight := by
      refine weight_add_pos ?_
      by_contra hboth
      simp only [not_or, Bool.not_eq_false] at hboth
      obtain ⟨a, rfl⟩ := Expr.eq_Constant_of_isConstant hboth.1
      obtain ⟨b, rfl⟩ := Expr.eq_Constant_of_isConstant hboth.2
      exact hc a b rfl rfl
    simp only [Expr.weight_Concat]
    omega

theorem ExtractExpr.create_weight (e : Expr) (off w : ℕ) :
    (ExtractExpr.create e off w).weight ≤ e.weight := by
  induction hs : e.size using Nat.strong_induction_on generalizing e off w with | _ n ih =>
  subst hs
  rw [ExtractExpr.create_eq]
  unfold ExtractExpr.createBody
  split
  next => exact le_rfl
  next hw =>
    clear hw
    split
    next => exact Nat.zero_le _
    next left right =>
      have hleft : ∀ off' w', (ExtractExpr.create left off' w').weight ≤ left.weight :=
        fun off' w' => ih _ (by simp only [Expr.size_Concat]; omega) left off' w' rfl
      have hright : ∀ off' w', (ExtractExpr.create right off' w').weight ≤ right.weight :=
        fun off' w' => ih _ (by simp only [Expr.size_Concat]; omega) right off' w' rfl
      simp only [Expr.weight_Concat]
      split
      next => exact (hleft _ _).trans (by omega)
      next =>
        split
        next => exact (hright _ _).trans (by omega)
        next =>
          -- merging extracts from an expression no larger than `left`
          have h1 := hleft 0 (w + off - right.width)
          have h2 := hright off (right.width - off)
          refine (ConcatExpr.createWith_weight (fun e' o n o' n' he' => ?_)).trans (by omega)
          have hle := ExtractExpr.create_shrinks he'
          exact ih _ (by simp only [Expr.size_Concat]; omega) e' o' n' rfl
    next hc _ =>
      have hpos : 0 < e.weight := Expr.weight_pos (by
        cases hcc : e.isConstant with
        | true =>
          obtain ⟨c, rfl⟩ := Expr.eq_Constant_of_isConstant hcc
          exact absurd rfl (hc c)
        | false => rfl)
      simp only [Expr.weight_Extract]
      omega

theorem ConcatExpr.create_weight : KeepsWeight ConcatExpr.create :=
  fun _ _ => ConcatExpr.createWith_weight (fun e _ _ off' n' _ => ExtractExpr.create_weight e off' n')

theorem NotExpr.create_weight (e : Expr) : (NotExpr.create e).weight ≤ e.weight := by
  cases e with
  | Constant c => exact Nat.zero_le _
  | _ => simp [NotExpr.create]

theorem CastExpr.create_weight (k : CastKind) (e : Expr) (w : ℕ) :
    (CastExpr.create k e w).weight ≤ e.weight := by
  unfold CastExpr.create
  split
  · exact le_rfl
  · split
    · exact ExtractExpr.create_weight e 0 w
    · cases e with
      | Constant c => exact Nat.zero_le _
      | _ => simp

theorem SelectExpr.create_weight (c t f : Expr) :
    (SelectExpr.create c t f).weight ≤ c.weight + t.weight + f.weight := by
  have hzero := c.createIsZero_weight
  rw [SelectExpr.create.eq_def]
  split
  next cc =>
    split
    · omega
    · omega
  next hc =>
    have hpos : 0 < c.weight := Expr.weight_pos (by
      cases hcc : c.isConstant with
      | true =>
        obtain ⟨cc, rfl⟩ := Expr.eq_Constant_of_isConstant hcc
        exact absurd rfl (hc cc)
      | false => rfl)
    have hgen : ∀ t f : Expr, (Expr.Select c t f).weight ≤ c.weight + t.weight + f.weight := by
      intro t f
      simp only [Expr.weight_Select]
      omega
    clear hc
    split
    · omega
    · split
      · split
        next ct _ =>
          have h1 := OrExpr.create_weight c f
          have h2 := AndExpr.create_weight c.createIsZero f
          split
          · omega
          · omega
        next cf _ =>
          have h1 := OrExpr.create_weight c.createIsZero t
          have h2 := AndExpr.create_weight c t
          split
          · omega
          · omega
        next => exact hgen _ _
      · exact hgen _ _

theorem ReadExpr.rollback_weight {ul : UpdateList} {index : Expr} (un : UpdateList)
    (hun : un.weight ≤ ul.weight) :
    (ReadExpr.rollback ul index un).weight ≤ ul.weight + index.weight + 1 := by
  induction un using UpdateList.nodeInduction with
  | root a => exact le_rfl
  | extend i v next ih =>
    rw [UpdateList.weight_extend] at hun
    rw [ReadExpr.rollback]
    split
    next =>
      split
      · omega
      · exact ih (by omega)
    next => exact le_rfl

/-! ## Rebuilding -/

/-- What the kids of a node weigh together; for a read and for `NotOptimized`,
which are not folded, the weight of the node. -/
def Expr.kidsWeight : Expr → ℕ
  | .Constant _ => 0
  | .NotOptimized e => e.weight + 1
  | .Read ul i => ul.weight + i.weight + 1
  | .Select c t f => c.weight + t.weight + f.weight
  | .Concat l r => l.weight + r.weight
  | .Extract e _ _ => e.weight
  | .Cast _ e _ => e.weight
  | .Not e => e.weight
  | .Binary _ l r => l.weight + r.weight
  | .Cmp _ l r => l.weight + r.weight

/-- The constructor of a node gives an expression that weighs what the kids weigh. -/
theorem Expr.rebuild_weight (e : Expr) : e.rebuild.weight ≤ e.kidsWeight := by
  cases e with
  | Constant c => exact le_rfl
  | NotOptimized e => exact le_rfl
  | Read ul i => exact ReadExpr.rollback_weight ul le_rfl
  | Select c t f => exact SelectExpr.create_weight c t f
  | Concat l r => exact ConcatExpr.create_weight l r
  | Extract e off w => exact ExtractExpr.create_weight e off w
  | Cast k e w => exact CastExpr.create_weight k e w
  | Not e => exact NotExpr.create_weight e
  | Binary k l r => exact k.create_weight l r
  | Cmp k l r => exact k.create_weight l r

end Xklee
