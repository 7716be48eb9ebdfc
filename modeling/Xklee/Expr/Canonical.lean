/-
Canonical expressions: what the rewriting constructors never build.

Every expression of the program comes out of an `XExpr::create`. Constants are
folded, so no binary node has two of them; a cast or an extract of the whole
width is its operand; `Ne` and the four `>` comparisons are rewritten; at width 1
the arithmetic kinds and the orderings become Boolean ones. The consumers of
expressions rely on it, mostly in assertions ("uncanonicalized add").
-/
import Xklee.Expr.CreateRec

set_option autoImplicit false

namespace Xklee

/-- The comparisons that are not rewritten into others. -/
def CmpKind.isCanonical : CmpKind → Bool
  | .Eq | .Ult | .Ule | .Slt | .Sle => true
  | _ => false

/-- The binary kinds there are at width 1. -/
def BinaryKind.isBoolean : BinaryKind → Bool
  | .And | .Or | .Xor => true
  | _ => false

mutual

def Expr.Canonical : Expr → Prop
  | .Constant _ => True
  | .NotOptimized e => e.Canonical
  | .Read ul i => ul.Canonical ∧ i.Canonical
  | .Select c t f => c.Canonical ∧ t.Canonical ∧ f.Canonical
  | .Concat l r => l.Canonical ∧ r.Canonical
  | .Extract e _ w => e.Canonical ∧ w ≠ e.width
  | .Cast _ e w => e.Canonical ∧ w ≠ e.width
  | .Not e => e.Canonical
  | .Binary k l r => l.Canonical ∧ r.Canonical ∧ (l.isConstant && r.isConstant) = false
      ∧ (l.width = Expr.BoolWidth → k.isBoolean = true)
  | .Cmp k l r => l.Canonical ∧ r.Canonical ∧ k.isCanonical = true
      ∧ (l.width = Expr.BoolWidth → k = .Eq)

def UpdateList.Canonical : UpdateList → Prop
  | .root _ => True
  | .extend i v next => i.Canonical ∧ v.Canonical ∧ next.Canonical

end

mutual

def Expr.decCanonical : (e : Expr) → Decidable e.Canonical
  | .Constant _ => isTrue trivial
  | .NotOptimized e | .Not e => e.decCanonical
  | .Read ul i =>
      have := ul.decCanonical
      have := i.decCanonical
      inferInstanceAs (Decidable (ul.Canonical ∧ i.Canonical))
  | .Select c t f =>
      have := c.decCanonical
      have := t.decCanonical
      have := f.decCanonical
      inferInstanceAs (Decidable (c.Canonical ∧ t.Canonical ∧ f.Canonical))
  | .Concat l r =>
      have := l.decCanonical
      have := r.decCanonical
      inferInstanceAs (Decidable (l.Canonical ∧ r.Canonical))
  | .Extract e _ w | .Cast _ e w =>
      have := e.decCanonical
      inferInstanceAs (Decidable (e.Canonical ∧ w ≠ e.width))
  | .Binary k l r =>
      have := l.decCanonical
      have := r.decCanonical
      inferInstanceAs (Decidable (l.Canonical ∧ r.Canonical
        ∧ (l.isConstant && r.isConstant) = false
        ∧ (l.width = Expr.BoolWidth → k.isBoolean = true)))
  | .Cmp k l r =>
      have := l.decCanonical
      have := r.decCanonical
      inferInstanceAs (Decidable (l.Canonical ∧ r.Canonical ∧ k.isCanonical = true
        ∧ (l.width = Expr.BoolWidth → k = .Eq)))

def UpdateList.decCanonical : (ul : UpdateList) → Decidable ul.Canonical
  | .root _ => isTrue trivial
  | .extend i v next =>
      have := i.decCanonical
      have := v.decCanonical
      have := next.decCanonical
      inferInstanceAs (Decidable (i.Canonical ∧ v.Canonical ∧ next.Canonical))

end

instance (e : Expr) : Decidable e.Canonical := e.decCanonical

instance (ul : UpdateList) : Decidable ul.Canonical := ul.decCanonical

variable {l r e : Expr} {c : APInt}

/-! ## The macros -/

variable {op : APInt → APInt → APInt} {general : Expr → Expr → Expr} {k : BinaryKind}
  {ul : UpdateList}

/-- `BCREATE_R` leaves to the general constructor two operands that are no
constants. -/
theorem BCREATE_R_canonical {partialL : Expr → APInt → Expr} {partialR : APInt → Expr → Expr}
    (hL : ∀ c, l.isConstant = false → (partialL l c).Canonical)
    (hR : ∀ c, r.isConstant = false → (partialR c r).Canonical)
    (hG : l.isConstant = false → r.isConstant = false → (general l r).Canonical) :
    (BCREATE_R op partialL partialR general l r).Canonical := by
  cases l <;> cases r <;>
    first
    | exact trivial
    | exact hR _ rfl
    | exact hL _ rfl
    | exact hG rfl rfl

theorem BCREATE_canonical (hG : (l.isConstant && r.isConstant) = false → (general l r).Canonical) :
    (BCREATE op general l r).Canonical := by
  cases l <;> cases r <;>
    first
    | exact trivial
    | exact hG rfl

/-- A node of a kind there is at every width. -/
theorem canonical_Boolean (hk : k.isBoolean = true) (hl : l.Canonical) (hr : r.Canonical)
    (h : (l.isConstant && r.isConstant) = false) :
    (Expr.Binary k l r).Canonical :=
  ⟨hl, hr, h, fun _ => hk⟩

theorem and_false_of_left (h : l.isConstant = false) : (l.isConstant && r.isConstant) = false := by
  rw [h, Bool.false_and]

theorem and_false_of_right (h : r.isConstant = false) : (l.isConstant && r.isConstant) = false := by
  rw [h, Bool.and_false]

/-! ## And, Or, equality and Xor -/

theorem AndExpr_createPartial_canonical (hl : l.Canonical) (h : l.isConstant = false) :
    (AndExpr_createPartial l c).Canonical := by
  rw [AndExpr_createPartial]
  split
  · exact hl
  · split
    · trivial
    · exact canonical_Boolean rfl hl trivial (and_false_of_left h)

theorem AndExpr.create_canonical (hl : l.Canonical) (hr : r.Canonical) :
    (AndExpr.create l r).Canonical :=
  BCREATE_R_canonical (fun _ h => AndExpr_createPartial_canonical hl h)
    (fun _ h => AndExpr_createPartial_canonical hr h)
    (fun h _ => canonical_Boolean rfl hl hr (and_false_of_left h))

theorem OrExpr_createPartial_canonical (hl : l.Canonical) (h : l.isConstant = false) :
    (OrExpr_createPartial l c).Canonical := by
  rw [OrExpr_createPartial]
  split
  · trivial
  · split
    · exact hl
    · exact canonical_Boolean rfl hl trivial (and_false_of_left h)

theorem OrExpr.create_canonical (hl : l.Canonical) (hr : r.Canonical) :
    (OrExpr.create l r).Canonical :=
  BCREATE_R_canonical (fun _ h => OrExpr_createPartial_canonical hl h)
    (fun _ h => OrExpr_createPartial_canonical hr h)
    (fun h _ => canonical_Boolean rfl hl hr (and_false_of_left h))

theorem EqExpr_create_canonical (hl : l.Canonical) (hr : r.Canonical) :
    (EqExpr_create l r).Canonical := by
  rw [EqExpr_create]
  split
  · trivial
  · exact ⟨hl, hr, rfl, fun _ => rfl⟩

/-- The equality of a constant and `r`, over what it is for the kids of `r`. -/
theorem EqExpr_createPartialR_canonical (hr : r.Canonical) (cl : APInt) :
    (EqExpr_createPartialR cl r).Canonical := by
  induction hs : r.size using Nat.strong_induction_on generalizing r cl with | _ n ih =>
  subst hs
  have hgen : (EqExpr_create (.Constant cl) r).Canonical := EqExpr_create_canonical trivial hr
  have hcreate : ∀ {e : Expr} (c : APInt), e.Canonical → e.size < r.size →
      (EqExpr.create e (.Constant c)).Canonical := by
    intro e c he hlt
    exact BCREATE_R_canonical (fun c' _ => ih _ hlt he c' rfl) (fun _ h => nomatch h)
      (fun _ h => nomatch h)
  rw [EqExpr_createPartialR_eq]
  split
  next =>
    split
    next => exact hr
    next =>
      split
      next c right =>
        split
        · exact hr.2.1
        · exact hgen
      next left right =>
        refine AndExpr.create_canonical (hcreate _ hr.1 ?_) (hcreate _ hr.2.1 ?_)
        · rw [Expr.size_Binary]
          omega
        · rw [Expr.size_Binary]
          omega
      next => exact hgen
  next =>
    split
    next src w =>
      split
      · exact hcreate _ hr.1 (by rw [Expr.size_Cast]; omega)
      · trivial
    next src w =>
      split
      · exact hcreate _ hr.1 (by rw [Expr.size_Cast]; omega)
      · trivial
    next c right => exact ih _ (by rw [Expr.size_Binary]; omega) hr.2.1 _ rfl
    next c right => exact ih _ (by rw [Expr.size_Binary]; omega) hr.2.1 _ rfl
    next => exact hgen

theorem EqExpr.create_canonical (hl : l.Canonical) (hr : r.Canonical) :
    (EqExpr.create l r).Canonical :=
  BCREATE_R_canonical (fun c _ => EqExpr_createPartialR_canonical hl c)
    (fun c _ => EqExpr_createPartialR_canonical hr c) (fun _ _ => EqExpr_create_canonical hl hr)

theorem Expr.createIsZero_canonical (he : e.Canonical) : e.createIsZero.Canonical :=
  EqExpr.create_canonical he trivial

theorem NeExpr.create_canonical (hl : l.Canonical) (hr : r.Canonical) :
    (NeExpr.create l r).Canonical :=
  EqExpr.create_canonical trivial (EqExpr.create_canonical hl hr)

theorem XorExpr_createPartialR_canonical (hr : r.Canonical) (h : r.isConstant = false) :
    (XorExpr_createPartialR c r).Canonical := by
  rw [XorExpr_createPartialR]
  split
  · exact hr
  · split
    · exact EqExpr_createPartialR_canonical hr _
    · exact canonical_Boolean rfl trivial hr (and_false_of_right h)

theorem XorExpr.create_canonical (hl : l.Canonical) (hr : r.Canonical) :
    (XorExpr.create l r).Canonical :=
  BCREATE_R_canonical (fun _ h => XorExpr_createPartialR_canonical hl h)
    (fun _ h => XorExpr_createPartialR_canonical hr h)
    (fun h _ => canonical_Boolean rfl hl hr (and_false_of_left h))

/-! ## Add and Sub -/

theorem AddSub_createPartialR_canonical (hr : r.Canonical) (h : r.isConstant = false)
    (cl : APInt) :
    (AddExpr_createPartialR cl r).Canonical ∧ (SubExpr_createPartialR cl r).Canonical := by
  induction hs : r.size using Nat.strong_induction_on generalizing r cl with | _ n ih =>
  subst hs
  have hxor : (XorExpr_createPartialR cl r).Canonical := XorExpr_createPartialR_canonical hr h
  have hadd : ∀ {y : Expr} (general : Expr → Expr → Expr) (c : APInt), y.Canonical →
      y.size < r.size → (AddExpr.createWith general (.Constant c) y).Canonical := fun _ c hy hlt =>
    BCREATE_R_canonical (fun _ h => nomatch h) (fun c' hc => (ih _ hlt hy hc c' rfl).1)
      (fun h _ => nomatch h)
  have hsub : ∀ {y : Expr} (general : Expr → Expr → Expr) (c : APInt), y.Canonical →
      y.size < r.size → (SubExpr.createWith general (.Constant c) y).Canonical := fun _ c hy hlt =>
    BCREATE_R_canonical (fun _ h => nomatch h) (fun c' hc => (ih _ hlt hy hc c' rfl).2)
      (fun h _ => nomatch h)
  have hnode : ∀ k : BinaryKind, cl.width ≠ Expr.BoolWidth →
      (Expr.Binary k (.Constant cl) r).Canonical := fun k hw =>
    ⟨trivial, hr, and_false_of_right h, fun hw' => absurd hw' hw⟩
  rw [AddExpr_createPartialR_eq AddExpr_create, SubExpr_createPartialR_eq SubExpr_create]
  constructor
  · split
    next => exact hxor
    next hw =>
      split
      next => exact hr
      next =>
        split
        next c y => exact hadd _ _ hr.2.1 (by rw [Expr.size_Binary]; omega)
        next c y => exact hsub _ _ hr.2.1 (by rw [Expr.size_Binary]; omega)
        next => exact hnode .Add hw
  · split
    next => exact hxor
    next hw =>
      split
      next c y => exact hsub _ _ hr.2.1 (by rw [Expr.size_Binary]; omega)
      next c y => exact hadd _ _ hr.2.1 (by rw [Expr.size_Binary]; omega)
      next => exact hnode .Sub hw

theorem AddExpr.createWith_canonical (hl : l.Canonical) (hr : r.Canonical)
    (hG : l.isConstant = false → r.isConstant = false → (general l r).Canonical) :
    (AddExpr.createWith general l r).Canonical :=
  BCREATE_R_canonical (fun c h => (AddSub_createPartialR_canonical hl h c).1)
    (fun c h => (AddSub_createPartialR_canonical hr h c).1) hG

theorem SubExpr.createWith_canonical (hl : l.Canonical) (hr : r.Canonical)
    (hG : l.isConstant = false → r.isConstant = false → (general l r).Canonical) :
    (SubExpr.createWith general l r).Canonical :=
  BCREATE_R_canonical (fun _ h => (AddSub_createPartialR_canonical hl h _).1)
    (fun c h => (AddSub_createPartialR_canonical hr h c).2) hG

/-- `f` keeps two operands canonical unless one of them is a constant. -/
def KeepsCanonical (f : Expr → Expr → Expr) (l r : Expr) : Prop :=
  l.Canonical → r.Canonical → l.isConstant = false → r.isConstant = false → (f l r).Canonical

section AddSubBody

variable {add sub : Expr → Expr → Expr} (hl : l.Canonical) (hr : r.Canonical)
  (hnl : l.isConstant = false) (hnr : r.isConstant = false)
  (hadd : ∀ a b, a.size + b.size < l.size + r.size → KeepsCanonical add a b)
  (hsub : ∀ a b, a.size + b.size < l.size + r.size → KeepsCanonical sub a b)

include hl hr hnl hadd hsub

theorem AddExpr_createBody_canonical :
    (AddExpr_createBody (AddExpr.createWith add) (SubExpr.createWith sub) l r).Canonical := by
  have hA : ∀ {a b : Expr}, a.Canonical → b.Canonical → a.size + b.size < l.size + r.size →
      (AddExpr.createWith add a b).Canonical := fun ha hb hlt =>
    AddExpr.createWith_canonical ha hb (hadd _ _ hlt ha hb)
  have hS : ∀ {a b : Expr}, a.Canonical → b.Canonical → a.size + b.size < l.size + r.size →
      (SubExpr.createWith sub a b).Canonical := fun ha hb hlt =>
    SubExpr.createWith_canonical ha hb (hsub _ _ hlt ha hb)
  have hK : ∀ (c : APInt) {b : Expr}, b.Canonical →
      (AddExpr.createWith add (.Constant c) b).Canonical := fun c _ hb =>
    AddExpr.createWith_canonical trivial hb (fun h => nomatch h)
  unfold AddExpr_createBody
  split
  next => exact canonical_Boolean rfl hl hr (and_false_of_left hnl)
  next hw =>
    split
    next k a => exact hK _ (hA hl.2.1 hr (by rw [Expr.size_Binary]; omega))
    next k a => exact hK _ (hS hr hl.2.1 (by rw [Expr.size_Binary]; omega))
    next k b _ _ => exact hK _ (hA hl hr.2.1 (by rw [Expr.size_Binary _ b]; omega))
    next k b _ _ => exact hK _ (hS hl hr.2.1 (by rw [Expr.size_Binary _ b]; omega))
    next => exact ⟨hl, hr, and_false_of_left hnl, fun h => absurd h hw⟩

theorem SubExpr_createBody_canonical :
    (SubExpr_createBody (AddExpr.createWith add) (SubExpr.createWith sub) l r).Canonical := by
  have hA : ∀ {a b : Expr}, a.Canonical → b.Canonical → a.size + b.size < l.size + r.size →
      (AddExpr.createWith add a b).Canonical := fun ha hb hlt =>
    AddExpr.createWith_canonical ha hb (hadd _ _ hlt ha hb)
  have hS : ∀ {a b : Expr}, a.Canonical → b.Canonical → a.size + b.size < l.size + r.size →
      (SubExpr.createWith sub a b).Canonical := fun ha hb hlt =>
    SubExpr.createWith_canonical ha hb (hsub _ _ hlt ha hb)
  unfold SubExpr_createBody
  split
  next => exact canonical_Boolean rfl hl hr (and_false_of_left hnl)
  next hw =>
    split
    next => trivial
    next hne =>
      clear hne
      split
      next k a =>
        exact AddExpr.createWith_canonical trivial
          (hS hl.2.1 hr (by rw [Expr.size_Binary]; omega)) (fun h => nomatch h)
      next k a =>
        exact SubExpr.createWith_canonical trivial
          (hA hl.2.1 hr (by rw [Expr.size_Binary]; omega)) (fun h => nomatch h)
      next k b _ _ =>
        exact SubExpr.createWith_canonical
          (hS hl hr.2.1 (by rw [Expr.size_Binary _ b]; omega)) trivial (fun _ h => nomatch h)
      next k b _ _ =>
        exact SubExpr.createWith_canonical
          (hA hl hr.2.1 (by rw [Expr.size_Binary _ b]; omega)) trivial (fun _ h => nomatch h)
      next => exact ⟨hl, hr, and_false_of_left hnl, fun h => absurd h hw⟩

end AddSubBody

/-- With a bound that covers both operands the recursion never reaches its end. -/
theorem AddSub_createN_canonical (n : ℕ) (l r : Expr) (hn : l.size + r.size ≤ n) :
    KeepsCanonical (AddExpr_createN n) l r ∧ KeepsCanonical (SubExpr_createN n) l r := by
  induction n generalizing l r with
  | zero =>
    have := l.size_pos
    omega
  | succ n ih =>
    have hadd : ∀ a b, a.size + b.size < l.size + r.size →
        KeepsCanonical (AddExpr_createN n) a b := fun a b h => (ih a b (by omega)).1
    have hsub : ∀ a b, a.size + b.size < l.size + r.size →
        KeepsCanonical (SubExpr_createN n) a b := fun a b h => (ih a b (by omega)).2
    exact ⟨fun hl hr hnl _ => AddExpr_createBody_canonical hl hr hnl hadd hsub,
      fun hl hr hnl _ => SubExpr_createBody_canonical hl hr hnl hadd hsub⟩

theorem AddExpr.create_canonical (hl : l.Canonical) (hr : r.Canonical) :
    (AddExpr.create l r).Canonical :=
  AddExpr.createWith_canonical hl hr ((AddSub_createN_canonical _ l r le_rfl).1 hl hr)

theorem SubExpr.create_canonical (hl : l.Canonical) (hr : r.Canonical) :
    (SubExpr.create l r).Canonical :=
  SubExpr.createWith_canonical hl hr ((AddSub_createN_canonical _ l r le_rfl).2 hl hr)

/-- Adding a constant to an expression, or taking it from one, does not give a
constant. -/
theorem AddSub_createPartialR_isConstant (hr : r.Canonical) (h : r.isConstant = false)
    (hw : c.width ≠ Expr.BoolWidth) :
    (AddExpr_createPartialR c r).isConstant = false
      ∧ (SubExpr_createPartialR c r).isConstant = false := by
  induction hs : r.size using Nat.strong_induction_on generalizing r c with | _ n ih =>
  subst hs
  -- the operand of an `Add` or a `Sub` of a constant is none itself
  have hkid : ∀ (k : BinaryKind) (d : APInt) (y : Expr), r = .Binary k (.Constant d) y →
      y.Canonical ∧ y.isConstant = false ∧ y.size < r.size := by
    rintro k d y rfl
    refine ⟨hr.2.1, by simpa [Expr.isConstant] using hr.2.2.1, ?_⟩
    rw [Expr.size_Binary]
    omega
  have hadd : ∀ (d : APInt) (y : Expr), y.isConstant = false →
      AddExpr.createWith AddExpr_create (.Constant d) y = AddExpr_createPartialR d y := by
    intro d y hy
    cases y <;> first | rfl | cases hy
  have hsub : ∀ (d : APInt) (y : Expr), y.isConstant = false →
      SubExpr.createWith AddExpr_create (.Constant d) y = SubExpr_createPartialR d y := by
    intro d y hy
    cases y <;> first | rfl | cases hy
  rw [AddExpr_createPartialR_eq AddExpr_create, SubExpr_createPartialR_eq AddExpr_create,
    if_neg hw, if_neg hw]
  constructor
  · split
    next => exact h
    next =>
      split
      next d y =>
        obtain ⟨hy, hyc, hlt⟩ := hkid _ _ _ rfl
        rw [hadd _ _ hyc]
        exact (ih y.size hlt (c := ConstantExpr.binary .Add c d) hy hyc hw rfl).1
      next d y =>
        obtain ⟨hy, hyc, hlt⟩ := hkid _ _ _ rfl
        rw [hsub _ _ hyc]
        exact (ih y.size hlt (c := ConstantExpr.binary .Add c d) hy hyc hw rfl).2
      next => rfl
  · split
    next d y =>
      obtain ⟨hy, hyc, hlt⟩ := hkid _ _ _ rfl
      rw [hsub _ _ hyc]
      exact (ih y.size hlt (c := ConstantExpr.binary .Sub c d) hy hyc hw rfl).2
    next d y =>
      obtain ⟨hy, hyc, hlt⟩ := hkid _ _ _ rfl
      rw [hadd _ _ hyc]
      exact (ih y.size hlt (c := ConstantExpr.binary .Sub c d) hy hyc hw rfl).1
    next => rfl

theorem AddExpr.create_isConstant (hl : l.Canonical) (h : l.isConstant = false)
    (hw : c.width ≠ Expr.BoolWidth) : (AddExpr.create l (.Constant c)).isConstant = false := by
  have hcreate : AddExpr.create l (.Constant c) = AddExpr_createPartialR c l := by
    cases l <;> first | rfl | exact nomatch h
  rw [hcreate]
  exact (AddSub_createPartialR_isConstant hl h hw).1

/-! ## Multiplication, division, shifts and orderings -/

/-- A node whose operands are not of width 1. -/
theorem canonical_Binary (hl : l.Canonical) (hr : r.Canonical)
    (h : (l.isConstant && r.isConstant) = false) (hw : l.width ≠ Expr.BoolWidth) :
    (Expr.Binary k l r).Canonical :=
  ⟨hl, hr, h, fun hw' => absurd hw' hw⟩

theorem MulExpr_createPartialR_canonical (hr : r.Canonical) (h : r.isConstant = false) :
    (MulExpr_createPartialR c r).Canonical := by
  rw [MulExpr_createPartialR]
  split
  · exact AndExpr_createPartial_canonical hr h
  next hw =>
    split
    · exact hr
    · split
      · trivial
      · exact canonical_Binary trivial hr (and_false_of_right h) hw

theorem MulExpr.create_canonical (hl : l.Canonical) (hr : r.Canonical) :
    (MulExpr.create l r).Canonical := by
  refine BCREATE_R_canonical (fun _ h => MulExpr_createPartialR_canonical hl h)
    (fun _ h => MulExpr_createPartialR_canonical hr h) (fun h _ => ?_)
  rw [MulExpr_create]
  split
  · exact canonical_Boolean rfl hl hr (and_false_of_left h)
  next hw => exact canonical_Binary hl hr (and_false_of_left h) hw

theorem DivExpr_create_canonical (k : BinaryKind) (hl : l.Canonical) (hr : r.Canonical)
    (h : (l.isConstant && r.isConstant) = false) : (DivExpr_create k l r).Canonical := by
  rw [DivExpr_create]
  split
  · exact hl
  next hw => exact canonical_Binary hl hr h hw

theorem RemExpr_create_canonical (k : BinaryKind) (hl : l.Canonical) (hr : r.Canonical)
    (h : (l.isConstant && r.isConstant) = false) : (RemExpr_create k l r).Canonical := by
  rw [RemExpr_create]
  split
  · trivial
  next hw => exact canonical_Binary hl hr h hw

theorem ShiftExpr_create_canonical (k : BinaryKind) (hl : l.Canonical) (hr : r.Canonical)
    (h : (l.isConstant && r.isConstant) = false) : (ShiftExpr_create k l r).Canonical := by
  rw [ShiftExpr_create]
  split
  · exact AndExpr.create_canonical hl (Expr.createIsZero_canonical hr)
  next hw => exact canonical_Binary hl hr h hw

theorem AShrExpr_create_canonical (hl : l.Canonical) (hr : r.Canonical)
    (h : (l.isConstant && r.isConstant) = false) : (AShrExpr_create l r).Canonical := by
  rw [AShrExpr_create]
  split
  · exact hl
  next hw => exact canonical_Binary hl hr h hw

theorem BinaryKind.create_canonical (k : BinaryKind) (hl : l.Canonical) (hr : r.Canonical) :
    (k.create l r).Canonical := by
  cases k with
  | Add => exact AddExpr.create_canonical hl hr
  | Sub => exact SubExpr.create_canonical hl hr
  | Mul => exact MulExpr.create_canonical hl hr
  | UDiv | SDiv => exact BCREATE_canonical (DivExpr_create_canonical _ hl hr)
  | URem | SRem => exact BCREATE_canonical (RemExpr_create_canonical _ hl hr)
  | And => exact AndExpr.create_canonical hl hr
  | Or => exact OrExpr.create_canonical hl hr
  | Xor => exact XorExpr.create_canonical hl hr
  | Shl | LShr => exact BCREATE_canonical (ShiftExpr_create_canonical _ hl hr)
  | AShr => exact BCREATE_canonical (AShrExpr_create_canonical hl hr)

/-- An ordering whose operands are not of width 1. -/
theorem canonical_Cmp {k : CmpKind} (hk : k.isCanonical = true) (hl : l.Canonical)
    (hr : r.Canonical) (hw : l.width ≠ Expr.BoolWidth) : (Expr.Cmp k l r).Canonical :=
  ⟨hl, hr, hk, fun hw' => absurd hw' hw⟩

theorem UltExpr.create_canonical (hl : l.Canonical) (hr : r.Canonical) :
    (UltExpr.create l r).Canonical := by
  refine BCREATE_canonical (fun _ => ?_)
  rw [UltExpr_create]
  split
  · exact AndExpr.create_canonical (Expr.createIsZero_canonical hl) hr
  next hw => exact canonical_Cmp rfl hl hr hw

theorem UleExpr.create_canonical (hl : l.Canonical) (hr : r.Canonical) :
    (UleExpr.create l r).Canonical := by
  refine BCREATE_canonical (fun _ => ?_)
  rw [UleExpr_create]
  split
  · exact OrExpr.create_canonical (Expr.createIsZero_canonical hl) hr
  next hw => exact canonical_Cmp rfl hl hr hw

theorem SltExpr.create_canonical (hl : l.Canonical) (hr : r.Canonical) :
    (SltExpr.create l r).Canonical := by
  refine BCREATE_canonical (fun _ => ?_)
  rw [SltExpr_create]
  split
  · exact AndExpr.create_canonical hl (Expr.createIsZero_canonical hr)
  next hw => exact canonical_Cmp rfl hl hr hw

theorem SleExpr.create_canonical (hl : l.Canonical) (hr : r.Canonical) :
    (SleExpr.create l r).Canonical := by
  refine BCREATE_canonical (fun _ => ?_)
  rw [SleExpr_create]
  split
  · exact OrExpr.create_canonical hl (Expr.createIsZero_canonical hr)
  next hw => exact canonical_Cmp rfl hl hr hw

theorem CmpKind.create_canonical (k : CmpKind) (hl : l.Canonical) (hr : r.Canonical) :
    (k.create l r).Canonical := by
  cases k with
  | Eq => exact EqExpr.create_canonical hl hr
  | Ne => exact NeExpr.create_canonical hl hr
  | Ult => exact UltExpr.create_canonical hl hr
  | Ule => exact UleExpr.create_canonical hl hr
  | Ugt => exact UltExpr.create_canonical hr hl
  | Uge => exact UleExpr.create_canonical hr hl
  | Slt => exact SltExpr.create_canonical hl hr
  | Sle => exact SleExpr.create_canonical hl hr
  | Sgt => exact SltExpr.create_canonical hr hl
  | Sge => exact SleExpr.create_canonical hr hl

/-! ## Concat, Extract and the casts -/

/-- Merging extracts a part of an expression that an operand extracts from. -/
theorem ConcatExpr.createWith_canonical {extract : Expr → ℕ → ℕ → Expr} (hl : l.Canonical)
    (hr : r.Canonical)
    (hex : ∀ e off n off' n', l = .Extract e off n → (extract e off' n').Canonical) :
    (ConcatExpr.createWith extract l r).Canonical := by
  rw [ConcatExpr.createWith.eq_def]
  split
  next => trivial
  next e off n e' off' n' =>
    split
    · exact hex e off n off' (n + n') rfl
    · exact ⟨hl, hr⟩
  next => exact ⟨hl, hr⟩

/-- The extracts of an expression, for a bound that covers its size. -/
theorem ExtractExpr.createN_canonical (n : ℕ) (e : Expr) (off w : ℕ) (he : e.Canonical)
    (hn : e.size ≤ n) : (ExtractExpr.createN n e off w).Canonical := by
  induction n generalizing e off w with
  | zero =>
    have := e.size_pos
    omega
  | succ n ih =>
    rw [ExtractExpr.createN]
    unfold ExtractExpr.createBody
    split
    next => exact he
    next hw =>
      split
      next => trivial
      next left right =>
        rw [Expr.size_Concat] at hn
        have hleft : ∀ off' w', (ExtractExpr.createN n left off' w').Canonical :=
          fun off' w' => ih left off' w' he.1 (by omega)
        have hright : ∀ off' w', (ExtractExpr.createN n right off' w').Canonical :=
          fun off' w' => ih right off' w' he.2 (by omega)
        split
        · exact hleft _ _
        · split
          · exact hright _ _
          · refine ConcatExpr.createWith_canonical (hleft _ _) (hright _ _) ?_
            intro e' o k o' k' heq
            have hcanon := hleft 0 (w + off - right.width)
            rw [heq] at hcanon
            have hsize := ExtractExpr.createN_shrinks n heq
            exact ih e' o' k' hcanon.1 (by omega)
      next => exact ⟨he, hw⟩

theorem ExtractExpr.create_canonical (off w : ℕ) (he : e.Canonical) :
    (ExtractExpr.create e off w).Canonical :=
  ExtractExpr.createN_canonical e.size e off w he le_rfl

theorem ConcatExpr.create_canonical (hl : l.Canonical) (hr : r.Canonical) :
    (ConcatExpr.create l r).Canonical :=
  ConcatExpr.createWith_canonical hl hr
    (fun _ _ _ off' n' heq => ExtractExpr.create_canonical off' n' (heq ▸ hl : _).1)

theorem CastExpr.create_canonical (k : CastKind) (w : ℕ) (he : e.Canonical) :
    (CastExpr.create k e w).Canonical := by
  unfold CastExpr.create
  split
  next => exact he
  next hne =>
    split
    next => exact ExtractExpr.create_canonical 0 w he
    next =>
      split
      next => trivial
      next => exact ⟨he, hne⟩

theorem NotExpr.create_canonical (he : e.Canonical) : (NotExpr.create e).Canonical := by
  rw [NotExpr.create.eq_def]
  split
  · trivial
  · exact he

/-! ## Select and Read -/

theorem SelectExpr.create_canonical {c t f : Expr} (hc : c.Canonical) (ht : t.Canonical)
    (hf : f.Canonical) : (SelectExpr.create c t f).Canonical := by
  have hnot := Expr.createIsZero_canonical hc
  rw [SelectExpr.create.eq_def]
  split
  next =>
    split
    · exact ht
    · exact hf
  next =>
    split
    next => exact ht
    next =>
      split
      next =>
        split
        next =>
          split
          · exact OrExpr.create_canonical hc hf
          · exact AndExpr.create_canonical hnot hf
        next =>
          split
          · exact OrExpr.create_canonical hnot ht
          · exact AndExpr.create_canonical hc ht
        next => exact ⟨hc, ht, hf⟩
      next => exact ⟨hc, ht, hf⟩

theorem ReadExpr.create_canonical {index : Expr} (hul : ul.Canonical) (hi : index.Canonical) :
    (ReadExpr.create ul index).Canonical := by
  have hrollback : ∀ un : UpdateList, un.Canonical →
      (ReadExpr.rollback ul index un).Canonical := by
    intro un
    induction un using UpdateList.nodeInduction with
    | root a => exact fun _ => ⟨hul, hi⟩
    | extend i v next ih =>
      intro hun
      rw [ReadExpr.rollback]
      split
      next =>
        split
        · exact hun.2.1
        · exact ih hun.2.2
      next => exact ⟨hul, hi⟩
  exact hrollback ul hul

/-! ## Rebuilding a node -/

/-- The arguments of a call are canonical: the parts of the node that stands for it. -/
def Expr.PartsCanonical (e : Expr) : Prop := ∀ k ∈ e.parts, k.Canonical

theorem UpdateList.canonical_of_exprs (h : ∀ k ∈ ul.exprs, k.Canonical) :
    ul.Canonical := by
  induction ul using UpdateList.nodeInduction with
  | root a => trivial
  | extend i v next ih =>
    simp only [UpdateList.exprs, List.forall_mem_cons] at h
    exact ⟨h.1, h.2.1, ih h.2.2⟩

theorem UpdateList.Canonical.exprs (h : ul.Canonical) :
    ∀ k ∈ ul.exprs, k.Canonical := by
  induction ul using UpdateList.nodeInduction with
  | root a => exact fun k hk => absurd hk List.not_mem_nil
  | extend i v next ih =>
    obtain ⟨hi, hv, hnext⟩ := h
    exact List.forall_mem_cons.mpr ⟨hi, List.forall_mem_cons.mpr ⟨hv, ih hnext⟩⟩

theorem Expr.Canonical.part {e k : Expr} (h : e.Canonical) (hk : k ∈ e.parts) : k.Canonical := by
  cases e with
  | Constant c => exact absurd hk List.not_mem_nil
  | Read ul i =>
    rcases List.mem_cons.mp hk with rfl | hk
    · exact h.2
    · exact h.1.exprs k hk
  | NotOptimized e | Not e => exact List.mem_singleton.mp hk ▸ h
  | Extract e _ _ | Cast _ e _ => exact List.mem_singleton.mp hk ▸ h.1
  | Select c t f =>
    obtain ⟨hc, ht, hf⟩ := h
    simp only [Expr.parts, Expr.kids, List.mem_cons, List.not_mem_nil, or_false] at hk
    rcases hk with rfl | rfl | rfl <;> assumption
  | Concat l r =>
    simp only [Expr.parts, Expr.kids, List.mem_cons, List.not_mem_nil, or_false] at hk
    rcases hk with rfl | rfl
    · exact h.1
    · exact h.2
  | Binary _ l r | Cmp _ l r =>
    simp only [Expr.parts, Expr.kids, List.mem_cons, List.not_mem_nil, or_false] at hk
    rcases hk with rfl | rfl
    · exact h.1
    · exact h.2.1

/-- `XExpr::create(args)` is canonical when its arguments are. -/
theorem Expr.rebuild_canonical (e : Expr) (h : e.PartsCanonical) : e.rebuild.Canonical := by
  cases e with
  | Constant c => trivial
  | NotOptimized e => exact h e (by simp [Expr.parts, Expr.kids])
  | Read ul i =>
    simp only [Expr.PartsCanonical, Expr.parts, List.forall_mem_cons] at h
    exact ReadExpr.create_canonical (UpdateList.canonical_of_exprs h.2) h.1
  | Select c t f =>
    exact SelectExpr.create_canonical (h c (by simp [Expr.parts, Expr.kids]))
      (h t (by simp [Expr.parts, Expr.kids])) (h f (by simp [Expr.parts, Expr.kids]))
  | Concat l r =>
    exact ConcatExpr.create_canonical (h l (by simp [Expr.parts, Expr.kids]))
      (h r (by simp [Expr.parts, Expr.kids]))
  | Extract e off w =>
    exact ExtractExpr.create_canonical off w (h e (by simp [Expr.parts, Expr.kids]))
  | Cast k e w => exact CastExpr.create_canonical k w (h e (by simp [Expr.parts, Expr.kids]))
  | Not e => exact NotExpr.create_canonical (h e (by simp [Expr.parts, Expr.kids]))
  | Binary k l r =>
    exact k.create_canonical (h l (by simp [Expr.parts, Expr.kids]))
      (h r (by simp [Expr.parts, Expr.kids]))
  | Cmp k l r =>
    exact k.create_canonical (h l (by simp [Expr.parts, Expr.kids]))
      (h r (by simp [Expr.parts, Expr.kids]))

end Xklee
