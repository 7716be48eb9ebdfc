/-
The canonical form: the rules in the comment of `class Expr`, `include/klee/Expr.h`.

Constants stand on the left, linear formulas have theirs at the root, and nothing that has constant
operands only is left to be computed. `Expr.CanonicalForm` says what this means for one node;
`Expr.Built` are the expressions that come out of calls of `XExpr::create`, and each of their nodes
has that form.

What `Xklee.Expr.Canonical` shows of the constructors is one half of it. The other half is
`Expr.Linear`, which a constructor keeps together with the first: it takes an operand apart only
where it knows the operand to be canonical. At one place the widths matter as well. A Boolean
equality with a constant does not look at what it is compared with, and an extension or a sum is
not Boolean.
-/
import Xklee.Expr.Canonical
import Xklee.Expr.Evaluator

set_option autoImplicit false

namespace Xklee

/-! ## The form of a node -/

/-- The kinds whose constant operand, if there is one, is the left one. -/
def BinaryKind.hasConstantLeft : BinaryKind → Bool
  | .Add | .Sub | .Mul | .Xor => true
  | _ => false

/-- The kinds that linear formulas are made of. -/
def BinaryKind.isLinear : BinaryKind → Bool
  | .Add | .Sub => true
  | _ => false

/-- A sum or a difference of a constant and something else. -/
def Expr.isConstantLed : Expr → Bool
  | .Binary .Add (.Constant _) _ | .Binary .Sub (.Constant _) _ => true
  | _ => false

theorem Expr.isConstantLed_eq_false {e : Expr} (hadd : ∀ c y, e ≠ .Binary .Add (.Constant c) y)
    (hsub : ∀ c y, e ≠ .Binary .Sub (.Constant c) y) : e.isConstantLed = false := by
  unfold Expr.isConstantLed
  split
  · exact absurd rfl (hadd _ _)
  · exact absurd rfl (hsub _ _)
  · rfl

/-- `SExt` and `ZExt`. -/
def Expr.isCast : Expr → Bool
  | .Cast _ _ _ => true
  | _ => false

/-- What a node of an expression that the constructors built looks like. -/
def Expr.CanonicalForm : Expr → Prop
  | .Not e | .Cast _ e _ => e.isConstant = false
  | .Extract e _ _ => e.isConstant = false ∧ ∀ l r, e ≠ .Concat l r
  | .Concat l r => (l.isConstant && r.isConstant) = false
  | .Binary k l r =>
      (l.isConstant && r.isConstant) = false
        ∧ (k.hasConstantLeft = true → r.isConstant = false)
        ∧ (k.isLinear = true → l.isConstantLed = false ∧ r.isConstantLed = false)
        ∧ (l.width = Expr.BoolWidth → k.isBoolean = true)
  | .Cmp k l r =>
      k.isCanonical = true
        ∧ (l.isConstant && r.isConstant) = false
        ∧ (k = .Eq → r.isConstant = false)
        ∧ (k = .Eq → l.isConstant = true → r.isConstantLed = false ∧ r.isCast = false)
        ∧ (l.width = Expr.BoolWidth → k = .Eq)
  | _ => True

/-- The expressions that are built by the constructors alone. The node `e` stands for the call of
`create` with its parts, which have been built before, as its arguments. -/
inductive Expr.Built : Expr → Prop
  | create (e : Expr) (hparts : ∀ k ∈ e.parts, k.Built) (hok : e.RebuildOk) : e.rebuild.Built

/-! ## What the constructors keep -/

/-- What the form asks for beyond `Canonical`. -/
def Expr.LinearNode : Expr → Prop
  | .Not e | .Cast _ e _ => e.isConstant = false
  | .Extract e _ _ => e.isConstant = false ∧ ∀ l r, e ≠ .Concat l r
  | .Concat l r => (l.isConstant && r.isConstant) = false
  | .Binary k l r =>
      (k.hasConstantLeft = true → r.isConstant = false)
        ∧ (k.isLinear = true → l.isConstantLed = false ∧ r.isConstantLed = false)
  | .Cmp k l r =>
      (l.isConstant && r.isConstant) = false
        ∧ (k = .Eq → r.isConstant = false)
        ∧ (k = .Eq → l.isConstant = true → (Expr.Cmp k l r).WellTyped →
            r.isConstantLed = false ∧ r.isCast = false)
  | _ => True

/-- Every node has that form. -/
def Expr.Linear (e : Expr) : Prop := ∀ x ∈ e.deep, x.LinearNode

theorem Expr.linear_iff {e : Expr} : e.Linear ↔ e.LinearNode ∧ ∀ k ∈ e.parts, k.Linear := by
  constructor
  · intro h
    exact ⟨h e e.mem_deep_self, fun k hk x hx =>
      h x (Expr.mem_deep_iff.mpr (.inr ⟨k, hk, hx⟩))⟩
  · rintro ⟨hnode, hparts⟩ x hx
    rcases Expr.mem_deep_iff.mp hx with rfl | ⟨k, hk, hx⟩
    · exact hnode
    · exact hparts k hk x hx

/-- Canonical, in all respects. -/
structure Expr.Normal (e : Expr) : Prop where
  canonical : e.Canonical
  linear : e.Linear

section Normal

variable {l r e c t f : Expr}

theorem Expr.Normal.part (h : e.Normal) (hk : l ∈ e.parts) : l.Normal :=
  ⟨h.canonical.part hk, (Expr.linear_iff.mp h.linear).2 l hk⟩

theorem Expr.Normal.node (h : e.Normal) : e.LinearNode := (Expr.linear_iff.mp h.linear).1

theorem normal_Constant (a : APInt) : (Expr.Constant a).Normal :=
  ⟨trivial, Expr.linear_iff.mpr ⟨trivial, fun _ hk => absurd hk List.not_mem_nil⟩⟩

variable {k : BinaryKind} {op : APInt → APInt → APInt} {general : Expr → Expr → Expr} {x : Expr}

theorem Expr.Normal.left (h : (Expr.Binary k l r).Normal) : l.Normal :=
  h.part (by simp [Expr.parts, Expr.kids])

theorem Expr.Normal.right (h : (Expr.Binary k l r).Normal) : r.Normal :=
  h.part (by simp [Expr.parts, Expr.kids])

theorem linear_Binary (hl : l.Linear) (hr : r.Linear) (hnode : (Expr.Binary k l r).LinearNode) :
    (Expr.Binary k l r).Linear := by
  refine Expr.linear_iff.mpr ⟨hnode, fun x hx => ?_⟩
  simp only [Expr.parts, Expr.kids, List.mem_cons, List.not_mem_nil, or_false] at hx
  rcases hx with rfl | rfl
  · exact hl
  · exact hr

theorem linear_Cmp {k : CmpKind} (hl : l.Linear) (hr : r.Linear)
    (hnode : (Expr.Cmp k l r).LinearNode) : (Expr.Cmp k l r).Linear := by
  refine Expr.linear_iff.mpr ⟨hnode, fun x hx => ?_⟩
  simp only [Expr.parts, Expr.kids, List.mem_cons, List.not_mem_nil, or_false] at hx
  rcases hx with rfl | rfl
  · exact hl
  · exact hr

/-- Kinds that have no rule for constants. -/
theorem linear_Binary_of (hk : k.hasConstantLeft = false) (hl : l.Linear) (hr : r.Linear) :
    (Expr.Binary k l r).Linear := by
  refine linear_Binary hl hr ⟨fun h => absurd (hk.symm.trans h) Bool.noConfusion, fun h => ?_⟩
  cases k <;> first | exact Bool.noConfusion h | exact Bool.noConfusion hk

/-- An ordering. -/
theorem linear_Cmp_of {k : CmpKind} (hk : k ≠ .Eq) (hl : l.Linear) (hr : r.Linear)
    (h : (l.isConstant && r.isConstant) = false) : (Expr.Cmp k l r).Linear :=
  linear_Cmp hl hr ⟨h, fun h => absurd h hk, fun h => absurd h hk⟩

/-! ### The macros -/

theorem BCREATE_R_linear {partialL : Expr → APInt → Expr} {partialR : APInt → Expr → Expr}
    (hL : ∀ c, l.isConstant = false → (partialL l c).Linear)
    (hR : ∀ c, r.isConstant = false → (partialR c r).Linear)
    (hG : l.isConstant = false → r.isConstant = false → (general l r).Linear) :
    (BCREATE_R op partialL partialR general l r).Linear := by
  cases l <;> cases r <;>
    first
    | exact (normal_Constant _).linear
    | exact hR _ rfl
    | exact hL _ rfl
    | exact hG rfl rfl

theorem BCREATE_linear (hG : (l.isConstant && r.isConstant) = false → (general l r).Linear) :
    (BCREATE op general l r).Linear := by
  cases l <;> cases r <;>
    first
    | exact (normal_Constant _).linear
    | exact hG rfl

/-! ### And, Or, equality and Xor -/

theorem AndExpr_createPartial_linear (a : APInt) (hl : l.Linear) :
    (AndExpr_createPartial l a).Linear := by
  unfold AndExpr_createPartial
  split
  · exact hl
  · split
    · exact (normal_Constant _).linear
    · exact linear_Binary_of rfl hl (normal_Constant _).linear

theorem AndExpr.create_linear (hl : l.Linear) (hr : r.Linear) : (AndExpr.create l r).Linear :=
  BCREATE_R_linear (fun a _ => AndExpr_createPartial_linear a hl)
    (fun a _ => AndExpr_createPartial_linear a hr) (fun _ _ => linear_Binary_of rfl hl hr)

theorem OrExpr_createPartial_linear (a : APInt) (hl : l.Linear) :
    (OrExpr_createPartial l a).Linear := by
  unfold OrExpr_createPartial
  split
  · exact (normal_Constant _).linear
  · split
    · exact hl
    · exact linear_Binary_of rfl hl (normal_Constant _).linear

theorem OrExpr.create_linear (hl : l.Linear) (hr : r.Linear) : (OrExpr.create l r).Linear :=
  BCREATE_R_linear (fun a _ => OrExpr_createPartial_linear a hl)
    (fun a _ => OrExpr_createPartial_linear a hr) (fun _ _ => linear_Binary_of rfl hl hr)

/-- A Boolean is no sum, difference or extension. -/
theorem Expr.Canonical.boolean (h : e.Canonical) (he : e.WellTyped) (hw : e.width = Expr.BoolWidth) :
    e.isConstantLed = false ∧ e.isCast = false := by
  cases e with
  | Binary k l r =>
    refine ⟨?_, rfl⟩
    have hk : k.isBoolean = true := h.2.2.2 hw
    cases k <;> first | rfl | exact Bool.noConfusion hk
  | Cast k e w =>
    have hpos := he.1.width_pos
    have hle : e.width ≤ w := he.2
    have hne : w ≠ e.width := h.2
    change w = 1 at hw
    omega
  | _ => exact ⟨rfl, rfl⟩

/-- The equality with a constant of what is no such formula. -/
theorem EqExpr_create_linear (a : APInt) (hr : r.Linear) (hc : r.isConstant = false)
    (h : (Expr.Cmp .Eq (.Constant a) r).WellTyped → r.isConstantLed = false ∧ r.isCast = false) :
    (EqExpr_create (.Constant a) r).Linear := by
  unfold EqExpr_create
  split
  · exact (normal_Constant _).linear
  · exact linear_Cmp (normal_Constant _).linear hr ⟨and_false_of_right hc, fun _ => hc, fun _ _ => h⟩

/-- The equality with a constant of what is no constant. -/
theorem EqExpr_createPartialR_linear (hr : r.Normal) (hc : r.isConstant = false) (cl : APInt) :
    (EqExpr_createPartialR cl r).Linear := by
  induction hs : r.size using Nat.strong_induction_on generalizing r cl with | _ n ih =>
  subst hs
  have hcreate : ∀ {e : Expr} (a : APInt), e.Normal → e.size < r.size →
      (EqExpr.create e (.Constant a)).Linear := by
    intro e a he hlt
    exact BCREATE_R_linear (fun a' hc' => ih _ hlt he hc' a' rfl) (fun _ h => nomatch h)
      (fun _ h => nomatch h)
  -- the right operand of a sum or a difference is no constant
  have hright : ∀ {k : BinaryKind} {a : APInt} {y : Expr}, r = .Binary k (.Constant a) y →
      ∀ a', (EqExpr_createPartialR a' y).Linear := by
    rintro k a y rfl a'
    have hy : y.isConstant = false := by simpa [Expr.isConstant] using hr.canonical.2.2.1
    refine ih _ ?_ hr.right hy a' rfl
    rw [Expr.size_Binary]
    omega
  rw [EqExpr_createPartialR_eq]
  split
  next hw =>
    have hgen : (EqExpr_create (.Constant cl) r).Linear := by
      apply EqExpr_create_linear cl hr.linear hc
      rintro ⟨-, hwt, hwidth⟩
      exact hr.canonical.boolean hwt (hwidth.symm.trans hw)
    split
    next => exact hr.linear
    next =>
      split
      next c right =>
        split
        · exact (hr.part (l := right) (by simp [Expr.parts, Expr.kids])).linear
        · exact hgen
      next left right =>
        refine AndExpr.create_linear (hcreate _ hr.left ?_) (hcreate _ hr.right ?_)
        · rw [Expr.size_Binary]
          omega
        · rw [Expr.size_Binary]
          omega
      next => exact hgen
  next =>
    split
    next src w =>
      split
      · refine hcreate _ (hr.part (by simp [Expr.parts, Expr.kids])) ?_
        rw [Expr.size_Cast]
        omega
      · exact (normal_Constant _).linear
    next src w =>
      split
      · refine hcreate _ (hr.part (by simp [Expr.parts, Expr.kids])) ?_
        rw [Expr.size_Cast]
        omega
      · exact (normal_Constant _).linear
    next c right => exact hright rfl _
    next c right => exact hright rfl _
    next hsext hzext hadd hsub =>
      apply EqExpr_create_linear cl hr.linear hc
      intro _
      refine ⟨Expr.isConstantLed_eq_false hadd hsub, ?_⟩
      cases r with
      | Cast k e w =>
        cases k with
        | SExt => exact absurd rfl (hsext e w)
        | ZExt => exact absurd rfl (hzext e w)
      | _ => rfl

theorem EqExpr.create_normal (hl : l.Normal) (hr : r.Normal) : (EqExpr.create l r).Normal := by
  refine ⟨EqExpr.create_canonical hl.canonical hr.canonical, ?_⟩
  refine BCREATE_R_linear (fun a hc => EqExpr_createPartialR_linear hl hc a)
    (fun a hc => EqExpr_createPartialR_linear hr hc a) (fun hl' hr' => ?_)
  unfold EqExpr_create
  split
  · exact (normal_Constant _).linear
  · exact linear_Cmp hl.linear hr.linear ⟨and_false_of_left hl', fun _ => hr',
      fun _ h => absurd (hl'.symm.trans h) Bool.noConfusion⟩

theorem Expr.createIsZero_normal (he : e.Normal) : e.createIsZero.Normal :=
  EqExpr.create_normal he (normal_Constant _)

theorem XorExpr_createPartialR_linear (hr : r.Normal) (hc : r.isConstant = false) (a : APInt) :
    (XorExpr_createPartialR a r).Linear := by
  unfold XorExpr_createPartialR
  split
  · exact hr.linear
  · split
    · exact EqExpr_createPartialR_linear hr hc _
    · exact linear_Binary (normal_Constant _).linear hr.linear
        ⟨fun _ => hc, fun h => Bool.noConfusion h⟩

/-- Two operands that are no constants. -/
theorem XorExpr_create_linear (hl : l.Linear) (hr : r.Linear) (hc : r.isConstant = false) :
    (XorExpr_create l r).Linear :=
  linear_Binary hl hr ⟨fun _ => hc, fun h => Bool.noConfusion h⟩

theorem XorExpr.create_linear (hl : l.Normal) (hr : r.Normal) : (XorExpr.create l r).Linear :=
  BCREATE_R_linear (fun a hc => XorExpr_createPartialR_linear hl hc a)
    (fun a hc => XorExpr_createPartialR_linear hr hc a)
    (fun _ hc => XorExpr_create_linear hl.linear hr.linear hc)

/-! ### Add and Sub -/

/-- A sum or a difference of a constant and what is no such formula. -/
theorem linear_constantLed (a : APInt) (hr : r.Linear) (hc : r.isConstant = false)
    (hadd : ∀ c y, r ≠ .Binary .Add (.Constant c) y)
    (hsub : ∀ c y, r ≠ .Binary .Sub (.Constant c) y) :
    (Expr.Binary k (.Constant a) r).Linear :=
  linear_Binary (normal_Constant _).linear hr
    ⟨fun _ => hc, fun _ => ⟨rfl, Expr.isConstantLed_eq_false hadd hsub⟩⟩

theorem AddSub_createPartialR_linear (hr : r.Normal) (hc : r.isConstant = false) (cl : APInt) :
    (AddExpr_createPartialR cl r).Linear ∧ (SubExpr_createPartialR cl r).Linear := by
  induction hs : r.size using Nat.strong_induction_on generalizing r cl with | _ n ih =>
  subst hs
  have hxor : (XorExpr_createPartialR cl r).Linear := XorExpr_createPartialR_linear hr hc cl
  have hright : ∀ {k : BinaryKind} {a : APInt} {y : Expr}, r = .Binary k (.Constant a) y →
      ∀ (general : Expr → Expr → Expr) (a' : APInt),
        (AddExpr.createWith general (.Constant a') y).Linear
          ∧ (SubExpr.createWith general (.Constant a') y).Linear := by
    rintro k a y rfl general a'
    have hlt : y.size < (Expr.Binary k (.Constant a) y).size := by
      rw [Expr.size_Binary]
      omega
    exact ⟨BCREATE_R_linear (fun _ h => nomatch h) (fun c hy => (ih _ hlt hr.right hy c rfl).1)
        (fun h _ => nomatch h),
      BCREATE_R_linear (fun _ h => nomatch h) (fun c hy => (ih _ hlt hr.right hy c rfl).2)
        (fun h _ => nomatch h)⟩
  rw [AddExpr_createPartialR_eq AddExpr_create, SubExpr_createPartialR_eq SubExpr_create]
  constructor
  · split
    next => exact hxor
    next =>
      split
      next => exact hr.linear
      next =>
        split
        next c y => exact (hright rfl _ _).1
        next c y => exact (hright rfl _ _).2
        next hadd hsub => exact linear_constantLed cl hr.linear hc hadd hsub
  · split
    next => exact hxor
    next =>
      split
      next c y => exact (hright rfl _ _).2
      next c y => exact (hright rfl _ _).1
      next hadd hsub => exact linear_constantLed cl hr.linear hc hadd hsub

theorem AddExpr.createWith_normal (hl : l.Normal) (hr : r.Normal)
    (hG : l.isConstant = false → r.isConstant = false → (general l r).Normal) :
    (AddExpr.createWith general l r).Normal :=
  ⟨AddExpr.createWith_canonical hl.canonical hr.canonical fun h h' => (hG h h').canonical,
    BCREATE_R_linear (fun a h => (AddSub_createPartialR_linear hl h a).1)
      (fun a h => (AddSub_createPartialR_linear hr h a).1) fun h h' => (hG h h').linear⟩

theorem SubExpr.createWith_normal (hl : l.Normal) (hr : r.Normal)
    (hG : l.isConstant = false → r.isConstant = false → (general l r).Normal) :
    (SubExpr.createWith general l r).Normal :=
  ⟨SubExpr.createWith_canonical hl.canonical hr.canonical fun h h' => (hG h h').canonical,
    BCREATE_R_linear (fun _ h => (AddSub_createPartialR_linear hl h _).1)
      (fun a h => (AddSub_createPartialR_linear hr h a).2) fun h h' => (hG h h').linear⟩

/-- `f` gives a normal expression for operands that are no constants. -/
def KeepsNormal (f : Expr → Expr → Expr) (l r : Expr) : Prop :=
  l.Normal → r.Normal → l.isConstant = false → r.isConstant = false → (f l r).Normal

/-- A sum or a difference of two operands without a constant of their own. -/
theorem normal_AddSub (hl : l.Normal) (hr : r.Normal) (hnl : l.isConstant = false)
    (hnr : r.isConstant = false) (hw : ¬l.width = Expr.BoolWidth) (hledl : l.isConstantLed = false)
    (hledr : r.isConstantLed = false) :
    (Expr.Binary k l r).Normal :=
  ⟨⟨hl.canonical, hr.canonical, and_false_of_left hnl, fun h => absurd h hw⟩,
    linear_Binary hl.linear hr.linear ⟨fun _ => hnr, fun _ => ⟨hledl, hledr⟩⟩⟩

theorem XorExpr_create_normal (hl : l.Normal) (hr : r.Normal) (hnl : l.isConstant = false)
    (hnr : r.isConstant = false) : (XorExpr_create l r).Normal :=
  ⟨canonical_Boolean rfl hl.canonical hr.canonical (and_false_of_left hnl),
    XorExpr_create_linear hl.linear hr.linear hnr⟩

section AddSubBody

variable {add sub : Expr → Expr → Expr} (hl : l.Normal) (hr : r.Normal)
  (hnl : l.isConstant = false) (hnr : r.isConstant = false)
  (hadd : ∀ a b, a.size + b.size < l.size + r.size → KeepsNormal add a b)
  (hsub : ∀ a b, a.size + b.size < l.size + r.size → KeepsNormal sub a b)

include hl hr hnl hnr hadd hsub

theorem AddExpr_createBody_normal :
    (AddExpr_createBody (AddExpr.createWith add) (SubExpr.createWith sub) l r).Normal := by
  have hA : ∀ {a b : Expr}, a.Normal → b.Normal → a.size + b.size < l.size + r.size →
      (AddExpr.createWith add a b).Normal := fun ha hb hlt =>
    AddExpr.createWith_normal ha hb (hadd _ _ hlt ha hb)
  have hS : ∀ {a b : Expr}, a.Normal → b.Normal → a.size + b.size < l.size + r.size →
      (SubExpr.createWith sub a b).Normal := fun ha hb hlt =>
    SubExpr.createWith_normal ha hb (hsub _ _ hlt ha hb)
  have hK : ∀ (c : APInt) {b : Expr}, b.Normal →
      (AddExpr.createWith add (.Constant c) b).Normal := fun c _ hb =>
    AddExpr.createWith_normal (normal_Constant c) hb (fun h => nomatch h)
  unfold AddExpr_createBody
  split
  next => exact XorExpr_create_normal hl hr hnl hnr
  next hw =>
    split
    next k a => exact hK _ (hA hl.right hr (by rw [Expr.size_Binary]; omega))
    next k a => exact hK _ (hS hr hl.right (by rw [Expr.size_Binary]; omega))
    next k b _ _ => exact hK _ (hA hl hr.right (by rw [Expr.size_Binary _ b]; omega))
    next k b _ _ => exact hK _ (hS hl hr.right (by rw [Expr.size_Binary _ b]; omega))
    next haddl hsubl haddr hsubr =>
      exact normal_AddSub hl hr hnl hnr hw (Expr.isConstantLed_eq_false haddl hsubl)
        (Expr.isConstantLed_eq_false haddr hsubr)

theorem SubExpr_createBody_normal :
    (SubExpr_createBody (AddExpr.createWith add) (SubExpr.createWith sub) l r).Normal := by
  have hA : ∀ {a b : Expr}, a.Normal → b.Normal → a.size + b.size < l.size + r.size →
      (AddExpr.createWith add a b).Normal := fun ha hb hlt =>
    AddExpr.createWith_normal ha hb (hadd _ _ hlt ha hb)
  have hS : ∀ {a b : Expr}, a.Normal → b.Normal → a.size + b.size < l.size + r.size →
      (SubExpr.createWith sub a b).Normal := fun ha hb hlt =>
    SubExpr.createWith_normal ha hb (hsub _ _ hlt ha hb)
  have hK : ∀ (c : APInt) {a : Expr}, a.Normal →
      (SubExpr.createWith sub a (.Constant c)).Normal := fun c _ ha =>
    SubExpr.createWith_normal ha (normal_Constant c) (fun _ h => nomatch h)
  unfold SubExpr_createBody
  split
  next => exact XorExpr_create_normal hl hr hnl hnr
  next hw =>
    split
    next => exact normal_Constant _
    next hne =>
      clear hne
      split
      next k a =>
        exact AddExpr.createWith_normal (normal_Constant k)
          (hS hl.right hr (by rw [Expr.size_Binary]; omega)) (fun h => nomatch h)
      next k a =>
        exact SubExpr.createWith_normal (normal_Constant k)
          (hA hl.right hr (by rw [Expr.size_Binary]; omega)) (fun h => nomatch h)
      next k b _ _ => exact hK k (hS hl hr.right (by rw [Expr.size_Binary _ b]; omega))
      next k b _ _ => exact hK k (hA hl hr.right (by rw [Expr.size_Binary _ b]; omega))
      next haddl hsubl haddr hsubr =>
        exact normal_AddSub hl hr hnl hnr hw (Expr.isConstantLed_eq_false haddl hsubl)
          (Expr.isConstantLed_eq_false haddr hsubr)

end AddSubBody

/-- With a bound that covers both operands the recursion never reaches its end. -/
theorem AddSub_createN_normal (n : ℕ) (l r : Expr) (hn : l.size + r.size ≤ n) :
    KeepsNormal (AddExpr_createN n) l r ∧ KeepsNormal (SubExpr_createN n) l r := by
  induction n generalizing l r with
  | zero =>
    have := l.size_pos
    omega
  | succ n ih =>
    have hadd : ∀ a b, a.size + b.size < l.size + r.size →
        KeepsNormal (AddExpr_createN n) a b := fun a b h => (ih a b (by omega)).1
    have hsub : ∀ a b, a.size + b.size < l.size + r.size →
        KeepsNormal (SubExpr_createN n) a b := fun a b h => (ih a b (by omega)).2
    exact ⟨fun hl hr hnl hnr => AddExpr_createBody_normal hl hr hnl hnr hadd hsub,
      fun hl hr hnl hnr => SubExpr_createBody_normal hl hr hnl hnr hadd hsub⟩

theorem AddExpr.create_normal (hl : l.Normal) (hr : r.Normal) : (AddExpr.create l r).Normal :=
  AddExpr.createWith_normal hl hr ((AddSub_createN_normal _ l r le_rfl).1 hl hr)

theorem SubExpr.create_normal (hl : l.Normal) (hr : r.Normal) : (SubExpr.create l r).Normal :=
  SubExpr.createWith_normal hl hr ((AddSub_createN_normal _ l r le_rfl).2 hl hr)

/-! ### The other kinds -/

theorem MulExpr_createPartialR_linear (a : APInt) (hr : r.Linear) (hc : r.isConstant = false) :
    (MulExpr_createPartialR a r).Linear := by
  unfold MulExpr_createPartialR
  split
  · exact AndExpr_createPartial_linear a hr
  · split
    · exact hr
    · split
      · exact (normal_Constant _).linear
      · exact linear_Binary (normal_Constant _).linear hr
          ⟨fun _ => hc, fun h => Bool.noConfusion h⟩

theorem MulExpr.create_linear (hl : l.Linear) (hr : r.Linear) : (MulExpr.create l r).Linear := by
  refine BCREATE_R_linear (fun a h => MulExpr_createPartialR_linear a hl h)
    (fun a h => MulExpr_createPartialR_linear a hr h) (fun _ hc => ?_)
  unfold MulExpr_create
  split
  · exact linear_Binary_of rfl hl hr
  · exact linear_Binary hl hr ⟨fun _ => hc, fun h => Bool.noConfusion h⟩

theorem ShiftExpr_create_linear (hk : k.hasConstantLeft = false) (hl : l.Linear) (hr : r.Normal) :
    (ShiftExpr_create k l r).Linear := by
  unfold ShiftExpr_create
  split
  · exact AndExpr.create_linear hl (Expr.createIsZero_normal hr).linear
  · exact linear_Binary_of hk hl hr.linear

theorem BinaryKind.create_linear (k : BinaryKind) (hl : l.Normal) (hr : r.Normal) :
    (k.create l r).Linear := by
  cases k with
  | Add => exact (AddExpr.create_normal hl hr).linear
  | Sub => exact (SubExpr.create_normal hl hr).linear
  | Mul => exact MulExpr.create_linear hl.linear hr.linear
  | UDiv | SDiv =>
    refine BCREATE_linear fun _ => ?_
    unfold DivExpr_create
    split
    · exact hl.linear
    · exact linear_Binary_of rfl hl.linear hr.linear
  | URem | SRem =>
    refine BCREATE_linear fun _ => ?_
    unfold RemExpr_create
    split
    · exact (normal_Constant _).linear
    · exact linear_Binary_of rfl hl.linear hr.linear
  | And => exact AndExpr.create_linear hl.linear hr.linear
  | Or => exact OrExpr.create_linear hl.linear hr.linear
  | Xor => exact XorExpr.create_linear hl hr
  | Shl | LShr => exact BCREATE_linear fun _ => ShiftExpr_create_linear rfl hl.linear hr
  | AShr =>
    refine BCREATE_linear fun _ => ?_
    unfold AShrExpr_create
    split
    · exact hl.linear
    · exact linear_Binary_of rfl hl.linear hr.linear

theorem UltExpr.create_linear (hl : l.Normal) (hr : r.Normal) : (UltExpr.create l r).Linear := by
  refine BCREATE_linear fun h => ?_
  unfold UltExpr_create
  split
  · exact AndExpr.create_linear (Expr.createIsZero_normal hl).linear hr.linear
  · exact linear_Cmp_of (by decide) hl.linear hr.linear h

theorem UleExpr.create_linear (hl : l.Normal) (hr : r.Normal) : (UleExpr.create l r).Linear := by
  refine BCREATE_linear fun h => ?_
  unfold UleExpr_create
  split
  · exact OrExpr.create_linear (Expr.createIsZero_normal hl).linear hr.linear
  · exact linear_Cmp_of (by decide) hl.linear hr.linear h

theorem SltExpr.create_linear (hl : l.Normal) (hr : r.Normal) : (SltExpr.create l r).Linear := by
  refine BCREATE_linear fun h => ?_
  unfold SltExpr_create
  split
  · exact AndExpr.create_linear hl.linear (Expr.createIsZero_normal hr).linear
  · exact linear_Cmp_of (by decide) hl.linear hr.linear h

theorem SleExpr.create_linear (hl : l.Normal) (hr : r.Normal) : (SleExpr.create l r).Linear := by
  refine BCREATE_linear fun h => ?_
  unfold SleExpr_create
  split
  · exact OrExpr.create_linear hl.linear (Expr.createIsZero_normal hr).linear
  · exact linear_Cmp_of (by decide) hl.linear hr.linear h

theorem CmpKind.create_linear (k : CmpKind) (hl : l.Normal) (hr : r.Normal) :
    (k.create l r).Linear := by
  cases k with
  | Eq => exact (EqExpr.create_normal hl hr).linear
  | Ne => exact (EqExpr.create_normal (normal_Constant _) (EqExpr.create_normal hl hr)).linear
  | Ult => exact UltExpr.create_linear hl hr
  | Ule => exact UleExpr.create_linear hl hr
  | Ugt => exact UltExpr.create_linear hr hl
  | Uge => exact UleExpr.create_linear hr hl
  | Slt => exact SltExpr.create_linear hl hr
  | Sle => exact SleExpr.create_linear hl hr
  | Sgt => exact SltExpr.create_linear hr hl
  | Sge => exact SleExpr.create_linear hr hl

/-! ### Concat, Extract and the casts -/

theorem linear_Concat (hl : l.Linear) (hr : r.Linear)
    (h : (l.isConstant && r.isConstant) = false) : (Expr.Concat l r).Linear := by
  refine Expr.linear_iff.mpr ⟨h, fun x hx => ?_⟩
  simp only [Expr.parts, Expr.kids, List.mem_cons, List.not_mem_nil, or_false] at hx
  rcases hx with rfl | rfl
  · exact hl
  · exact hr

/-- A node with one kid. -/
theorem linear_unary (hk : l.parts = [e]) (he : e.Linear) (h : l.LinearNode) : l.Linear := by
  refine Expr.linear_iff.mpr ⟨h, fun x hx => ?_⟩
  rw [hk] at hx
  rw [List.mem_singleton.mp hx]
  exact he

theorem ConcatExpr.createWith_linear {extract : Expr → ℕ → ℕ → Expr} (hl : l.Linear)
    (hr : r.Linear)
    (hex : ∀ e off n off' n', l = .Extract e off n → (extract e off' n').Linear) :
    (ConcatExpr.createWith extract l r).Linear := by
  rw [ConcatExpr.createWith.eq_def]
  split
  next => exact (normal_Constant _).linear
  next e off n e' off' n' =>
    split
    · exact hex e off n off' (n + n') rfl
    · exact linear_Concat hl hr rfl
  next hconst _ =>
    apply linear_Concat hl hr
    cases l <;> cases r <;>
      first
      | rfl
      | exact absurd rfl (hconst _ _ rfl)

/-- The extracts of an expression, for a bound that covers its size. -/
theorem ExtractExpr.createN_linear (n : ℕ) (e : Expr) (off w : ℕ) (he : e.Linear)
    (hn : e.size ≤ n) : (ExtractExpr.createN n e off w).Linear := by
  induction n generalizing e off w with
  | zero =>
    have := e.size_pos
    omega
  | succ n ih =>
    rw [ExtractExpr.createN]
    unfold ExtractExpr.createBody
    split
    next => exact he
    next hw =>
      split
      next => exact (normal_Constant _).linear
      next left right =>
        rw [Expr.size_Concat] at hn
        have hkids := (Expr.linear_iff.mp he).2
        have hleft : ∀ off' w', (ExtractExpr.createN n left off' w').Linear :=
          fun off' w' => ih left off' w' (hkids left (by simp [Expr.parts, Expr.kids])) (by omega)
        have hright : ∀ off' w', (ExtractExpr.createN n right off' w').Linear :=
          fun off' w' => ih right off' w' (hkids right (by simp [Expr.parts, Expr.kids])) (by omega)
        split
        · exact hleft _ _
        · split
          · exact hright _ _
          · refine ConcatExpr.createWith_linear (hleft _ _) (hright _ _) ?_
            intro e' o k o' k' heq
            have hlin := hleft 0 (w + off - right.width)
            rw [heq] at hlin
            have hsize := ExtractExpr.createN_shrinks n heq
            refine ih e' o' k' ?_ (by omega)
            exact (Expr.linear_iff.mp hlin).2 e' (by simp [Expr.parts, Expr.kids])
      next hconst hconcat =>
        refine linear_unary rfl he ⟨?_, fun l r h => hconcat l r h⟩
        cases e <;> first | rfl | exact absurd rfl (hconst _)

theorem ExtractExpr.create_linear (off w : ℕ) (he : e.Linear) :
    (ExtractExpr.create e off w).Linear :=
  ExtractExpr.createN_linear e.size e off w he le_rfl

theorem ConcatExpr.create_linear (hl : l.Linear) (hr : r.Linear) :
    (ConcatExpr.create l r).Linear := by
  refine ConcatExpr.createWith_linear hl hr ?_
  rintro e off n off' n' rfl
  exact ExtractExpr.create_linear off' n'
    ((Expr.linear_iff.mp hl).2 e (by simp [Expr.parts, Expr.kids]))

theorem CastExpr.create_linear (k : CastKind) (w : ℕ) (he : e.Linear) :
    (CastExpr.create k e w).Linear := by
  unfold CastExpr.create
  split
  next => exact he
  next =>
    split
    next => exact ExtractExpr.create_linear 0 w he
    next =>
      split
      next => exact (normal_Constant _).linear
      next hconst =>
        refine linear_unary rfl he ?_
        change e.isConstant = false
        cases e <;> first | rfl | exact absurd rfl (hconst _)

theorem NotExpr.create_linear (he : e.Linear) : (NotExpr.create e).Linear := by
  rw [NotExpr.create.eq_def]
  split
  next => exact (normal_Constant _).linear
  next hconst =>
    refine linear_unary rfl he ?_
    change e.isConstant = false
    cases e <;> first | rfl | exact absurd rfl (hconst _)

/-! ### Select and Read -/

theorem linear_Select (hc : c.Linear) (ht : t.Linear) (hf : f.Linear) :
    (Expr.Select c t f).Linear := by
  refine Expr.linear_iff.mpr ⟨trivial, fun x hx => ?_⟩
  simp only [Expr.parts, Expr.kids, List.mem_cons, List.not_mem_nil, or_false] at hx
  rcases hx with rfl | rfl | rfl
  · exact hc
  · exact ht
  · exact hf

theorem SelectExpr.create_linear (hc : c.Normal) (ht : t.Linear) (hf : f.Linear) :
    (SelectExpr.create c t f).Linear := by
  have hnot := (Expr.createIsZero_normal hc).linear
  rw [SelectExpr.create.eq_def]
  split
  next =>
    split
    · exact ht
    · exact hf
  next =>
    split
    next => exact ht
    next =>
      split
      next =>
        split
        next =>
          split
          · exact OrExpr.create_linear hc.linear hf
          · exact AndExpr.create_linear hnot hf
        next =>
          split
          · exact OrExpr.create_linear hnot ht
          · exact AndExpr.create_linear hc.linear ht
        next => exact linear_Select hc.linear ht hf
      next => exact linear_Select hc.linear ht hf

theorem ReadExpr.create_linear {ul : UpdateList} (hul : ∀ k ∈ ul.exprs, k.Linear)
    (hi : e.Linear) : (ReadExpr.create ul e).Linear := by
  have hread : (Expr.Read ul e).Linear :=
    Expr.linear_iff.mpr ⟨trivial, List.forall_mem_cons.mpr ⟨hi, hul⟩⟩
  have hrollback : ∀ un : UpdateList, (∀ k ∈ un.exprs, k.Linear) →
      (ReadExpr.rollback ul e un).Linear := by
    intro un
    induction un using UpdateList.nodeInduction with
    | root a => exact fun _ => hread
    | extend i v next ih =>
      intro hun
      simp only [UpdateList.exprs, List.forall_mem_cons] at hun
      rw [ReadExpr.rollback]
      split
      next =>
        split
        · exact hun.2.1
        · exact ih hun.2.2
      next => exact hread
  exact hrollback ul hul

/-! ## Built expressions -/

/-- `XExpr::create(args)` is normal when its arguments are. -/
theorem Expr.rebuild_normal (e : Expr) (h : ∀ k ∈ e.parts, k.Normal) : e.rebuild.Normal := by
  refine ⟨e.rebuild_canonical fun k hk => (h k hk).canonical, ?_⟩
  cases e with
  | Constant c => exact (normal_Constant c).linear
  | NotOptimized e =>
    exact linear_unary rfl (h e (by simp [Expr.parts, Expr.kids])).linear trivial
  | Read ul i =>
    simp only [Expr.parts, List.forall_mem_cons] at h
    exact ReadExpr.create_linear (fun k hk => (h.2 k hk).linear) h.1.linear
  | Select c t f =>
    exact SelectExpr.create_linear (h c (by simp [Expr.parts, Expr.kids]))
      (h t (by simp [Expr.parts, Expr.kids])).linear (h f (by simp [Expr.parts, Expr.kids])).linear
  | Concat l r =>
    exact ConcatExpr.create_linear (h l (by simp [Expr.parts, Expr.kids])).linear
      (h r (by simp [Expr.parts, Expr.kids])).linear
  | Extract e off w =>
    exact ExtractExpr.create_linear off w (h e (by simp [Expr.parts, Expr.kids])).linear
  | Cast k e w => exact CastExpr.create_linear k w (h e (by simp [Expr.parts, Expr.kids])).linear
  | Not e => exact NotExpr.create_linear (h e (by simp [Expr.parts, Expr.kids])).linear
  | Binary k l r | Cmp k l r =>
    exact k.create_linear (h l (by simp [Expr.parts, Expr.kids]))
      (h r (by simp [Expr.parts, Expr.kids]))

theorem Expr.Built.normal (h : e.Built) : e.Normal := by
  induction h with
  | create e _ _ ih => exact e.rebuild_normal ih

theorem Expr.Built.wellTyped (h : e.Built) : e.WellTyped := by
  cases h with
  | create e _ hok => exact (Expr.rebuild_correct (fun _ _ => 0) e hok).1

theorem Expr.WellTyped.deep (he : e.WellTyped) (hx : x ∈ e.deep) : x.WellTyped := by
  induction e using Expr.partsInduction with | _ e ih =>
  rcases Expr.mem_deep_iff.mp hx with rfl | ⟨k, hk, hx⟩
  · exact he
  · exact ih k hk (he.part hk) hx

theorem Expr.Canonical.deep (he : e.Canonical) (hx : x ∈ e.deep) : x.Canonical := by
  induction e using Expr.partsInduction with | _ e ih =>
  rcases Expr.mem_deep_iff.mp hx with rfl | ⟨k, hk, hx⟩
  · exact he
  · exact ih k hk (he.part hk) hx

/-- The two halves of the form. -/
theorem Expr.canonicalForm_of (hwt : e.WellTyped) (hc : e.Canonical) (hl : e.LinearNode) :
    e.CanonicalForm := by
  cases e with
  | Binary k l r =>
    obtain ⟨-, -, hconst, hbool⟩ := hc
    exact ⟨hconst, hl.1, hl.2, hbool⟩
  | Cmp k l r =>
    obtain ⟨-, -, hkind, hbool⟩ := hc
    exact ⟨hkind, hl.1, hl.2.1, fun hk hled => hl.2.2 hk hled hwt, hbool⟩
  | _ => exact hl

/-- Canonical form. Every node of an expression that is built by the constructors alone, those in its
update lists included, has the form `CanonicalForm`. -/
theorem Expr.Built.canonicalForm (h : e.Built) : ∀ x ∈ e.deep, x.CanonicalForm := by
  intro x hx
  exact Expr.canonicalForm_of (h.wellTyped.deep hx) (h.normal.canonical.deep hx)
    (h.normal.linear x hx)

/-- Five, where three and a byte stand: the byte is two. -/
theorem Expr.Built.canonicalForm_sum :
    ∃ e : Expr, e.Built
      ∧ e = .Cmp .Eq (.Constant ⟨8, 2⟩)
          (.Read (.root ⟨0, "x", 1, [], .inl rfl⟩) (.Constant ⟨32, 0⟩))
      ∧ ∀ x ∈ e.deep, x.CanonicalForm := by
  have hconst : ∀ (w : ℕ) (x : BitVec w), 0 < w → (Expr.Constant ⟨w, x⟩).Built :=
    fun w x hw => .create (.Constant ⟨w, x⟩) (fun _ hk => absurd hk List.not_mem_nil) hw
  have hread : (Expr.Read (.root ⟨0, "x", 1, [], .inl rfl⟩) (.Constant ⟨32, 0⟩)).Built :=
    .create (.Read (.root ⟨0, "x", 1, [], .inl rfl⟩) (.Constant ⟨32, 0⟩))
      (List.forall_mem_singleton.mpr (hconst 32 0 (by decide))) (show Expr.WellTyped _ by decide)
  have hsum : (Expr.Binary .Add (.Constant ⟨8, 3⟩)
      (.Read (.root ⟨0, "x", 1, [], .inl rfl⟩) (.Constant ⟨32, 0⟩))).Built :=
    .create (.Binary .Add (.Constant ⟨8, 3⟩)
        (.Read (.root ⟨0, "x", 1, [], .inl rfl⟩) (.Constant ⟨32, 0⟩)))
      (List.forall_mem_cons.mpr ⟨hconst 8 3 (by decide), List.forall_mem_singleton.mpr hread⟩)
      (show Expr.WellTyped _ by decide)
  have heq := Expr.Built.create (.Cmp .Eq (.Constant ⟨8, 5⟩) (.Binary .Add (.Constant ⟨8, 3⟩)
      (.Read (.root ⟨0, "x", 1, [], .inl rfl⟩) (.Constant ⟨32, 0⟩))))
    (List.forall_mem_cons.mpr ⟨hconst 8 5 (by decide), List.forall_mem_singleton.mpr hsum⟩)
    (show Expr.WellTyped _ by decide)
  exact ⟨_, heq, by decide, Expr.Built.canonicalForm heq⟩

end Normal

end Xklee
