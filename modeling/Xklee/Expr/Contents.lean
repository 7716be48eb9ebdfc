/-
The meaning of expressions where arrays have no end.

To a solver with arrays as functions of the whole index domain, a byte past the
end of an array is as free as any other. `Expr.evalOn` is the value of an
expression under contents of that kind; where the contents stop at the end of
the arrays and respect the constant ones it is `Expr.eval`.

A read is opaque to `createIsZero`. So the laws of `createIsZero` carry over to
`evalOn` by freezing: every read is replaced by its value, in a node that the
rewriting does not look into.
-/
import Xklee.Solver.Query

set_option autoImplicit false

namespace Xklee

/-- A byte for each index of each array. -/
abbrev Contents := KArray → ℕ → BitVec 8

mutual

/-- The value of an expression under contents. -/
def Expr.evalOn (C : Contents) : Expr → APInt
  | .Constant c => c
  | .NotOptimized e => e.evalOn C
  | .Read ul i => ⟨KArray.range, ul.readOn C (i.evalOn C).toNat⟩
  | .Select c t f => if (c.evalOn C).isTrue then t.evalOn C else f.evalOn C
  | .Concat l r => (l.evalOn C).concat (r.evalOn C)
  | .Extract e off w => (e.evalOn C).extract off w
  | .Cast k e w => k.apply (e.evalOn C) w
  | .Not e => (e.evalOn C).not
  | .Binary k l r => ConstantExpr.binary k (l.evalOn C) (r.evalOn C)
  | .Cmp k l r => ConstantExpr.compare k (l.evalOn C) (r.evalOn C)

/-- The byte at an index after the updates. -/
def UpdateList.readOn (C : Contents) : UpdateList → ℕ → BitVec 8
  | .root a, n => C a n
  | .extend i v next, n =>
      if (i.evalOn C).toNat = n then (v.evalOn C).bits.setWidth 8 else next.readOn C n

end

/-- The contents have the bytes of the constant arrays. -/
def Contents.Respects (C : Contents) : Prop :=
  ∀ a : KArray, ∀ p ∈ a.constantValues.zipIdx, C a p.2 = p.1

/-- The expression has a value other than 0. -/
def Expr.HoldsOn (C : Contents) (e : Expr) : Prop := (e.evalOn C).toNat ≠ 0

instance (C : Contents) (e : Expr) : Decidable (e.HoldsOn C) :=
  inferInstanceAs (Decidable ((e.evalOn C).toNat ≠ 0))

/-! ## Freezing -/

/-- Every read replaced by its value. -/
def Expr.frozen (C : Contents) : Expr → Expr
  | .Constant c => .Constant c
  | .NotOptimized e => .NotOptimized (e.frozen C)
  | .Read ul i => .NotOptimized (.Constant ((Expr.Read ul i).evalOn C))
  | .Select c t f => .Select (c.frozen C) (t.frozen C) (f.frozen C)
  | .Concat l r => .Concat (l.frozen C) (r.frozen C)
  | .Extract e off w => .Extract (e.frozen C) off w
  | .Cast k e w => .Cast k (e.frozen C) w
  | .Not e => .Not (e.frozen C)
  | .Binary k l r => .Binary k (l.frozen C) (r.frozen C)
  | .Cmp k l r => .Cmp k (l.frozen C) (r.frozen C)

section Frozen

variable (C : Contents)

/-- Freezing keeps the value, and leaves nothing to assign. -/
theorem Expr.eval_frozen (σ : Env) (e : Expr) : (e.frozen C).eval σ = e.evalOn C := by
  induction e using Expr.kidsInduction with
  | Constant c => rfl
  | NotOptimized e ih => exact ih
  | Read ul i _ => rfl
  | Select c t f ihc iht ihf =>
    change (if ((c.frozen C).eval σ).isTrue then (t.frozen C).eval σ else (f.frozen C).eval σ)
      = if (c.evalOn C).isTrue then t.evalOn C else f.evalOn C
    rw [ihc, iht, ihf]
  | Concat l r ihl ihr =>
    change ((l.frozen C).eval σ).concat ((r.frozen C).eval σ) = _
    rw [ihl, ihr]
    rfl
  | Extract e off w ih =>
    change ((e.frozen C).eval σ).extract off w = _
    rw [ih]
    rfl
  | Cast k e w ih =>
    change k.apply ((e.frozen C).eval σ) w = _
    rw [ih]
    rfl
  | Not e ih =>
    change ((e.frozen C).eval σ).not = _
    rw [ih]
    rfl
  | Binary k l r ihl ihr =>
    change ConstantExpr.binary k ((l.frozen C).eval σ) ((r.frozen C).eval σ) = _
    rw [ihl, ihr]
    rfl
  | Cmp k l r ihl ihr =>
    change ConstantExpr.compare k ((l.frozen C).eval σ) ((r.frozen C).eval σ) = _
    rw [ihl, ihr]
    rfl

@[simp] theorem Expr.width_frozen (e : Expr) : (e.frozen C).width = e.width := by
  induction e using Expr.kidsInduction with
  | Concat l r ihl ihr =>
    change (l.frozen C).width + (r.frozen C).width = l.width + r.width
    rw [ihl, ihr]
  | NotOptimized e ih => exact ih
  | Select c t f _ iht _ => exact iht
  | Not e ih => exact ih
  | Binary k l r ihl _ => exact ihl
  | _ => rfl

variable {e : Expr}

theorem Expr.WellTyped.frozen (h : e.WellTyped) : (e.frozen C).WellTyped := by
  induction e using Expr.kidsInduction with
  | Constant c => exact h
  | NotOptimized e ih => exact ih h
  | Read ul i _ => exact Nat.zero_lt_succ 7
  | Select c t f ihc iht ihf =>
    obtain ⟨hc, ht, hf, hcw, htf⟩ := h
    refine ⟨ihc hc, iht ht, ihf hf, ?_, ?_⟩
    · rwa [Expr.width_frozen]
    · rwa [Expr.width_frozen, Expr.width_frozen]
  | Concat l r ihl ihr => exact ⟨ihl h.1, ihr h.2⟩
  | Extract e off w ih =>
    refine ⟨ih h.1, h.2.1, ?_⟩
    rw [Expr.width_frozen]
    exact h.2.2
  | Cast k e w ih =>
    refine ⟨ih h.1, ?_⟩
    rw [Expr.width_frozen]
    exact h.2
  | Not e ih => exact ih h
  | Binary k l r ihl ihr | Cmp k l r ihl ihr =>
    refine ⟨ihl h.1, ihr h.2.1, ?_⟩
    rw [Expr.width_frozen, Expr.width_frozen]
    exact h.2.2

theorem Expr.frozen_eq_Constant_iff {c : APInt} :
    e.frozen C = .Constant c ↔ e = .Constant c := by
  cases e <;> simp [Expr.frozen]

/-- The value has the width of the expression. -/
theorem Expr.WellTyped.evalOn_width (h : e.WellTyped) : (e.evalOn C).width = e.width := by
  rw [← Expr.eval_frozen C (fun _ _ => 0) e, (h.frozen C).eval_width, Expr.width_frozen]

/-! ## `createIsZero` -/

theorem EqExpr_create_frozen (cl : APInt) (r : Expr) :
    (EqExpr_create (.Constant cl) r).frozen C = EqExpr_create (.Constant cl) (r.frozen C) := by
  unfold EqExpr_create
  by_cases h : Expr.Constant cl = r
  · rw [if_pos h, if_pos ((Expr.frozen_eq_Constant_iff C).mpr h.symm).symm]
    rfl
  · have hfrozen : Expr.Constant cl ≠ r.frozen C :=
      fun h' => h ((Expr.frozen_eq_Constant_iff C).mp h'.symm).symm
    rw [if_neg h, if_neg hfrozen]
    rfl

theorem AndExpr_create_frozen (l r : Expr) :
    (AndExpr.create l r).frozen C = AndExpr.create (l.frozen C) (r.frozen C) := by
  have hpartial : ∀ (e : Expr) (c : APInt),
      (AndExpr_createPartial e c).frozen C = AndExpr_createPartial (e.frozen C) c := by
    intro e c
    unfold AndExpr_createPartial
    split
    · rfl
    · split <;> rfl
  cases l <;> cases r <;> first | rfl | exact hpartial _ _

/-- The equality with a constant looks into no read. -/
theorem EqExpr_createPartialR_frozen (cl : APInt) (r : Expr) :
    (EqExpr_createPartialR cl r).frozen C = EqExpr_createPartialR cl (r.frozen C) := by
  induction hs : r.size using Nat.strong_induction_on generalizing r cl with | _ n ih =>
  subst hs
  -- the calls on kids
  have hcreate : ∀ (e : Expr) (c : APInt), e.size < r.size →
      (EqExpr.create e (.Constant c)).frozen C = EqExpr.create (e.frozen C) (.Constant c) := by
    intro e c hlt
    cases e with
    | Constant d => rfl
    | _ => exact ih _ hlt c _ rfl
  have hzero : ∀ e : Expr, e.size < r.size →
      e.createIsZero.frozen C = (e.frozen C).createIsZero := by
    intro e hlt
    unfold Expr.createIsZero
    rw [Expr.width_frozen]
    exact hcreate e _ hlt
  rw [EqExpr_createPartialR_eq cl r, EqExpr_createPartialR_eq cl (r.frozen C)]
  by_cases hwidth : cl.width = Expr.BoolWidth
  · rw [if_pos hwidth, if_pos hwidth]
    by_cases htrue : cl.isTrue = true
    · rw [if_pos htrue, if_pos htrue]
    · rw [if_neg htrue, if_neg htrue]
      cases r with
      | Cmp k left right =>
        cases k with
        | Eq =>
          cases left with
          | Constant c =>
            change (if c.isFalse = true then right
                else EqExpr_create (.Constant cl) (.Cmp .Eq (.Constant c) right)).frozen C
              = if c.isFalse = true then right.frozen C
                else EqExpr_create (.Constant cl) (.Cmp .Eq (.Constant c) (right.frozen C))
            split
            · rfl
            · exact EqExpr_create_frozen C cl _
          | _ => exact EqExpr_create_frozen C cl _
        | _ => exact EqExpr_create_frozen C cl _
      | Binary k left right =>
        cases k with
        | Or =>
          have hleft : left.size < (Expr.Binary .Or left right).size := by
            rw [Expr.size_Binary]
            omega
          have hright : right.size < (Expr.Binary .Or left right).size := by
            rw [Expr.size_Binary]
            omega
          change (AndExpr.create left.createIsZero right.createIsZero).frozen C
            = AndExpr.create (left.frozen C).createIsZero (right.frozen C).createIsZero
          rw [AndExpr_create_frozen, hzero left hleft, hzero right hright]
        | _ => exact EqExpr_create_frozen C cl _
      | _ => exact EqExpr_create_frozen C cl _
  · rw [if_neg hwidth, if_neg hwidth]
    cases r with
    | Cast k src w =>
      have hsrc : src.size < (Expr.Cast k src w).size := by
        rw [Expr.size_Cast]
        omega
      cases k with
      | SExt =>
        change (if cl = ConstantExpr.SExt (ConstantExpr.ZExt cl src.width) cl.width then
              EqExpr.create src (.Constant (ConstantExpr.ZExt cl src.width))
            else .Constant (.ofBool false)).frozen C
          = if cl = ConstantExpr.SExt (ConstantExpr.ZExt cl (src.frozen C).width) cl.width then
              EqExpr.create (src.frozen C) (.Constant (ConstantExpr.ZExt cl (src.frozen C).width))
            else .Constant (.ofBool false)
        rw [Expr.width_frozen]
        split
        · exact hcreate src _ hsrc
        · rfl
      | ZExt =>
        change (if cl = ConstantExpr.ZExt (ConstantExpr.ZExt cl src.width) cl.width then
              EqExpr.create src (.Constant (ConstantExpr.ZExt cl src.width))
            else .Constant (.ofBool false)).frozen C
          = if cl = ConstantExpr.ZExt (ConstantExpr.ZExt cl (src.frozen C).width) cl.width then
              EqExpr.create (src.frozen C) (.Constant (ConstantExpr.ZExt cl (src.frozen C).width))
            else .Constant (.ofBool false)
        rw [Expr.width_frozen]
        split
        · exact hcreate src _ hsrc
        · rfl
    | Binary k left right =>
      have hright : right.size < (Expr.Binary k left right).size := by
        rw [Expr.size_Binary]
        omega
      cases k with
      | Add =>
        cases left with
        | Constant c => exact ih _ hright _ right rfl
        | _ => exact EqExpr_create_frozen C cl _
      | Sub =>
        cases left with
        | Constant c => exact ih _ hright _ right rfl
        | _ => exact EqExpr_create_frozen C cl _
      | _ => exact EqExpr_create_frozen C cl _
    | _ => exact EqExpr_create_frozen C cl _

theorem createIsZero_frozen (e : Expr) : e.createIsZero.frozen C = (e.frozen C).createIsZero := by
  unfold Expr.createIsZero
  rw [Expr.width_frozen]
  cases e with
  | Constant c => rfl
  | _ => exact EqExpr_createPartialR_frozen C _ _

/-- `createIsZero` is true where the value is 0. -/
theorem Expr.WellTyped.holdsOn_createIsZero (h : e.WellTyped) :
    e.createIsZero.HoldsOn C ↔ ¬e.HoldsOn C := by
  obtain ⟨x, hx⟩ := (h.frozen C).denotes (σ := fun _ _ => 0) rfl
  have hzero := Expr.createIsZero_denotes hx
  have heval : e.evalOn C = ⟨(e.frozen C).width, x⟩ := by
    rw [← Expr.eval_frozen C (fun _ _ => 0), hx.2]
  have hevalZero : e.createIsZero.evalOn C = ⟨1, BitVec.ofBool (x == 0#_)⟩ := by
    rw [← Expr.eval_frozen C (fun _ _ => 0), createIsZero_frozen, hzero.2]
  rw [Expr.HoldsOn, Expr.HoldsOn, heval, hevalZero, not_not, APInt.toNat_mk, APInt.toNat_mk]
  by_cases hx0 : x = 0#_
  · simp [hx0]
  · have hne : x.toNat ≠ 0 := fun h0 => hx0 (BitVec.eq_of_toNat_eq (by simpa using h0))
    simp [hx0, hne]

end Frozen

end Xklee
