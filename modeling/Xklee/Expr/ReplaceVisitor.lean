/-
Visitors that substitute constants: `ExprVisitor::visit` for
`ExprReplaceVisitor` and `ExprReplaceVisitor2` of `lib/Expr/Constraints.cpp`.

Such a visitor may change an expression before it visits the kids, in
`visitExpr`, and after it has rebuilt the node, in `visitExprPost`. With
`recursive` it visits a rebuilt node once more. Every change is to something
lighter, and a node is lighter after a kid has changed, so that visiting comes
to an end. The table of visited expressions only saves work.
-/
import Xklee.Expr.Evaluator
import Xklee.Expr.Weight
import Xklee.Solver.Query

set_option autoImplicit false

namespace Xklee

/-! ## Kids -/

variable {e k e' : Expr}

theorem Expr.kid_lt (hk : k ∈ e.kids) : k.weight ≤ e.weight ∧ k.size < e.size := by
  cases e with
  | Constant c => exact absurd hk List.not_mem_nil
  | NotOptimized e | Read ul e | Extract e _ _ | Cast _ e _ | Not e =>
    obtain rfl := List.mem_singleton.mp hk
    simp
    try omega
  | Select c t f =>
    simp only [Expr.kids, List.mem_cons, List.not_mem_nil, or_false] at hk
    simp only [Expr.weight_Select, Expr.size_Select]
    rcases hk with rfl | rfl | rfl <;> omega
  | Concat l r | Binary _ l r | Cmp _ l r =>
    simp only [Expr.kids, List.mem_cons, List.not_mem_nil, or_false] at hk
    simp only [Expr.weight_Concat, Expr.size_Concat, Expr.weight_Binary, Expr.size_Binary,
      Expr.weight_Cmp, Expr.size_Cmp]
    rcases hk with rfl | rfl <;> omega

theorem Expr.kid_decreases (hk : k ∈ e.kids) :
    Prod.Lex (· < ·) (· < ·) (k.weight, k.size) (e.weight, e.size) := by
  have := Expr.kid_lt hk
  rw [Prod.lex_def]
  simp only
  omega

/-- `mapKids` with a function that is given kids only. -/
def Expr.mapKidsMem : (e : Expr) → ((k : Expr) → k ∈ e.kids → Expr) → Expr
  | .Constant c, _ => .Constant c
  | .NotOptimized e, f => .NotOptimized (f e (by simp [Expr.kids]))
  | .Read ul i, f => .Read ul (f i (by simp [Expr.kids]))
  | .Select c t e, f => .Select (f c (by simp [Expr.kids])) (f t (by simp [Expr.kids]))
      (f e (by simp [Expr.kids]))
  | .Concat l r, f => .Concat (f l (by simp [Expr.kids])) (f r (by simp [Expr.kids]))
  | .Extract e off w, f => .Extract (f e (by simp [Expr.kids])) off w
  | .Cast k e w, f => .Cast k (f e (by simp [Expr.kids])) w
  | .Not e, f => .Not (f e (by simp [Expr.kids]))
  | .Binary k l r, f => .Binary k (f l (by simp [Expr.kids])) (f r (by simp [Expr.kids]))
  | .Cmp k l r, f => .Cmp k (f l (by simp [Expr.kids])) (f r (by simp [Expr.kids]))

theorem Expr.mapKidsMem_eq (e : Expr) (f : Expr → Expr) :
    e.mapKidsMem (fun k _ => f k) = e.mapKids f := by
  cases e <;> rfl

/-- A node is lighter when its kids have changed for lighter ones. -/
theorem Expr.rebuild_mapKidsMem_lt {f : (k : Expr) → k ∈ e.kids → Expr}
    (hf : ∀ k hk, f k hk = k ∨ (f k hk).weight < k.weight) (hne : e.mapKidsMem f ≠ e) :
    (e.mapKidsMem f).rebuild.weight < e.weight := by
  have hle : ∀ k hk, (f k hk).weight ≤ k.weight := by
    intro k hk
    rcases hf k hk with h | h
    · rw [h]
    · exact h.le
  refine Nat.lt_of_le_of_lt (Expr.rebuild_weight _) ?_
  by_contra hnot
  apply hne
  cases e with
  | Constant c => rfl
  | NotOptimized e | Read ul e | Extract e _ _ | Cast _ e _ | Not e =>
    have hmem : e ∈ [e] := List.mem_singleton_self e
    have hfe := hf e hmem
    simp only [Expr.mapKidsMem, Expr.kidsWeight, Expr.weight_NotOptimized, Expr.weight_Read,
      Expr.weight_Extract, Expr.weight_Cast, Expr.weight_Not] at hnot
    rw [Expr.mapKidsMem, hfe.resolve_right (by omega)]
  | Select c t e =>
    have hc := hle c (by simp [Expr.kids])
    have ht := hle t (by simp [Expr.kids])
    have he := hle e (by simp [Expr.kids])
    simp only [Expr.mapKidsMem, Expr.kidsWeight, Expr.weight_Select] at hnot
    simp only [Expr.mapKidsMem, Expr.Select.injEq]
    exact ⟨(hf c (by simp [Expr.kids])).resolve_right (by omega),
      (hf t (by simp [Expr.kids])).resolve_right (by omega),
      (hf e (by simp [Expr.kids])).resolve_right (by omega)⟩
  | Concat l r | Binary _ l r | Cmp _ l r =>
    have hl := hle l (by simp [Expr.kids])
    have hr := hle r (by simp [Expr.kids])
    simp only [Expr.mapKidsMem, Expr.kidsWeight, Expr.weight_Concat, Expr.weight_Binary,
      Expr.weight_Cmp] at hnot
    simp only [Expr.mapKidsMem, Expr.Concat.injEq, Expr.Binary.injEq, Expr.Cmp.injEq, true_and]
    exact ⟨(hf l (by simp [Expr.kids])).resolve_right (by omega),
      (hf r (by simp [Expr.kids])).resolve_right (by omega)⟩

/-! ## The visitor -/

/-- A visitor that changes expressions for lighter ones: `none` stands for
`Action::doChildren`, `some` for `Action::changeTo`. -/
structure ReplaceVisitor where
  visitExpr : Expr → Option Expr
  visitExprPost : Expr → Option Expr
  recursive : Bool
  visitExpr_lt : ∀ e d, e.isConstant = false → visitExpr e = some d → d.weight < e.weight
  visitExprPost_lt : ∀ e d, e.isConstant = false → visitExprPost e = some d →
    d.weight < e.weight

/-- Either unchanged or lighter. -/
def Lighter (e e' : Expr) : Prop := e' = e ∨ e'.weight < e.weight

theorem Lighter.weight_le (h : Lighter e e') : e'.weight ≤ e.weight := by
  rcases h with rfl | h
  · exact le_rfl
  · exact h.le

theorem Lighter.trans_lt {e'' : Expr} (h : Lighter e e') (h' : e''.weight < e'.weight) :
    Lighter e e'' := .inr (Nat.lt_of_lt_of_le h' h.weight_le)

/-- The end of a visit: `visitExprPost` of an expression that is not a constant. -/
def ReplaceVisitor.post (v : ReplaceVisitor) {e : Expr} (e' : {e' // Lighter e e'}) :
    {e' // Lighter e e'} :=
  if hc : e'.1.isConstant = true then e'
  else
    match h : v.visitExprPost e'.1 with
    | some d => ⟨d, e'.2.trans_lt (v.visitExprPost_lt _ d (by simpa using hc) h)⟩
    | none => e'

/-- `ExprVisitor::visit`. -/
def ReplaceVisitor.visit (v : ReplaceVisitor) (e : Expr) : {e' // Lighter e e'} :=
  if hc : e.isConstant = true then ⟨e, .inl rfl⟩
  else
    match h : v.visitExpr e with
    | some d => ⟨d, .inr (v.visitExpr_lt e d (by simpa using hc) h)⟩
    | none =>
        let kids := e.mapKidsMem (fun k hk => (v.visit k).1)
        if hne : kids = e then v.post ⟨e, .inl rfl⟩
        else
          have hlt : kids.rebuild.weight < e.weight :=
            Expr.rebuild_mapKidsMem_lt (fun k hk => (v.visit k).2) hne
          if v.recursive then
            let r := v.visit kids.rebuild
            v.post ⟨r.1, .inr (Nat.lt_of_le_of_lt r.2.weight_le hlt)⟩
          else v.post ⟨kids.rebuild, .inr hlt⟩
termination_by (e.weight, e.size)
decreasing_by
  all_goals first
    | exact Prod.Lex.left _ _ hlt
    | exact Expr.kid_decreases hk

/-! ## Expressions of the same value -/

/-- `e'` may stand for `e`: it has the same width and, under every assignment of
`S`, the same value. -/
structure Same (S : Env → Prop) (e e' : Expr) : Prop where
  wellTyped : e'.WellTyped
  width : e'.width = e.width
  eval : ∀ σ, S σ → e'.eval σ = e.eval σ

section Same

variable {S : Env → Prop}

variable {e e' : Expr}

theorem Same.refl (he : e.WellTyped) : Same S e e := ⟨he, rfl, fun _ _ => rfl⟩

theorem Same.trans {e'' : Expr} (h : Same S e e') (h' : Same S e' e'') : Same S e e'' :=
  ⟨h'.wellTyped, h'.width.trans h.width, fun σ hσ => (h'.eval σ hσ).trans (h.eval σ hσ)⟩

theorem Same.isBool (h : Same S e e') (he : e.IsBool) : e'.IsBool :=
  ⟨h.wellTyped, h.width.trans he.2⟩

theorem Same.holds_iff (h : Same S e e') {σ : Env} (hσ : S σ) :
    e'.Holds σ ↔ e.Holds σ := by
  rw [Expr.Holds, Expr.Holds, h.eval σ hσ]

theorem Expr.rebuild_same (he : e.WellTyped) : Same S e e.rebuild := by
  have h : ∀ σ, HasValue σ e.rebuild (e.eval σ) := fun σ => rebuild_hasValue_self he
  exact ⟨(h (fun _ _ => 0)).1, (h (fun _ _ => 0)).width_of_eval he, fun σ _ => (h σ).2⟩

theorem Expr.mapKids_same {f : Expr → Expr} (he : e.WellTyped)
    (hf : ∀ k ∈ e.kids, k.WellTyped → Same S k (f k)) : Same S e (e.mapKids f) := by
  have htyped := Expr.mapKids_typed he (fun k hk hwk => ⟨(hf k hk hwk).wellTyped,
    (hf k hk hwk).width⟩)
  refine ⟨htyped.1, htyped.2, fun σ hσ => Expr.mapKids_eval ?_⟩
  intro k hk
  exact (hf k hk (Expr.mem_kids_wellTyped he hk)).eval σ hσ

end Same

/-! ## Visiting preserves meaning -/

/-- A visitor whose changes keep the value. -/
structure ReplaceVisitor.Sound (v : ReplaceVisitor) (S : Env → Prop) : Prop where
  visitExpr : ∀ e d, e.WellTyped → v.visitExpr e = some d → Same S e d
  visitExprPost : ∀ e d, e.WellTyped → v.visitExprPost e = some d → Same S e d

section Sound

variable {v : ReplaceVisitor} {S : Env → Prop}

theorem ReplaceVisitor.post_same (hv : v.Sound S) {e e₀ : Expr} {e' : {e' // Lighter e e'}}
    (he' : Same S e₀ e'.1) : Same S e₀ (v.post e').1 := by
  rw [ReplaceVisitor.post]
  split
  next => exact he'
  next =>
    split
    next d hd => exact he'.trans (hv.visitExprPost _ d he'.wellTyped hd)
    next => exact he'

/-- Visiting keeps the value. -/
theorem ReplaceVisitor.visit_same (hv : v.Sound S) (e : Expr) (he : e.WellTyped) :
    Same S e (v.visit e).1 := by
  rw [ReplaceVisitor.visit]
  split
  next => exact Same.refl he
  next =>
    split
    next d hd => exact hv.visitExpr e d he hd
    next =>
      have hkids : Same S e (e.mapKidsMem (fun k _ => (v.visit k).1)) := by
        rw [Expr.mapKidsMem_eq]
        exact Expr.mapKids_same he (fun k hk hwk => ReplaceVisitor.visit_same hv k hwk)
      have hrebuilt := hkids.trans (Expr.rebuild_same hkids.wellTyped)
      dsimp only
      split
      next => exact ReplaceVisitor.post_same hv (Same.refl he)
      next hne =>
        have hlt := Expr.rebuild_mapKidsMem_lt (fun k hk => (v.visit k).2) hne
        split
        next =>
          have h := ReplaceVisitor.visit_same hv _ hrebuilt.wellTyped
          exact ReplaceVisitor.post_same hv (hrebuilt.trans h)
        next => exact ReplaceVisitor.post_same hv hrebuilt
termination_by (e.weight, e.size)
decreasing_by
  all_goals first
    | exact Prod.Lex.left _ _ hlt
    | exact Expr.kid_decreases hk

end Sound

end Xklee
