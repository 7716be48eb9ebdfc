/-
The table of `ExprVisitor`: `lib/Expr/ExprVisitor.cpp`.

`ExprVisitor::visit` keeps what it has visited in the table `visited`, and looks there first. The
table lives as long as the visitor, and the visits of kids and of rebuilt nodes go through it as well.
`ReplaceVisitor.visitMemo` is the visit with the table. It returns what the visit without the table
returns, so that what is proved of the one holds of the other.
-/
import Xklee.Data.Memo
import Xklee.Expr.Constraints

set_option autoImplicit false

namespace Xklee

/-! ## Visiting the kids -/

/-- A visit: the table has, for each expression, what has come of it. -/
abbrev VisitM := MemoM Expr (fun e => {e' : Expr // Lighter e e'})

/-- A node whose kids have been visited: unchanged, or lighter when it is rebuilt. -/
abbrev Expr.Visited (e : Expr) := {e' : Expr // e' = e ∨ e'.rebuild.weight < e.weight}

section Visited

variable {c c' t t' f f' l l' r r' : Expr}

theorem Expr.visited_of_kidsWeight {e e' : Expr} (h : e' = e ∨ e'.kidsWeight < e.weight) :
    e' = e ∨ e'.rebuild.weight < e.weight := by
  rcases h with h | h
  · exact .inl h
  · exact .inr (Nat.lt_of_le_of_lt (Expr.rebuild_weight e') h)

theorem Lighter.visited₁ (h : Lighter l l') (node : Expr → Expr)
    (hlt : l'.weight < l.weight → (node l').kidsWeight < (node l).weight) :
    node l' = node l ∨ (node l').rebuild.weight < (node l).weight := by
  apply Expr.visited_of_kidsWeight
  rcases h with rfl | h
  · exact .inl rfl
  · exact .inr (hlt h)

theorem Lighter.visited₂ (hl : Lighter l l') (hr : Lighter r r') (node : Expr → Expr → Expr)
    (hlt : l'.weight + r'.weight < l.weight + r.weight →
      (node l' r').kidsWeight < (node l r).weight) :
    node l' r' = node l r ∨ (node l' r').rebuild.weight < (node l r).weight := by
  apply Expr.visited_of_kidsWeight
  have hle := hr.weight_le
  rcases hl with rfl | hl
  · rcases hr with rfl | hr
    · exact .inl rfl
    · exact .inr (hlt (by omega))
  · exact .inr (hlt (by omega))

theorem Lighter.visited₃ (hc : Lighter c c') (ht : Lighter t t') (hf : Lighter f f')
    (node : Expr → Expr → Expr → Expr)
    (hlt : c'.weight + t'.weight + f'.weight < c.weight + t.weight + f.weight →
      (node c' t' f').kidsWeight < (node c t f).weight) :
    node c' t' f' = node c t f ∨ (node c' t' f').rebuild.weight < (node c t f).weight := by
  apply Expr.visited_of_kidsWeight
  have htle := ht.weight_le
  have hfle := hf.weight_le
  rcases hc with rfl | hc
  · rcases ht with rfl | ht
    · rcases hf with rfl | hf
      · exact .inl rfl
      · exact .inr (hlt (by omega))
    · exact .inr (hlt (by omega))
  · exact .inr (hlt (by omega))

end Visited

section Kids

variable (a b c : Expr)

theorem mem_left : a ∈ [a, b] := List.mem_cons_self

theorem mem_right : b ∈ [a, b] := List.mem_cons_of_mem _ List.mem_cons_self

theorem mem_first : a ∈ [a, b, c] := List.mem_cons_self

theorem mem_second : b ∈ [a, b, c] := List.mem_cons_of_mem _ (mem_left b c)

theorem mem_third : c ∈ [a, b, c] := List.mem_cons_of_mem _ (mem_right b c)

end Kids

/-- The kids of a node, visited in their order. -/
def Expr.visitKids : (e : Expr) →
    ((k : Expr) → k ∈ e.kids → VisitM {k' : Expr // Lighter k k'}) → VisitM e.Visited
  | .Constant c, _ => pure ⟨.Constant c, .inl rfl⟩
  | .NotOptimized e, visit => do
      let e' ← visit e (List.mem_singleton_self e)
      return ⟨.NotOptimized e'.1, e'.2.visited₁ _ (by simp [Expr.kidsWeight])⟩
  | .Read ul i, visit => do
      let i' ← visit i (List.mem_singleton_self i)
      return ⟨.Read ul i'.1, i'.2.visited₁ _ (by simp [Expr.kidsWeight])⟩
  | .Select c t f, visit => do
      let c' ← visit c (mem_first c t f)
      let t' ← visit t (mem_second c t f)
      let f' ← visit f (mem_third c t f)
      return ⟨.Select c'.1 t'.1 f'.1, c'.2.visited₃ t'.2 f'.2 _ lt_max_of_lt_right⟩
  | .Concat l r, visit => do
      let l' ← visit l (mem_left l r)
      let r' ← visit r (mem_right l r)
      return ⟨.Concat l'.1 r'.1, l'.2.visited₂ r'.2 _ lt_max_of_lt_right⟩
  | .Extract e off w, visit => do
      let e' ← visit e (List.mem_singleton_self e)
      return ⟨.Extract e'.1 off w,
        e'.2.visited₁ (fun e => .Extract e off w) lt_max_of_lt_right⟩
  | .Cast k e w, visit => do
      let e' ← visit e (List.mem_singleton_self e)
      return ⟨.Cast k e'.1 w, e'.2.visited₁ (fun e => .Cast k e w) lt_max_of_lt_right⟩
  | .Not e, visit => do
      let e' ← visit e (List.mem_singleton_self e)
      return ⟨.Not e'.1, e'.2.visited₁ _ lt_max_of_lt_right⟩
  | .Binary k l r, visit => do
      let l' ← visit l (mem_left l r)
      let r' ← visit r (mem_right l r)
      return ⟨.Binary k l'.1 r'.1, l'.2.visited₂ r'.2 _ lt_max_of_lt_right⟩
  | .Cmp k l r, visit => do
      let l' ← visit l (mem_left l r)
      let r' ← visit r (mem_right l r)
      return ⟨.Cmp k l'.1 r'.1, l'.2.visited₂ r'.2 _ lt_max_of_lt_right⟩

/-- When the visits of the kids compute a function, the kids are mapped by it. -/
theorem Expr.visitKids_returns {f : (e : Expr) → {e' : Expr // Lighter e e'}} (e : Expr)
    {visit : (k : Expr) → k ∈ e.kids → VisitM {k' : Expr // Lighter k k'}}
    (hvisit : ∀ k hk, MemoM.Returns f (visit k hk) (f k)) :
    ∃ h, MemoM.Returns f (e.visitKids visit) ⟨e.mapKidsMem fun k _ => (f k).1, h⟩ := by
  cases e with
  | Constant c => exact ⟨_, MemoM.returns_pure _⟩
  | NotOptimized e | Read _ e | Extract e _ _ | Cast _ e _ | Not e =>
    exact ⟨_, MemoM.returns_bind (hvisit e (by simp [Expr.kids])) (MemoM.returns_pure _)⟩
  | Select c t f =>
    exact ⟨_, MemoM.returns_bind (hvisit c (by simp [Expr.kids]))
      (MemoM.returns_bind (hvisit t (by simp [Expr.kids]))
        (MemoM.returns_bind (hvisit f (by simp [Expr.kids])) (MemoM.returns_pure _)))⟩
  | Concat l r | Binary _ l r | Cmp _ l r =>
    exact ⟨_, MemoM.returns_bind (hvisit l (by simp [Expr.kids]))
      (MemoM.returns_bind (hvisit r (by simp [Expr.kids])) (MemoM.returns_pure _))⟩

/-! ## Visiting with the table -/

namespace ReplaceVisitor

/-- `ExprVisitor::visit` with its table. -/
def visitMemo (v : ReplaceVisitor) (e : Expr) : VisitM {e' : Expr // Lighter e e'} :=
  if hc : e.isConstant = true then pure ⟨e, .inl rfl⟩
  else
    MemoM.memo e
      (match h : v.visitExpr e with
      | some d => pure ⟨d, .inr (v.visitExpr_lt e d (by simpa using hc) h)⟩
      | none => do
          let kids ← e.visitKids (fun k _ => visitMemo v k)
          if hne : kids.1 = e then pure (v.post ⟨e, .inl rfl⟩)
          else
            have hlt := kids.2.resolve_left hne
            if v.recursive then do
              let r ← visitMemo v kids.1.rebuild
              pure (v.post ⟨r.1, .inr (Nat.lt_of_le_of_lt r.2.weight_le hlt)⟩)
            else pure (v.post ⟨kids.1.rebuild, .inr hlt⟩))
termination_by (e.weight, e.size)
decreasing_by
  all_goals first
    | exact Prod.Lex.left _ _ hlt
    | exact Expr.kid_decreases (by assumption)

/-! ### The visit without the table, branch by branch -/

section Branches

variable {v : ReplaceVisitor} {e : Expr}

theorem visit_constant (hc : e.isConstant = true) : v.visit e = ⟨e, .inl rfl⟩ := by
  rw [visit, dif_pos hc]

theorem visit_changed (hc : ¬e.isConstant = true) {d : Expr} (hd : v.visitExpr e = some d) :
    (v.visit e).1 = d := by
  rw [visit, dif_neg hc]
  split
  next d' hd' => exact Option.some.inj (hd'.symm.trans hd)
  next hd' => exact absurd (hd'.symm.trans hd) (Option.some_ne_none d).symm

theorem visit_children (hc : ¬e.isConstant = true) (hd : v.visitExpr e = none) (kids : e.Visited)
    (hkids : kids.1 = e.mapKidsMem fun k _ => (v.visit k).1) :
    v.visit e =
      if hne : kids.1 = e then v.post ⟨e, .inl rfl⟩
      else
        have hlt := kids.2.resolve_left hne
        if v.recursive then
          v.post ⟨(v.visit kids.1.rebuild).1,
            .inr (Nat.lt_of_le_of_lt (v.visit kids.1.rebuild).2.weight_le hlt)⟩
        else v.post ⟨kids.1.rebuild, .inr hlt⟩ := by
  obtain ⟨kids, h⟩ := kids
  subst hkids
  rw [visit, dif_neg hc]
  split
  next d hd' => exact absurd (hd.symm.trans hd') (Option.some_ne_none d).symm
  next => rfl

end Branches

/-- The table does not show: a visit with it returns what a visit without it returns. -/
theorem visitMemo_returns (v : ReplaceVisitor) (e : Expr) :
    MemoM.Returns v.visit (v.visitMemo e) (v.visit e) := by
  rw [visitMemo]
  split
  next hc =>
    rw [visit_constant hc]
    exact MemoM.returns_pure _
  next hc =>
    apply MemoM.returns_memo
    split
    next d hd =>
      have hvisit : v.visit e = ⟨d, .inr (v.visitExpr_lt e d (by simpa using hc) hd)⟩ :=
        Subtype.ext (visit_changed hc hd)
      rw [hvisit]
      exact MemoM.returns_pure _
    next hd =>
      obtain ⟨h, hkids⟩ := e.visitKids_returns fun k hk => v.visitMemo_returns k
      apply MemoM.returns_bind hkids
      rw [visit_children hc hd ⟨_, h⟩ rfl]
      split
      next => exact MemoM.returns_pure _
      next hne =>
        have hlt := h.resolve_left hne
        dsimp only
        split
        next => exact MemoM.returns_bind (v.visitMemo_returns _) (MemoM.returns_pure _)
        next => exact MemoM.returns_pure _
termination_by (e.weight, e.size)
decreasing_by
  all_goals first
    | exact Prod.Lex.left _ _ hlt
    | exact Expr.kid_decreases hk

end ReplaceVisitor

/-! ## Simplification -/

namespace ConstraintManager

/-- `ConstraintManager::simplifyExpr` with the table of its visitor. -/
def simplifyExprMemo (constraints : List Expr) (e : Expr) : Expr :=
  if e.isConstant then e
  else ((ExprReplaceVisitor2 (constraints.map equality)).visitMemo e).run.1

theorem simplifyExprMemo_eq (constraints : List Expr) (e : Expr) :
    simplifyExprMemo constraints e = simplifyExpr constraints e := by
  unfold simplifyExprMemo simplifyExpr
  rw [(ReplaceVisitor.visitMemo_returns _ e).run_eq]

/-- `simplifyExpr` is sound. Under every assignment that satisfies the constraints, what it returns
has the value of the expression it was given; it is well typed, and it has the same width. -/
theorem simplifyExpr_sound (constraints : List Expr) (hcs : ∀ c ∈ constraints, c.IsBool) (e : Expr)
    (he : e.WellTyped) :
    (simplifyExprMemo constraints e).WellTyped
      ∧ (simplifyExprMemo constraints e).width = e.width
      ∧ ∀ σ, Satisfies σ constraints → (simplifyExprMemo constraints e).eval σ = e.eval σ := by
  rw [simplifyExprMemo_eq]
  have hsame := simplifyExpr_same hcs he
  exact ⟨hsame.wellTyped, hsame.width, hsame.eval⟩

/-- One more than a byte that is 7, where the byte is replaced by 7. -/
theorem simplifyExpr_sound_byte :
    (simplifyExprMemo [.Cmp .Eq (.Constant ⟨8, 7⟩) firstByte]
        (.Binary .Add (.Constant ⟨8, 1⟩) firstByte)).eval (fun _ _ => 7) = ⟨8, 8⟩ := by
  have hbool : (Expr.Cmp .Eq (.Constant ⟨8, 7⟩) firstByte).IsBool := by decide
  have hsound := simplifyExpr_sound [.Cmp .Eq (.Constant ⟨8, 7⟩) firstByte]
    (List.forall_mem_singleton.mpr hbool) (.Binary .Add (.Constant ⟨8, 1⟩) firstByte) (by decide)
  rw [hsound.2.2 (fun _ _ => 7) (List.forall_mem_singleton.mpr (by decide))]
  decide

end ConstraintManager

end Xklee
