/-
`AssignmentEvaluator` with its table: `include/klee/util/Assignment.h`, `lib/Expr/ExprEvaluator.cpp`.

`Assignment::evaluate` visits an expression with a new `AssignmentEvaluator`, and
`Assignment::satisfies` visits its constraints with one. Their tables of visited expressions do not
show in the results. What an evaluator returns has the value of the expression, and it is a constant
when all that is read is bound, no read is out of bounds, no divisor is zero and no `NotOptimized`
stands in the expression, which is there to keep what is below it from being folded.
-/
import Xklee.Data.Memo
import Xklee.Solver.Assignment

set_option autoImplicit false

namespace Xklee

/-! ## The evaluator with its table -/

/-- A visit of an evaluator. -/
abbrev EvalM := MemoM Expr (fun _ => Expr)

section Memo

variable (getInitialValue : KArray → ℕ → Expr)

mutual

/-- `ExprEvaluator::visit` with the table of `ExprVisitor`. -/
def ExprEvaluator.visitMemo : Expr → EvalM Expr
  | .Constant c => pure (.Constant c)
  | .NotOptimized e => MemoM.memo (.NotOptimized e) do
      if e.isConstant then return (Expr.NotOptimized e).rebuild
      else return rebuildIfChanged (.NotOptimized e) (.NotOptimized (← ExprEvaluator.visitMemo e))
  | .Read ul index => MemoM.memo (.Read ul index) do
      match ← ExprEvaluator.visitMemo index with
      | .Constant CE => ExprEvaluator.evalReadMemo ul CE.toNat
      | _ =>
          -- the kid is visited once more
          return rebuildIfChanged (.Read ul index) (.Read ul (← ExprEvaluator.visitMemo index))
  | .Select c t f => MemoM.memo (.Select c t f) do
      if c.isConstant && t.isConstant && f.isConstant then return (Expr.Select c t f).rebuild
      else
        let c' ← ExprEvaluator.visitMemo c
        let t' ← ExprEvaluator.visitMemo t
        let f' ← ExprEvaluator.visitMemo f
        return rebuildIfChanged (.Select c t f) (.Select c' t' f')
  | .Concat l r => MemoM.memo (.Concat l r) do
      if l.isConstant && r.isConstant then return (Expr.Concat l r).rebuild
      else
        let l' ← ExprEvaluator.visitMemo l
        let r' ← ExprEvaluator.visitMemo r
        return rebuildIfChanged (.Concat l r) (.Concat l' r')
  | .Extract e off w => MemoM.memo (.Extract e off w) do
      if e.isConstant then return (Expr.Extract e off w).rebuild
      else
        return rebuildIfChanged (.Extract e off w) (.Extract (← ExprEvaluator.visitMemo e) off w)
  | .Cast k e w => MemoM.memo (.Cast k e w) do
      if e.isConstant then return (Expr.Cast k e w).rebuild
      else return rebuildIfChanged (.Cast k e w) (.Cast k (← ExprEvaluator.visitMemo e) w)
  | .Not e => MemoM.memo (.Not e) do
      if e.isConstant then return (Expr.Not e).rebuild
      else return rebuildIfChanged (.Not e) (.Not (← ExprEvaluator.visitMemo e))
  | .Binary k l r => MemoM.memo (.Binary k l r) do
      if l.isConstant && r.isConstant then return (Expr.Binary k l r).rebuild
      else
        let left ← ExprEvaluator.visitMemo l
        let right ← ExprEvaluator.visitMemo r
        if k.isDiv then
          return rebuildIfChanged (.Binary k l r)
            (.Binary k left (if right.isZeroConstant then r else right))
        else return rebuildIfChanged (.Binary k l r) (.Binary k left right)
  | .Cmp k l r => MemoM.memo (.Cmp k l r) do
      if l.isConstant && r.isConstant then return (Expr.Cmp k l r).rebuild
      else
        let l' ← ExprEvaluator.visitMemo l
        let r' ← ExprEvaluator.visitMemo r
        return rebuildIfChanged (.Cmp k l r) (.Cmp k l' r')

/-- `ExprEvaluator::evalRead` with the table. -/
def ExprEvaluator.evalReadMemo : UpdateList → ℕ → EvalM Expr
  | .root array, index =>
      if array.isConstantArray = true ∧ index < array.size then
        pure (.Constant ⟨KArray.range, array.constantValues.getD index 0⟩)
      else pure (getInitialValue array index)
  | .extend i v next, index => do
      match ← ExprEvaluator.visitMemo i with
      | .Constant CE =>
          if CE.toNat = index then ExprEvaluator.visitMemo v
          else ExprEvaluator.evalReadMemo next index
      | _ => return ReadExpr.create (.extend i v next) (ConstantExpr.alloc index KArray.domain)

end

/-- A read of a list goes through what its visits go through. -/
theorem ExprEvaluator.evalReadMemo_returns {ul : UpdateList}
    (h : ∀ k ∈ ul.exprs, MemoM.Returns (ExprEvaluator.visit getInitialValue)
      (ExprEvaluator.visitMemo getInitialValue k) (ExprEvaluator.visit getInitialValue k))
    (index : ℕ) : MemoM.Returns (ExprEvaluator.visit getInitialValue)
      (ExprEvaluator.evalReadMemo getInitialValue ul index)
      (ExprEvaluator.evalRead getInitialValue ul index) := by
  induction ul using UpdateList.nodeInduction with
  | root a =>
    change MemoM.Returns _ (if a.isConstantArray = true ∧ index < a.size then
      pure (.Constant ⟨8, a.constantValues.getD index 0⟩) else pure (getInitialValue a index))
      (if a.isConstantArray = true ∧ index < a.size then
        .Constant ⟨8, a.constantValues.getD index 0⟩ else getInitialValue a index)
    split
    · exact MemoM.returns_pure _
    · exact MemoM.returns_pure _
  | extend i v next ih =>
    rw [ExprEvaluator.evalRead_extend]
    apply MemoM.returns_bind (h i (by simp [UpdateList.exprs]))
    cases ExprEvaluator.visit getInitialValue i with
    | Constant CE =>
      dsimp only
      split
      · exact h v (by simp [UpdateList.exprs])
      · exact ih fun k hk => h k (by simp [UpdateList.exprs, hk])
    | _ => exact MemoM.returns_pure _

/-- The table does not show in the result of a visit. -/
theorem ExprEvaluator.visitMemo_returns (e : Expr) :
    MemoM.Returns (ExprEvaluator.visit getInitialValue)
      (ExprEvaluator.visitMemo getInitialValue e) (ExprEvaluator.visit getInitialValue e) := by
  induction e using Expr.partsInduction with | _ e ih =>
  have ihkids : ∀ k ∈ e.kids, MemoM.Returns (ExprEvaluator.visit getInitialValue)
      (ExprEvaluator.visitMemo getInitialValue k) (ExprEvaluator.visit getInitialValue k) :=
    fun k hk => ih k (e.kids_subset_parts hk)
  cases e with
  | Constant c => exact MemoM.returns_pure _
  | NotOptimized e | Extract e _ _ | Cast _ e _ | Not e =>
    apply MemoM.returns_memo
    dsimp only [ExprEvaluator.visit]
    split
    · exact MemoM.returns_pure _
    · exact MemoM.returns_bind (ihkids e (by simp [Expr.kids])) (MemoM.returns_pure _)
  | Read ul i =>
    apply MemoM.returns_memo
    rw [ExprEvaluator.visit_Read]
    have hi := ihkids i (by simp [Expr.kids])
    apply MemoM.returns_bind hi
    cases hv : ExprEvaluator.visit getInitialValue i with
    | Constant CE =>
      exact ExprEvaluator.evalReadMemo_returns getInitialValue
        (fun k hk => ih k (by simp [Expr.parts, hk])) CE.toNat
    | _ =>
      rw [hv] at hi
      exact MemoM.returns_bind hi (MemoM.returns_pure _)
  | Select c t f =>
    apply MemoM.returns_memo
    dsimp only [ExprEvaluator.visit]
    split
    · exact MemoM.returns_pure _
    · apply MemoM.returns_bind (ihkids c (by simp [Expr.kids]))
      apply MemoM.returns_bind (ihkids t (by simp [Expr.kids]))
      exact MemoM.returns_bind (ihkids f (by simp [Expr.kids])) (MemoM.returns_pure _)
  | Concat l r | Cmp _ l r =>
    apply MemoM.returns_memo
    dsimp only [ExprEvaluator.visit]
    split
    · exact MemoM.returns_pure _
    · apply MemoM.returns_bind (ihkids l (by simp [Expr.kids]))
      exact MemoM.returns_bind (ihkids r (by simp [Expr.kids])) (MemoM.returns_pure _)
  | Binary k l r =>
    apply MemoM.returns_memo
    rw [ExprEvaluator.visit_Binary]
    split
    · exact MemoM.returns_pure _
    · apply MemoM.returns_bind (ihkids l (by simp [Expr.kids]))
      apply MemoM.returns_bind (ihkids r (by simp [Expr.kids]))
      split
      · exact MemoM.returns_pure _
      · exact MemoM.returns_pure _

end Memo

/-! ## Evaluation of what is in bounds -/

theorem Expr.Safe.part {σ : Env} {e k : Expr} (h : e.Safe σ) (hk : k ∈ e.parts) : k.Safe σ := by
  cases e with
  | Constant c => exact absurd hk List.not_mem_nil
  | Read ul i =>
    rcases List.mem_cons.mp hk with rfl | hmem
    · exact h.2.1
    · have hul : ul.Safe σ := h.1
      clear h hk
      induction ul using UpdateList.nodeInduction with
      | root a => exact absurd hmem List.not_mem_nil
      | extend i v next ih =>
        obtain ⟨hi, hv, hnext⟩ := hul
        simp only [UpdateList.exprs, List.mem_cons] at hmem
        rcases hmem with rfl | rfl | hmem
        · exact hi
        · exact hv
        · exact ih hmem hnext
  | NotOptimized e | Extract e _ _ | Cast _ e _ | Not e =>
    obtain rfl := List.mem_singleton.mp hk
    exact h
  | Select c t f =>
    simp only [Expr.parts, Expr.kids, List.mem_cons, List.not_mem_nil, or_false] at hk
    rcases hk with rfl | rfl | rfl
    · exact h.1
    · exact h.2.1
    · exact h.2.2
  | Concat l r | Cmp _ l r =>
    simp only [Expr.parts, Expr.kids, List.mem_cons, List.not_mem_nil, or_false] at hk
    rcases hk with rfl | rfl
    · exact h.1
    · exact h.2
  | Binary _ l r =>
    simp only [Expr.parts, Expr.kids, List.mem_cons, List.not_mem_nil, or_false] at hk
    rcases hk with rfl | rfl
    · exact h.1
    · exact h.2.1

section InBounds

variable {σ : Env} {getInitialValue getInitialValue' : KArray → ℕ → Expr}

variable {e : Expr} {ul : UpdateList}

theorem Expr.mapKids_congr {f f' : Expr → Expr} (h : ∀ k ∈ e.kids, f k = f' k) :
    e.mapKids f = e.mapKids f' := by
  cases e with
  | Constant c => rfl
  | NotOptimized e | Read _ e | Extract e _ _ | Cast _ e _ | Not e =>
    simp only [Expr.mapKids, h e (by simp [Expr.kids])]
  | Select c t f =>
    simp only [Expr.mapKids, h c (by simp [Expr.kids]), h t (by simp [Expr.kids]),
      h f (by simp [Expr.kids])]
  | Concat l r | Binary _ l r | Cmp _ l r =>
    simp only [Expr.mapKids, h l (by simp [Expr.kids]), h r (by simp [Expr.kids])]

theorem Expr.kids_mapKids (f : Expr → Expr) (e : Expr) : (e.mapKids f).kids = e.kids.map f := by
  cases e <;> rfl

theorem ExprEvaluator.evalRead_congr {n : ℕ} (h : ∀ k ∈ ul.exprs,
      ExprEvaluator.visit getInitialValue k = ExprEvaluator.visit getInitialValue' k)
    (hroot : ul.array.isConstantArray = false →
      getInitialValue ul.array n = getInitialValue' ul.array n) (hn : n < ul.array.size) :
    ExprEvaluator.evalRead getInitialValue ul n = ExprEvaluator.evalRead getInitialValue' ul n := by
  induction ul using UpdateList.nodeInduction with
  | root a =>
    change (if a.isConstantArray = true ∧ n < a.size then
      .Constant ⟨8, a.constantValues.getD n 0⟩ else getInitialValue a n) =
      (if a.isConstantArray = true ∧ n < a.size then
      .Constant ⟨8, a.constantValues.getD n 0⟩ else getInitialValue' a n)
    split
    next => rfl
    next hc =>
      apply hroot
      cases hconst : a.isConstantArray with
      | true => exact absurd ⟨hconst, hn⟩ hc
      | false => exact hconst
  | extend i v next ih =>
    have hnext := ih (fun k hk => h k (by simp [UpdateList.exprs, hk])) hroot hn
    rw [ExprEvaluator.evalRead_extend, ExprEvaluator.evalRead_extend,
      h i (by simp [UpdateList.exprs]), h v (by simp [UpdateList.exprs]), hnext]

/-- Reads in bounds ask for no other bytes than those of the arrays. -/
theorem ExprEvaluator.visit_congr (hinit : InitialSound σ getInitialValue') (e : Expr)
    (he : e.WellTyped) (hsafe : e.Safe σ)
    (h : ∀ ul i, .Read ul i ∈ e.deep → ul.array.isConstantArray = false →
      ∀ n < ul.array.size, getInitialValue ul.array n = getInitialValue' ul.array n) :
    ExprEvaluator.visit getInitialValue e = ExprEvaluator.visit getInitialValue' e := by
  induction e using Expr.partsInduction with | _ e ih =>
  have ihparts : ∀ k ∈ e.parts,
      ExprEvaluator.visit getInitialValue k = ExprEvaluator.visit getInitialValue' k :=
    fun k hk => ih k hk (he.part hk) (hsafe.part hk)
      fun ul i hread => h ul i (Expr.deep_trans (Expr.mem_deep_of_part hk) hread)
  have ihkids := fun k hk => ihparts k (e.kids_subset_parts hk)
  rcases e.read_or_div_or_node with ⟨ul, i, rfl⟩ | ⟨k, l, r, rfl, hk⟩ | ⟨hr, hd⟩
  · rw [ExprEvaluator.visit_Read, ExprEvaluator.visit_Read, ihkids i (by simp [Expr.kids])]
    have hi := ExprEvaluator.visit_hasValue hinit i he.2.1
    split
    next CE hCE =>
      -- the index has its value, which is in bounds
      rw [hCE] at hi
      have hindex : CE = i.eval σ := hi.2
      have hlt : CE.toNat < ul.array.size := hindex ▸ hsafe.2.2
      exact ExprEvaluator.evalRead_congr (fun k hk => ihparts k (by simp [Expr.parts, hk]))
        (fun hc => h ul i (Expr.mem_deep_self _) hc _ hlt) hlt
    next => rfl
  · rw [ExprEvaluator.visit_div _ hk, ExprEvaluator.visit_div _ hk,
      ihkids l (by simp [Expr.kids]), ihkids r (by simp [Expr.kids])]
  · rw [ExprEvaluator.visit_node _ hr hd, ExprEvaluator.visit_node _ hr hd,
      Expr.mapKids_congr ihkids]

/-! ## Constant results -/

/-- A node of constants is folded, unless it is a `NotOptimized`. -/
theorem Expr.rebuild_isConstant (hr : ∀ ul i, e ≠ .Read ul i) (hn : ∀ x, e ≠ .NotOptimized x)
    (hk : ∀ k ∈ e.kids, k.isConstant = true) :
    e.rebuild.isConstant = true := by
  cases e with
  | Constant c => rfl
  | NotOptimized e => exact absurd rfl (hn e)
  | Read ul i => exact absurd rfl (hr ul i)
  | Select c t f =>
    obtain ⟨c, rfl⟩ := Expr.eq_Constant_of_isConstant (hk c (by simp [Expr.kids]))
    change (if c.isTrue then t else f).isConstant = true
    split
    · exact hk t (by simp [Expr.kids])
    · exact hk f (by simp [Expr.kids])
  | Extract e off w =>
    obtain ⟨a, rfl⟩ := Expr.eq_Constant_of_isConstant (hk e (by simp [Expr.kids]))
    change (if w = a.width then Expr.Constant a
      else .Constant (ConstantExpr.Extract a off w)).isConstant = true
    split
    · rfl
    · rfl
  | Cast k e w =>
    obtain ⟨a, rfl⟩ := Expr.eq_Constant_of_isConstant (hk e (by simp [Expr.kids]))
    change (if w = a.width then Expr.Constant a
      else if w < a.width then ExtractExpr.create (.Constant a) 0 w
      else .Constant (k.apply a w)).isConstant = true
    split
    next => rfl
    next hw =>
      have hextract : ExtractExpr.create (.Constant a) 0 w
          = if w = a.width then .Constant a else .Constant (ConstantExpr.Extract a 0 w) := rfl
      rw [hextract, if_neg hw]
      split
      · rfl
      · rfl
  | Not e =>
    obtain ⟨a, rfl⟩ := Expr.eq_Constant_of_isConstant (hk e (by simp [Expr.kids]))
    rfl
  | Concat l r =>
    obtain ⟨a, rfl⟩ := Expr.eq_Constant_of_isConstant (hk l (by simp [Expr.kids]))
    obtain ⟨b, rfl⟩ := Expr.eq_Constant_of_isConstant (hk r (by simp [Expr.kids]))
    rfl
  | Binary k l r | Cmp k l r =>
    obtain ⟨a, rfl⟩ := Expr.eq_Constant_of_isConstant (hk l (by simp [Expr.kids]))
    obtain ⟨b, rfl⟩ := Expr.eq_Constant_of_isConstant (hk r (by simp [Expr.kids]))
    cases k <;> rfl

/-- A node that is rebuilt when its kids have become constants. -/
theorem rebuildIfChanged_isConstant {e' : Expr} (hr : ∀ ul i, e' ≠ .Read ul i)
    (hn : ∀ x, e' ≠ .NotOptimized x) (he : e.kids.all Expr.isConstant = false)
    (he' : ∀ k ∈ e'.kids, k.isConstant = true) : (rebuildIfChanged e e').isConstant = true := by
  unfold rebuildIfChanged
  split
  next heq =>
    rw [← heq, List.all_eq_true.mpr he'] at he
    exact absurd he Bool.noConfusion
  next => exact Expr.rebuild_isConstant hr hn he'

theorem ExprEvaluator.evalRead_isConstant (hg : ∀ a n, (getInitialValue a n).isConstant = true)
    (h : ∀ k ∈ ul.exprs, (ExprEvaluator.visit getInitialValue k).isConstant = true) (n : ℕ) :
    (ExprEvaluator.evalRead getInitialValue ul n).isConstant = true := by
  induction ul using UpdateList.nodeInduction with
  | root a =>
    change (if a.isConstantArray = true ∧ n < a.size then
      Expr.Constant ⟨8, a.constantValues.getD n 0⟩ else getInitialValue a n).isConstant = true
    split
    · rfl
    · exact hg a n
  | extend i v next ih =>
    obtain ⟨c, hc⟩ := Expr.eq_Constant_of_isConstant (h i (by simp [UpdateList.exprs]))
    rw [ExprEvaluator.evalRead_extend, hc]
    dsimp only
    split
    · exact h v (by simp [UpdateList.exprs])
    · exact ih fun k hk => h k (by simp [UpdateList.exprs, hk])

/-- Where every byte is known and no divisor is zero, evaluation folds everything. -/
theorem ExprEvaluator.visit_isConstant (hinit : InitialSound σ getInitialValue)
    (hg : ∀ a n, (getInitialValue a n).isConstant = true) (e : Expr) (he : e.WellTyped)
    (hsafe : e.Safe σ) (hn : ∀ x, .NotOptimized x ∉ e.deep) :
    (ExprEvaluator.visit getInitialValue e).isConstant = true := by
  induction e using Expr.partsInduction with | _ e ih =>
  have ihparts : ∀ k ∈ e.parts, (ExprEvaluator.visit getInitialValue k).isConstant = true :=
    fun k hk => ih k hk (he.part hk) (hsafe.part hk)
      fun x hx => hn x (Expr.deep_trans (Expr.mem_deep_of_part hk) hx)
  have ihkids := fun k hk => ihparts k (e.kids_subset_parts hk)
  have hopt : ∀ x, e ≠ .NotOptimized x := fun x hx => hn x (hx ▸ Expr.mem_deep_self e)
  rcases e.read_or_div_or_node with ⟨ul, i, rfl⟩ | ⟨k, l, r, rfl, hk⟩ | ⟨hr, hd⟩
  · obtain ⟨c, hc⟩ := Expr.eq_Constant_of_isConstant (ihkids i (by simp [Expr.kids]))
    rw [ExprEvaluator.visit_Read, hc]
    exact ExprEvaluator.evalRead_isConstant hg (fun k hk => ihparts k (by simp [Expr.parts, hk])) _
  · have hl := ihkids l (by simp [Expr.kids])
    have hr := ihkids r (by simp [Expr.kids])
    -- the divisor has its value, which is not zero
    have hzero : (ExprEvaluator.visit getInitialValue r).isZeroConstant = false := by
      obtain ⟨c, hc⟩ := Expr.eq_Constant_of_isConstant hr
      have hval := (ExprEvaluator.visit_hasValue hinit r he.2.1).2
      rw [hc] at hval
      have hne := hsafe.2.2 hk
      rw [← hval] at hne
      rw [hc]
      change c.isZero = false
      rw [Bool.eq_false_iff]
      intro hz
      apply hne
      rw [Expr.eval_Constant, APInt.toNat, eq_of_beq hz]
      rfl
    rw [ExprEvaluator.visit_div _ hk, hzero]
    split
    next hc => exact Expr.rebuild_isConstant (by simp) (by simp) (List.all_eq_true.mp hc)
    next hc =>
      apply rebuildIfChanged_isConstant (by simp) (by simp) (by simpa using hc)
      intro k hk
      simp only [Bool.false_eq_true, if_false, Expr.kids, List.mem_cons, List.not_mem_nil,
        or_false] at hk
      rcases hk with rfl | rfl
      · exact hl
      · exact hr
  · rw [ExprEvaluator.visit_node _ hr hd]
    split
    next hc => exact Expr.rebuild_isConstant hr hopt (List.all_eq_true.mp hc)
    next hc =>
      apply rebuildIfChanged_isConstant
      · intro ul i h
        cases e with
        | Read ul i => exact hr ul i rfl
        | _ => exact Expr.noConfusion h
      · intro x h
        cases e with
        | NotOptimized e => exact hopt e rfl
        | _ => exact Expr.noConfusion h
      · simpa using hc
      · rw [Expr.kids_mapKids]
        simpa using ihkids

end InBounds

/-! ## Assignments -/

namespace Assignment

/-- `Assignment::evaluate(e)`: a visit with a new `AssignmentEvaluator`. -/
def evaluateMemo (a : Assignment) (e : Expr) : Expr :=
  (ExprEvaluator.visitMemo (fun array index => .Constant ⟨8, a.byte array index⟩) e).run

/-- The loop of `Assignment::satisfies`, whose constraints share a table. -/
def satisfiesLoop (a : Assignment) : List Expr → EvalM Bool
  | [] => return true
  | c :: constraints => do
      let v ← ExprEvaluator.visitMemo (fun array index => .Constant ⟨8, a.byte array index⟩) c
      if !v.isTrue then return false
      else a.satisfiesLoop constraints

/-- `Assignment::satisfies`. -/
def satisfiesMemo (a : Assignment) (constraints : List Expr) : Bool :=
  (a.satisfiesLoop constraints).run

theorem evaluateMemo_eq (a : Assignment) (e : Expr) : a.evaluateMemo e = a.evaluate e :=
  (ExprEvaluator.visitMemo_returns _ e).run_eq

theorem satisfiesLoop_returns (a : Assignment) (constraints : List Expr) :
    MemoM.Returns a.evaluate (a.satisfiesLoop constraints) (a.satisfies constraints) := by
  induction constraints with
  | nil => exact MemoM.returns_pure _
  | cons c constraints ih =>
    have hcons : a.satisfies (c :: constraints)
        = if !(a.evaluate c).isTrue then false else a.satisfies constraints := by
      unfold satisfies
      rw [List.all_cons]
      cases (a.evaluate c).isTrue with
      | true => rfl
      | false => rfl
    rw [hcons]
    have hvisit : MemoM.Returns a.evaluate (ExprEvaluator.visitMemo
        (fun array index => .Constant ⟨8, a.byte array index⟩) c) (a.evaluate c) :=
      ExprEvaluator.visitMemo_returns _ c
    apply MemoM.returns_bind hvisit
    split
    · exact MemoM.returns_pure _
    · exact ih

theorem satisfiesMemo_eq (a : Assignment) (constraints : List Expr) :
    a.satisfiesMemo constraints = a.satisfies constraints :=
  (a.satisfiesLoop_returns constraints).run_eq

/-- Every symbolic array that is read has all its bytes bound, to what `σ` says. -/
def Binds (a : Assignment) (σ : Env) (e : Expr) : Prop :=
  ∀ ul i, .Read ul i ∈ e.deep → ul.array.isSymbolicArray = true →
    a.bindings.lookup ul.array = some ((List.range ul.array.size).map (σ ul.array))

section Binds

variable {a : Assignment} {σ : Env} {e : Expr}

/-- In bounds, the bytes of the arrays are those of `σ`. -/
theorem evaluate_eq_of_binds (he : e.WellTyped) (hb : a.Binds σ e) (hs : e.Safe σ) :
    a.evaluate e = ExprEvaluator.visit (fun array n => .Constant ⟨8, array.initial σ n⟩) e := by
  apply ExprEvaluator.visit_congr
    (fun array n _ _ => denotes_const (by decide) (array.initial σ n)) e he hs
  intro ul i hread hconst n hn
  have hsym : ul.array.isSymbolicArray = true := by
    simpa [KArray.isConstantArray] using hconst
  have hbyte : a.byte ul.array n = σ ul.array n := by
    unfold byte
    rw [hb ul i hread hsym]
    simp [List.getD, hn]
  have hinit : ul.array.initial σ n = σ ul.array n := by
    unfold KArray.initial
    rw [hconst, if_neg Bool.false_ne_true, if_pos hn]
  rw [hbyte, hinit]

/-- Evaluation keeps the value. -/
theorem evaluate_hasValue (he : e.WellTyped) (hb : a.Binds σ e) (hs : e.Safe σ) :
    HasValue σ (a.evaluate e) (e.eval σ) := by
  rw [evaluate_eq_of_binds he hb hs]
  exact ExprEvaluator.visit_hasValue
    (fun array n _ _ => denotes_const (by decide) (array.initial σ n)) e he

/-- Evaluation gives the value, when nothing is kept from being folded. -/
theorem evaluate_eq_constant (he : e.WellTyped) (hb : a.Binds σ e) (hs : e.Safe σ)
    (hn : ∀ x, .NotOptimized x ∉ e.deep) : a.evaluate e = .Constant (e.eval σ) := by
  have hvalue := evaluate_hasValue he hb hs
  have hconst : (a.evaluate e).isConstant = true := by
    rw [evaluate_eq_of_binds he hb hs]
    exact ExprEvaluator.visit_isConstant
      (fun array n _ _ => denotes_const (by decide) (array.initial σ n)) (fun _ _ => rfl) e he hs hn
  obtain ⟨c, hc⟩ := Expr.eq_Constant_of_isConstant hconst
  rw [hc] at hvalue ⊢
  rw [← hvalue.2]
  rfl

end Binds

/-- `Assignment::evaluate` computes the meaning. Take an assignment that binds the arrays of an
expression to the bytes `σ` says, and let every read be in bounds and no divisor zero. What
`evaluate` returns has the value of the expression under `σ`, and it is that value as a constant if
no `NotOptimized` occurs in the expression. Then `satisfies` answers whether every constraint holds
under `σ`. -/
theorem evaluate_meaning (a : Assignment) (σ : Env) :
    (∀ e : Expr, e.WellTyped → a.Binds σ e → e.Safe σ →
      HasValue σ (a.evaluateMemo e) (e.eval σ)
        ∧ ((∀ x, .NotOptimized x ∉ e.deep) → a.evaluateMemo e = .Constant (e.eval σ)))
    ∧ ∀ constraints : List Expr,
        (∀ c ∈ constraints, c.WellTyped ∧ a.Binds σ c ∧ c.Safe σ ∧ ∀ x, .NotOptimized x ∉ c.deep) →
        (a.satisfiesMemo constraints = true ↔ Satisfies σ constraints) := by
  constructor
  · intro e he hb hs
    rw [evaluateMemo_eq]
    exact ⟨evaluate_hasValue he hb hs, evaluate_eq_constant he hb hs⟩
  · intro constraints hcs
    rw [satisfiesMemo_eq, satisfies, List.all_eq_true]
    apply forall₂_congr
    intro c hc
    obtain ⟨hwt, hb, hs, hn⟩ := hcs c hc
    rw [evaluate_eq_constant hwt hb hs hn]
    rfl

/-- The array that a byte is made symbolic with. -/
def rrws : KArray := .symbolic 0 "rrws_arr1" 1

/-- The byte is 7. -/
def byteIsSeven : Expr := .Cmp .Eq (.Constant ⟨8, 7⟩) (.Read (.root rrws) (.Constant ⟨32, 0⟩))

theorem binds_byteIsSeven : (⟨Finmap.singleton rrws [7]⟩ : Assignment).Binds (fun _ _ => 7)
    byteIsSeven := by
  intro ul i hread _
  have hul : ul = .root rrws ∧ i = .Constant ⟨32, 0⟩ := by
    simpa [byteIsSeven, Expr.deep, UpdateList.deep] using hread
  rw [hul.1]
  decide

/-- The byte is found to be 7. -/
theorem evaluate_meaning_seven :
    (⟨Finmap.singleton rrws [7]⟩ : Assignment).evaluateMemo byteIsSeven = .Constant (.ofBool true)
      ∧ (⟨Finmap.singleton rrws [7]⟩ : Assignment).satisfiesMemo [byteIsSeven] = true := by
  have hmeaning := evaluate_meaning ⟨Finmap.singleton rrws [7]⟩ (fun _ _ => 7)
  have hwt : byteIsSeven.WellTyped := by decide
  have hsafe : byteIsSeven.Safe (fun _ _ => 7) := ⟨trivial, trivial, trivial, by decide⟩
  have hn : ∀ x, .NotOptimized x ∉ byteIsSeven.deep := by
    intro x hx
    simp [byteIsSeven, Expr.deep, UpdateList.deep] at hx
  constructor
  · rw [(hmeaning.1 byteIsSeven hwt binds_byteIsSeven hsafe).2 hn]
    decide
  · rw [hmeaning.2 [byteIsSeven] (List.forall_mem_singleton.mpr ⟨hwt, binds_byteIsSeven, hsafe, hn⟩)]
    exact List.forall_mem_singleton.mpr (by decide)

/-- `replaceReadWithSymbolic` adds the constraint under a `NotOptimized`, which keeps it from being
folded, and so from being satisfied. -/
theorem evaluate_notOptimized :
    ∃ (a : Assignment) (σ : Env) (e : Expr), e.IsBool ∧ a.Binds σ e ∧ e.Safe σ
      ∧ (∀ c, a.evaluateMemo e ≠ .Constant c)
      ∧ Satisfies σ [e] ∧ a.satisfiesMemo [e] = false := by
  refine ⟨⟨Finmap.singleton rrws [7]⟩, fun _ _ => 7, .NotOptimized byteIsSeven, by decide, ?_,
    ⟨trivial, trivial, trivial, by decide⟩, ?_, by decide, by decide⟩
  · intro ul i hread
    apply binds_byteIsSeven ul i
    simpa [Expr.deep] using hread
  · intro c hc
    have hconst : ((⟨Finmap.singleton rrws [7]⟩ : Assignment).evaluateMemo
        (.NotOptimized byteIsSeven)).isConstant = false := by decide
    rw [hc] at hconst
    exact absurd hconst Bool.noConfusion

end Assignment

end Xklee
