/-
Partial evaluation: `ExprVisitor::visit` and `ExprEvaluator`.

`ExprVisitor::visit` rebuilds an expression bottom up through the constructors.
`ExprEvaluator` is the visitor that folds constant nodes and resolves reads at
constant indices; what it puts for an initial byte is the virtual method
`getInitialValue`, a parameter here. Its table of visited expressions saves work
and changes no result, so the model has none.

The theorem is that evaluation preserves meaning: under an assignment that
agrees with `getInitialValue` the result has the value of the expression. In
particular a constant result is that value.
-/
import Xklee.Expr.Reads
import Xklee.Expr.RebuildSound

set_option autoImplicit false

namespace Xklee

/-- `e->rebuild(kids)` when a kid has changed, `e` otherwise: the kids of `e'` are
the new ones. -/
def rebuildIfChanged (e e' : Expr) : Expr := if e' = e then e else e'.rebuild

/-- `ConstantExpr::isZero` of an expression that may not be a constant. -/
def Expr.isZeroConstant : Expr → Bool
  | .Constant c => c.isZero
  | _ => false

section ExprEvaluator

variable (getInitialValue : KArray → ℕ → Expr)

mutual

/-- `ExprEvaluator::visit`. Nodes whose kids are all constants are rebuilt at
once, by `visitExpr`; the four divisions go through `protectedDivOperation`,
which keeps a divisor that would become zero. -/
def ExprEvaluator.visit : Expr → Expr
  | .Constant c => .Constant c
  | .NotOptimized e =>
      if e.isConstant then (Expr.NotOptimized e).rebuild
      else rebuildIfChanged (.NotOptimized e) (.NotOptimized (ExprEvaluator.visit e))
  | .Read ul index =>
      match ExprEvaluator.visit index with
      | .Constant CE => ExprEvaluator.evalRead ul CE.toNat
      | v => rebuildIfChanged (.Read ul index) (.Read ul v)
  | .Select c t f =>
      if c.isConstant && t.isConstant && f.isConstant then (Expr.Select c t f).rebuild
      else rebuildIfChanged (.Select c t f)
        (.Select (ExprEvaluator.visit c) (ExprEvaluator.visit t) (ExprEvaluator.visit f))
  | .Concat l r =>
      if l.isConstant && r.isConstant then (Expr.Concat l r).rebuild
      else rebuildIfChanged (.Concat l r) (.Concat (ExprEvaluator.visit l) (ExprEvaluator.visit r))
  | .Extract e off w =>
      if e.isConstant then (Expr.Extract e off w).rebuild
      else rebuildIfChanged (.Extract e off w) (.Extract (ExprEvaluator.visit e) off w)
  | .Cast k e w =>
      if e.isConstant then (Expr.Cast k e w).rebuild
      else rebuildIfChanged (.Cast k e w) (.Cast k (ExprEvaluator.visit e) w)
  | .Not e =>
      if e.isConstant then (Expr.Not e).rebuild
      else rebuildIfChanged (.Not e) (.Not (ExprEvaluator.visit e))
  | .Binary k l r =>
      if l.isConstant && r.isConstant then (Expr.Binary k l r).rebuild
      else if k.isDiv then
        let left := ExprEvaluator.visit l
        let right := ExprEvaluator.visit r
        rebuildIfChanged (.Binary k l r)
          (.Binary k left (if right.isZeroConstant then r else right))
      else rebuildIfChanged (.Binary k l r)
        (.Binary k (ExprEvaluator.visit l) (ExprEvaluator.visit r))
  | .Cmp k l r =>
      if l.isConstant && r.isConstant then (Expr.Cmp k l r).rebuild
      else rebuildIfChanged (.Cmp k l r) (.Cmp k (ExprEvaluator.visit l) (ExprEvaluator.visit r))

/-- `ExprEvaluator::evalRead`. -/
def ExprEvaluator.evalRead : UpdateList → ℕ → Expr
  | .root array, index =>
      if array.isConstantArray = true ∧ index < array.size then
        .Constant ⟨KArray.range, array.constantValues.getD index 0⟩
      else getInitialValue array index
  | .extend i v next, index =>
      match ExprEvaluator.visit i with
      | .Constant CE =>
          if CE.toNat = index then ExprEvaluator.visit v else ExprEvaluator.evalRead next index
      | _ => ReadExpr.create (.extend i v next) (ConstantExpr.alloc index KArray.domain)

end

end ExprEvaluator

/-! ## Evaluation preserves meaning -/

section Sound

variable {σ : Env} {getInitialValue : KArray → ℕ → Expr}

variable {e e' k : Expr} {f : Expr → Expr}

theorem rebuildIfChanged_hasValue {a : APInt} (he : HasValue σ e a) (he' : HasValue σ e' a) :
    HasValue σ (rebuildIfChanged e e') a := by
  rw [rebuildIfChanged]
  split
  · exact he
  · have h := Expr.rebuild_hasValue (σ := σ) he'.1.rebuildOk
    rwa [he'.2] at h

theorem rebuild_hasValue_self (he : e.WellTyped) :
    HasValue σ e.rebuild (e.eval σ) := Expr.rebuild_hasValue he.rebuildOk

/-! ### Kids of the same value -/

/-- The node with its kids replaced; the update list of a read stays. -/
def Expr.mapKids (f : Expr → Expr) : Expr → Expr
  | .Constant c => .Constant c
  | .NotOptimized e => .NotOptimized (f e)
  | .Read ul i => .Read ul (f i)
  | .Select c t e => .Select (f c) (f t) (f e)
  | .Concat l r => .Concat (f l) (f r)
  | .Extract e off w => .Extract (f e) off w
  | .Cast k e w => .Cast k (f e) w
  | .Not e => .Not (f e)
  | .Binary k l r => .Binary k (f l) (f r)
  | .Cmp k l r => .Cmp k (f l) (f r)

theorem HasValue.width_of_eval (h : HasValue σ e' (e.eval σ)) (he : e.WellTyped) :
    e'.width = e.width := by
  rw [h.width_eq, he.eval_width]

theorem hasValue_Binary {k : BinaryKind} {l r l' r' : Expr} (he : (Expr.Binary k l r).WellTyped)
    (hl : HasValue σ l' (l.eval σ)) (hr : HasValue σ r' (r.eval σ)) :
    HasValue σ (.Binary k l' r') ((Expr.Binary k l r).eval σ) := by
  obtain ⟨hwl, hwr, hw⟩ := he
  refine ⟨⟨hl.1, hr.1, ?_⟩, ?_⟩
  · rw [hl.width_of_eval hwl, hr.width_of_eval hwr, hw]
  · rw [Expr.eval_Binary, Expr.eval_Binary, hl.2, hr.2]

/-- A node stays well typed, with its width, when its kids are replaced by
expressions of the same widths. -/
theorem Expr.mapKids_typed (he : e.WellTyped)
    (hf : ∀ k ∈ e.kids, k.WellTyped → (f k).WellTyped ∧ (f k).width = k.width) :
    (e.mapKids f).WellTyped ∧ (e.mapKids f).width = e.width := by
  cases e with
  | Constant c => exact ⟨he, rfl⟩
  | NotOptimized e => exact hf e List.mem_cons_self he
  | Read ul i =>
    obtain ⟨hul, hi, hw⟩ := he
    have h := hf i List.mem_cons_self hi
    exact ⟨⟨hul, h.1, h.2.trans hw⟩, rfl⟩
  | Select c t e =>
    obtain ⟨hc, ht, he, hcw, hw⟩ := he
    have h1 := hf c (by simp [Expr.kids]) hc
    have h2 := hf t (by simp [Expr.kids]) ht
    have h3 := hf e (by simp [Expr.kids]) he
    exact ⟨⟨h1.1, h2.1, h3.1, h1.2.trans hcw, by rw [h2.2, h3.2, hw]⟩, h2.2⟩
  | Concat l r =>
    have h1 := hf l (by simp [Expr.kids]) he.1
    have h2 := hf r (by simp [Expr.kids]) he.2
    refine ⟨⟨h1.1, h2.1⟩, ?_⟩
    change (f l).width + (f r).width = l.width + r.width
    rw [h1.2, h2.2]
  | Extract e off w =>
    obtain ⟨he, hw, hle⟩ := he
    have h := hf e List.mem_cons_self he
    exact ⟨⟨h.1, hw, h.2.symm ▸ hle⟩, rfl⟩
  | Cast k e w =>
    obtain ⟨he, hw⟩ := he
    have h := hf e List.mem_cons_self he
    exact ⟨⟨h.1, h.2.symm ▸ hw⟩, rfl⟩
  | Not e => exact hf e List.mem_cons_self he
  | Binary k l r | Cmp k l r =>
    obtain ⟨hl, hr, hw⟩ := he
    have h1 := hf l (by simp [Expr.kids]) hl
    have h2 := hf r (by simp [Expr.kids]) hr
    refine ⟨⟨h1.1, h2.1, by rw [h1.2, h2.2, hw]⟩, ?_⟩
    first
      | exact h1.2
      | rfl

/-- A node keeps its value when its kids are replaced by expressions of the same
values. -/
theorem Expr.mapKids_eval (hf : ∀ k ∈ e.kids, (f k).eval σ = k.eval σ) :
    (e.mapKids f).eval σ = e.eval σ := by
  cases e with
  | Constant c => rfl
  | NotOptimized e => exact hf e List.mem_cons_self
  | Read ul i | Extract i _ _ | Cast _ i _ | Not i =>
    have h := hf i List.mem_cons_self
    simp only [Expr.mapKids, Expr.eval_Read, Expr.eval_Extract, Expr.eval_Cast, Expr.eval_Not, h]
  | Select c t e =>
    have h1 := hf c (by simp [Expr.kids])
    have h2 := hf t (by simp [Expr.kids])
    have h3 := hf e (by simp [Expr.kids])
    simp only [Expr.mapKids, Expr.eval_Select, h1, h2, h3]
  | Concat l r | Binary _ l r | Cmp _ l r =>
    have h1 := hf l (by simp [Expr.kids])
    have h2 := hf r (by simp [Expr.kids])
    simp only [Expr.mapKids, Expr.eval_Concat, Expr.eval_Binary, Expr.eval_Cmp, h1, h2]

theorem Expr.mem_kids_wellTyped (he : e.WellTyped) (hk : k ∈ e.kids) :
    k.WellTyped := by
  cases e with
  | Constant c => exact absurd hk List.not_mem_nil
  | NotOptimized e | Not e =>
    obtain rfl := List.mem_singleton.mp hk
    exact he
  | Extract e off w | Cast _ e w =>
    obtain rfl := List.mem_singleton.mp hk
    exact he.1
  | Read ul i =>
    obtain rfl := List.mem_singleton.mp hk
    exact he.2.1
  | Select c t f =>
    simp only [Expr.kids, List.mem_cons, List.not_mem_nil, or_false] at hk
    rcases hk with rfl | rfl | rfl
    · exact he.1
    · exact he.2.1
    · exact he.2.2.1
  | Concat l r =>
    simp only [Expr.kids, List.mem_cons, List.not_mem_nil, or_false] at hk
    rcases hk with rfl | rfl
    · exact he.1
    · exact he.2
  | Binary c l r | Cmp c l r =>
    simp only [Expr.kids, List.mem_cons, List.not_mem_nil, or_false] at hk
    rcases hk with rfl | rfl
    · exact he.1
    · exact he.2.1

/-- A node whose kids are replaced by expressions of the same values has the same
value. -/
theorem Expr.mapKids_hasValue (he : e.WellTyped)
    (hf : ∀ k ∈ e.kids, k.WellTyped → HasValue σ (f k) (k.eval σ)) :
    HasValue σ (e.mapKids f) (e.eval σ) := by
  refine ⟨(Expr.mapKids_typed he ?_).1, Expr.mapKids_eval ?_⟩
  · intro k hk hwk
    exact ⟨(hf k hk hwk).1, (hf k hk hwk).width_of_eval hwk⟩
  · intro k hk
    exact (hf k hk (Expr.mem_kids_wellTyped he hk)).2

theorem Expr.WellTyped.part (he : e.WellTyped) (hk : k ∈ e.parts) :
    k.WellTyped := by
  cases e with
  | Read ul i =>
    rcases List.mem_cons.mp hk with rfl | hmem
    · exact he.2.1
    · have hul : ul.WellTyped := he.1
      clear he hk
      induction ul using UpdateList.nodeInduction with
      | root a => simp [UpdateList.exprs] at hmem
      | extend i v next ih =>
        obtain ⟨hi, -, hv, -, hnext⟩ := hul
        simp only [UpdateList.exprs, List.mem_cons] at hmem
        rcases hmem with rfl | rfl | hmem
        · exact hi
        · exact hv
        · exact ih hmem hnext
  | _ => exact Expr.mem_kids_wellTyped he hk

/-! ### The visitor -/

/-- `getInitialValue` gives every byte the value it has under the assignment. It
is not asked for the elements of a constant array, and indices have 32 bits. -/
def InitialSound (σ : Env) (getInitialValue : KArray → ℕ → Expr) : Prop :=
  ∀ a n, n < 2 ^ KArray.domain → ¬(a.isConstantArray = true ∧ n < a.size) →
    Denotes σ (getInitialValue a n) (a.initial σ n)

/-- Reads and divisions are the nodes that are not merely rebuilt. -/
theorem Expr.read_or_div_or_node (e : Expr) :
    (∃ ul i, e = .Read ul i) ∨ (∃ k l r, e = .Binary k l r ∧ k.isDiv = true)
      ∨ ((∀ ul i, e ≠ .Read ul i) ∧ ∀ k l r, e = .Binary k l r → k.isDiv = false) := by
  by_cases hr : ∃ ul i, e = .Read ul i
  · exact .inl hr
  · by_cases hd : ∃ k l r, e = .Binary k l r ∧ k.isDiv = true
    · exact .inr (.inl hd)
    · refine .inr (.inr ⟨fun ul i h => hr ⟨ul, i, h⟩, fun k l r hkl => ?_⟩)
      cases hk : k.isDiv with
      | true => exact absurd ⟨k, l, r, hkl, hk⟩ hd
      | false => rfl

section Nodes

variable (getInitialValue)

theorem ExprEvaluator.visit_Read (ul : UpdateList) (i : Expr) :
    ExprEvaluator.visit getInitialValue (.Read ul i)
      = match ExprEvaluator.visit getInitialValue i with
        | .Constant CE => ExprEvaluator.evalRead getInitialValue ul CE.toNat
        | v => rebuildIfChanged (.Read ul i) (.Read ul v) := rfl

theorem ExprEvaluator.visit_Binary (k : BinaryKind) (l r : Expr) :
    ExprEvaluator.visit getInitialValue (.Binary k l r)
      = if l.isConstant && r.isConstant then (Expr.Binary k l r).rebuild
        else if k.isDiv then
          rebuildIfChanged (.Binary k l r) (.Binary k (ExprEvaluator.visit getInitialValue l)
            (if (ExprEvaluator.visit getInitialValue r).isZeroConstant then r
              else ExprEvaluator.visit getInitialValue r))
        else rebuildIfChanged (.Binary k l r) (.Binary k
          (ExprEvaluator.visit getInitialValue l) (ExprEvaluator.visit getInitialValue r)) := rfl

theorem ExprEvaluator.evalRead_extend (i v : Expr) (next : UpdateList) (index : ℕ) :
    ExprEvaluator.evalRead getInitialValue (.extend i v next) index
      = match ExprEvaluator.visit getInitialValue i with
        | .Constant CE =>
            if CE.toNat = index then ExprEvaluator.visit getInitialValue v
            else ExprEvaluator.evalRead getInitialValue next index
        | _ => ReadExpr.create (.extend i v next) (ConstantExpr.alloc index KArray.domain) := rfl

/-- A node that is not a read is rebuilt at once when all its kids are constants. Otherwise its kids
are visited, and it is rebuilt with them, unless it is a division. -/
theorem ExprEvaluator.visit_node {e : Expr} (hr : ∀ ul i, e ≠ .Read ul i)
    (hd : ∀ k l r, e = .Binary k l r → k.isDiv = false) :
    ExprEvaluator.visit getInitialValue e =
      if e.kids.all Expr.isConstant then e.rebuild
      else rebuildIfChanged e (e.mapKids (ExprEvaluator.visit getInitialValue)) := by
  cases e with
  | Constant c => rfl
  | Read ul i => exact absurd rfl (hr ul i)
  | NotOptimized e | Extract e _ _ | Cast _ e _ | Not e =>
    simp only [Expr.kids, List.all_cons, List.all_nil, Bool.and_true]
    rfl
  | Select c t f =>
    simp only [Expr.kids, List.all_cons, List.all_nil, Bool.and_true, ← Bool.and_assoc]
    rfl
  | Concat l r | Cmp _ l r =>
    simp only [Expr.kids, List.all_cons, List.all_nil, Bool.and_true]
    rfl
  | Binary k l r =>
    simp only [ExprEvaluator.visit_Binary, hd k l r rfl, Bool.false_eq_true, if_false, Expr.kids,
      List.all_cons, List.all_nil, Bool.and_true]
    rfl

/-- In a division, a divisor that would become zero stays as it is. -/
theorem ExprEvaluator.visit_div {k : BinaryKind} (hk : k.isDiv = true) (l r : Expr) :
    ExprEvaluator.visit getInitialValue (.Binary k l r) =
      if (Expr.Binary k l r).kids.all Expr.isConstant then (Expr.Binary k l r).rebuild
      else rebuildIfChanged (.Binary k l r) (.Binary k (ExprEvaluator.visit getInitialValue l)
        (if (ExprEvaluator.visit getInitialValue r).isZeroConstant then r
          else ExprEvaluator.visit getInitialValue r)) := by
  simp only [ExprEvaluator.visit_Binary, hk, if_true, Expr.kids, List.all_cons, List.all_nil,
    Bool.and_true]

end Nodes

/-- `evalRead` reads the byte at the index, when visiting keeps the values of the
expressions in the update list. -/
theorem ExprEvaluator.evalRead_denotes (hinit : InitialSound σ getInitialValue) {ul : UpdateList}
    (hul : ul.WellTyped) (ih : ∀ k ∈ ul.exprs, k.WellTyped →
      HasValue σ (ExprEvaluator.visit getInitialValue k) (k.eval σ)) (j : BitVec 32) :
    Denotes σ (ExprEvaluator.evalRead getInitialValue ul j.toNat) (ul.read σ j.toNat) := by
  induction ul using UpdateList.nodeInduction with
  | root a =>
    change Denotes σ (if a.isConstantArray = true ∧ j.toNat < a.size then
      .Constant ⟨8, a.constantValues.getD j.toNat 0⟩ else getInitialValue a j.toNat) _
    split
    next h =>
      rw [UpdateList.read_root, KArray.initial, if_pos h.1]
      exact denotes_const (by omega) _
    next h => exact hinit a j.toNat j.isLt h
  | extend i v next ihn =>
    obtain ⟨hi, hi32, hv, hv8, hnext⟩ := hul
    have hvi := ih i (by simp [UpdateList.exprs]) hi
    have hvv := ih v (by simp [UpdateList.exprs]) hv
    obtain ⟨x, hx⟩ := hv.denotes (σ := σ) hv8
    have hrest := ihn hnext (fun k hk => ih k (by simp [UpdateList.exprs, hk]))
    rw [ExprEvaluator.evalRead_extend]
    split
    next CE hCE =>
      rw [hCE] at hvi
      have hval : CE = i.eval σ := hvi.2
      rw [UpdateList.read_extend, ← hval]
      split
      next =>
        rw [hx.2] at hvv ⊢
        have hvx : Denotes σ (ExprEvaluator.visit getInitialValue v) x := hvv
        simpa using hvx
      next => exact hrest
    next =>
      -- the index of the update is unknown: a read at this version
      have hindex : Denotes σ (ConstantExpr.alloc j.toNat 32) j := by
        have h := denotes_alloc (σ := σ) (v := j.toNat) (show 0 < 32 by decide)
        rwa [BitVec.ofNat_toNat, BitVec.setWidth_eq] at h
      exact ReadExpr.create_denotes ⟨hi, hi32, hv, hv8, hnext⟩ hindex

/-- Evaluation preserves meaning. -/
theorem ExprEvaluator.visit_hasValue (hinit : InitialSound σ getInitialValue) (e : Expr)
    (he : e.WellTyped) : HasValue σ (ExprEvaluator.visit getInitialValue e) (e.eval σ) := by
  induction e using Expr.partsInduction with | _ e ih =>
  have ihkids : ∀ k ∈ e.kids, k.WellTyped →
      HasValue σ (ExprEvaluator.visit getInitialValue k) (k.eval σ) :=
    fun k hk hwk => ih k (e.kids_subset_parts hk) hwk
  have hself : HasValue σ e (e.eval σ) := ⟨he, rfl⟩
  rcases e.read_or_div_or_node with ⟨ul, i, rfl⟩ | ⟨k, l, r, rfl, hk⟩ | ⟨hr, hd⟩
  · -- a read
    obtain ⟨j, hj⟩ := (he.2.1 : i.WellTyped).denotes (σ := σ) he.2.2
    have hi := ihkids i List.mem_cons_self he.2.1
    rw [ExprEvaluator.visit_Read]
    split
    next CE hCE =>
      rw [hCE] at hi
      obtain rfl : CE = ⟨32, j⟩ := hi.2.trans hj.2
      rw [Expr.eval_Read, hj.2]
      exact ExprEvaluator.evalRead_denotes hinit he.1
        (fun k hk => ih k (by simp [Expr.parts, hk])) j
    next => exact rebuildIfChanged_hasValue hself (Expr.mapKids_hasValue he ihkids)
  · -- a division
    have hl := ihkids l (by simp [Expr.kids]) he.1
    have hr := ihkids r (by simp [Expr.kids]) he.2.1
    rw [ExprEvaluator.visit_div getInitialValue hk]
    split
    next => exact rebuild_hasValue_self he
    next =>
      refine rebuildIfChanged_hasValue hself (hasValue_Binary he hl ?_)
      split
      · exact ⟨he.2.1, rfl⟩
      · exact hr
  · rw [ExprEvaluator.visit_node getInitialValue hr hd]
    split
    · exact rebuild_hasValue_self he
    · exact rebuildIfChanged_hasValue hself (Expr.mapKids_hasValue he ihkids)

/-- A constant result of evaluation is the value. -/
theorem ExprEvaluator.eq_eval_of_constant (hinit : InitialSound σ getInitialValue)
    (he : e.WellTyped) {c : APInt} (h : ExprEvaluator.visit getInitialValue e = .Constant c) :
    c = e.eval σ := by
  have hv := ExprEvaluator.visit_hasValue hinit e he
  rw [h] at hv
  exact hv.2

end Sound

end Xklee
