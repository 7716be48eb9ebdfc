/-
The solver as the executor sees it: `Solver` of `lib/Solver/Solver.cpp` and
`lib/Core/TimingSolver.cpp`.

`Solver` answers queries about constants itself and passes the others on to its
`SolverImpl`. `TimingSolver` takes the constraints from a state and simplifies
the expression with them first. Timing, statistics and the seeds of `useSeeds`,
which no caller here sets, are left out.
-/
import Xklee.Expr.Constraints

set_option autoImplicit false

namespace Xklee

/-! ## `Solver` -/

namespace Solver

variable (impl : SolverImpl)

/-- `Solver::evaluate`. -/
def evaluate (query : Query) : Option Validity :=
  match query.expr with
  | .Constant CE => some (if CE.isTrue then .True else .False)
  | _ => impl.computeValidity query

/-- `Solver::mustBeTrue`. -/
def mustBeTrue (query : Query) : Option Bool :=
  match query.expr with
  | .Constant CE => some CE.isTrue
  | _ => impl.computeTruth query

/-- `Solver::getValue`; also `none` when the answer is no constant, which
`cast<ConstantExpr>` asserts. -/
def getValue (query : Query) : Option APInt :=
  match query.expr with
  | .Constant CE => some CE
  | _ =>
      match impl.computeValue query with
      | some (.Constant value) => some value
      | _ => none

end Solver

/-! ## `TimingSolver` -/

structure TimingSolver where
  solver : SolverImpl
  simplifyExprs : Bool

namespace TimingSolver

/-- The query that is asked about `expr`. -/
def query (solver : TimingSolver) (constraints : List Expr) (expr : Expr) : Query :=
  ⟨constraints, if solver.simplifyExprs then ConstraintManager.simplifyExpr constraints expr
    else expr⟩

/-- `TimingSolver::evaluate`. -/
def evaluate (solver : TimingSolver) (constraints : List Expr) (expr : Expr) : Option Validity :=
  match expr with
  | .Constant CE => some (if CE.isTrue then .True else .False)
  | _ => Solver.evaluate solver.solver (solver.query constraints expr)

/-- `TimingSolver::mustBeTrue`. -/
def mustBeTrue (solver : TimingSolver) (constraints : List Expr) (expr : Expr) : Option Bool :=
  match expr with
  | .Constant CE => some CE.isTrue
  | _ => Solver.mustBeTrue solver.solver (solver.query constraints expr)

/-- `TimingSolver::mustBeFalse`. -/
def mustBeFalse (solver : TimingSolver) (constraints : List Expr) (expr : Expr) : Option Bool :=
  solver.mustBeTrue constraints expr.createIsZero

/-- `TimingSolver::mayBeTrue`. -/
def mayBeTrue (solver : TimingSolver) (constraints : List Expr) (expr : Expr) : Option Bool :=
  (solver.mustBeFalse constraints expr).map (!·)

/-- `TimingSolver::getValue`. -/
def getValue (solver : TimingSolver) (constraints : List Expr) (expr : Expr) : Option APInt :=
  match expr with
  | .Constant CE => some CE
  | _ => Solver.getValue solver.solver (solver.query constraints expr)

/-! ## What the answers mean -/

section Sound

variable {solver : TimingSolver} {constraints : List Expr} {expr : Expr}

variable (solver) in
theorem query_same (hcs : ∀ c ∈ constraints, c.IsBool) (he : expr.WellTyped) :
    Same (fun σ => Satisfies σ constraints) expr (solver.query constraints expr).expr := by
  rw [query]
  split
  · exact ConstraintManager.simplifyExpr_same hcs he
  · exact Same.refl he

theorem hasValidity_Constant (c : APInt) :
    (⟨constraints, .Constant c⟩ : Query).HasValidity (if c.isTrue then .True else .False) := by
  split
  next h => exact fun _ _ => h
  next h => exact fun _ _ => h

/-- The validity of a query does not depend on which of two expressions of one
value it asks about. -/
theorem HasValidity.of_same {e : Expr} (h : Same (fun σ => Satisfies σ constraints) expr e)
    {v : Validity} (hv : (⟨constraints, e⟩ : Query).HasValidity v) :
    (⟨constraints, expr⟩ : Query).HasValidity v := by
  cases v with
  | True => exact fun σ hσ => (h.holds_iff hσ).mp (hv σ hσ)
  | False => exact fun σ hσ hexpr => hv σ hσ ((h.holds_iff hσ).mpr hexpr)
  | Unknown =>
    obtain ⟨⟨σ, hσ, ht⟩, ⟨τ, hτ, hf⟩⟩ := hv
    exact ⟨⟨σ, hσ, (h.holds_iff hσ).mp ht⟩, ⟨τ, hτ, fun h' => hf ((h.holds_iff hτ).mpr h')⟩⟩

section Correct

variable (hsolver : solver.solver.Correct) (hsat : ∃ σ, Satisfies σ constraints)
  (hcs : ∀ c ∈ constraints, c.IsBool)

include hsolver hsat hcs

/-- A validity that `evaluate` reports is the validity of the query. -/
theorem evaluate_sound (he : expr.IsBool) {v : Validity}
    (h : solver.evaluate constraints expr = some v) :
    (⟨constraints, expr⟩ : Query).HasValidity v := by
  have hquery : Solver.evaluate solver.solver (solver.query constraints expr) = some v →
      (⟨constraints, expr⟩ : Query).HasValidity v := by
    intro h
    have hsame := query_same solver hcs he.1
    refine HasValidity.of_same hsame ?_
    unfold Solver.evaluate at h
    split at h
    next CE hCE =>
      obtain rfl := Option.some.inj h
      rw [hCE]
      exact hasValidity_Constant CE
    next => exact hsolver.validity (solver.query constraints expr) v ⟨hsat, hsame.isBool he⟩ h
  unfold evaluate at h
  split at h
  next CE =>
    obtain rfl := Option.some.inj h
    exact hasValidity_Constant CE
  next => exact hquery h

/-- `mustBeTrue` answers whether the query is valid. -/
theorem mustBeTrue_sound (he : expr.IsBool) {b : Bool}
    (h : solver.mustBeTrue constraints expr = some b) :
    b = true ↔ (⟨constraints, expr⟩ : Query).Valid := by
  obtain ⟨τ, hτ⟩ := hsat
  have hquery : Solver.mustBeTrue solver.solver (solver.query constraints expr) = some b →
      (b = true ↔ (⟨constraints, expr⟩ : Query).Valid) := by
    intro h
    have hsame := query_same solver hcs he.1
    have hvalid : (solver.query constraints expr).Valid
        ↔ (⟨constraints, expr⟩ : Query).Valid :=
      forall₂_congr (fun σ hσ => hsame.holds_iff hσ)
    rw [← hvalid]
    unfold Solver.mustBeTrue at h
    split at h
    next CE hCE =>
      obtain rfl := Option.some.inj h
      refine ⟨fun hc σ _ => ?_, fun hv => ?_⟩
      · rw [hCE]
        exact hc
      · have := hv τ hτ
        rwa [hCE] at this
    next =>
      exact hsolver.truth (solver.query constraints expr) b ⟨⟨τ, hτ⟩, hsame.isBool he⟩ h
  unfold mustBeTrue at h
  split at h
  next CE =>
    obtain rfl := Option.some.inj h
    exact ⟨fun hc σ _ => hc, fun hv => hv τ hτ⟩
  next => exact hquery h

/-- `mustBeFalse` answers whether the query is contradicted. -/
theorem mustBeFalse_sound (he : expr.IsBool) {b : Bool}
    (h : solver.mustBeFalse constraints expr = some b) :
    b = true ↔ (⟨constraints, expr⟩ : Query).Contradicted :=
  (mustBeTrue_sound hsolver hsat hcs he.createIsZero h).trans
    (Query.negateExpr_valid (q := ⟨constraints, expr⟩) he)

/-- `getValue` returns a value the expression has under some solution of the
constraints. -/
theorem getValue_sound (he : expr.WellTyped) {value : APInt}
    (h : solver.getValue constraints expr = some value) :
    ∃ σ, Satisfies σ constraints ∧ value = expr.eval σ := by
  obtain ⟨τ, hτ⟩ := hsat
  have hquery : Solver.getValue solver.solver (solver.query constraints expr) = some value →
      ∃ σ, Satisfies σ constraints ∧ value = expr.eval σ := by
    intro h
    have hsame := query_same solver hcs he
    unfold Solver.getValue at h
    split at h
    next CE hCE =>
      obtain rfl := Option.some.inj h
      refine ⟨τ, hτ, ?_⟩
      rw [← hsame.eval τ hτ, hCE, Expr.eval_Constant]
    next =>
      split at h
      next c hc =>
        obtain rfl := Option.some.inj h
        obtain ⟨σ, hσ, heval⟩ := hsolver.value (solver.query constraints expr) _ ⟨τ, hτ⟩
          hsame.wellTyped hc
        refine ⟨σ, hσ, ?_⟩
        rw [← hsame.eval σ hσ]
        exact Expr.Constant.inj heval
      next => exact absurd h (by simp)
  unfold getValue at h
  split at h
  next CE =>
    obtain rfl := Option.some.inj h
    exact ⟨τ, hτ, rfl⟩
  next => exact hquery h

end Correct

end Sound

end TimingSolver

end Xklee
