/-
Queries and solvers: `include/klee/Solver.h` and `include/klee/SolverImpl.h`.

A query asks about one expression under a list of constraints. What a query
means is stated over all assignments of bytes to arrays: it is valid when every
assignment that satisfies the constraints makes the expression true. A
`SolverImpl` answers queries or fails; `SolverImpl.Correct` says that it never
answers wrongly when the constraints have a solution.
-/
import Xklee.Expr.CreateSound

set_option autoImplicit false

namespace Xklee

/-! ## Truth -/

/-- The expression has the value 1 of width 1. -/
def Expr.Holds (σ : Env) (e : Expr) : Prop := (e.eval σ).isTrue = true

instance (σ : Env) (e : Expr) : Decidable (e.Holds σ) :=
  inferInstanceAs (Decidable ((e.eval σ).isTrue = true))

/-- A well-typed expression of width 1. -/
def Expr.IsBool (e : Expr) : Prop := e.WellTyped ∧ e.width = Expr.BoolWidth

instance (e : Expr) : Decidable e.IsBool :=
  inferInstanceAs (Decidable (e.WellTyped ∧ e.width = Expr.BoolWidth))

theorem Denotes.holds_iff {σ : Env} {e : Expr} {b : Bool} (h : Denotes σ e (BitVec.ofBool b)) :
    e.Holds σ ↔ b = true := by
  rw [Expr.Holds, h.2, isTrue_mk_ofBool]

/-- A Bool expression is true or false. -/
theorem Expr.IsBool.denotes {e : Expr} (h : e.IsBool) (σ : Env) :
    Denotes σ e (BitVec.ofBool (decide (e.Holds σ))) := by
  obtain ⟨x, hx⟩ := h.1.denotes (σ := σ) h.2
  obtain ⟨b, rfl⟩ := APInt.eq_ofBool_of_width_one x
  have hb : decide (e.Holds σ) = b := by
    rw [Bool.eq_iff_iff, decide_eq_true_iff]
    exact hx.holds_iff
  rwa [hb]

theorem Expr.IsBool.createIsZero {e : Expr} (h : e.IsBool) : e.createIsZero.IsBool := by
  have hd := Expr.createIsZero_denotes (h.denotes (fun _ _ => 0))
  exact ⟨hd.1, hd.width_eq⟩

/-- `createIsZero` of a Bool expression is its negation. -/
theorem Expr.IsBool.holds_createIsZero {e : Expr} (h : e.IsBool) (σ : Env) :
    e.createIsZero.Holds σ ↔ ¬e.Holds σ := by
  rw [(Expr.createIsZero_denotes_not (h.denotes σ)).holds_iff]
  simp

/-- The assignment makes every constraint true. -/
def Satisfies (σ : Env) (constraints : List Expr) : Prop := ∀ c ∈ constraints, c.Holds σ

theorem Satisfies.subset {σ : Env} {constraints constraints' : List Expr} (h : Satisfies σ constraints')
    (hsub : constraints ⊆ constraints') : Satisfies σ constraints :=
  fun c hc => h c (hsub hc)

instance (σ : Env) (constraints : List Expr) : Decidable (Satisfies σ constraints) :=
  inferInstanceAs (Decidable (∀ c ∈ constraints, c.Holds σ))

/-! ## Queries -/

structure Query where
  constraints : List Expr
  expr : Expr
deriving DecidableEq

/-- `Solver::Validity`. -/
inductive Validity where
  | True | False | Unknown
deriving DecidableEq, Repr

namespace Query

/-- `Query::negateExpr`. -/
def negateExpr (q : Query) : Query := { q with expr := q.expr.createIsZero }

/-- `Query::withExpr`. -/
def withExpr (q : Query) (e : Expr) : Query := { q with expr := e }

/-- `Query::withFalse`. -/
def withFalse (q : Query) : Query := q.withExpr (.Constant (.ofBool false))

/-- Some assignment satisfies the constraints. -/
def Consistent (q : Query) : Prop := ∃ σ, Satisfies σ q.constraints

/-- Every solution of the constraints makes the expression true. -/
def Valid (q : Query) : Prop := ∀ σ, Satisfies σ q.constraints → q.expr.Holds σ

/-- Every solution of the constraints makes the expression false. -/
def Contradicted (q : Query) : Prop := ∀ σ, Satisfies σ q.constraints → ¬q.expr.Holds σ

/-- Some solution of the constraints makes the expression true. -/
def MayBeTrue (q : Query) : Prop := ∃ σ, Satisfies σ q.constraints ∧ q.expr.Holds σ

/-- Some solution of the constraints makes the expression false. -/
def MayBeFalse (q : Query) : Prop := ∃ σ, Satisfies σ q.constraints ∧ ¬q.expr.Holds σ

/-- The validity of a query. -/
def HasValidity (q : Query) : Validity → Prop
  | .True => q.Valid
  | .False => q.Contradicted
  | .Unknown => q.MayBeTrue ∧ q.MayBeFalse

theorem not_valid_iff {q : Query} : ¬q.Valid ↔ q.MayBeFalse := by
  simp only [Valid, MayBeFalse, not_forall, exists_prop]

theorem not_contradicted_iff {q : Query} : ¬q.Contradicted ↔ q.MayBeTrue := by
  simp only [Contradicted, MayBeTrue, not_forall, exists_prop, not_not]

theorem Valid.mayBeTrue {q : Query} (h : q.Valid) (hq : q.Consistent) : q.MayBeTrue := by
  obtain ⟨σ, hσ⟩ := hq
  exact ⟨σ, hσ, h σ hσ⟩

theorem Contradicted.mayBeFalse {q : Query} (h : q.Contradicted) (hq : q.Consistent) :
    q.MayBeFalse := by
  obtain ⟨σ, hσ⟩ := hq
  exact ⟨σ, hσ, h σ hσ⟩

section Negate

variable {q : Query} (hq : q.expr.IsBool)

include hq

theorem negateExpr_valid : q.negateExpr.Valid ↔ q.Contradicted :=
  forall₂_congr (fun σ _ => hq.holds_createIsZero σ)

theorem negateExpr_contradicted : q.negateExpr.Contradicted ↔ q.Valid :=
  forall₂_congr (fun σ _ => (hq.holds_createIsZero σ).not.trans not_not)

theorem negateExpr_mayBeTrue : q.negateExpr.MayBeTrue ↔ q.MayBeFalse :=
  exists_congr (fun σ => and_congr_right (fun _ => hq.holds_createIsZero σ))

theorem negateExpr_mayBeFalse : q.negateExpr.MayBeFalse ↔ q.MayBeTrue :=
  exists_congr (fun σ => and_congr_right (fun _ => (hq.holds_createIsZero σ).not.trans not_not))

end Negate

end Query

/-! ## Solvers -/

/-- `SolverImpl`: each method returns `none` where the source returns `false`.
`computeInitialValues` answers `some none` when it finds no solution. -/
structure SolverImpl where
  computeTruth : Query → Option Bool
  computeValidity : Query → Option Validity
  computeValue : Query → Option Expr
  computeInitialValues : Query → List KArray → Option (Option (List (List (BitVec 8))))

/-- The outcome of a call: an answer, the failure that the source returns as
`false`, or a failed assertion. -/
inductive Outcome (α : Type) where
  | answer (a : α)
  | failed
  | assertion
deriving DecidableEq, Repr

/-- An answer has the property `P`, there is a failure only under `F`, and an
assertion fails only under `A`. -/
def Outcome.Meets {α : Type} (P : α → Prop) (F A : Prop) : Outcome α → Prop
  | .answer a => P a
  | .failed => F
  | .assertion => A

/-- The solver fails on some question about truth or validity. -/
def SolverImpl.Fails (s : SolverImpl) : Prop :=
  (∃ q, s.computeTruth q = none) ∨ ∃ q, s.computeValidity q = none

/-- The bytes are those of the arrays under the assignment. -/
def InitialValues (σ : Env) (objects : List KArray) (values : List (List (BitVec 8))) : Prop :=
  List.Forall₂ (fun a bytes => bytes = (List.range a.size).map (σ a)) objects values

/-- The query may be posed: its constraints have a solution and its expression
is Bool. -/
structure Query.Ok (q : Query) : Prop where
  consistent : q.Consistent
  isBool : q.expr.IsBool

/-- The query may be posed, and its constraints are Bool as well. -/
structure Query.Typed (q : Query) : Prop where
  ok : q.Ok
  constraints : ∀ c ∈ q.constraints, c.IsBool

/-- The solver answers truthfully, when it answers. -/
structure SolverImpl.Correct (s : SolverImpl) : Prop where
  truth : ∀ q b, q.Ok → s.computeTruth q = some b → (b = true ↔ q.Valid)
  validity : ∀ q v, q.Ok → s.computeValidity q = some v → q.HasValidity v
  value : ∀ q e, q.Consistent → q.expr.WellTyped → s.computeValue q = some e →
    ∃ σ, Satisfies σ q.constraints ∧ e = .Constant (q.expr.eval σ)
  initialValues : ∀ q objects r, q.Ok → s.computeInitialValues q objects = some r →
    match r with
    | none => q.Valid
    | some values => ∃ σ, Satisfies σ q.constraints ∧ ¬q.expr.Holds σ
        ∧ InitialValues σ objects values

/-- The solver does not fail on queries that may be posed. -/
structure SolverImpl.Answers (s : SolverImpl) : Prop where
  truth : ∀ q, q.Ok → s.computeTruth q ≠ none
  validity : ∀ q, q.Ok → s.computeValidity q ≠ none
  value : ∀ q, q.Consistent → q.expr.WellTyped → s.computeValue q ≠ none

theorem isBool_false : (Expr.Constant (.ofBool false)).IsBool := ⟨Nat.one_pos, rfl⟩

theorem not_holds_false (σ : Env) : ¬(Expr.Constant (.ofBool false)).Holds σ := by
  simp [Expr.Holds, APInt.isTrue_iff, APInt.ofBool_inj]

/-- A constant truth value that is not false is true. -/
theorem holds_of_constant {e : Expr} (he : e.IsBool) (hc : e.isConstant = true)
    (hf : e.isFalse = false) (σ : Env) : e.Holds σ := by
  obtain ⟨c, rfl⟩ := Expr.eq_Constant_of_isConstant hc
  obtain ⟨x, hx⟩ := he.1.denotes (σ := σ) he.2
  obtain ⟨b, rfl⟩ := APInt.eq_ofBool_of_width_one x
  obtain ⟨-, rfl⟩ := denotes_Constant.mp hx
  have hb : b = true := by
    cases b with
    | true => rfl
    | false => exact absurd hf (by decide)
  exact hx.holds_iff.mpr hb

theorem not_holds_of_isFalse {e : Expr} (hf : e.isFalse = true) (σ : Env) : ¬e.Holds σ := by
  cases e with
  | Constant c =>
    rw [Expr.isFalse, APInt.isFalse_iff] at hf
    subst hf
    exact not_holds_false σ
  | _ => exact absurd hf (by simp [Expr.isFalse])

theorem Query.Ok.negateExpr {q : Query} (h : q.Ok) : q.negateExpr.Ok :=
  ⟨h.consistent, h.isBool.createIsZero⟩

theorem Query.Typed.negateExpr {q : Query} (h : q.Typed) : q.negateExpr.Typed :=
  ⟨h.ok.negateExpr, h.constraints⟩

theorem Query.Typed.withFalse {q : Query} (hq : q.Consistent)
    (h : ∀ c ∈ q.constraints, c.IsBool) : q.withFalse.Typed :=
  ⟨⟨hq, isBool_false⟩, h⟩

end Xklee
