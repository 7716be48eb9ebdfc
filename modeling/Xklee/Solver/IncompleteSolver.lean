/-
Staged solvers: `lib/Solver/IncompleteSolver.cpp`.

An incomplete solver says what it can about a query, as a `PartialValidity`. The
staged solver asks it first and asks the secondary solver only for the half that
is missing. The base class makes `computeValidity` of two calls of `computeTruth`,
on the expression and on its negation; its comments say which of the six answers
it expects from them, and `NeverMayBeTrue` is that expectation.
-/
import Xklee.Solver.CachingSolver

set_option autoImplicit false

namespace Xklee

/-- `IncompleteSolver`: the methods that a subclass has to give. -/
structure IncompleteSolver where
  computeTruth : Query → PartialValidity
  computeValue : Query → Option Expr
  computeInitialValues : Query → List KArray → Option (Option (List (List (BitVec 8))))

namespace IncompleteSolver

/-- `IncompleteSolver::computeValidity`. -/
def computeValidity (solver : IncompleteSolver) (query : Query) : PartialValidity :=
  let trueResult := solver.computeTruth query
  if trueResult = .MustBeTrue then .MustBeTrue
  else
    let falseResult := solver.computeTruth query.negateExpr
    if falseResult = .MustBeTrue then .MustBeFalse
    else
      let trueCorrect := trueResult ≠ .None
      let falseCorrect := falseResult ≠ .None
      if trueCorrect ∧ falseCorrect then .TrueOrFalse
      else if trueCorrect then .MayBeFalse -- ==> trueResult == MayBeFalse
      else if falseCorrect then .MayBeTrue -- ==> falseResult == MayBeFalse
      else .None

/-- Whatever the solver says is true. -/
structure Sound (solver : IncompleteSolver) : Prop where
  truth : ∀ q, q.Ok → (solver.computeTruth q).Describes q
  value : ∀ q e, q.Consistent → q.expr.WellTyped → solver.computeValue q = some e →
    ∃ σ, Satisfies σ q.constraints ∧ e = .Constant (q.expr.eval σ)
  initialValues : ∀ q objects r, q.Ok → solver.computeInitialValues q objects = some r →
    match r with
    | none => q.Valid
    | some values => ∃ σ, Satisfies σ q.constraints ∧ ¬q.expr.Holds σ
        ∧ InitialValues σ objects values

/-- Asked for the truth of an expression, the solver does not answer that it may be
true. -/
def NeverMayBeTrue (solver : IncompleteSolver) : Prop :=
  ∀ q, solver.computeTruth q ≠ .MayBeTrue

end IncompleteSolver

/-! ## The staged solver -/

namespace StagedSolverImpl

variable (primary : IncompleteSolver) (secondary : SolverImpl)

/-- `StagedSolverImpl::computeTruth`. -/
def computeTruth (query : Query) : Option Bool :=
  match primary.computeTruth query with
  | .None => secondary.computeTruth query
  | trueResult => some (trueResult == .MustBeTrue)

/-- `StagedSolverImpl::computeValidity`. -/
def computeValidity (query : Query) : Option Validity :=
  match primary.computeValidity query with
  | .MustBeTrue => some .True
  | .MustBeFalse => some .False
  | .TrueOrFalse => some .Unknown
  | .MayBeTrue =>
      (secondary.computeTruth query).map fun tmp => if tmp then .True else .Unknown
  | .MayBeFalse =>
      (secondary.computeTruth query.negateExpr).map fun tmp => if tmp then .False else .Unknown
  | .None => secondary.computeValidity query

/-- `StagedSolverImpl::computeValue`. -/
def computeValue (query : Query) : Option Expr :=
  match primary.computeValue query with
  | some result => some result
  | none => secondary.computeValue query

/-- `StagedSolverImpl::computeInitialValues`. -/
def computeInitialValues (query : Query) (objects : List KArray) :
    Option (Option (List (List (BitVec 8)))) :=
  match primary.computeInitialValues query objects with
  | some result => some result
  | none => secondary.computeInitialValues query objects

end StagedSolverImpl

/-- `StagedSolverImpl`. -/
def StagedSolverImpl (primary : IncompleteSolver) (secondary : SolverImpl) : SolverImpl where
  computeTruth := StagedSolverImpl.computeTruth primary secondary
  computeValidity := StagedSolverImpl.computeValidity primary secondary
  computeValue := StagedSolverImpl.computeValue primary secondary
  computeInitialValues := StagedSolverImpl.computeInitialValues primary secondary

/-! ## Correctness -/

namespace IncompleteSolver

variable {primary : IncompleteSolver}

/-- An answer other than `MustBeTrue`, `MayBeTrue` and `None` rules out that the
query is valid. -/
theorem mayBeFalse_of_truth (hp : primary.Sound) (hmay : primary.NeverMayBeTrue) {q : Query}
    (hq : q.Ok) (hmust : primary.computeTruth q ≠ .MustBeTrue)
    (hnone : primary.computeTruth q ≠ .None) : q.MayBeFalse := by
  have hdescribes := hp.truth q hq
  cases hpv : primary.computeTruth q with
  | MustBeTrue => exact absurd hpv hmust
  | MustBeFalse =>
    rw [hpv] at hdescribes
    exact Query.Contradicted.mayBeFalse hdescribes hq.consistent
  | MayBeTrue => exact absurd hpv (hmay q)
  | MayBeFalse =>
    rw [hpv] at hdescribes
    exact hdescribes
  | TrueOrFalse =>
    rw [hpv] at hdescribes
    exact hdescribes.2
  | None => exact absurd hpv hnone

/-- The two truth queries together say something true. -/
theorem computeValidity_describes (hp : primary.Sound) (hmay : primary.NeverMayBeTrue)
    {q : Query} (hq : q.Ok) : (primary.computeValidity q).Describes q := by
  have hfalse : primary.computeTruth q.negateExpr ≠ .MustBeTrue →
      primary.computeTruth q.negateExpr ≠ .None → q.MayBeTrue := fun hmust hnone =>
    (Query.negateExpr_mayBeFalse hq.isBool).mp
      (mayBeFalse_of_truth hp hmay hq.negateExpr hmust hnone)
  simp only [computeValidity]
  split
  next hmust =>
    have hdescribes := hp.truth q hq
    rwa [hmust] at hdescribes
  next hmust =>
    split
    next hneg =>
      have hdescribes := hp.truth q.negateExpr hq.negateExpr
      rw [hneg] at hdescribes
      exact (Query.negateExpr_valid hq.isBool).mp hdescribes
    next hneg =>
      split
      next hboth =>
        exact ⟨hfalse hneg hboth.2, mayBeFalse_of_truth hp hmay hq hmust hboth.1⟩
      next =>
        split
        next htrue => exact mayBeFalse_of_truth hp hmay hq hmust htrue
        next =>
          split
          next hf => exact hfalse hneg hf
          next => trivial

end IncompleteSolver

namespace StagedSolverImpl

variable {primary : IncompleteSolver} {secondary : SolverImpl}

theorem computeTruth_correct (hp : primary.Sound) (hmay : primary.NeverMayBeTrue)
    (hs : secondary.Correct) {q : Query} {b : Bool} (hq : q.Ok)
    (h : computeTruth primary secondary q = some b) : b = true ↔ q.Valid := by
  unfold computeTruth at h
  split at h
  next => exact hs.truth q b hq h
  next hnone =>
    obtain rfl := Option.some.inj h
    rw [beq_iff_eq]
    constructor
    · intro hmust
      have hdescribes := hp.truth q hq
      rwa [hmust] at hdescribes
    · intro hvalid
      by_contra hmust
      exact Query.not_valid_iff.mpr
        (IncompleteSolver.mayBeFalse_of_truth hp hmay hq hmust hnone) hvalid

theorem computeValidity_correct (hp : primary.Sound) (hmay : primary.NeverMayBeTrue)
    (hs : secondary.Correct) {q : Query} {v : Validity} (hq : q.Ok)
    (h : computeValidity primary secondary q = some v) : q.HasValidity v := by
  have hdescribes := IncompleteSolver.computeValidity_describes hp hmay hq
  unfold computeValidity at h
  split at h
  next hpv =>
    obtain rfl := Option.some.inj h
    rwa [hpv] at hdescribes
  next hpv =>
    obtain rfl := Option.some.inj h
    rwa [hpv] at hdescribes
  next hpv =>
    obtain rfl := Option.some.inj h
    rwa [hpv] at hdescribes
  next hpv =>
    -- there is a true assignment; is there a false one?
    rw [hpv] at hdescribes
    obtain ⟨tmp, htmp, rfl⟩ := Option.map_eq_some_iff.mp h
    have hvalid := hs.truth q tmp hq htmp
    cases tmp with
    | true => exact hvalid.mp rfl
    | false =>
      exact ⟨hdescribes, Query.not_valid_iff.mp (fun hv => Bool.false_ne_true (hvalid.mpr hv))⟩
  next hpv =>
    -- there is a false assignment; is there a true one?
    rw [hpv] at hdescribes
    obtain ⟨tmp, htmp, rfl⟩ := Option.map_eq_some_iff.mp h
    have hvalid := (hs.truth _ tmp hq.negateExpr htmp).trans (Query.negateExpr_valid hq.isBool)
    cases tmp with
    | true => exact hvalid.mp rfl
    | false =>
      exact ⟨Query.not_contradicted_iff.mp (fun hc => Bool.false_ne_true (hvalid.mpr hc)),
        hdescribes⟩
  next => exact hs.validity q v hq h

/-- A call fails when the one question it asks the secondary solver fails. -/
structure FailsWith (primary : IncompleteSolver) (secondary : SolverImpl) : Prop where
  truth : ∀ q, computeTruth primary secondary q = none →
    primary.computeTruth q = .None ∧ secondary.computeTruth q = none
  validity : ∀ q, computeValidity primary secondary q = none →
    match primary.computeValidity q with
    | .MayBeTrue => secondary.computeTruth q = none
    | .MayBeFalse => secondary.computeTruth q.negateExpr = none
    | .None => secondary.computeValidity q = none
    | _ => False
  value : ∀ q, computeValue primary secondary q = none →
    primary.computeValue q = none ∧ secondary.computeValue q = none
  initialValues : ∀ q objects, computeInitialValues primary secondary q objects = none →
    primary.computeInitialValues q objects = none
      ∧ secondary.computeInitialValues q objects = none

theorem failsWith (primary : IncompleteSolver) (secondary : SolverImpl) :
    FailsWith primary secondary where
  truth q h := by
    unfold computeTruth at h
    split at h
    next hnone => exact ⟨hnone, h⟩
    next => exact absurd h (Option.some_ne_none _)
  validity q h := by
    unfold computeValidity at h
    split at h <;> simp_all
  value q h := by
    unfold computeValue at h
    split at h
    next => exact absurd h (Option.some_ne_none _)
    next hnone => exact ⟨hnone, h⟩
  initialValues q objects h := by
    unfold computeInitialValues at h
    split at h
    next => exact absurd h (Option.some_ne_none _)
    next hnone => exact ⟨hnone, h⟩

/-- A sound incomplete solver in front of a correct one is a correct solver, which
fails only when the second one was asked and failed. -/
theorem staged_correct (hp : primary.Sound) (hmay : primary.NeverMayBeTrue)
    (hs : secondary.Correct) :
    (StagedSolverImpl primary secondary).Correct ∧ FailsWith primary secondary := by
  refine ⟨⟨fun q b hq h => computeTruth_correct hp hmay hs hq h,
    fun q v hq h => computeValidity_correct hp hmay hs hq h, fun q e hq he h => ?_,
    fun q objects r hq h => ?_⟩, failsWith primary secondary⟩
  · change computeValue primary secondary q = some e at h
    unfold computeValue at h
    split at h
    next result hresult =>
      obtain rfl := Option.some.inj h
      exact hp.value q _ hq he hresult
    next => exact hs.value q e hq he h
  · change computeInitialValues primary secondary q objects = some r at h
    unfold computeInitialValues at h
    split at h
    next result hresult =>
      obtain rfl := Option.some.inj h
      exact hp.initialValues q objects _ hq hresult
    next => exact hs.initialValues q objects r hq h

/-! ### Two primary solvers -/

open CachingSolver (firstByteIsZero firstByteSolver firstByteSolver_correct
  firstByteIsZero_unknown)

/-- It knows that the first byte may be different from zero. -/
def firstByteFast : IncompleteSolver where
  computeTruth q := if q = firstByteIsZero then .MayBeFalse else .None
  computeValue _ := none
  computeInitialValues _ _ := none

theorem staged_correct_firstByte :
    (StagedSolverImpl firstByteFast firstByteSolver).Correct
      ∧ FailsWith firstByteFast firstByteSolver := by
  refine staged_correct ⟨fun q _ => ?_, fun q e _ _ h => (nomatch h),
    fun q objects r _ h => (nomatch h)⟩ (fun q => ?_) firstByteSolver_correct
  · simp only [firstByteFast]
    split
    next h =>
      rw [h]
      exact firstByteIsZero_unknown.2
    next => trivial
  · simp only [firstByteFast]
    split <;> decide

/-- It says of a valid query that it may be true. -/
def vague : IncompleteSolver where
  computeTruth q := if q = ⟨[firstByteIsZero.expr], firstByteIsZero.expr⟩ then .MayBeTrue else .None
  computeValue _ := none
  computeInitialValues _ _ := none

/-- `MayBeTrue` from `computeTruth` is a true statement that the staged solver takes
for a no. -/
theorem staged_vague :
    vague.Sound ∧ firstByteSolver.Correct
      ∧ ¬(StagedSolverImpl vague firstByteSolver).Correct := by
  have hvalid : Query.Valid ⟨[firstByteIsZero.expr], firstByteIsZero.expr⟩ :=
    fun σ hσ => hσ _ List.mem_cons_self
  have hconsistent : Query.Consistent ⟨[firstByteIsZero.expr], firstByteIsZero.expr⟩ :=
    ⟨fun _ _ => 0, by decide⟩
  refine ⟨⟨fun q _ => ?_, fun q e _ _ h => (nomatch h), fun q objects r _ h => (nomatch h)⟩,
    firstByteSolver_correct, fun hcorrect => ?_⟩
  · simp only [vague]
    split
    next h =>
      rw [h]
      exact hvalid.mayBeTrue hconsistent
    next => trivial
  · have hasked : vague.computeTruth ⟨[firstByteIsZero.expr], firstByteIsZero.expr⟩ = .MayBeTrue := by
      simp only [vague, if_true]
    have hanswer : computeTruth vague firstByteSolver
        ⟨[firstByteIsZero.expr], firstByteIsZero.expr⟩ = some false := by
      rw [computeTruth, hasked]
      rfl
    exact Bool.false_ne_true
      ((hcorrect.truth _ false ⟨hconsistent, by decide, rfl⟩ hanswer).mpr hvalid)

end StagedSolverImpl

end Xklee
