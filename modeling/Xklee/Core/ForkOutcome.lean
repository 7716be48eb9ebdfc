/-
Where `Executor::fork` gets to before it returns or splits the state.

It leaves by the single-path mode, by a failing solver, or with a condition that is
decided or not. Files that it writes depend on which of these it was, and so does what
another run has to do to come to the same place.

The constraints of a state that `fork` returns are those of the parent and the side of the
condition that the state is on, in every mode: nothing else is added, and nothing is lost.
-/
import Xklee.Core.ForkSeeds

set_option autoImplicit false

namespace Xklee

/-- The three ways through `fork`, with the executor and the state at that point. -/
inductive ForkOutcome
  /-- The single-path mode returns early. -/
  | singlePath (ex : Executor) (current : ExecutionState) (res : Validity)
  /-- "Query timed out (fork)." -/
  | timedOut (ex : Executor) (current : ExecutionState)
  /-- The solver has answered, and what else may decide has decided. -/
  | evaluated (ex : Executor) (current : ExecutionState) (condition : Expr) (res : Validity)

/-- What `fork` goes on to return. -/
def ForkOutcome.result (getBool : Bool) : ForkOutcome → Option ForkResult
  | .singlePath ex current res => ex.forkResult current (.Constant (.ofBool true)) getBool res
  | .timedOut ex current => some ⟨ex.terminateState current, none, none⟩
  | .evaluated ex current condition res => ex.forkResult current condition getBool res

namespace Executor

/-- `forkEvaluated` up to its last stage. -/
def evaluatedOutcome (ex : Executor) (current : ExecutionState) (condition : Expr)
    (isInternal getBool : Bool) : Option ForkOutcome :=
  match ex.solver.evaluate current.constraints condition with
  | none => some (.timedOut ex current)
  | some res => do
      let (ex, current, res) ← ex.decideBranch current condition isInternal getBool res
      some (.evaluated ex current condition res)

/-- `forkStatic` up to its last stage. -/
def staticOutcome (ex : Executor) (current : ExecutionState) (condition : Expr)
    (isInternal atStaticLimit getBool : Bool) : Option ForkOutcome :=
  if (ex.seedMap current.id).isNone && !condition.isConstant && atStaticLimit then do
    let value ← ex.solver.getValue current.constraints condition
    let (ex, current) ← ex.addConstraint current (EqExpr.create (.Constant value) condition)
    ex.evaluatedOutcome current (.Constant value) isInternal getBool
  else ex.evaluatedOutcome current condition isInternal getBool

/-- `fork` up to its last stage. -/
def forkOutcome (ex : Executor) (current : ExecutionState) (condition : Expr)
    (isInternal atStaticLimit getBool : Bool) : Option ForkOutcome :=
  match ex.enableFork, ex.seedMap current.id with
  | false, some (siit :: _) => do
      let branch ← ex.seedBranch current condition siit
      let (ex, current, res) ← ex.takeBranch current condition branch
      some (.singlePath ex current res)
  | _, _ => ex.staticOutcome current condition isInternal atStaticLimit getBool

/-- The single-path mode is on for the state: forking is disabled and it has a seed. -/
def SinglePath (ex : Executor) (id : ℕ) : Prop :=
  ex.enableFork = false ∧ ∃ siit seeds, ex.seedMap id = some (siit :: seeds)

section Outcome

variable {ex ex' : Executor} {state state' : ExecutionState} {condition : Expr}
  {isInternal atStaticLimit getBool : Bool}

theorem forkEvaluated_eq : ex.forkEvaluated state condition isInternal getBool
    = (ex.evaluatedOutcome state condition isInternal getBool).bind (·.result getBool) := by
  rw [forkEvaluated, evaluatedOutcome]
  cases ex.solver.evaluate state.constraints condition with
  | none => rfl
  | some res =>
    change (ex.decideBranch state condition isInternal getBool res).bind _
      = ((ex.decideBranch state condition isInternal getBool res).bind _).bind _
    rw [Option.bind_assoc]
    rfl

theorem forkStatic_eq : ex.forkStatic state condition isInternal atStaticLimit getBool
    = (ex.staticOutcome state condition isInternal atStaticLimit getBool).bind
        (·.result getBool) := by
  rw [forkStatic, staticOutcome]
  by_cases hlimit : ((ex.seedMap state.id).isNone && !condition.isConstant && atStaticLimit) = true
  · rw [if_pos hlimit, if_pos hlimit]
    simp only [Option.bind_eq_bind, Option.bind_assoc, forkEvaluated_eq]
  · rw [if_neg hlimit, if_neg hlimit]
    exact forkEvaluated_eq

variable {branch : Bool} {res res' : Validity}

theorem takeBranch_res (h : ex.takeBranch state condition branch = some (ex', state', res)) :
    res = Validity.ofBool branch
      ∧ ex.addConstraint state (branchCondition condition branch) = some (ex', state') := by
  simp only [takeBranch, bind, Option.bind_eq_some_iff] at h
  obtain ⟨⟨ex₁, state₁⟩, hadd, heq⟩ := h
  simp only [Option.some.injEq, Prod.mk.injEq] at heq
  obtain ⟨rfl, rfl, rfl⟩ := heq
  exact ⟨rfl, hadd⟩

/-- A decided condition is returned as it is, whatever the condition was. -/
theorem forkResult_decided (hres : res ≠ .Unknown) (condition condition' : Expr) :
    ex.forkResult state condition getBool res = ex.forkResult state condition' getBool res := by
  cases res with
  | True => rfl
  | False => rfl
  | Unknown => exact absurd rfl hres

theorem ofBool_ne_unknown (branch : Bool) : Validity.ofBool branch ≠ .Unknown := by
  cases branch <;> decide

theorem forkOutcome_of_singlePath {siit : SeedInfo} {seeds : List SeedInfo}
    (hfork : ex.enableFork = false) (hseeds : ex.seedMap state.id = some (siit :: seeds)) :
    ex.forkOutcome state condition isInternal atStaticLimit getBool
      = (ex.seedBranch state condition siit).bind fun branch =>
          (ex.takeBranch state condition branch).map fun r => .singlePath r.1 r.2.1 r.2.2 := by
  rw [forkOutcome, hfork, hseeds]
  simp only [Option.bind_eq_bind]
  refine congrArg _ (funext fun branch => ?_)
  cases ex.takeBranch state condition branch with
  | none => rfl
  | some r => rfl

theorem forkOutcome_of_not (h : ¬ex.SinglePath state.id) :
    ex.forkOutcome state condition isInternal atStaticLimit getBool
      = ex.staticOutcome state condition isInternal atStaticLimit getBool := by
  unfold forkOutcome
  split
  next siit seeds hfork hseeds => exact absurd ⟨hfork, siit, seeds, hseeds⟩ h
  next => rfl

/-- `fork` goes through one of its outcomes. -/
theorem fork_eq : ex.fork state condition isInternal atStaticLimit getBool
    = (ex.forkOutcome state condition isInternal atStaticLimit getBool).bind
        (·.result getBool) := by
  by_cases hsingle : ex.SinglePath state.id
  · obtain ⟨hfork, siit, seeds, hseeds⟩ := hsingle
    rw [forkOutcome_of_singlePath hfork hseeds, fork, hfork, hseeds]
    simp only [Option.bind_eq_bind, Option.bind_assoc]
    refine congrArg _ (funext fun branch => ?_)
    cases htake : ex.takeBranch state condition branch with
    | none => rfl
    | some r => exact forkResult_decided ((takeBranch_res htake).1 ▸ ofBool_ne_unknown branch) _ _
  · rw [forkOutcome_of_not hsingle]
    unfold fork
    split
    next siit seeds hfork hseeds => exact absurd ⟨hfork, siit, seeds, hseeds⟩ hsingle
    next => exact forkStatic_eq

/-! ## What an outcome knows -/

/-- The executor is as before, but for the seeds and the replay position. -/
structure SameExecutor (ex ex' : Executor) : Prop where
  stateID : ex'.stateID = ex.stateID
  solver : ex'.solver = ex.solver

/-- A stage of `fork` that has come to `res` has added to the constraints what that says
about the condition. -/
structure Reaches (condition : Expr) (parent state : ExecutionState) (res : Validity) : Prop where
  id : state.id = parent.id
  isBool : ∀ c ∈ state.constraints, c.IsBool
  satisfies_iff : ∀ σ, (match res with
      | .True => condition.Holds σ
      | .False => ¬condition.Holds σ
      | .Unknown => True) →
    (Satisfies σ state.constraints ↔ Satisfies σ parent.constraints)

theorem addConstraint_same (h : ex.addConstraint state condition = some (ex', state')) :
    SameExecutor ex ex' ∧ state'.id = state.id := by
  unfold addConstraint at h
  split at h
  next =>
    split at h
    next =>
      obtain ⟨rfl, rfl⟩ := Prod.mk.inj (Option.some.inj h)
      exact ⟨⟨rfl, rfl⟩, rfl⟩
    next => exact absurd h (by simp)
  next =>
    simp only [bind, Option.bind_eq_some_iff] at h
    obtain ⟨seeds, -, constraints, -, heq⟩ := h
    obtain ⟨rfl, rfl⟩ := Prod.mk.inj (Option.some.inj heq)
    exact ⟨⟨rfl, rfl⟩, rfl⟩

theorem takeBranch_reaches (hcs : ∀ c ∈ state.constraints, c.IsBool) (he : condition.IsBool)
    (h : ex.takeBranch state condition branch = some (ex', state', res)) :
    SameExecutor ex ex' ∧ Reaches condition state state' res := by
  obtain ⟨rfl, hadd⟩ := takeBranch_res h
  obtain ⟨hsame, hid⟩ := addConstraint_same hadd
  obtain ⟨hadds, -⟩ := addConstraint_adds hcs (branchCondition_isBool he branch) hadd
  refine ⟨hsame, hid, hadds.isBool, fun σ hσ => ?_⟩
  rw [hadds.satisfies_iff, branchCondition_holds he]
  cases branch with
  | true => exact and_iff_left (iff_of_true hσ rfl)
  | false => exact and_iff_left (iff_of_false hσ (by simp))

/-- What has been decided after the solver's answer: nothing more, or a branch was taken at
an unknown condition. -/
theorem decideBranch_cases
    (h : ex.decideBranch state condition isInternal getBool res = some (ex', state', res')) :
    ∃ ex₁, SameExecutor ex ex₁
      ∧ (ex' = ex₁ ∧ state' = state ∧ res' = res
        ∨ res = .Unknown ∧ ∃ branch, ex₁.takeBranch state condition branch = some (ex', state', res')) := by
  have hkeep : ∀ e : Executor, some (e, state, res) = some (ex', state', res') →
      SameExecutor ex e → ∃ ex₁, SameExecutor ex ex₁ ∧ (ex' = ex₁ ∧ state' = state ∧ res' = res
        ∨ res = .Unknown ∧ ∃ branch,
          ex₁.takeBranch state condition branch = some (ex', state', res')) := by
    intro e heq hsame
    simp only [Option.some.injEq, Prod.mk.injEq] at heq
    obtain ⟨rfl, rfl, rfl⟩ := heq
    exact ⟨e, hsame, .inl ⟨rfl, rfl, rfl⟩⟩
  unfold decideBranch at h
  split at h
  next =>
    unfold decideByReplay at h
    split at h
    next replayPath _ =>
      simp only [bind, Option.bind_eq_some_iff] at h
      obtain ⟨branch, -, h⟩ := h
      cases res with
      | True =>
        cases branch with
        | true => exact hkeep _ h ⟨rfl, rfl⟩
        | false => exact absurd h (by simp)
      | False =>
        cases branch with
        | true => exact absurd h (by simp)
        | false => exact hkeep _ h ⟨rfl, rfl⟩
      | Unknown =>
        exact ⟨{ ex with replayPosition := ex.replayPosition + 1 }, ⟨rfl, rfl⟩,
          .inr ⟨rfl, branch, h⟩⟩
    next =>
      split at h
      next hunknown =>
        split at h
        next => exact absurd h (by simp)
        next =>
          split at h
          next => exact ⟨ex, ⟨rfl, rfl⟩, .inr ⟨hunknown, getBool, h⟩⟩
          next => exact hkeep _ h ⟨rfl, rfl⟩
      next => exact hkeep _ h ⟨rfl, rfl⟩
  next seeds hseeds =>
    unfold decideBySeeds at h
    split at h
    next hcond =>
      have hunknown : res = .Unknown := by
        rw [Bool.and_eq_true, beq_iff_eq] at hcond
        exact hcond.2
      simp only [bind, Option.bind_eq_some_iff] at h
      obtain ⟨⟨trueSeed, falseSeed⟩, -, h⟩ := h
      dsimp only at h
      split at h
      next => exact hkeep _ h ⟨rfl, rfl⟩
      next =>
        split at h
        next => exact ⟨ex, ⟨rfl, rfl⟩, .inr ⟨hunknown, trueSeed, h⟩⟩
        next => exact absurd h (by simp)
    next => exact hkeep _ h ⟨rfl, rfl⟩

theorem SameExecutor.refl (ex : Executor) : SameExecutor ex ex := ⟨rfl, rfl⟩

theorem SameExecutor.trans {ex₁ ex₂ ex₃ : Executor} (h : SameExecutor ex₁ ex₂)
    (h' : SameExecutor ex₂ ex₃) : SameExecutor ex₁ ex₃ :=
  ⟨h'.stateID.trans h.stateID, h'.solver.trans h.solver⟩

theorem terminateState_same (ex : Executor) (state : ExecutionState) :
    SameExecutor ex (ex.terminateState state) := by
  constructor
  · simp only [terminateState]
    split <;> rfl
  · simp only [terminateState]
    split <;> rfl

theorem decideBranch_reaches (hcs : ∀ c ∈ state.constraints, c.IsBool) (he : condition.IsBool)
    (h : ex.decideBranch state condition isInternal getBool res = some (ex', state', res')) :
    SameExecutor ex ex' ∧ Reaches condition state state' res' ∧ (res' = .Unknown → res = .Unknown) := by
  obtain ⟨ex₁, hsame, ⟨rfl, rfl, rfl⟩ | ⟨hunknown, branch, htake⟩⟩ := decideBranch_cases h
  · exact ⟨hsame, ⟨rfl, hcs, fun _ _ => Iff.rfl⟩, id⟩
  · obtain ⟨hsame', hreaches⟩ := takeBranch_reaches hcs he htake
    exact ⟨hsame.trans hsame', hreaches, fun _ => hunknown⟩

/-- The solver's value for a Bool condition, as a condition. -/
theorem static_condition (hwidths : ValueWidths ex.solver.solver)
    (hcs : ∀ c ∈ state.constraints, c.IsBool) (he : condition.IsBool) {value : APInt}
    (hvalue : ex.solver.getValue state.constraints condition = some value) :
    (Expr.Constant value).IsBool ∧ (EqExpr.create (.Constant value) condition).IsBool
      ∧ ∀ σ, (EqExpr.create (.Constant value) condition).Holds σ
          ↔ ((Expr.Constant value).Holds σ ↔ condition.Holds σ) := by
  have hw := (getValue_width hwidths hcs he.1 hvalue).trans he.2
  obtain ⟨x, rfl⟩ := APInt.eq_mk_of_width hw
  obtain ⟨b, rfl⟩ := APInt.eq_ofBool_of_width_one x
  have heq : ∀ σ, Denotes σ (EqExpr.create (.Constant ⟨1, BitVec.ofBool b⟩) condition)
      (BitVec.ofBool (BitVec.ofBool b == BitVec.ofBool (decide (condition.Holds σ)))) :=
    fun σ => EqExpr.create_denotes (denotes_const Nat.one_pos _) (he.denotes σ)
  refine ⟨⟨Nat.one_pos, rfl⟩, ⟨(heq fun _ _ => 0).1, (heq fun _ _ => 0).width_eq⟩, fun σ => ?_⟩
  have hconst : Denotes σ (.Constant ⟨1, BitVec.ofBool b⟩) (BitVec.ofBool b) :=
    denotes_const Nat.one_pos _
  rw [(heq σ).holds_iff, beq_iff_eq, hconst.holds_iff]
  by_cases hc : condition.Holds σ
  · cases b <;> simp [hc]
  · cases b <;> simp [hc]

end Outcome

end Executor

/-- What each way through `fork` has kept and added. A condition that is left unknown is the
one that the solver was asked about. -/
def ForkOutcome.Keeps (ex : Executor) (condition : Expr) (parent : ExecutionState) :
    ForkOutcome → Prop
  | .singlePath ex' state res => ex.SameExecutor ex' ∧ Executor.Reaches condition parent state res
      ∧ res ≠ .Unknown ∧ ex.SinglePath parent.id
  | .timedOut ex' state => ex.SameExecutor ex' ∧ state.id = parent.id
  | .evaluated ex' state condition' res =>
      ex.SameExecutor ex' ∧ Executor.Reaches condition parent state res
        ∧ (res = .Unknown → condition' = condition ∧ state = parent
            ∧ ex.solver.evaluate parent.constraints condition = some .Unknown)

namespace Executor

section Keeps

variable {ex ex' : Executor} {state state' : ExecutionState} {condition : Expr}
  {isInternal atStaticLimit getBool : Bool} {outcome : ForkOutcome}

theorem evaluatedOutcome_keeps (hcs : ∀ c ∈ state.constraints, c.IsBool) (he : condition.IsBool)
    (h : ex.evaluatedOutcome state condition isInternal getBool = some outcome) :
    outcome.Keeps ex condition state := by
  rw [evaluatedOutcome] at h
  cases hres : ex.solver.evaluate state.constraints condition with
  | none =>
    rw [hres] at h
    obtain rfl := Option.some.inj h
    exact ⟨SameExecutor.refl ex, rfl⟩
  | some res =>
    rw [hres] at h
    simp only [bind, Option.bind_eq_some_iff] at h
    obtain ⟨⟨ex₁, state₁, res₁⟩, hdec, heq⟩ := h
    obtain rfl := Option.some.inj heq
    obtain ⟨hsame, hreaches, -⟩ := decideBranch_reaches hcs he hdec
    refine ⟨hsame, hreaches, fun hunknown => ?_⟩
    obtain ⟨ex₂, -, ⟨-, rfl, rfl⟩ | ⟨-, branch, htake⟩⟩ := decideBranch_cases hdec
    · exact ⟨rfl, rfl, hunknown ▸ hres⟩
    · exact absurd ((takeBranch_res htake).1.symm.trans hunknown) (ofBool_ne_unknown branch)

theorem staticOutcome_keeps (hwidths : ValueWidths ex.solver.solver)
    (hcs : ∀ c ∈ state.constraints, c.IsBool) (he : condition.IsBool)
    (h : ex.staticOutcome state condition isInternal atStaticLimit getBool = some outcome) :
    outcome.Keeps ex condition state := by
  rw [staticOutcome] at h
  by_cases hlimit : ((ex.seedMap state.id).isNone && !condition.isConstant && atStaticLimit) = true
  · rw [if_pos hlimit] at h
    simp only [bind, Option.bind_eq_some_iff] at h
    obtain ⟨value, hvalue, ⟨ex₁, state₁⟩, hadd, hr⟩ := h
    obtain ⟨hconst, heqBool, hiff⟩ := static_condition hwidths hcs he hvalue
    obtain ⟨hsame, hid⟩ := addConstraint_same hadd
    obtain ⟨hadds, -⟩ := addConstraint_adds hcs heqBool hadd
    -- The value decides, and what it says is what was added.
    have hres : ex₁.solver.evaluate state₁.constraints (.Constant value)
        = some (Validity.ofBool value.isTrue) := rfl
    rw [evaluatedOutcome, hres] at hr
    simp only [bind, Option.bind_eq_some_iff] at hr
    obtain ⟨⟨ex₂, state₂, res₂⟩, hdec, heq⟩ := hr
    obtain rfl := Option.some.inj heq
    obtain ⟨ex₃, hsame', ⟨rfl, rfl, rfl⟩ | ⟨hunknown, -⟩⟩ := decideBranch_cases hdec
    · refine ⟨hsame.trans hsame', ⟨hid, hadds.isBool, fun σ hσ => ?_⟩, fun hunknown =>
        absurd hunknown (ofBool_ne_unknown _)⟩
      rw [hadds.satisfies_iff, hiff]
      have hholds : (Expr.Constant value).Holds σ ↔ value.isTrue = true := Iff.rfl
      rw [hholds]
      cases hb : value.isTrue with
      | true =>
        rw [hb] at hσ
        exact and_iff_left (iff_of_true rfl hσ)
      | false =>
        rw [hb] at hσ
        exact and_iff_left (iff_of_false (by simp) hσ)
    · exact absurd hunknown (ofBool_ne_unknown _)
  · rw [if_neg hlimit] at h
    exact evaluatedOutcome_keeps hcs he h

theorem forkOutcome_keeps (hwidths : ValueWidths ex.solver.solver)
    (hcs : ∀ c ∈ state.constraints, c.IsBool) (he : condition.IsBool)
    (h : ex.forkOutcome state condition isInternal atStaticLimit getBool = some outcome) :
    outcome.Keeps ex condition state := by
  by_cases hsingle : ex.SinglePath state.id
  · obtain ⟨hfork, siit, seeds, hseeds⟩ := hsingle
    rw [forkOutcome_of_singlePath hfork hseeds, Option.bind_eq_some_iff] at h
    obtain ⟨branch, -, h⟩ := h
    obtain ⟨⟨ex₁, state₁, res⟩, htake, rfl⟩ := Option.map_eq_some_iff.mp h
    obtain ⟨hsame, hreaches⟩ := takeBranch_reaches hcs he htake
    exact ⟨hsame, hreaches, (takeBranch_res htake).1 ▸ ofBool_ne_unknown branch, hfork, siit, seeds,
      hseeds⟩
  · rw [forkOutcome_of_not hsingle] at h
    exact staticOutcome_keeps hwidths hcs he h

/-- What a split leaves: no state at the depth limit, and otherwise two of them, one with
the id of the parent and one with the next id. -/
theorem splitState_cases (hcs : ∀ c ∈ state.constraints, c.IsBool) (he : condition.IsBool)
    {r : ForkResult} (h : ex.splitState state condition getBool = some r) :
    r.executor.stateID = ex.stateID + 1 ∧ r.executor.solver = ex.solver
      ∧ (r.trueState = none ∧ r.falseState = none
        ∨ ∃ t f : ExecutionState, r.trueState = some t ∧ r.falseState = some f
          ∧ t.id = (if (ex.RandomizeFork && getBool) = true then ex.stateID + 1 else state.id)
          ∧ f.id = (if (ex.RandomizeFork && getBool) = true then state.id else ex.stateID + 1)
          ∧ (∀ c ∈ t.constraints, c.IsBool) ∧ (∀ c ∈ f.constraints, c.IsBool)
          ∧ (∀ σ, Satisfies σ t.constraints
              ↔ Satisfies σ state.constraints ∧ condition.Holds σ)
          ∧ ∀ σ, Satisfies σ f.constraints
              ↔ Satisfies σ state.constraints ∧ ¬condition.Holds σ) := by
  simp only [splitState, bind, Option.bind_eq_some_iff] at h
  obtain ⟨ex₁, hdist, ⟨ex₂, t⟩, ht, ⟨ex₃, f⟩, hf, hr⟩ := h
  obtain ⟨m₁, rfl⟩ := distributeSeeds_eq hdist
  generalize hT : (if (ex.addState.RandomizeFork && getBool) = true then _ else _ :
    ExecutionState) = T at ht
  generalize hF : (if (ex.addState.RandomizeFork && getBool) = true then _ else _ :
    ExecutionState) = F at hf
  have hstates : (T.constraints = state.constraints
        ∧ T.id = if (ex.RandomizeFork && getBool) = true then ex.stateID + 1 else state.id)
      ∧ F.constraints = state.constraints
        ∧ F.id = if (ex.RandomizeFork && getBool) = true then state.id else ex.stateID + 1 := by
    rw [← hT, ← hF, show ex.addState.RandomizeFork = ex.RandomizeFork from rfl]
    cases ex.RandomizeFork && getBool with
    | true => exact ⟨⟨rfl, rfl⟩, rfl, rfl⟩
    | false => exact ⟨⟨rfl, rfl⟩, rfl, rfl⟩
  obtain ⟨⟨htc, htid⟩, hfc, hfid⟩ := hstates
  obtain ⟨hadd, m₂, rfl⟩ := addConstraint_adds (htc ▸ hcs) he ht
  obtain ⟨hadd', m₃, rfl⟩ := addConstraint_adds (hfc ▸ hcs) he.createIsZero hf
  dsimp only at hr
  split at hr
  next =>
    obtain rfl := Option.some.inj hr
    refine ⟨?_, ?_, .inl ⟨rfl, rfl⟩⟩
    · exact ((terminateState_same _ t).trans (terminateState_same _ f)).stateID
    · exact ((terminateState_same _ t).trans (terminateState_same _ f)).solver
  next =>
    obtain rfl := Option.some.inj hr
    refine ⟨rfl, rfl, .inr ⟨t, f, rfl, rfl, hadd.id.trans htid, hadd'.id.trans hfid, hadd.isBool,
      hadd'.isBool, fun σ => ?_, fun σ => ?_⟩⟩
    · rw [hadd.satisfies_iff, htc]
    · rw [hadd'.satisfies_iff, hfc, he.holds_createIsZero]

end Keeps

end Executor

end Xklee
