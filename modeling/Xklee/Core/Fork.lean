/-
Forking: `Executor::fork` and `Executor::addConstraint` of `lib/Core/Executor.cpp`.

`fork` splits a state at a condition. Before it asks the solver, this fork's
single-path mode may let the first seed decide, and the `--max-static` options
may pick a value; after it has asked, a replay path, a limit or the seeds may
decide. Only what is left over is really split. The model follows these stages
in order, one definition a stage, over the constraints of the state and the
seeds of the executor. What `fork` does besides, printing, path files, coverage,
statistics and the process tree, changes neither.

A failed assertion, among them "FIXME: Unhandled solver failure", is `none`.
-/
import Xklee.Core.SeedInfo

set_option autoImplicit false

namespace Xklee

/-- `ExecutionState`. The id stands for the address as well. -/
structure ExecutionState where
  id : ℕ
  constraints : List Expr
  depth : ℕ
  forkDisabled : Bool
deriving DecidableEq

/-- `Executor`: the options and fields that forking looks at. -/
structure Executor where
  enableFork : Bool
  RandomizeFork : Bool
  OnlyReplaySeeds : Bool
  MaxMemoryInhibit : Bool
  MaxForks : BitVec 32
  MaxDepth : ℕ
  atMemoryLimit : Bool
  inhibitForking : Bool
  replayPath : Option (List Bool)
  replayPosition : ℕ
  replayOut : Bool
  solver : TimingSolver
  seedMap : ℕ → Option (List SeedInfo)
  stateID : ℕ
  /-- `stats::forks` -/
  forks : ℕ
  addedStates : List ℕ
  removedStates : List ℕ

/-- What `fork` returns, and the executor it leaves behind. -/
structure ForkResult where
  executor : Executor
  trueState : Option ExecutionState
  falseState : Option ExecutionState

/-- The assignments of the returned states are among those of the parent and
agree with the condition. -/
structure ForkResult.Sound (r : ForkResult) (parent : List Expr) (condition : Expr) : Prop where
  trueState : ∀ s, r.trueState = some s → ∀ σ, Satisfies σ s.constraints →
    Satisfies σ parent ∧ condition.Holds σ
  falseState : ∀ s, r.falseState = some s → ∀ σ, Satisfies σ s.constraints →
    Satisfies σ parent ∧ ¬condition.Holds σ

/-- The seeds of a returned state. -/
def ForkResult.seedsOf (r : ForkResult) (state : Option ExecutionState) : List SeedInfo :=
  (state.bind fun s => r.executor.seedMap s.id).getD []

/-- Every assignment of the parent is one of a returned state. -/
def ForkResult.Covers (r : ForkResult) (parent : List Expr) : Prop :=
  ∀ σ, Satisfies σ parent →
    ∃ s, (r.trueState = some s ∨ r.falseState = some s) ∧ Satisfies σ s.constraints

def Validity.ofBool (b : Bool) : Validity := if b then .True else .False

namespace Executor

/-! ## Adding a constraint -/

/-- The body of the loop over the seeds in `addConstraint`: a seed that violates
the condition is patched. -/
def patchViolated (solver : TimingSolver) (constraints : List Expr) (condition : Expr)
    (siit : SeedInfo) : Option SeedInfo := do
  let res ← solver.mustBeFalse constraints (siit.evaluate condition)
  if res then siit.patchSeed solver constraints condition else some siit

/-- The seeds of the state after that loop. -/
def patchSeeds (ex : Executor) (state : ExecutionState) (condition : Expr) :
    Option (Option (List SeedInfo)) :=
  match ex.seedMap state.id with
  | none => some none
  | some seeds =>
      (seeds.mapM (patchViolated ex.solver state.constraints condition)).map some

/-- `Executor::addConstraint`. -/
def addConstraint (ex : Executor) (state : ExecutionState) (condition : Expr) :
    Option (Executor × ExecutionState) :=
  match condition with
  | .Constant CE => if CE.isTrue then some (ex, state) else none
  | _ => do
      let seeds ← ex.patchSeeds state condition
      let constraints ← ConstraintManager.addConstraint state.constraints condition
      some ({ ex with seedMap := Function.update ex.seedMap state.id seeds },
        { state with constraints := constraints })

/-- The condition, or its negation. -/
def branchCondition (condition : Expr) (branch : Bool) : Expr :=
  if branch then condition else condition.createIsZero

/-- Add the condition or its negation, and go on as if the solver had said so. -/
def takeBranch (ex : Executor) (current : ExecutionState) (condition : Expr) (branch : Bool) :
    Option (Executor × ExecutionState × Validity) := do
  let (ex, current) ← ex.addConstraint current (branchCondition condition branch)
  some (ex, current, Validity.ofBool branch)

/-- `Executor::terminateState`. -/
def terminateState (ex : Executor) (state : ExecutionState) : Executor :=
  if state.id ∈ ex.addedStates then
    { ex with
      seedMap := Function.update ex.seedMap state.id none
      addedStates := ex.addedStates.erase state.id }
  else { ex with removedStates := state.id :: ex.removedStates }

/-! ## The stages of `fork` -/

/-- The branch a seed takes: `siit->assignment.evaluate(condition)`, which the
solver gives a value if it is not constant. -/
def seedBranch (ex : Executor) (current : ExecutionState) (condition : Expr) (siit : SeedInfo) :
    Option Bool :=
  (ex.solver.getValue current.constraints (siit.evaluate condition)).map APInt.isTrue

/-- Forking is suppressed: memory, `forkDisabled`, `inhibitForking`, `--max-forks`. -/
def inhibits (ex : Executor) (current : ExecutionState) : Bool :=
  (ex.MaxMemoryInhibit && ex.atMemoryLimit) || current.forkDisabled || ex.inhibitForking
    || (ex.MaxForks != BitVec.allOnes 32 && ex.MaxForks.toNat ≤ ex.forks)

/-- What decides outside seeding, after the solver has answered `res`. -/
def decideByReplay (ex : Executor) (current : ExecutionState) (condition : Expr)
    (isInternal getBool : Bool) (res : Validity) :
    Option (Executor × ExecutionState × Validity) :=
  match ex.replayPath, isInternal with
  | some replayPath, false => do
      let branch ← replayPath[ex.replayPosition]?
      let ex := { ex with replayPosition := ex.replayPosition + 1 }
      match res with
      | .True => if branch then some (ex, current, res) else none
      | .False => if branch then none else some (ex, current, res)
      | .Unknown => ex.takeBranch current condition branch
  | _, _ =>
      if res = .Unknown then
        if ex.replayOut then none
        else if ex.inhibits current then ex.takeBranch current condition getBool
        else some (ex, current, res)
      else some (ex, current, res)

/-- The loop that looks for a seed of each branch and stops when it has both. -/
def scanSeeds (ex : Executor) (current : ExecutionState) (condition : Expr) :
    List SeedInfo → Bool → Bool → Option (Bool × Bool)
  | [], trueSeed, falseSeed => some (trueSeed, falseSeed)
  | siit :: seeds, trueSeed, falseSeed => do
      let branch ← ex.seedBranch current condition siit
      let trueSeed := trueSeed || branch
      let falseSeed := falseSeed || !branch
      if trueSeed && falseSeed then some (trueSeed, falseSeed)
      else ex.scanSeeds current condition seeds trueSeed falseSeed

/-- What decides when seeding: in only-replay-seed mode the seeds, if they agree. -/
def decideBySeeds (ex : Executor) (current : ExecutionState) (condition : Expr)
    (seeds : List SeedInfo) (res : Validity) : Option (Executor × ExecutionState × Validity) :=
  if (current.forkDisabled || ex.OnlyReplaySeeds) && res == .Unknown then do
    let (trueSeed, falseSeed) ← ex.scanSeeds current condition seeds false false
    if trueSeed && falseSeed then some (ex, current, res)
    else if trueSeed || falseSeed then ex.takeBranch current condition trueSeed
    else none
  else some (ex, current, res)

/-- What decides after the solver has answered `res`. -/
def decideBranch (ex : Executor) (current : ExecutionState) (condition : Expr)
    (isInternal getBool : Bool) (res : Validity) :
    Option (Executor × ExecutionState × Validity) :=
  match ex.seedMap current.id with
  | none => ex.decideByReplay current condition isInternal getBool res
  | some seeds => ex.decideBySeeds current condition seeds res

/-- The loop that gives each seed to the state whose branch it takes. -/
def partitionSeeds (branch : SeedInfo → Option Bool) :
    List SeedInfo → Option (List SeedInfo × List SeedInfo)
  | [] => some ([], [])
  | siit :: seeds => do
      let res ← branch siit
      let (trueSeeds, falseSeeds) ← partitionSeeds branch seeds
      some (if res then (siit :: trueSeeds, falseSeeds) else (trueSeeds, siit :: falseSeeds))

/-- A state without seeds has no entry in the seed map. -/
def seedEntry (seeds : List SeedInfo) : Option (List SeedInfo) :=
  if seeds.isEmpty then none else some seeds

/-- Redistribute the seeds of `current`. -/
def distributeSeeds (ex : Executor) (current : ExecutionState) (condition : Expr)
    (trueState falseState : ExecutionState) : Option Executor :=
  match ex.seedMap current.id with
  | none => some ex
  | some seeds => do
      let (trueSeeds, falseSeeds) ← partitionSeeds (ex.seedBranch current condition) seeds
      some { ex with
        seedMap := Function.update (Function.update ex.seedMap trueState.id (seedEntry trueSeeds))
          falseState.id (seedEntry falseSeeds) }

/-- The new state is counted: `++stats::forks`, `++stateID` and
`addedStates.insert(falseState)`. -/
def addState (ex : Executor) : Executor :=
  { ex with
    forks := ex.forks + 1
    stateID := ex.stateID + 1
    addedStates := (ex.stateID + 1) :: ex.addedStates }

/-- Both branches are possible: `ExecutionState::branch` and what follows it. -/
def splitState (ex : Executor) (current : ExecutionState) (condition : Expr) (getBool : Bool) :
    Option ForkResult := do
  let ex := ex.addState
  let current := { current with depth := current.depth + 1 }
  let new := { current with id := ex.stateID }
  let swap := ex.RandomizeFork && getBool
  let trueState := if swap then new else current
  let falseState := if swap then current else new
  let ex ← ex.distributeSeeds current condition trueState falseState
  let (ex, trueState) ← ex.addConstraint trueState condition
  let (ex, falseState) ← ex.addConstraint falseState condition.createIsZero
  if ex.MaxDepth ≠ 0 ∧ ex.MaxDepth ≤ trueState.depth then
    some ⟨(ex.terminateState trueState).terminateState falseState, none, none⟩
  else some ⟨ex, some trueState, some falseState⟩

/-- The pair that is returned for a decided condition, or the split. -/
def forkResult (ex : Executor) (current : ExecutionState) (condition : Expr) (getBool : Bool) :
    Validity → Option ForkResult
  | .True => some ⟨ex, some current, none⟩
  | .False => some ⟨ex, none, some current⟩
  | .Unknown => ex.splitState current condition getBool

/-- `fork` from the call of the solver on. -/
def forkEvaluated (ex : Executor) (current : ExecutionState) (condition : Expr)
    (isInternal getBool : Bool) : Option ForkResult :=
  match ex.solver.evaluate current.constraints condition with
  | none => some ⟨ex.terminateState current, none, none⟩
  | some res => do
      let (ex, current, res) ← ex.decideBranch current condition isInternal getBool res
      ex.forkResult current condition getBool res

/-- `fork` past the single-path mode. When `atStaticLimit`, one of the
`--max-static` percentages is exceeded. -/
def forkStatic (ex : Executor) (current : ExecutionState) (condition : Expr)
    (isInternal atStaticLimit getBool : Bool) : Option ForkResult :=
  if (ex.seedMap current.id).isNone && !condition.isConstant && atStaticLimit then do
    let value ← ex.solver.getValue current.constraints condition
    let (ex, current) ← ex.addConstraint current (EqExpr.create (.Constant value) condition)
    ex.forkEvaluated current (.Constant value) isInternal getBool
  else ex.forkEvaluated current condition isInternal getBool

/-- `Executor::fork`. The outcome of `theRNG.getBool()`, of which it asks once at
most, is `getBool`. -/
def fork (ex : Executor) (current : ExecutionState) (condition : Expr)
    (isInternal atStaticLimit getBool : Bool) : Option ForkResult :=
  match ex.enableFork, ex.seedMap current.id with
  | false, some (siit :: _) => do
      let branch ← ex.seedBranch current condition siit
      let (ex, current, res) ← ex.takeBranch current condition branch
      ex.forkResult current condition getBool res
  | _, _ => ex.forkStatic current condition isInternal atStaticLimit getBool

/-! ## Constraints -/

section Constraints

variable {ex ex' : Executor} {state state' : ExecutionState} {condition : Expr}

/-- The state `state'` is `state` with what `P` says added to its constraints. -/
structure Adds (P : Env → Prop) (state state' : ExecutionState) : Prop where
  id : state'.id = state.id
  depth : state'.depth = state.depth
  isBool : ∀ c ∈ state'.constraints, c.IsBool
  satisfies_iff : ∀ σ, Satisfies σ state'.constraints ↔ Satisfies σ state.constraints ∧ P σ

/-- `addConstraint` adds the condition, and changes no more of the executor than
the seeds of the state. -/
theorem addConstraint_adds (hcs : ∀ c ∈ state.constraints, c.IsBool) (he : condition.IsBool)
    (h : ex.addConstraint state condition = some (ex', state')) :
    Adds (fun σ => condition.Holds σ) state state'
      ∧ ∃ seeds, ex' = { ex with seedMap := Function.update ex.seedMap state.id seeds } := by
  unfold addConstraint at h
  split at h
  next CE =>
    split at h
    next htrue =>
      obtain ⟨rfl, rfl⟩ := Prod.mk.inj (Option.some.inj h)
      refine ⟨⟨rfl, rfl, hcs, fun σ => ?_⟩, ex.seedMap state.id, ?_⟩
      · exact (and_iff_left htrue).symm
      · rw [Function.update_eq_self]
    next => exact absurd h (by simp)
  next =>
    simp only [bind, Option.bind_eq_some_iff] at h
    obtain ⟨seeds, -, constraints, hadd, heq⟩ := h
    obtain ⟨rfl, rfl⟩ := Prod.mk.inj (Option.some.inj heq)
    have hrep := ConstraintManager.addConstraint_represents hcs he
    rw [hadd] at hrep
    exact ⟨⟨rfl, rfl, hrep.1, fun σ => hrep.2 σ trivial⟩, seeds, rfl⟩

theorem branchCondition_isBool (he : condition.IsBool) (branch : Bool) :
    (branchCondition condition branch).IsBool := by
  cases branch with
  | true => exact he
  | false => exact he.createIsZero

theorem branchCondition_holds (he : condition.IsBool) (branch : Bool) (σ : Env) :
    (branchCondition condition branch).Holds σ ↔ (condition.Holds σ ↔ branch = true) := by
  cases branch with
  | true => exact (iff_true_right rfl).symm
  | false =>
    rw [branchCondition, if_neg (by simp), he.holds_createIsZero]
    exact (iff_false_right (by simp)).symm

/-- What is known of the state and the validity with which a stage of `fork` ends. -/
structure Decided (condition : Expr) (parent state : ExecutionState) (res : Validity) : Prop where
  isBool : ∀ c ∈ state.constraints, c.IsBool
  subset : ∀ σ, Satisfies σ state.constraints → Satisfies σ parent.constraints
  validity : match res with
    | .True => ∀ σ, Satisfies σ state.constraints → condition.Holds σ
    | .False => ∀ σ, Satisfies σ state.constraints → ¬condition.Holds σ
    | .Unknown => True

variable {res res' : Validity} {isInternal getBool atStaticLimit t f t' f' : Bool}
  {seeds : List SeedInfo} {r : ForkResult}

theorem takeBranch_decided (hcs : ∀ c ∈ state.constraints, c.IsBool) (he : condition.IsBool)
    {branch : Bool} (h : ex.takeBranch state condition branch = some (ex', state', res)) :
    Decided condition state state' res := by
  simp only [takeBranch, bind, Option.bind_eq_some_iff] at h
  obtain ⟨⟨ex₁, state₁⟩, hadd, heq⟩ := h
  simp only [Option.some.injEq, Prod.mk.injEq] at heq
  obtain ⟨rfl, rfl, rfl⟩ := heq
  obtain ⟨hadds, -⟩ := addConstraint_adds hcs (branchCondition_isBool he branch) hadd
  have hholds : ∀ σ, Satisfies σ state₁.constraints → (condition.Holds σ ↔ branch = true) :=
    fun σ hσ => (branchCondition_holds he branch σ).mp ((hadds.satisfies_iff σ).mp hσ).2
  refine ⟨hadds.isBool, fun σ hσ => ((hadds.satisfies_iff σ).mp hσ).1, ?_⟩
  cases branch with
  | true => exact fun σ hσ => (hholds σ hσ).mpr rfl
  | false => exact fun σ hσ hc => absurd ((hholds σ hσ).mp hc) (by simp)

/-- The solver's answer decides. -/
theorem evaluate_decided (hsolver : ex.solver.solver.Correct)
    (hcs : ∀ c ∈ state.constraints, c.IsBool) (he : condition.IsBool)
    (h : ex.solver.evaluate state.constraints condition = some res) :
    Decided condition state state res := by
  have hvalid : ∀ σ, Satisfies σ state.constraints →
      (⟨state.constraints, condition⟩ : Query).HasValidity res :=
    fun σ hσ => TimingSolver.evaluate_sound hsolver ⟨σ, hσ⟩ hcs he h
  refine ⟨hcs, fun σ hσ => hσ, ?_⟩
  cases res with
  | True => exact fun σ hσ => hvalid σ hσ σ hσ
  | False => exact fun σ hσ => hvalid σ hσ σ hσ
  | Unknown => trivial

theorem decideByReplay_decided (he : condition.IsBool) (hres : Decided condition state state res)
    (h : ex.decideByReplay state condition isInternal getBool res = some (ex', state', res')) :
    Decided condition state state' res' := by
  have hkeep : ∀ {e : Executor}, some (e, state, res) = some (ex', state', res') →
      Decided condition state state' res' := by
    intro e heq
    simp only [Option.some.injEq, Prod.mk.injEq] at heq
    obtain ⟨-, rfl, rfl⟩ := heq
    exact hres
  unfold decideByReplay at h
  split at h
  next replayPath _ =>
    simp only [bind, Option.bind_eq_some_iff] at h
    obtain ⟨branch, -, h⟩ := h
    cases res with
    | True =>
      cases branch with
      | true => exact hkeep h
      | false => exact absurd h (by simp)
    | False =>
      cases branch with
      | true => exact absurd h (by simp)
      | false => exact hkeep h
    | Unknown => exact takeBranch_decided hres.isBool he h
  next =>
    split at h
    next =>
      split at h
      next => exact absurd h (by simp)
      next =>
        split at h
        next => exact takeBranch_decided hres.isBool he h
        next => exact hkeep h
    next => exact hkeep h

theorem decideBySeeds_decided (he : condition.IsBool) (hres : Decided condition state state res)
    (h : ex.decideBySeeds state condition seeds res = some (ex', state', res')) :
    Decided condition state state' res' := by
  unfold decideBySeeds at h
  split at h
  next =>
    simp only [bind, Option.bind_eq_some_iff] at h
    obtain ⟨⟨trueSeed, falseSeed⟩, -, h⟩ := h
    dsimp only at h
    split at h
    next =>
      simp only [Option.some.injEq, Prod.mk.injEq] at h
      obtain ⟨-, rfl, rfl⟩ := h
      exact hres
    next =>
      split at h
      next => exact takeBranch_decided hres.isBool he h
      next => exact absurd h (by simp)
  next =>
    simp only [Option.some.injEq, Prod.mk.injEq] at h
    obtain ⟨-, rfl, rfl⟩ := h
    exact hres

/-! ### The states returned -/


theorem distributeSeeds_eq {trueState falseState : ExecutionState}
    (h : ex.distributeSeeds state condition trueState falseState = some ex') :
    ∃ seedMap, ex' = { ex with seedMap := seedMap } := by
  unfold distributeSeeds at h
  split at h
  next =>
    obtain rfl := Option.some.inj h
    exact ⟨ex.seedMap, rfl⟩
  next =>
    simp only [bind, Option.bind_eq_some_iff] at h
    obtain ⟨⟨trueSeeds, falseSeeds⟩, -, heq⟩ := h
    obtain rfl := Option.some.inj heq
    exact ⟨_, rfl⟩

/-- The two halves of a split state, unless the depth limit takes them. -/
theorem splitState_spec (hcs : ∀ c ∈ state.constraints, c.IsBool) (he : condition.IsBool)
    (h : ex.splitState state condition getBool = some r) :
    ∃ t f : ExecutionState,
      (∀ σ, Satisfies σ t.constraints ↔ Satisfies σ state.constraints ∧ condition.Holds σ)
      ∧ (∀ σ, Satisfies σ f.constraints ↔ Satisfies σ state.constraints ∧ ¬condition.Holds σ)
      ∧ if ex.MaxDepth ≠ 0 ∧ ex.MaxDepth ≤ state.depth + 1 then
          r.trueState = none ∧ r.falseState = none
        else r.trueState = some t ∧ r.falseState = some f := by
  simp only [splitState, bind, Option.bind_eq_some_iff] at h
  obtain ⟨ex₁, hdist, ⟨ex₂, t⟩, ht, ⟨ex₃, f⟩, hf, hr⟩ := h
  obtain ⟨m₁, rfl⟩ := distributeSeeds_eq hdist
  generalize hT : (if (ex.addState.RandomizeFork && getBool) = true then _ else _ :
    ExecutionState) = T at ht
  generalize hF : (if (ex.addState.RandomizeFork && getBool) = true then _ else _ :
    ExecutionState) = F at hf
  -- both halves start with the constraints of the parent, one level deeper
  have hstates : (T.constraints = state.constraints ∧ T.depth = state.depth + 1)
      ∧ F.constraints = state.constraints := by
    rw [← hT, ← hF]
    cases ex.addState.RandomizeFork && getBool with
    | true => exact ⟨⟨rfl, rfl⟩, rfl⟩
    | false => exact ⟨⟨rfl, rfl⟩, rfl⟩
  obtain ⟨⟨htc, htd⟩, hfc⟩ := hstates
  obtain ⟨hadd, m₂, rfl⟩ := addConstraint_adds (htc ▸ hcs) he ht
  obtain ⟨hadd', m₃, rfl⟩ := addConstraint_adds (hfc ▸ hcs) he.createIsZero hf
  refine ⟨t, f, fun σ => ?_, fun σ => ?_, ?_⟩
  · rw [hadd.satisfies_iff, htc]
  · rw [hadd'.satisfies_iff, hfc, he.holds_createIsZero]
  · dsimp only at hr
    rw [hadd.depth, htd, show ex.addState.MaxDepth = ex.MaxDepth from rfl] at hr
    split at hr
    next hdepth =>
      obtain rfl := Option.some.inj hr
      rw [if_pos hdepth]
      exact ⟨rfl, rfl⟩
    next hdepth =>
      obtain rfl := Option.some.inj hr
      rw [if_neg hdepth]
      exact ⟨rfl, rfl⟩

theorem splitState_sound (hcs : ∀ c ∈ state.constraints, c.IsBool) (he : condition.IsBool)
    (h : ex.splitState state condition getBool = some r) :
    r.Sound state.constraints condition := by
  obtain ⟨t, f, ht, hf, hr⟩ := splitState_spec hcs he h
  split at hr
  next =>
    obtain ⟨h1, h2⟩ := hr
    exact ⟨fun s hs => by simp [h1] at hs, fun s hs => by simp [h2] at hs⟩
  next =>
    obtain ⟨h1, h2⟩ := hr
    refine ⟨fun s hs σ hσ => ?_, fun s hs σ hσ => ?_⟩
    · obtain rfl : t = s := Option.some.inj (h1.symm.trans hs)
      exact (ht σ).mp hσ
    · obtain rfl : f = s := Option.some.inj (h2.symm.trans hs)
      exact (hf σ).mp hσ

theorem splitState_covers (hcs : ∀ c ∈ state.constraints, c.IsBool) (he : condition.IsBool)
    (h : ex.splitState state condition getBool = some r)
    (hdepth : ¬(ex.MaxDepth ≠ 0 ∧ ex.MaxDepth ≤ state.depth + 1)) :
    r.Covers state.constraints := by
  obtain ⟨t, f, ht, hf, hr⟩ := splitState_spec hcs he h
  rw [if_neg hdepth] at hr
  intro σ hσ
  by_cases hc : condition.Holds σ
  · exact ⟨t, .inl hr.1, (ht σ).mpr ⟨hσ, hc⟩⟩
  · exact ⟨f, .inr hr.2, (hf σ).mpr ⟨hσ, hc⟩⟩

/-- What a decided state becomes. -/
theorem forkResult_sound {parent : ExecutionState} (he : condition.IsBool)
    (hres : Decided condition parent state res)
    (h : ex.forkResult state condition getBool res = some r) :
    r.Sound parent.constraints condition := by
  cases res with
  | True =>
    obtain rfl := Option.some.inj h
    refine ⟨fun s hs σ hσ => ?_, fun s hs => by simp at hs⟩
    obtain rfl : state = s := Option.some.inj hs
    exact ⟨hres.subset σ hσ, hres.validity σ hσ⟩
  | False =>
    obtain rfl := Option.some.inj h
    refine ⟨fun s hs => by simp at hs, fun s hs σ hσ => ?_⟩
    obtain rfl : state = s := Option.some.inj hs
    exact ⟨hres.subset σ hσ, hres.validity σ hσ⟩
  | Unknown =>
    have hsound := splitState_sound hres.isBool he h
    exact ⟨fun s hs σ hσ => ⟨hres.subset σ (hsound.trueState s hs σ hσ).1,
        (hsound.trueState s hs σ hσ).2⟩,
      fun s hs σ hσ => ⟨hres.subset σ (hsound.falseState s hs σ hσ).1,
        (hsound.falseState s hs σ hσ).2⟩⟩

theorem decideBranch_decided (he : condition.IsBool) (hres : Decided condition state state res)
    (h : ex.decideBranch state condition isInternal getBool res = some (ex', state', res')) :
    Decided condition state state' res' := by
  unfold decideBranch at h
  split at h
  next => exact decideByReplay_decided he hres h
  next => exact decideBySeeds_decided he hres h

theorem forkEvaluated_sound (hsolver : ex.solver.solver.Correct)
    (hcs : ∀ c ∈ state.constraints, c.IsBool) (he : condition.IsBool)
    (h : ex.forkEvaluated state condition isInternal getBool = some r) :
    r.Sound state.constraints condition := by
  unfold forkEvaluated at h
  split at h
  next =>
    obtain rfl := Option.some.inj h
    exact ⟨fun s hs => by simp at hs, fun s hs => by simp at hs⟩
  next res hres =>
    simp only [bind, Option.bind_eq_some_iff] at h
    obtain ⟨⟨ex₁, state₁, res₁⟩, hdec, hr⟩ := h
    exact forkResult_sound he
      (decideBranch_decided he (evaluate_decided hsolver hcs he hres) hdec) hr

/-- The solver's values have the width of the expression they are a value of. -/
def ValueWidths (solver : SolverImpl) : Prop :=
  ∀ q value, q.expr.WellTyped → solver.computeValue q = some (.Constant value) →
    value.width = q.expr.width

theorem getValue_width {solver : TimingSolver} (hwidths : ValueWidths solver.solver)
    {constraints : List Expr} (hcs : ∀ c ∈ constraints, c.IsBool) {e : Expr} (he : e.WellTyped)
    {value : APInt} (h : solver.getValue constraints e = some value) : value.width = e.width := by
  have hsame := TimingSolver.query_same solver hcs he
  have hquery : Solver.getValue solver.solver (solver.query constraints e) = some value →
      value.width = e.width := by
    intro h
    unfold Solver.getValue at h
    split at h
    next CE hCE =>
      obtain rfl := Option.some.inj h
      rw [← hsame.width, hCE, Expr.width_Constant]
    next =>
      split at h
      next c hc =>
        obtain rfl := Option.some.inj h
        rw [hwidths _ _ hsame.wellTyped hc, hsame.width]
      next => exact absurd h (by simp)
  unfold TimingSolver.getValue at h
  split at h
  next CE =>
    obtain rfl := Option.some.inj h
    rfl
  next => exact hquery h

theorem forkStatic_sound (hsolver : ex.solver.solver.Correct)
    (hwidths : ValueWidths ex.solver.solver) (hcs : ∀ c ∈ state.constraints, c.IsBool)
    (he : condition.IsBool)
    (h : ex.forkStatic state condition isInternal atStaticLimit getBool = some r) :
    r.Sound state.constraints condition := by
  unfold forkStatic at h
  split at h
  next =>
    simp only [bind, Option.bind_eq_some_iff] at h
    obtain ⟨value, hvalue, ⟨ex₁, state₁⟩, hadd, hr⟩ := h
    have hw := (getValue_width hwidths hcs he.1 hvalue).trans he.2
    obtain ⟨x, rfl⟩ := APInt.eq_mk_of_width hw
    -- the value that was picked stands for the condition
    have heq : ∀ σ, Denotes σ (EqExpr.create (.Constant ⟨1, x⟩) condition)
        (BitVec.ofBool (x == BitVec.ofBool (decide (condition.Holds σ)))) :=
      fun σ => EqExpr.create_denotes (denotes_const Nat.one_pos x) (he.denotes σ)
    have hbool : (EqExpr.create (.Constant ⟨1, x⟩) condition).IsBool :=
      ⟨(heq (fun _ _ => 0)).1, (heq (fun _ _ => 0)).width_eq⟩
    obtain ⟨hadds, seeds, rfl⟩ := addConstraint_adds hcs hbool hadd
    have hconst : (Expr.Constant ⟨1, x⟩).IsBool := ⟨Nat.one_pos, rfl⟩
    have hsound : r.Sound state₁.constraints (.Constant ⟨1, x⟩) := by
      refine forkEvaluated_sound ?_ hadds.isBool hconst hr
      exact hsolver
    have hholds : ∀ σ, Satisfies σ state₁.constraints → Satisfies σ state.constraints
        ∧ ((Expr.Constant ⟨1, x⟩).Holds σ ↔ condition.Holds σ) := by
      intro σ hσ
      obtain ⟨hparent, hval⟩ := (hadds.satisfies_iff σ).mp hσ
      refine ⟨hparent, ?_⟩
      rw [(heq σ).holds_iff, beq_iff_eq] at hval
      rw [Expr.Holds, Expr.eval_Constant, hval, isTrue_mk_ofBool, decide_eq_true_iff]
    refine ⟨fun s hs σ hσ => ?_, fun s hs σ hσ => ?_⟩
    · obtain ⟨h1, h2⟩ := hsound.trueState s hs σ hσ
      exact ⟨(hholds σ h1).1, (hholds σ h1).2.mp h2⟩
    · obtain ⟨h1, h2⟩ := hsound.falseState s hs σ hσ
      exact ⟨(hholds σ h1).1, fun hc => h2 ((hholds σ h1).2.mpr hc)⟩
  next => exact forkEvaluated_sound hsolver hcs he h

/-- The returned states keep to the parent and to their side of the condition. -/
theorem fork_sound (hsolver : ex.solver.solver.Correct) (hwidths : ValueWidths ex.solver.solver)
    (hcs : ∀ c ∈ state.constraints, c.IsBool) (he : condition.IsBool)
    (h : ex.fork state condition isInternal atStaticLimit getBool = some r) :
    r.Sound state.constraints condition := by
  unfold fork at h
  split at h
  next =>
    simp only [bind, Option.bind_eq_some_iff] at h
    obtain ⟨branch, -, ⟨ex₁, state₁, res⟩, htake, hr⟩ := h
    exact forkResult_sound he (takeBranch_decided hcs he htake) hr
  next => exact forkStatic_sound hsolver hwidths hcs he h

/-! ### Covering the parent -/

/-- Nothing but the solver decides a condition that it calls unknown: no replay
path and no suppression outside seeding, no only-replay-seed mode with seeds that
agree, and no depth limit. -/
structure SplitsUnknown (ex : Executor) (current : ExecutionState) (condition : Expr)
    (isInternal : Bool) : Prop where
  replay : ex.seedMap current.id = none → ex.replayPath = none ∨ isInternal = true
  inhibit : ex.seedMap current.id = none → ex.inhibits current = false
  seeds : ∀ seeds, ex.seedMap current.id = some seeds →
    (current.forkDisabled || ex.OnlyReplaySeeds) = true →
    ∀ branch, ∃ siit ∈ seeds, ex.seedBranch current condition siit = some branch
  depth : ¬(ex.MaxDepth ≠ 0 ∧ ex.MaxDepth ≤ current.depth + 1)

/-- No mode decides the branch: neither the single-path mode nor a static limit,
the solver answers, and what it calls unknown is split. -/
structure Undecided (ex : Executor) (current : ExecutionState) (condition : Expr)
    (isInternal atStaticLimit : Bool) : Prop where
  singlePath : ex.enableFork = true ∨ (ex.seedMap current.id).getD [] = []
  staticLimit : atStaticLimit = true →
    condition.isConstant = true ∨ ex.seedMap current.id ≠ none
  answered : ex.solver.evaluate current.constraints condition ≠ none
  unknown : ex.solver.evaluate current.constraints condition = some .Unknown →
    ex.SplitsUnknown current condition isInternal

/-- A seed of a branch is found if there is one. -/
theorem scanSeeds_iff (h : ex.scanSeeds state condition seeds t f = some (t', f')) :
    (t' = true ↔ t = true ∨ ∃ siit ∈ seeds, ex.seedBranch state condition siit = some true)
      ∧ (f' = true ↔ f = true ∨ ∃ siit ∈ seeds, ex.seedBranch state condition siit = some false) := by
  induction seeds generalizing t f with
  | nil =>
    obtain ⟨rfl, rfl⟩ := Prod.mk.inj (Option.some.inj h)
    simp
  | cons siit seeds ih =>
    simp only [scanSeeds, bind, Option.bind_eq_some_iff] at h
    obtain ⟨branch, hbranch, h⟩ := h
    split at h
    next hboth =>
      -- the loop stops here
      obtain ⟨rfl, rfl⟩ := Prod.mk.inj (Option.some.inj h)
      simp only [Bool.and_eq_true, Bool.or_eq_true, Bool.not_eq_true'] at hboth
      obtain ⟨ht, hf⟩ := hboth
      cases branch with
      | true =>
        have hf' : f = true := hf.resolve_right (by simp)
        simp [hbranch, hf']
      | false =>
        have ht' : t = true := ht.resolve_right (by simp)
        simp [hbranch, ht']
    next =>
      obtain ⟨h1, h2⟩ := ih h
      rw [h1, h2]
      cases branch <;> simp [hbranch]

/-- When the scan goes through, every seed takes a branch. -/
theorem scanSeeds_total (h : ex.scanSeeds state condition seeds t f = some (t', f'))
    (hone : ¬(t' && f') = true) :
    ∀ siit ∈ seeds, ∃ b, ex.seedBranch state condition siit = some b := by
  induction seeds generalizing t f with
  | nil => simp
  | cons siit seeds ih =>
    simp only [scanSeeds, bind, Option.bind_eq_some_iff] at h
    obtain ⟨branch, hbranch, h⟩ := h
    split at h
    next hboth =>
      obtain ⟨rfl, rfl⟩ := Prod.mk.inj (Option.some.inj h)
      exact absurd hboth hone
    next => exact List.forall_mem_cons.mpr ⟨⟨branch, hbranch⟩, ih h⟩

/-- A condition that nothing but the solver decides stays as the solver left it. -/
theorem decideBranch_keeps (hunknown : res = .Unknown → ex.SplitsUnknown state condition isInternal)
    (h : ex.decideBranch state condition isInternal getBool res = some (ex', state', res')) :
    state' = state ∧ res' = res ∧ ex'.MaxDepth = ex.MaxDepth := by
  have hkeep : ∀ {e : Executor}, some (e, state, res) = some (ex', state', res') →
      e.MaxDepth = ex.MaxDepth → state' = state ∧ res' = res ∧ ex'.MaxDepth = ex.MaxDepth := by
    intro e heq he
    simp only [Option.some.injEq, Prod.mk.injEq] at heq
    obtain ⟨rfl, rfl, rfl⟩ := heq
    exact ⟨rfl, rfl, he⟩
  unfold decideBranch at h
  split at h
  next hseed =>
    unfold decideByReplay at h
    split at h
    next replayPath hpath =>
      simp only [bind, Option.bind_eq_some_iff] at h
      obtain ⟨branch, -, h⟩ := h
      cases res with
      | True =>
        cases branch with
        | true => exact hkeep h rfl
        | false => exact absurd h (by simp)
      | False =>
        cases branch with
        | true => exact absurd h (by simp)
        | false => exact hkeep h rfl
      | Unknown =>
        rcases (hunknown rfl).replay hseed with h' | h'
        · exact absurd (hpath.symm.trans h') (by simp)
        · exact absurd h' (by simp)
    next =>
      split at h
      next hres =>
        split at h
        next => exact absurd h (by simp)
        next =>
          rw [if_neg (by simp [(hunknown hres).inhibit hseed])] at h
          exact hkeep h rfl
      next => exact hkeep h rfl
  next seeds hseed =>
    unfold decideBySeeds at h
    split at h
    next hboth =>
      obtain ⟨hmode, hres⟩ := Bool.and_eq_true_iff.mp hboth
      obtain rfl : res = .Unknown := by simpa using hres
      simp only [bind, Option.bind_eq_some_iff] at h
      obtain ⟨⟨t, f⟩, hscan, h⟩ := h
      obtain ⟨ht, hf⟩ := scanSeeds_iff hscan
      have hall := (hunknown rfl).seeds seeds hseed hmode
      have ht' : t = true := ht.mpr (.inr (hall true))
      have hf' : f = true := hf.mpr (.inr (hall false))
      subst ht' hf'
      exact hkeep h rfl
    next => exact hkeep h rfl

theorem forkEvaluated_covers (hcs : ∀ c ∈ state.constraints, c.IsBool) (he : condition.IsBool)
    (hanswered : ex.solver.evaluate state.constraints condition ≠ none)
    (hunknown : ex.solver.evaluate state.constraints condition = some .Unknown →
      ex.SplitsUnknown state condition isInternal)
    (h : ex.forkEvaluated state condition isInternal getBool = some r) :
    r.Covers state.constraints := by
  unfold forkEvaluated at h
  split at h
  next hnone => exact absurd hnone hanswered
  next res hres =>
    simp only [bind, Option.bind_eq_some_iff] at h
    obtain ⟨⟨ex₁, state₁, res₁⟩, hdec, hr⟩ := h
    have hsplits : res = .Unknown → ex.SplitsUnknown state condition isInternal :=
      fun heq => hunknown (heq ▸ hres)
    obtain ⟨rfl, rfl, hdepth⟩ := decideBranch_keeps hsplits hdec
    cases res₁ with
    | True =>
      obtain rfl := Option.some.inj hr
      exact fun σ hσ => ⟨state₁, .inl rfl, hσ⟩
    | False =>
      obtain rfl := Option.some.inj hr
      exact fun σ hσ => ⟨state₁, .inr rfl, hσ⟩
    | Unknown =>
      refine splitState_covers hcs he hr ?_
      dsimp only
      rw [hdepth]
      exact (hsplits rfl).depth

/-- Where no mode decides the branch, no assignment of the parent is lost. -/
theorem fork_covers (hcs : ∀ c ∈ state.constraints, c.IsBool) (he : condition.IsBool)
    (hund : ex.Undecided state condition isInternal atStaticLimit)
    (h : ex.fork state condition isInternal atStaticLimit getBool = some r) :
    r.Covers state.constraints := by
  unfold fork at h
  split at h
  next siit seeds hfork hseed =>
    rcases hund.singlePath with h' | h'
    · exact absurd (hfork.symm.trans h') (by simp)
    · rw [hseed] at h'
      exact absurd h' (by simp)
  next =>
    unfold forkStatic at h
    rw [if_neg] at h
    · exact forkEvaluated_covers hcs he hund.answered hund.unknown h
    · simp only [Bool.and_eq_true, Option.isNone_iff_eq_none, Bool.not_eq_true']
      rintro ⟨⟨hnone, hconst⟩, hlimit⟩
      rcases hund.staticLimit hlimit with h' | h'
      · exact absurd (hconst.symm.trans h') (by simp)
      · exact h' hnone

end Constraints

end Executor

end Xklee
