/-
Where the seeds go when a state forks.

In seeding mode `fork` gives every seed of the parent to one of the states it
returns: to the one whose branch the seed's assignment takes. The seeds
themselves do not change. `addConstraint` patches a seed only if the seed rules
the condition out, and a seed is never put on a side that it rules out.
-/
import Xklee.Core.Fork
import Xklee.Solver.CachingSolver

set_option autoImplicit false

namespace Xklee

/-- Each seed is with the state of its branch, and with no other. -/
def ForkResult.Distributes (r : ForkResult) (seeds : List SeedInfo) (branch : SeedInfo → Bool) :
    Prop :=
  r.seedsOf r.trueState = seeds.filter branch
    ∧ r.seedsOf r.falseState = seeds.filter (!branch ·)

/-- Every seed is with one returned state. For a seed that agrees with the
constraints of the parent and gives the condition a value it is the state of that
value. -/
def ForkResult.SeedsFollow (r : ForkResult) (parent : List Expr) (condition : Expr)
    (seeds : List SeedInfo) : Prop :=
  ∃ branch : SeedInfo → Bool, r.Distributes seeds branch
    ∧ ∀ siit ∈ seeds, (∃ σ, Satisfies (siit.extend σ) parent) →
      ∀ value, siit.evaluate condition = .Constant value → branch siit = value.isTrue

namespace Executor

section Seeds

variable {ex ex' : Executor} {state state' : ExecutionState} {condition : Expr}

/-- The seed allows the condition: some solution of the constraints satisfies
what the condition evaluates to. -/
def Allows (constraints : List Expr) (condition : Expr) (siit : SeedInfo) : Prop :=
  ∃ σ, Satisfies σ constraints ∧ (siit.evaluate condition).Holds σ

variable (hsolver : ex.solver.solver.Correct) (hsat : ∃ σ, Satisfies σ state.constraints)
  (hcs : ∀ c ∈ state.constraints, c.IsBool)

include hsolver hsat hcs

/-- A seed that allows the condition is not patched. -/
theorem patchViolated_eq (he : condition.IsBool) {siit siit' : SeedInfo} (hfits : siit.Fits)
    (hallows : Allows state.constraints condition siit)
    (h : patchViolated ex.solver state.constraints condition siit = some siit') : siit' = siit := by
  simp only [patchViolated, bind, Option.bind_eq_some_iff] at h
  obtain ⟨res, hres, h⟩ := h
  have hfalse := TimingSolver.mustBeFalse_sound hsolver hsat hcs
    (SeedInfo.evaluate_isBool hfits he) hres
  cases res with
  | true =>
    obtain ⟨σ, hσ, hholds⟩ := hallows
    exact absurd hholds (hfalse.mp rfl σ hσ)
  | false => exact (Option.some.inj h).symm

theorem mapM_patchViolated_eq (he : condition.IsBool) {seeds seeds' : List SeedInfo}
    (hfits : ∀ siit ∈ seeds, siit.Fits) (hallows : ∀ siit ∈ seeds, Allows state.constraints condition siit)
    (h : seeds.mapM (patchViolated ex.solver state.constraints condition) = some seeds') :
    seeds' = seeds := by
  induction seeds generalizing seeds' with
  | nil => simpa using h.symm
  | cons siit seeds ih =>
    obtain ⟨hfit, hfits⟩ := List.forall_mem_cons.mp hfits
    obtain ⟨hallow, hallows⟩ := List.forall_mem_cons.mp hallows
    rw [List.mapM_cons] at h
    simp only [bind, Option.bind_eq_some_iff, pure, Option.some.injEq] at h
    obtain ⟨siit', hsiit, rest, hrest, rfl⟩ := h
    rw [patchViolated_eq hsolver hsat hcs he hfit hallow hsiit, ih hfits hallows hrest]

/-- When its seeds allow the condition, adding the condition to a state leaves
the executor as it was. -/
theorem addConstraint_keeps (he : condition.IsBool)
    (hseeds : ∀ seeds, ex.seedMap state.id = some seeds →
      ∀ siit ∈ seeds, siit.Fits ∧ Allows state.constraints condition siit)
    (h : ex.addConstraint state condition = some (ex', state')) : ex' = ex := by
  unfold addConstraint at h
  split at h
  next CE =>
    split at h
    next => exact (Prod.mk.inj (Option.some.inj h)).1.symm
    next => exact absurd h (by simp)
  next =>
    simp only [bind, Option.bind_eq_some_iff] at h
    obtain ⟨seeds, hpatch, constraints, -, heq⟩ := h
    have hentry : seeds = ex.seedMap state.id := by
      unfold patchSeeds at hpatch
      split at hpatch
      next hnone => exact (Option.some.inj hpatch).symm.trans hnone.symm
      next seeds₀ hseeds₀ =>
        obtain ⟨seeds', hmap, rfl⟩ := Option.map_eq_some_iff.mp hpatch
        have hall := hseeds seeds₀ hseeds₀
        rw [mapM_patchViolated_eq hsolver hsat hcs he (fun s hs => (hall s hs).1)
          (fun s hs => (hall s hs).2) hmap, hseeds₀]
    obtain rfl := (Prod.mk.inj (Option.some.inj heq)).1
    rw [hentry, Function.update_eq_self]

/-- A seed allows the branch it takes. -/
theorem allows_of_seedBranch (he : condition.IsBool) {siit : SeedInfo} (hfits : siit.Fits)
    {branch : Bool} (h : ex.seedBranch state condition siit = some branch) :
    Allows state.constraints (branchCondition condition branch) siit := by
  obtain ⟨value, hvalue, rfl⟩ := Option.map_eq_some_iff.mp h
  have hbool := SeedInfo.evaluate_isBool hfits he
  obtain ⟨σ, hσ, rfl⟩ := TimingSolver.getValue_sound hsolver hsat hcs hbool.1 hvalue
  refine ⟨σ, hσ, ?_⟩
  cases hb : ((siit.evaluate condition).eval σ).isTrue with
  | true => exact hb
  | false =>
    refine (SeedInfo.visit_holds_createIsZero (SeedInfo.typed_initialValue hfits) he).mpr ?_
    intro hc
    exact absurd (hb.symm.trans hc) (by simp)

omit hsolver hsat hcs in
/-- The two lists hold the seeds of the two branches, in their old order. -/
theorem partitionSeeds_eq {branch : SeedInfo → Option Bool} {seeds t f : List SeedInfo}
    (h : partitionSeeds branch seeds = some (t, f)) :
    t = seeds.filter (branch · == some true) ∧ f = seeds.filter (!branch · == some true)
      ∧ ∀ siit ∈ seeds, ∃ b, branch siit = some b := by
  induction seeds generalizing t f with
  | nil =>
    obtain ⟨rfl, rfl⟩ := Prod.mk.inj (Option.some.inj h)
    simp
  | cons siit seeds ih =>
    simp only [partitionSeeds, bind, Option.bind_eq_some_iff] at h
    obtain ⟨res, hres, ⟨t', f'⟩, hrest, heq⟩ := h
    obtain ⟨rfl, rfl, hall⟩ := ih hrest
    cases res with
    | true =>
      obtain ⟨rfl, rfl⟩ := Prod.mk.inj (Option.some.inj heq)
      refine ⟨?_, ?_, List.forall_mem_cons.mpr ⟨⟨true, hres⟩, hall⟩⟩
      · simp [hres]
      · simp [hres]
    | false =>
      obtain ⟨rfl, rfl⟩ := Prod.mk.inj (Option.some.inj heq)
      refine ⟨?_, ?_, List.forall_mem_cons.mpr ⟨⟨false, hres⟩, hall⟩⟩
      · simp [hres]
      · simp [hres]

omit hsolver hsat hcs in
theorem seedEntry_getD (seeds : List SeedInfo) : (seedEntry seeds).getD [] = seeds := by
  cases seeds with
  | nil => rfl
  | cons siit seeds => rfl

omit hsolver hsat hcs in
theorem mem_of_seedEntry {seeds seeds' : List SeedInfo} (h : seedEntry seeds = some seeds') :
    seeds' = seeds := by
  cases seeds with
  | nil => simp [seedEntry] at h
  | cons siit seeds => exact (Option.some.inj h).symm

/-- The seeds of the two halves of a split state. -/
theorem distributeSeeds_spec (he : condition.IsBool) {current t f t' f' : ExecutionState}
    {ex₁ ex₂ ex₃ : Executor} {seeds : List SeedInfo}
    (hcurrent : current.constraints = state.constraints)
    (htc : t.constraints = state.constraints) (hfc : f.constraints = state.constraints)
    (hne : t.id ≠ f.id) (hseeds : ex.seedMap current.id = some seeds)
    (hfits : ∀ siit ∈ seeds, siit.Fits)
    (hdist : ex.distributeSeeds current condition t f = some ex₁)
    (ht : ex₁.addConstraint t condition = some (ex₂, t'))
    (hf : ex₂.addConstraint f condition.createIsZero = some (ex₃, f')) :
    (ex₃.seedMap t.id).getD [] = seeds.filter (ex.seedBranch state condition · == some true)
      ∧ (ex₃.seedMap f.id).getD []
        = seeds.filter (!ex.seedBranch state condition · == some true) := by
  unfold distributeSeeds at hdist
  rw [hseeds] at hdist
  simp only [bind, Option.bind_eq_some_iff] at hdist
  obtain ⟨⟨ts, fs⟩, hpart, heq⟩ := hdist
  have hbranch : ex.seedBranch current condition = ex.seedBranch state condition := by
    unfold seedBranch
    rw [hcurrent]
  rw [hbranch] at hpart
  obtain ⟨hts, hfs, hall⟩ := partitionSeeds_eq hpart
  have hsolver₁ : ex₁.solver.solver.Correct := by
    rw [← Option.some.inj heq]
    exact hsolver
  have hmap_t : ex₁.seedMap t.id = seedEntry ts := by
    rw [← Option.some.inj heq]
    exact (Function.update_of_ne hne ..).trans (Function.update_self ..)
  have hmap_f : ex₁.seedMap f.id = seedEntry fs := by
    rw [← Option.some.inj heq]
    exact Function.update_self ..
  -- neither half patches a seed
  have hkeep_t : ex₂ = ex₁ := by
    refine addConstraint_keeps hsolver₁ (htc ▸ hsat) (htc ▸ hcs) he ?_ ht
    intro seeds' hseeds' siit hsiit
    obtain rfl := mem_of_seedEntry (hmap_t.symm.trans hseeds')
    rw [hts] at hsiit
    obtain ⟨hmem, hb⟩ := List.mem_filter.mp hsiit
    refine ⟨hfits siit hmem, ?_⟩
    rw [htc]
    exact allows_of_seedBranch hsolver hsat hcs he (hfits siit hmem) (beq_iff_eq.mp hb)
  subst hkeep_t
  have hkeep_f : ex₃ = ex₂ := by
    refine addConstraint_keeps hsolver₁ (hfc ▸ hsat) (hfc ▸ hcs) he.createIsZero ?_ hf
    intro seeds' hseeds' siit hsiit
    obtain rfl := mem_of_seedEntry (hmap_f.symm.trans hseeds')
    rw [hfs] at hsiit
    obtain ⟨hmem, hb⟩ := List.mem_filter.mp hsiit
    obtain ⟨b, hb'⟩ := hall siit hmem
    obtain rfl : b = false := by
      rw [hb'] at hb
      cases b <;> simp_all
    refine ⟨hfits siit hmem, ?_⟩
    rw [hfc]
    exact allows_of_seedBranch hsolver hsat hcs he (hfits siit hmem) hb'
  subst hkeep_f
  rw [hmap_t, hmap_f, seedEntry_getD, seedEntry_getD]
  exact ⟨hts, hfs⟩

theorem splitState_distributes (he : condition.IsBool) {getBool : Bool} {r : ForkResult}
    {seeds : List SeedInfo} (hid : state.id ≤ ex.stateID)
    (hseeds : ex.seedMap state.id = some seeds) (hfits : ∀ siit ∈ seeds, siit.Fits)
    (h : ex.splitState state condition getBool = some r)
    (hreturned : ¬(r.trueState = none ∧ r.falseState = none)) :
    r.Distributes seeds (ex.seedBranch state condition · == some true) := by
  have hnew : state.id ≠ ex.stateID + 1 := by omega
  simp only [splitState, bind, Option.bind_eq_some_iff] at h
  obtain ⟨ex₁, hdist, ⟨ex₂, t⟩, ht, ⟨ex₃, f⟩, hf, hr⟩ := h
  dsimp only at hf hr
  -- the two states before the condition is added to them
  generalize hT : (if (ex.addState.RandomizeFork && getBool) = true then _ else _ :
    ExecutionState) = T
    at hdist ht
  generalize hF : (if (ex.addState.RandomizeFork && getBool) = true then _ else _ :
    ExecutionState) = F
    at hdist hf
  have hstates : T.constraints = state.constraints ∧ F.constraints = state.constraints
      ∧ T.id ≠ F.id := by
    rw [← hT, ← hF]
    cases ex.addState.RandomizeFork && getBool with
    | true => exact ⟨rfl, rfl, hnew.symm⟩
    | false => exact ⟨rfl, rfl, hnew⟩
  obtain ⟨hTc, hFc, hne⟩ := hstates
  have hspec := @distributeSeeds_spec ex.addState state condition hsolver hsat hcs he
    _ _ _ _ _ _ _ _ seeds rfl hTc hFc hne hseeds hfits hdist ht hf
  have htid := (addConstraint_adds (hTc ▸ hcs) he ht).1.id
  have hfid := (addConstraint_adds (hFc ▸ hcs) he.createIsZero hf).1.id
  split at hr
  next =>
    obtain rfl := Option.some.inj hr
    exact absurd ⟨rfl, rfl⟩ hreturned
  next =>
    obtain rfl := Option.some.inj hr
    refine ⟨?_, ?_⟩
    · change (ex₃.seedMap t.id).getD [] = _
      rw [htid]
      exact hspec.1
    · change (ex₃.seedMap f.id).getD [] = _
      rw [hfid]
      exact hspec.2

omit hsolver hsat hcs in
/-- A state that keeps all its seeds. -/
theorem distributes_all {r : ForkResult} {seeds : List SeedInfo} (branch : Bool)
    (hseeds : r.executor.seedMap state.id = some seeds)
    (htrue : r.trueState = if branch then some state else none)
    (hfalse : r.falseState = if branch then none else some state) :
    r.Distributes seeds (fun _ => branch) := by
  have hall : r.seedsOf (some state) = seeds := by
    rw [ForkResult.seedsOf, Option.bind_some, hseeds]
    rfl
  rw [ForkResult.Distributes, htrue, hfalse]
  cases branch with
  | true => exact ⟨hall.trans (by simp), by simp [ForkResult.seedsOf]⟩
  | false => exact ⟨by simp [ForkResult.seedsOf], hall.trans (by simp)⟩

omit hsolver hsat hcs in
theorem seedBranch_of_constant {siit : SeedInfo} {value : APInt}
    (h : siit.evaluate condition = .Constant value) :
    ex.seedBranch state condition siit = some value.isTrue := by
  rw [seedBranch, h]
  rfl

/-- The seeds when the solver's answer, or that of agreeing seeds, decides. -/
theorem decideBySeeds_follow (he : condition.IsBool) {getBool : Bool} {r : ForkResult}
    {seeds : List SeedInfo} {res res' : Validity} (hid : state.id ≤ ex.stateID)
    (hseeds : ex.seedMap state.id = some seeds) (hfits : ∀ siit ∈ seeds, siit.Fits)
    (hres : Decided condition state state res)
    (hdec : ex.decideBySeeds state condition seeds res = some (ex', state', res'))
    (hr : ex'.forkResult state' condition getBool res' = some r)
    (hreturned : ¬(r.trueState = none ∧ r.falseState = none)) :
    r.SeedsFollow state.constraints condition seeds := by
  have hkeep : some (ex, state, res) = some (ex', state', res') →
      r.SeedsFollow state.constraints condition seeds := by
    intro heq
    simp only [Option.some.injEq, Prod.mk.injEq] at heq
    obtain ⟨rfl, rfl, rfl⟩ := heq
    cases res with
    | True =>
      obtain rfl := Option.some.inj hr
      refine ⟨fun _ => true, distributes_all true hseeds rfl rfl, ?_⟩
      rintro siit hsiit ⟨σ, hσ⟩ value hvalue
      have hval := SeedInfo.eval_of_evaluate (hfits siit hsiit) he.1 hvalue σ
      have hholds : condition.Holds (siit.extend σ) := hres.validity _ hσ
      rw [hval]
      exact hholds.symm
    | False =>
      obtain rfl := Option.some.inj hr
      refine ⟨fun _ => false, distributes_all false hseeds rfl rfl, ?_⟩
      rintro siit hsiit ⟨σ, hσ⟩ value hvalue
      have hval := SeedInfo.eval_of_evaluate (hfits siit hsiit) he.1 hvalue σ
      have hholds : ¬condition.Holds (siit.extend σ) := hres.validity _ hσ
      rw [hval]
      exact (Bool.eq_false_iff.mpr hholds).symm
    | Unknown =>
      refine ⟨_, splitState_distributes hsolver hsat hcs he hid hseeds hfits hr hreturned, ?_⟩
      rintro siit hsiit - value hvalue
      rw [seedBranch_of_constant hvalue]
      cases value.isTrue <;> rfl
  unfold decideBySeeds at hdec
  split at hdec
  next =>
    simp only [bind, Option.bind_eq_some_iff] at hdec
    obtain ⟨⟨t, f⟩, hscan, hdec⟩ := hdec
    dsimp only at hdec
    split at hdec
    next => exact hkeep hdec
    next hone =>
      split at hdec
      next hsome =>
        -- all seeds take the branch `t`
        have hall := scanSeeds_total hscan hone
        obtain ⟨ht, hf⟩ := scanSeeds_iff hscan
        have hbranch : ∀ siit ∈ seeds, ex.seedBranch state condition siit = some t := by
          intro siit hsiit
          obtain ⟨b, hb⟩ := hall siit hsiit
          cases b with
          | true =>
            have : t = true := ht.mpr (.inr ⟨siit, hsiit, hb⟩)
            rw [hb, this]
          | false =>
            have hf' : f = true := hf.mpr (.inr ⟨siit, hsiit, hb⟩)
            have : t = false := by simpa [hf'] using hone
            rw [hb, this]
        simp only [takeBranch, bind, Option.bind_eq_some_iff] at hdec
        obtain ⟨⟨ex₁, state₁⟩, hadd, heq⟩ := hdec
        simp only [Option.some.injEq, Prod.mk.injEq] at heq
        obtain ⟨rfl, rfl, rfl⟩ := heq
        have hid₁ := (addConstraint_adds hcs (branchCondition_isBool he t) hadd).1.id
        have hsame := addConstraint_keeps hsolver hsat hcs (branchCondition_isBool he t) (by
          intro seeds' hseeds' siit hsiit
          obtain rfl := Option.some.inj (hseeds.symm.trans hseeds')
          exact ⟨hfits siit hsiit, allows_of_seedBranch hsolver hsat hcs he (hfits siit hsiit)
            (hbranch siit hsiit)⟩) hadd
        subst hsame
        have hseeds₁ : ex₁.seedMap state₁.id = some seeds := by rw [hid₁]; exact hseeds
        refine ⟨fun _ => t, ?_, ?_⟩
        · cases t with
          | true =>
            obtain rfl := Option.some.inj hr
            exact distributes_all true hseeds₁ rfl rfl
          | false =>
            obtain rfl := Option.some.inj hr
            exact distributes_all false hseeds₁ rfl rfl
        · rintro siit hsiit - value hvalue
          have := (hbranch siit hsiit).symm.trans (seedBranch_of_constant hvalue)
          exact Option.some.inj this
      next => exact absurd hdec (by simp)
  next => exact hkeep hdec

/-- Outside single-path mode the seeds follow their branches into the states that
`fork` returns. -/
theorem fork_seedsFollow (he : condition.IsBool) {isInternal atStaticLimit getBool : Bool}
    {r : ForkResult} {seeds : List SeedInfo} (henable : ex.enableFork = true)
    (hid : state.id ≤ ex.stateID) (hseeds : ex.seedMap state.id = some seeds)
    (hfits : ∀ siit ∈ seeds, siit.Fits)
    (h : ex.fork state condition isInternal atStaticLimit getBool = some r)
    (hreturned : ¬(r.trueState = none ∧ r.falseState = none)) :
    r.SeedsFollow state.constraints condition seeds := by
  unfold fork at h
  split at h
  next hfork _ => exact absurd (hfork.symm.trans henable) (by simp)
  next =>
    unfold forkStatic at h
    rw [if_neg (by simp [hseeds])] at h
    unfold forkEvaluated at h
    split at h
    next =>
      obtain rfl := Option.some.inj h
      exact absurd ⟨rfl, rfl⟩ hreturned
    next res hres =>
      simp only [bind, Option.bind_eq_some_iff] at h
      obtain ⟨⟨ex₁, state₁, res₁⟩, hdec, hr⟩ := h
      unfold decideBranch at hdec
      rw [hseeds] at hdec
      exact decideBySeeds_follow hsolver hsat hcs he hid hseeds hfits
        (evaluate_decided hsolver hcs he hres) hdec hr hreturned

end Seeds

/-! ## Forking -/

section Fork

variable {ex : Executor} {state : ExecutionState} {condition : Expr}

/-- What holds while the executor runs a state: its constraints are Bool, its id
was given out before, and its seeds fit their arrays. -/
structure Runs (ex : Executor) (state : ExecutionState) : Prop where
  isBool : ∀ c ∈ state.constraints, c.IsBool
  id : state.id ≤ ex.stateID
  fits : ∀ seeds, ex.seedMap state.id = some seeds → ∀ siit ∈ seeds, siit.Fits

/-- Adding what the constraints allow does not fail, without seeds to look at. -/
theorem addConstraint_returns (hcs : ∀ c ∈ state.constraints, c.IsBool) (he : condition.IsBool)
    (hseeds : ex.seedMap state.id = none)
    (hsat : ∃ σ, Satisfies σ state.constraints ∧ condition.Holds σ) :
    ∃ state', ex.addConstraint state condition = some (ex, state') := by
  obtain ⟨σ, hσ, hholds⟩ := hsat
  unfold addConstraint
  split
  next CE => exact ⟨state, if_pos hholds⟩
  next =>
    have hrep := ConstraintManager.addConstraint_represents hcs he
    cases hadd : ConstraintManager.addConstraint state.constraints condition with
    | none =>
      rw [hadd] at hrep
      exact absurd ⟨hσ, hholds⟩ (hrep σ trivial)
    | some r =>
      refine ⟨{ state with constraints := r }, ?_⟩
      have hkeep : Function.update ex.seedMap state.id none = ex.seedMap := by
        rw [← hseeds, Function.update_eq_self]
      simp only [patchSeeds, hseeds, bind, Option.bind_some, hkeep]

theorem splitState_returns (hcs : ∀ c ∈ state.constraints, c.IsBool) (he : condition.IsBool)
    {getBool : Bool} (hseeds : ex.seedMap state.id = none)
    (hnew : ex.seedMap (ex.stateID + 1) = none)
    (htrue : ∃ σ, Satisfies σ state.constraints ∧ condition.Holds σ)
    (hfalse : ∃ σ, Satisfies σ state.constraints ∧ ¬condition.Holds σ) :
    ∃ r, ex.splitState state condition getBool = some r := by
  unfold splitState
  dsimp only
  generalize hT : (if (ex.addState.RandomizeFork && getBool) = true then _ else _ :
    ExecutionState) = T
  generalize hF : (if (ex.addState.RandomizeFork && getBool) = true then _ else _ :
    ExecutionState) = F
  have hstates : (T.constraints = state.constraints ∧ F.constraints = state.constraints)
      ∧ ex.seedMap T.id = none ∧ ex.seedMap F.id = none := by
    rw [← hT, ← hF]
    cases ex.addState.RandomizeFork && getBool with
    | true => exact ⟨⟨rfl, rfl⟩, hnew, hseeds⟩
    | false => exact ⟨⟨rfl, rfl⟩, hseeds, hnew⟩
  obtain ⟨⟨hTc, hFc⟩, hTs, hFs⟩ := hstates
  have hdist : ex.addState.distributeSeeds { state with depth := state.depth + 1 } condition T F
      = some ex.addState := by
    rw [distributeSeeds, show ex.addState.seedMap state.id = none from hseeds]
  rw [hdist]
  simp only [bind, Option.bind_some]
  have hfalse' : ∃ σ, Satisfies σ F.constraints ∧ condition.createIsZero.Holds σ := by
    obtain ⟨σ, hσ, hc⟩ := hfalse
    exact ⟨σ, hFc ▸ hσ, (he.holds_createIsZero σ).mpr hc⟩
  obtain ⟨t, ht⟩ := @addConstraint_returns ex.addState T condition (hTc ▸ hcs) he hTs (hTc ▸ htrue)
  obtain ⟨f, hf⟩ := @addConstraint_returns ex.addState F _ (hFc ▸ hcs) he.createIsZero hFs hfalse'
  rw [ht, Option.bind_some, hf, Option.bind_some]
  split
  · exact ⟨_, rfl⟩
  · exact ⟨_, rfl⟩

/-- `fork` of a satisfiable state returns, when nothing but the solver decides
and there are no seeds. -/
theorem fork_returns (hsolver : ex.solver.solver.Correct) (hrun : ex.Runs state)
    (hsat : ∃ σ, Satisfies σ state.constraints) (he : condition.IsBool)
    {isInternal getBool : Bool} (hseeds : ex.seedMap state.id = none)
    (hnew : ex.seedMap (ex.stateID + 1) = none) (hreplay : ex.replayPath = none)
    (hout : ex.replayOut = false) (hinhibit : ex.inhibits state = false) :
    ∃ r, ex.fork state condition isInternal false getBool = some r := by
  have hfork : ex.fork state condition isInternal false getBool
      = ex.forkEvaluated state condition isInternal getBool := by
    simp [fork, forkStatic, hseeds]
  rw [hfork, forkEvaluated]
  split
  next => exact ⟨_, rfl⟩
  next res hres =>
    have hdec : ex.decideBranch state condition isInternal getBool res
        = some (ex, state, res) := by
      simp [decideBranch, hseeds, decideByReplay, hreplay, hout, hinhibit]
    rw [hdec]
    cases res with
    | True => exact ⟨_, rfl⟩
    | False => exact ⟨_, rfl⟩
    | Unknown =>
      obtain ⟨htrue, hfalse⟩ := TimingSolver.evaluate_sound hsolver hsat hrun.isBool he hres
      exact splitState_returns hrun.isBool he hseeds hnew htrue hfalse

/-- `fork` splits a state at the condition. The assignments of the states it
returns are among the parent's and on their side of the condition; where no mode
decides the branch, the parent loses none; and outside single-path mode the seeds
go with the branches they take. -/
theorem fork_correct (hsolver : ex.solver.solver.Correct)
    (hwidths : ValueWidths ex.solver.solver) (hrun : ex.Runs state) (he : condition.IsBool)
    {isInternal atStaticLimit getBool : Bool} {r : ForkResult}
    (h : ex.fork state condition isInternal atStaticLimit getBool = some r) :
    r.Sound state.constraints condition
      ∧ (ex.Undecided state condition isInternal atStaticLimit → r.Covers state.constraints)
      ∧ ∀ seeds, ex.seedMap state.id = some seeds → ex.enableFork = true →
          (∃ σ, Satisfies σ state.constraints) → ¬(r.trueState = none ∧ r.falseState = none) →
          r.SeedsFollow state.constraints condition seeds := by
  refine ⟨fork_sound hsolver hwidths hrun.isBool he h,
    fun hund => fork_covers hrun.isBool he hund h, ?_⟩
  intro seeds hseeds henable hsat hreturned
  exact fork_seedsFollow hsolver hsat hrun.isBool he henable hrun.id hseeds
    (hrun.fits seeds hseeds) h hreturned

/-! ### Two runs -/

/-- An executor without limits, seeds or a replay path. -/
def plainExecutor (solver : SolverImpl) : Executor where
  enableFork := true
  RandomizeFork := false
  OnlyReplaySeeds := false
  MaxMemoryInhibit := false
  MaxForks := BitVec.allOnes 32
  MaxDepth := 0
  atMemoryLimit := false
  inhibitForking := false
  replayPath := none
  replayPosition := 0
  replayOut := false
  solver := ⟨solver, false⟩
  seedMap := fun _ => none
  stateID := 0
  forks := 0
  addedStates := []
  removedStates := []

def initialState : ExecutionState := ⟨0, [], 0, false⟩

theorem runs_initialState (solver : SolverImpl) : (plainExecutor solver).Runs initialState where
  isBool := by simp [initialState]
  id := le_rfl
  fits := by simp [plainExecutor]

/-- The initial state is split at a test of the first byte. -/
theorem fork_correct_firstByte :
    ∃ r, (plainExecutor CachingSolver.firstByteSolver).fork initialState
        CachingSolver.firstByteIsZero.expr false false false = some r
      ∧ r.Sound initialState.constraints CachingSolver.firstByteIsZero.expr
      ∧ r.Covers initialState.constraints := by
  have hrun := runs_initialState CachingSolver.firstByteSolver
  have hsolver := CachingSolver.firstByteSolver_correct
  have he : CachingSolver.firstByteIsZero.expr.IsBool := CachingSolver.firstByteIsZero_ok.isBool
  obtain ⟨r, hr⟩ := @fork_returns (plainExecutor CachingSolver.firstByteSolver) initialState _
    hsolver hrun ⟨fun _ _ => 0, by decide⟩ he false false rfl rfl rfl rfl rfl
  have hcorrect := @fork_correct (plainExecutor CachingSolver.firstByteSolver) initialState _
    hsolver (by intro q value _ h; simp [plainExecutor, CachingSolver.firstByteSolver] at h) hrun
    he false false false r hr
  refine ⟨r, hr, hcorrect.1, hcorrect.2.1 ⟨.inl rfl, by simp, ?_, fun _ => ⟨?_, ?_, ?_, ?_⟩⟩⟩
  · decide
  · exact fun _ => .inl rfl
  · exact fun _ => rfl
  · exact fun seeds h => by simp [plainExecutor] at h
  · exact fun h => h.1 rfl

/-- An executor with a seed for every state. -/
def seedingExecutor : Executor :=
  { plainExecutor CachingSolver.firstByteSolver with seedMap := fun _ => some [⟨[]⟩] }

/-- When the solver fails, the state is terminated: its assignments and its seed
are in no returned state, although no mode decides. -/
theorem fork_loses_on_failure :
    ∃ r, seedingExecutor.fork initialState
        (.Cmp .Eq (.Constant ⟨8, 1#8⟩) ConstraintManager.firstByte) false false false = some r
      ∧ ¬r.Covers initialState.constraints
      ∧ ¬∃ branch, r.Distributes [⟨[]⟩] branch := by
  have hfails : seedingExecutor.solver.evaluate initialState.constraints
      (.Cmp .Eq (.Constant ⟨8, 1#8⟩) ConstraintManager.firstByte) = none := by decide
  have hfork : seedingExecutor.fork initialState
      (.Cmp .Eq (.Constant ⟨8, 1#8⟩) ConstraintManager.firstByte) false false false
        = some ⟨seedingExecutor.terminateState initialState, none, none⟩ := by
    have hseeds : seedingExecutor.seedMap initialState.id = some [⟨[]⟩] := rfl
    have henable : seedingExecutor.enableFork = true := rfl
    simp [fork, forkStatic, hseeds, henable, forkEvaluated, hfails]
  refine ⟨_, hfork, ?_, ?_⟩
  · intro hcovers
    obtain ⟨s, hs, -⟩ := hcovers (fun _ _ => 0) (by decide)
    rcases hs with hs | hs
    · exact absurd hs (by simp)
    · exact absurd hs (by simp)
  · rintro ⟨branch, htrue, hfalse⟩
    -- the seed passes one of the filters
    simp only [ForkResult.seedsOf, Option.bind_none, Option.getD_none] at htrue hfalse
    cases hb : branch ⟨[]⟩ with
    | true => simp [hb] at htrue
    | false => simp [hb] at hfalse

end Fork

end Executor

end Xklee
