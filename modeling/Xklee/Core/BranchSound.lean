/-
What `Executor::branch` returns.

A caller indexes the vector by condition. `branch_sound` says what is at an index, for the states
and for the seeds, and `branch_returns` when no assertion is in the way. With forking disabled the
function returns for one seed and one condition only, `branch_singlePath`.
-/
import Xklee.Core.Branch

set_option autoImplicit false

namespace Xklee

/-! ## One state for each condition -/

/-- The seeds of a state in the vector. -/
def BranchResult.seedsOf (r : BranchResult) (es : ExecutionState) : List SeedInfo :=
  (r.executor.seedMap es.id).getD []

/-- The state is in the executor and has not been terminated. -/
def BranchResult.Live (r : BranchResult) (ex : Executor) (state es : ExecutionState) : Prop :=
  (es.id = state.id ∨ es.id ∈ r.executor.addedStates)
    ∧ (es.id ∈ r.executor.removedStates → es.id ∈ ex.removedStates)

open Executor in
/-- The vector has an entry for each condition. The states in it are live, and have the
assignments of the parent that satisfy the condition at their index. The seeds of the parent have
been placed at indices: one that satisfies a condition at the index of that. A state has the seeds
that were placed at its index, of which those that satisfy the condition are unchanged. An entry
is null only past `--max-forks`, or when no seed was placed there under `--only-replay-seeds`. -/
structure BranchResult.Sound (r : BranchResult) (ex : Executor) (state : ExecutionState)
    (conditions : List Expr) (place : List ℕ) : Prop where
  length : r.result.length = conditions.length
  apart : r.result.Pairwise Apart
  entry : ∀ (i : ℕ) (c : Expr) (es : ExecutionState), conditions[i]? = some c →
    r.result[i]? = some (some es) → r.Live ex state es
      ∧ (∀ σ, Satisfies σ es.constraints ↔ Satisfies σ state.constraints ∧ c.Holds σ)
      ∧ List.Forall₂ (fun old new => SeedSatisfies c old → new = old)
        (seedsAt ((ex.seedMap state.id).getD []) place i) (r.seedsOf es)
  null : ∀ i : ℕ, r.result[i]? = some none → ex.atMaxForks = true
    ∨ (ex.OnlyReplaySeeds = true ∧ (ex.seedMap state.id).isSome ∧ i ∉ place)
  place_length : place.length = ((ex.seedMap state.id).getD []).length
  place_lt : ∀ i ∈ place, i < conditions.length
  placed : ∀ (k : ℕ) (siit : SeedInfo), ((ex.seedMap state.id).getD [])[k]? = some siit →
    SeedDecides conditions siit → (∃ σ, Satisfies (siit.extend σ) state.constraints) →
      ∀ (i : ℕ) (c : Expr), conditions[i]? = some c → SeedSatisfies c siit → place[k]? = some i

namespace Executor

section Correct

variable {ex : Executor} {state : ExecutionState} {conditions : List Expr}

/-- A seed that satisfies the condition does not rule it out. -/
theorem patchViolated_of_satisfies {solver : TimingSolver} {constraints : List Expr} {c : Expr}
    {siit : SeedInfo} (h : SeedSatisfies c siit) :
    patchViolated solver constraints c siit = some siit := by
  rw [patchViolated, h]
  rfl

theorem Patched.eq_of_satisfies {solver : TimingSolver} {constraints : List Expr} {c : Expr}
    {old new : SeedInfo} (h : Patched solver constraints c old new) (hsat : SeedSatisfies c old) :
    new = old := by
  rcases h with h | h
  · exact h
  · rw [patchViolated_of_satisfies hsat] at h
    exact (Option.some.inj h).symm

/-- The bytes of a seed satisfy at most one of exclusive conditions. -/
theorem satisfies_only {siit : SeedInfo} (hfits : siit.Fits)
    (he : ∀ c ∈ conditions, c.IsBool) (hexclusive : Exclusive state.constraints conditions)
    (hagrees : ∃ σ, Satisfies (siit.extend σ) state.constraints) {i : ℕ} {c : Expr}
    (hc : conditions[i]? = some c) (hsat : SeedSatisfies c siit) :
    ∀ j c', conditions[j]? = some c' → j ≠ i → ¬SeedSatisfies c' siit := by
  intro j c' hc' hne hsat'
  obtain ⟨σ, hσ⟩ := hagrees
  have hholds : ∀ e ∈ conditions, SeedSatisfies e siit → e.Holds (siit.extend σ) := by
    intro e hmem hseed
    have hval := SeedInfo.eval_of_evaluate hfits (he e hmem).1 hseed σ
    rw [Expr.Holds, ← hval]
    rfl
  exact hexclusive i j c c' hc hc' hne.symm _ hσ (hholds c (List.mem_of_getElem? hc) hsat)
    (hholds c' (List.mem_of_getElem? hc') hsat')

theorem Places.eq_of_findCondition {siit : SeedInfo} {i k : ℕ}
    (h : Places ex state conditions siit k) (hi : i < conditions.length)
    (hfind : ex.findCondition state siit conditions = some i) : k = i := by
  rcases h.2 with hk | hlen
  · exact Option.some.inj (hk.symm.trans hfind)
  · exact absurd (Option.some.inj (hlen.symm.trans hfind)) (Nat.ne_of_gt hi)

/-- With forking enabled `branch` returns one state for each condition. -/
theorem branch_sound (hrun : ex.Runs state)
    (hfresh : ∀ id, ex.stateID < id → ex.seedMap id = none) (he : ∀ c ∈ conditions, c.IsBool)
    (hexclusive : Exclusive state.constraints conditions) (henable : ex.enableFork = true)
    {rng : RNG} {r : BranchResult} (h : ex.branch rng state conditions = some r) :
    ∃ place, r.Sound ex state conditions place := by
  unfold branch at h
  split at h
  next => cases h
  next hnil =>
    have hne : conditions ≠ [] := by simpa using hnil
    rw [if_neg (by simp [henable])] at h
    obtain ⟨created, hcreated, h⟩ := Option.bind_eq_some_iff.mp h
    obtain ⟨placed, hplaced, h⟩ := Option.bind_eq_some_iff.mp h
    obtain ⟨⟨ex', result'⟩, hadded, h⟩ := Option.bind_eq_some_iff.mp h
    obtain rfl := Option.some.inj h
    obtain ⟨hspring, hlen, hnull⟩ :=
      createStates_spec (List.length_pos_iff.mpr hne) hrun.id hcreated
    obtain ⟨place, hredist⟩ := redistributeSeeds_spec hne hfresh hspring hplaced
    have hconstraints : ∀ es, some es ∈ placed.result → es.constraints = state.constraints := by
      intro es hes
      obtain ⟨i, hi⟩ := List.getElem?_of_mem hes
      exact hspring.constraints es (List.mem_of_getElem? (hredist.states i es hi).1)
    obtain ⟨hsame, hlen', -, hentries⟩ := addConditions_spec
      (fun es hes => by rw [hconstraints es hes]; exact hrun.isBool) he hredist.apart hadded
    have hlength : result'.length = conditions.length :=
      hlen'.trans (hredist.length.trans hlen)
    have hcond : ∀ i < result'.length, ∃ c, conditions[i]? = some c := fun i hi =>
      ⟨_, List.getElem?_eq_getElem (hlength ▸ hi)⟩
    have hold : ∀ (i : ℕ) (es' : ExecutionState), result'[i]? = some (some es') →
        ∃ es, placed.result[i]? = some (some es) ∧ es'.id = es.id := by
      intro i es' hi
      obtain ⟨c, hc⟩ := hcond i (List.getElem?_eq_some_iff.mp hi).1
      obtain ⟨es, hes, hconditioned⟩ := (hentries i c hc).2 es' hi
      exact ⟨es, hes, hconditioned.adds.id⟩
    refine ⟨place, hlength, ?_, ?_, ?_, hredist.place.length_eq.symm, ?_, ?_⟩
    · rw [List.pairwise_iff_getElem]
      intro i j hi hj hij t ht t' ht'
      obtain ⟨es, hes, hid⟩ := hold i t (by rw [List.getElem?_eq_getElem hi, ht])
      obtain ⟨es', hes', hid'⟩ := hold j t' (by rw [List.getElem?_eq_getElem hj, ht'])
      rw [hid, hid']
      exact ids_ne hredist.apart hes hes' (Nat.ne_of_lt hij)
    · intro i c es' hc hi
      obtain ⟨es, hes, hconditioned⟩ := (hentries i c hc).2 es' hi
      obtain ⟨-, hseeds, hlive, hremoved⟩ := hredist.states i es hes
      have hid := hconditioned.adds.id
      refine ⟨⟨?_, ?_⟩, ?_, ?_⟩
      · rw [hid, hsame.addedStates]
        exact hlive
      · rw [hid, hsame.removedStates]
        exact hremoved
      · intro σ
        rw [hconditioned.adds.satisfies_iff, hconstraints es (List.mem_of_getElem? hes)]
      · rw [BranchResult.seedsOf, hid]
        have hpatched := hconditioned.seeds
        rw [hseeds, seedEntry_getD] at hpatched
        exact hpatched.imp fun _ _ hp => hp.eq_of_satisfies
    · intro i hi
      obtain ⟨c, hc⟩ := hcond i (List.getElem?_eq_some_iff.mp hi).1
      rcases hredist.null i ((hentries i c hc).1 hi) with hcreatedNull | hunseeded
      · exact .inl (hnull (List.mem_of_getElem? hcreatedNull))
      · exact .inr hunseeded
    · intro i hi
      obtain ⟨k, hk⟩ := List.getElem?_of_mem hi
      obtain ⟨hklt, hkeq⟩ := List.getElem?_eq_some_iff.mp hk
      have hplaces := hredist.place.get (hredist.place.length_eq ▸ hklt) hklt
      have hvalue : place.get ⟨k, hklt⟩ = i := hkeq
      rw [hvalue] at hplaces
      exact hplaces.1
    · intro k siit hk hdecides hagrees i c hc hsat
      obtain ⟨hklt, hkeq⟩ := List.getElem?_eq_some_iff.mp hk
      have hklt' : k < place.length := hredist.place.length_eq ▸ hklt
      have hplaces := hredist.place.get hklt hklt'
      rw [List.get_eq_getElem, List.get_eq_getElem, hkeq] at hplaces
      have hfits : siit.Fits := by
        cases hseeds : ex.seedMap state.id with
        | none => simp [hseeds] at hk
        | some seeds =>
          rw [hseeds] at hk
          exact hrun.fits seeds hseeds siit (List.mem_of_getElem? hk)
      have hfind := @findCondition_of_satisfies ex state conditions siit hdecides i c hc hsat
        (satisfies_only hfits he hexclusive hagrees hc hsat)
      rw [List.getElem?_eq_getElem hklt',
        hplaces.eq_of_findCondition (List.getElem?_eq_some_iff.mp hc).1 hfind]

/-! ### When it returns -/

theorem findCondition_returns {siit : SeedInfo} (h : SeedDecides conditions siit) :
    ∃ i, ex.findCondition state siit conditions = some i := by
  induction conditions with
  | nil => exact ⟨0, rfl⟩
  | cons c cs ih =>
    obtain ⟨⟨b, hb⟩, hcs⟩ := List.forall_mem_cons.mp h
    have hbranch : ex.seedBranch state c siit = some (APInt.ofBool b).isTrue :=
      seedBranch_of_constant hb
    obtain ⟨i, hi⟩ := ih hcs
    cases b with
    | true => exact ⟨0, by rw [findCondition, hbranch]; rfl⟩
    | false => exact ⟨i + 1, by rw [findCondition, hbranch, hi]; rfl⟩

/-- The loop over the seeds ends, whatever the entries are. -/
theorem foldlM_redistributeSeed_returns {result : List (Option ExecutionState)}
    (hne : conditions ≠ []) (hlen : result.length = conditions.length) {seeds : List SeedInfo}
    (h : ∀ siit ∈ seeds, SeedDecides conditions siit) (s : Executor × RNG) :
    ∃ s', seeds.foldlM (redistributeSeed state conditions result) s = some s' := by
  induction seeds generalizing s with
  | nil => exact ⟨s, rfl⟩
  | cons siit seeds ih =>
    obtain ⟨hdecides, h⟩ := List.forall_mem_cons.mp h
    obtain ⟨mid, hmid⟩ : ∃ mid, redistributeSeed state conditions result s siit = some mid := by
      obtain ⟨i, hi⟩ := @findCondition_returns s.1 state conditions siit hdecides
      obtain ⟨⟨k, rng⟩, hplace⟩ : ∃ p, s.1.placeSeed s.2 state conditions siit = some p := by
        unfold placeSeed
        rw [hi]
        by_cases heq : i = conditions.length
        · exact ⟨_, if_pos heq⟩
        · exact ⟨_, if_neg heq⟩
      have hlt : k < result.length := hlen ▸ (placeSeed_places hne hplace).1
      rw [redistributeSeed, hplace]
      simp only [Option.bind_eq_bind, Option.bind_some, List.getElem?_eq_getElem hlt]
      cases result[k] with
      | some es => exact ⟨_, rfl⟩
      | none => exact ⟨_, rfl⟩
    obtain ⟨s', hs'⟩ := ih h mid
    exact ⟨s', by rw [List.foldlM_cons, hmid]; exact hs'⟩

theorem mapM_patchViolated {solver : TimingSolver} {constraints : List Expr} {c : Expr}
    {seeds : List SeedInfo} (h : ∀ siit ∈ seeds, SeedSatisfies c siit) :
    seeds.mapM (patchViolated solver constraints c) = some seeds := by
  induction seeds with
  | nil => rfl
  | cons siit seeds ih =>
    obtain ⟨hsiit, h⟩ := List.forall_mem_cons.mp h
    rw [List.mapM_cons, patchViolated_of_satisfies hsiit, ih h]
    rfl

/-- Adding what the constraints allow and the seeds satisfy. -/
theorem addConstraint_returns_seeds {es : ExecutionState} {c : Expr}
    (hcs : ∀ c ∈ es.constraints, c.IsBool) (he : c.IsBool)
    (hseeds : ∀ siit ∈ (ex.seedMap es.id).getD [], SeedSatisfies c siit)
    (hsat : ∃ σ, Satisfies σ es.constraints ∧ c.Holds σ) :
    ∃ es', ex.addConstraint es c = some (ex, es') := by
  obtain ⟨σ, hσ, hholds⟩ := hsat
  unfold addConstraint
  split
  next CE => exact ⟨es, if_pos hholds⟩
  next =>
    have hpatch : ex.patchSeeds es c = some (ex.seedMap es.id) := by
      unfold patchSeeds
      split
      next hnone => rw [hnone]
      next seeds hsome =>
        rw [hsome, Option.getD_some] at hseeds
        rw [hsome, mapM_patchViolated hseeds]
        rfl
    have hrep := ConstraintManager.addConstraint_represents hcs he
    cases hadd : ConstraintManager.addConstraint es.constraints c with
    | none =>
      rw [hadd] at hrep
      exact absurd ⟨hσ, hholds⟩ (hrep σ trivial)
    | some constraints =>
      refine ⟨{ es with constraints := constraints }, ?_⟩
      simp only [hpatch, Option.bind_eq_bind, Option.bind_some, Function.update_eq_self]

/-- The loop that adds the conditions ends, and leaves the seeds. -/
theorem addConditions_returns {result : List (Option ExecutionState)}
    (hlen : result.length = conditions.length)
    (h : ∀ (i : ℕ) (c : Expr) (es : ExecutionState), conditions[i]? = some c →
      result[i]? = some (some es) → (∀ c ∈ es.constraints, c.IsBool) ∧ c.IsBool
        ∧ (∀ siit ∈ (ex.seedMap es.id).getD [], SeedSatisfies c siit)
        ∧ ∃ σ, Satisfies σ es.constraints ∧ c.Holds σ) :
    ∃ result', ex.addConditions result conditions = some (ex, result') := by
  induction conditions generalizing result with
  | nil =>
    obtain rfl := List.length_eq_zero_iff.mp hlen
    exact ⟨[], rfl⟩
  | cons c cs ih =>
    cases result with
    | nil => simp at hlen
    | cons entry result =>
      obtain ⟨rest, hrest⟩ := @ih result (Nat.succ.inj hlen) fun i c es hc hes =>
        h (i + 1) c es hc hes
      cases entry with
      | none => exact ⟨none :: rest, by rw [addConditions, hrest]; rfl⟩
      | some es =>
        obtain ⟨hcs, hc, hseeds, hsat⟩ := h 0 c es rfl rfl
        obtain ⟨es', hes'⟩ := addConstraint_returns_seeds hcs hc hseeds hsat
        exact ⟨some es' :: rest, by
          simp only [addConditions, hes', Option.bind_eq_bind, Option.bind_some, hrest]⟩

theorem findCondition_ne_length {siit : SeedInfo} {c : Expr} (hmem : c ∈ conditions)
    (hbranch : ex.seedBranch state c siit = some true) :
    ex.findCondition state siit conditions ≠ some conditions.length := by
  induction conditions with
  | nil => cases hmem
  | cons c' cs ih =>
    intro h
    obtain ⟨res, hres, h⟩ := Option.bind_eq_some_iff.mp h
    split at h
    next => simp at h
    next hfalse =>
      obtain ⟨k, hk, h⟩ := Option.bind_eq_some_iff.mp h
      rcases List.mem_cons.mp hmem with rfl | hmem
      · exact hfalse (Option.some.inj (hres.symm.trans hbranch))
      · exact ih hmem (hk.trans (congrArg some (Nat.succ.inj (Option.some.inj h))))

/-- A seed that is placed where the loop found a condition satisfies it. -/
theorem satisfies_of_places {siit : SeedInfo} {i : ℕ} {c : Expr}
    (hdecides : SeedDecides conditions siit) (hsome : ∃ c ∈ conditions, SeedSatisfies c siit)
    (hplaces : Places ex state conditions siit i) (hc : conditions[i]? = some c) :
    SeedSatisfies c siit := by
  have htrue : ∀ c ∈ conditions, ex.seedBranch state c siit = some true → SeedSatisfies c siit := by
    intro c hmem hbranch
    obtain ⟨b, hb⟩ := hdecides c hmem
    rw [seedBranch_of_constant hb] at hbranch
    cases b with
    | true => exact hb
    | false => cases hbranch
  rcases hplaces.2 with hfind | hnot
  · exact htrue c (List.mem_of_getElem? hc) (seedBranch_of_findCondition hfind hc)
  · obtain ⟨c', hmem, hsat⟩ := hsome
    exact absurd hnot (findCondition_ne_length hmem (seedBranch_of_satisfies hsat))

/-- With forking enabled `branch` returns when each condition is possible and each seed satisfies
one of them. -/
theorem branch_returns (hrun : ex.Runs state)
    (hfresh : ∀ id, ex.stateID < id → ex.seedMap id = none) (hne : conditions ≠ [])
    (he : ∀ c ∈ conditions, c.IsBool) (henable : ex.enableFork = true)
    (hpossible : ∀ c ∈ conditions, ∃ σ, Satisfies σ state.constraints ∧ c.Holds σ)
    (hseeds : ∀ siit ∈ (ex.seedMap state.id).getD [],
      SeedDecides conditions siit ∧ ∃ c ∈ conditions, SeedSatisfies c siit) (rng : RNG) :
    ∃ r, ex.branch rng state conditions = some r := by
  obtain ⟨created, hcreated⟩ := @createStates_returns ex state rng conditions.length
  obtain ⟨hspring, hlen, -⟩ := createStates_spec (List.length_pos_iff.mpr hne) hrun.id hcreated
  obtain ⟨placed, hplaced⟩ : ∃ r, redistributeSeeds state conditions created = some r := by
    unfold redistributeSeeds
    rw [hspring.seedMap]
    cases hmap : ex.seedMap state.id with
    | none => exact ⟨created, rfl⟩
    | some seeds =>
      rw [hmap, Option.getD_some] at hseeds
      obtain ⟨s', hs'⟩ := @foldlM_redistributeSeed_returns state conditions created.result hne hlen
        seeds (fun siit hsiit => (hseeds siit hsiit).1)
        (created.executor.eraseSeeds state, created.rng)
      simp only [hs', Option.bind_eq_bind, Option.bind_some]
      split
      · exact ⟨_, rfl⟩
      · exact ⟨_, rfl⟩
  obtain ⟨place, hredist⟩ := redistributeSeeds_spec hne hfresh hspring hplaced
  obtain ⟨result', hadded⟩ := @addConditions_returns placed.executor conditions placed.result
    (hredist.length.trans hlen) (by
      intro i c es hc hes
      obtain ⟨hcreatedEs, hmap, -⟩ := hredist.states i es hes
      have hcon := hspring.constraints es (List.mem_of_getElem? hcreatedEs)
      rw [hcon]
      have hmem := List.mem_of_getElem? hc
      refine ⟨hrun.isBool, he c hmem, fun siit hsiit => ?_, hpossible c hmem⟩
      rw [hmap, seedEntry_getD] at hsiit
      obtain ⟨hold, hat⟩ := mem_seedsAt hredist.place hsiit
      obtain ⟨hdecides, hsome⟩ := hseeds siit hold
      exact satisfies_of_places hdecides hsome hat hc)
  refine ⟨⟨placed.executor, placed.rng, result'⟩, ?_⟩
  rw [branch, if_neg (by simpa using hne), if_neg (by simp [henable]), hcreated]
  simp only [Option.bind_eq_bind, Option.bind_some, hplaced, hadded]

end Correct

/-! ### The vector with forking disabled -/

section SinglePathLoop

variable {ex : Executor} {state : ExecutionState} {conditions : List Expr}

theorem SinglePathLoop.foldlM_step_length {siit : SeedInfo} {s s' : SinglePathLoop}
    (h : conditions.foldlM (SinglePathLoop.step siit) s = some s') :
    s'.result.length = s.result.length + conditions.length := by
  induction conditions generalizing s with
  | nil =>
    obtain rfl := Option.some.inj h
    rfl
  | cons c cs ih =>
    rw [List.foldlM_cons] at h
    obtain ⟨mid, hmid, h⟩ := Option.bind_eq_some_iff.mp h
    have hlen : mid.result.length = s.result.length + 1 := by
      obtain ⟨res, -, hmid⟩ := Option.bind_eq_some_iff.mp hmid
      split at hmid
      next =>
        obtain ⟨⟨ex', state'⟩, -, hmid⟩ := Option.bind_eq_some_iff.mp hmid
        obtain rfl := Option.some.inj hmid
        simp
      next =>
        obtain rfl := Option.some.inj hmid
        simp
    rw [ih h, hlen, List.length_cons]
    omega

theorem SinglePathLoop.foldlM_seeds_length {seeds : List SeedInfo} {s s' : SinglePathLoop}
    (h : seeds.foldlM (fun s siit => conditions.foldlM (SinglePathLoop.step siit) s) s = some s') :
    s'.result.length = s.result.length + seeds.length * conditions.length := by
  induction seeds generalizing s with
  | nil =>
    obtain rfl := Option.some.inj h
    simp
  | cons siit seeds ih =>
    rw [List.foldlM_cons] at h
    obtain ⟨mid, hmid, h⟩ := Option.bind_eq_some_iff.mp h
    rw [ih h, foldlM_step_length hmid, List.length_cons, Nat.succ_mul]
    omega

/-- With forking disabled an entry is pushed for each seed and condition, and the assertion asks
for one entry: the function returns for one seed and one condition only. -/
theorem branch_singlePath (hdisable : ex.enableFork = false) {rng : RNG} {r : BranchResult}
    (h : ex.branch rng state conditions = some r) :
    conditions.length = 1 ∧ ∃ siit, ex.seedMap state.id = some [siit] := by
  unfold branch at h
  split at h
  next => cases h
  next =>
    rw [if_pos (by simp [hdisable])] at h
    obtain ⟨seeds, hseeds, h⟩ := Option.bind_eq_some_iff.mp h
    obtain ⟨s, hs, h⟩ := Option.bind_eq_some_iff.mp h
    split at h
    next hone =>
      have hlen := SinglePathLoop.foldlM_seeds_length hs
      rw [hone, List.length_nil, Nat.zero_add] at hlen
      have hseedsOne := Nat.eq_one_of_mul_eq_one_right hlen.symm
      have hcondOne := Nat.eq_one_of_mul_eq_one_left hlen.symm
      obtain ⟨siit, rfl⟩ := List.length_eq_one_iff.mp hseedsOne
      exact ⟨hcondOne, siit, hseeds⟩
    next => cases h

end SinglePathLoop

/-! ### Two values of a byte -/

/-- The byte has the value. -/
def firstByteIs (value : BitVec 8) : Expr :=
  .Cmp .Eq (.Constant ⟨8, value⟩) ConstraintManager.firstByte

/-- A seed of zeros. -/
def zeroSeed : SeedInfo := ⟨[(.symbolic 0 "a" 4, [0, 0, 0, 0])]⟩

theorem firstByteIs_holds (value : BitVec 8) (σ : Env) :
    (firstByteIs value).Holds σ
      ↔ (⟨8, value⟩ : APInt) = ConstraintManager.firstByte.eval σ := by
  have htyped : (firstByteIs value).WellTyped := ⟨show 0 < 8 by decide, by decide, rfl⟩
  exact ConstraintManager.holds_Eq htyped σ

theorem exclusive_firstByteIs : Exclusive [] [firstByteIs 0, firstByteIs 1] := by
  have hone : ∀ σ, (firstByteIs 0).Holds σ → ¬(firstByteIs 1).Holds σ := by
    intro σ h0 h1
    rw [firstByteIs_holds] at h0 h1
    exact absurd (h0.trans h1.symm) (by decide)
  intro i j c c' hc hc' hij σ _ hholds hholds'
  match i, j with
  | 0, 0 => exact hij rfl
  | 0, 1 =>
    obtain rfl := Option.some.inj hc
    obtain rfl := Option.some.inj hc'
    exact hone σ hholds hholds'
  | 1, 0 =>
    obtain rfl := Option.some.inj hc
    obtain rfl := Option.some.inj hc'
    exact hone σ hholds' hholds
  | 1, 1 => exact hij rfl
  | i + 2, _ => simp at hc
  | _, j + 2 => simp at hc'

/-- An executor that has seeds for the initial state. -/
def seededExecutor (MaxForks : BitVec 32) : Executor :=
  { plainExecutor CachingSolver.firstByteSolver with
    MaxForks := MaxForks
    seedMap := Function.update (fun _ => none) 0 (some [zeroSeed]) }

theorem seededExecutor_runs (MaxForks : BitVec 32) : (seededExecutor MaxForks).Runs initialState where
  isBool := by simp [initialState]
  id := le_rfl
  fits := by
    intro seeds hseeds siit hsiit
    obtain rfl : [zeroSeed] = seeds := Option.some.inj hseeds
    obtain rfl := List.mem_singleton.mp hsiit
    intro array bytes hbytes
    simp only [zeroSeed, List.lookup_cons, List.lookup_nil] at hbytes
    split at hbytes
    next heq =>
      obtain rfl := Option.some.inj hbytes
      rw [beq_iff_eq.mp heq]
      decide
    next => cases hbytes

theorem seededExecutor_fresh (MaxForks : BitVec 32) :
    ∀ id, (seededExecutor MaxForks).stateID < id →
      (seededExecutor MaxForks).seedMap id = none := by
  intro id hid
  have hne : id ≠ 0 := Nat.ne_of_gt hid
  simp [seededExecutor, plainExecutor, hne]

theorem firstByteIs_isBool : ∀ c ∈ [firstByteIs 0, firstByteIs 1], c.IsBool := by decide

/-- The seed of zeros satisfies the first condition. -/
theorem zeroSeed_satisfies : SeedDecides [firstByteIs 0, firstByteIs 1] zeroSeed
    ∧ SeedSatisfies (firstByteIs 0) zeroSeed := by
  have htrue : zeroSeed.evaluate (firstByteIs 0) = .Constant (.ofBool true) := by decide
  have hfalse : zeroSeed.evaluate (firstByteIs 1) = .Constant (.ofBool false) := by decide
  refine ⟨fun c hc => ?_, htrue⟩
  rcases List.mem_cons.mp hc with rfl | hc
  · exact ⟨true, htrue⟩
  · obtain rfl := List.mem_singleton.mp hc
    exact ⟨false, hfalse⟩

theorem firstByteIs_possible : ∀ c ∈ [firstByteIs 0, firstByteIs 1],
    ∃ σ, Satisfies σ initialState.constraints ∧ c.Holds σ := by
  intro c hc
  rcases List.mem_cons.mp hc with rfl | hc
  · exact ⟨fun _ _ => 0, by decide, by decide⟩
  · obtain rfl := List.mem_singleton.mp hc
    exact ⟨fun _ _ => 1, by decide, by decide⟩

end Executor

end Xklee
