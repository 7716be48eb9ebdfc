/-
Branching on several conditions: `Executor::branch` of `lib/Core/Executor.cpp`.

A switch and the like give one condition for each way out, and get a vector with one entry for
each: the state to go on with, or null. The vector is made by splitting states at random, or past
`--max-forks` by choosing one entry for the state. Then each seed of the state goes to the entry
of the first condition that its assignment satisfies, and a condition is added to each entry. With
forking disabled the vector is made in the loop over the seeds instead.
-/
import Xklee.Core.ForkSeeds

set_option autoImplicit false

namespace Xklee

/-- `theRNG`: what `getInt32` is going to return. -/
structure RNG where
  values : ℕ → BitVec 32

/-- `getInt32() % n`. -/
def RNG.below (rng : RNG) (n : ℕ) : ℕ × RNG :=
  ((rng.values 0).toNat % n, ⟨fun i => rng.values (i + 1)⟩)

theorem RNG.below_lt (rng : RNG) {n : ℕ} (h : 0 < n) : (rng.below n).1 < n := Nat.mod_lt _ h

/-- What `branch` leaves behind. An entry of the vector is `none` for a null pointer. -/
structure BranchResult where
  executor : Executor
  rng : RNG
  result : List (Option ExecutionState)

namespace Executor

/-! ## Making the vector -/

/-- `MaxForks!=~0u && stats::forks >= MaxForks`. -/
def atMaxForks (ex : Executor) : Bool :=
  ex.MaxForks != BitVec.allOnes 32 && ex.MaxForks.toNat ≤ ex.forks

/-- The vector while states are being split. All its entries are states. -/
structure Splitting where
  executor : Executor
  rng : RNG
  result : List ExecutionState

/-- `++stateID` and `addedStates.insert(ns)`. -/
def insertState (ex : Executor) : Executor :=
  { ex with
    stateID := ex.stateID + 1
    addedStates := (ex.stateID + 1) :: ex.addedStates }

/-- `stats::forks += n`. -/
def addForks (ex : Executor) (n : ℕ) : Executor := { ex with forks := ex.forks + n }

/-- The body of the loop that splits: `ExecutionState::branch` of a random entry. -/
def Splitting.step (s : Splitting) : Option Splitting := do
  let k := s.rng.below s.result.length
  let es ← s.result[k.1]?
  let es := { es with depth := es.depth + 1 }
  let ex := s.executor.insertState
  some ⟨ex, k.2, s.result.set k.1 es ++ [{ es with id := ex.stateID }]⟩

/-- The loop, for that many new states. -/
def Splitting.run : ℕ → Splitting → Option Splitting
  | 0, s => some s
  | n + 1, s => do run n (← s.step)

/-- The vector before the seeds are looked at. -/
def createStates (ex : Executor) (rng : RNG) (state : ExecutionState) (N : ℕ) :
    Option BranchResult :=
  if ex.atMaxForks then
    let (next, rng) := rng.below N
    some ⟨ex, rng, (List.range N).map fun i => if i = next then some state else none⟩
  else do
    let s ← Splitting.run (N - 1) ⟨ex.addForks (N - 1), rng, [state]⟩
    some ⟨s.executor, s.rng, s.result.map some⟩

/-! ## The seeds -/

/-- The loop for a condition that the seed satisfies. It ends at the number of the conditions if
there is none. -/
def findCondition (ex : Executor) (state : ExecutionState) (siit : SeedInfo) :
    List Expr → Option ℕ
  | [] => some 0
  | condition :: conditions => do
      let res ← ex.seedBranch state condition siit
      if res then some 0
      else do
        let i ← ex.findCondition state siit conditions
        some (i + 1)

/-- The index for a seed: that of a condition it satisfies, or a random one. -/
def placeSeed (ex : Executor) (rng : RNG) (state : ExecutionState) (conditions : List Expr)
    (siit : SeedInfo) : Option (ℕ × RNG) := do
  let i ← ex.findCondition state siit conditions
  if i = conditions.length then some (rng.below conditions.length) else some (i, rng)

/-- `seedMap[state].push_back(*siit)`. -/
def pushSeed (ex : Executor) (state : ExecutionState) (siit : SeedInfo) : Executor :=
  { ex with
    seedMap := Function.update ex.seedMap state.id
      (some ((ex.seedMap state.id).getD [] ++ [siit])) }

/-- The body of the loop over the seeds. -/
def redistributeSeed (state : ExecutionState) (conditions : List Expr)
    (result : List (Option ExecutionState)) (s : Executor × RNG) (siit : SeedInfo) :
    Option (Executor × RNG) := do
  let (ex, rng) := s
  let (i, rng) ← ex.placeSeed rng state conditions siit
  let entry ← result[i]?
  match entry with
  | some es => some (ex.pushSeed es siit, rng)
  | none => some (ex, rng)

/-- The loop that terminates the states without seeds. -/
def terminateUnseeded (ex : Executor) :
    List (Option ExecutionState) → Executor × List (Option ExecutionState)
  | [] => (ex, [])
  | none :: result =>
      let (ex, result) := ex.terminateUnseeded result
      (ex, none :: result)
  | some es :: result =>
      if (ex.seedMap es.id).isNone then
        let (ex, result) := (ex.terminateState es).terminateUnseeded result
        (ex, none :: result)
      else
        let (ex, result) := ex.terminateUnseeded result
        (ex, some es :: result)

/-- `seedMap.erase(it)`. -/
def eraseSeeds (ex : Executor) (state : ExecutionState) : Executor :=
  { ex with seedMap := Function.update ex.seedMap state.id none }

/-- "Redistribute seeds to match conditions". -/
def redistributeSeeds (state : ExecutionState) (conditions : List Expr) (r : BranchResult) :
    Option BranchResult :=
  match r.executor.seedMap state.id with
  | none => some r
  | some seeds => do
      let (ex, rng) ← seeds.foldlM (redistributeSeed state conditions r.result)
        (r.executor.eraseSeeds state, r.rng)
      if ex.OnlyReplaySeeds then
        let (ex, result) := ex.terminateUnseeded r.result
        some ⟨ex, rng, result⟩
      else some ⟨ex, rng, r.result⟩

/-! ## The conditions -/

/-- The loop that adds the conditions. It is `none` past the end of the vector. -/
def addConditions (ex : Executor) :
    List (Option ExecutionState) → List Expr → Option (Executor × List (Option ExecutionState))
  | result, [] => some (ex, result)
  | [], _ :: _ => none
  | none :: result, _ :: conditions => do
      let (ex, result) ← ex.addConditions result conditions
      some (ex, none :: result)
  | some es :: result, condition :: conditions => do
      let (ex, es) ← ex.addConstraint es condition
      let (ex, result) ← ex.addConditions result conditions
      some (ex, some es :: result)

/-! ## With forking disabled -/

/-- What the loops change with forking disabled. The vector has the state where the flag is set. -/
structure SinglePathLoop where
  executor : Executor
  state : ExecutionState
  result : List Bool

/-- The body of the inner loop. It does not stop at a condition that the seed satisfies. -/
def SinglePathLoop.step (siit : SeedInfo) (s : SinglePathLoop) (condition : Expr) :
    Option SinglePathLoop := do
  let res ← s.executor.seedBranch s.state condition siit
  if res then do
    let (ex, state) ← s.executor.addConstraint s.state condition
    some ⟨ex, state, s.result ++ [true]⟩
  else some { s with result := s.result ++ [false] }

/-- The mode of a disabled fork. A state without seeds ends in `klee_error`. -/
def branchSinglePath (ex : Executor) (rng : RNG) (state : ExecutionState)
    (conditions : List Expr) : Option BranchResult := do
  let seeds ← ex.seedMap state.id
  let s ← seeds.foldlM (fun s siit => conditions.foldlM (SinglePathLoop.step siit) s) ⟨ex, state, []⟩
  if s.result.length = 1 then
    some ⟨s.executor, rng, s.result.map fun taken => if taken then some s.state else none⟩
  else none

/-- `Executor::branch`. -/
def branch (ex : Executor) (rng : RNG) (state : ExecutionState) (conditions : List Expr) :
    Option BranchResult :=
  if conditions.isEmpty then none
  else if !ex.enableFork then ex.branchSinglePath rng state conditions
  else do
    let r ← ex.createStates rng state conditions.length
    let r ← redistributeSeeds state conditions r
    let (ex, result) ← r.executor.addConditions r.result conditions
    some ⟨ex, r.rng, result⟩

/-! ## The vector that is made -/

/-- Two entries are not the same state. -/
def Apart (a b : Option ExecutionState) : Prop := ∀ es ∈ a, ∀ es' ∈ b, es.id ≠ es'.id

/-- Entries of the vector at two indices. -/
theorem ids_ne {result : List (Option ExecutionState)} (h : result.Pairwise Apart) {i j : ℕ}
    {es es' : ExecutionState} (hi : result[i]? = some (some es)) (hj : result[j]? = some (some es'))
    (hij : i ≠ j) : es.id ≠ es'.id := by
  obtain ⟨hilt, hi⟩ := List.getElem?_eq_some_iff.mp hi
  obtain ⟨hjlt, hj⟩ := List.getElem?_eq_some_iff.mp hj
  rcases Nat.lt_or_gt_of_ne hij with hlt | hlt
  · exact List.pairwise_iff_getElem.mp h i j hilt hjlt hlt es (by simp [hi]) es' (by simp [hj])
  · exact (List.pairwise_iff_getElem.mp h j i hjlt hilt hlt es' (by simp [hj]) es (by simp [hi])).symm

/-- The states come from the one state: they have its constraints, and their ids are its own and
new ones. -/
structure Offspring (ex ex' : Executor) (state : ExecutionState)
    (result : List (Option ExecutionState)) : Prop where
  solver : ex'.solver = ex.solver
  OnlyReplaySeeds : ex'.OnlyReplaySeeds = ex.OnlyReplaySeeds
  seedMap : ex'.seedMap = ex.seedMap
  removedStates : ex'.removedStates = ex.removedStates
  constraints : ∀ es, some es ∈ result → es.constraints = state.constraints
  id : ∀ es, some es ∈ result → es.id = state.id
    ∨ (ex.stateID < es.id ∧ es.id ≤ ex'.stateID ∧ es.id ∈ ex'.addedStates)
  apart : result.Pairwise Apart

section Created

variable {ex : Executor} {state : ExecutionState}

/-- What holds while states are split. -/
structure Splitting.Inv (ex : Executor) (state : ExecutionState) (s : Splitting) : Prop where
  offspring : Offspring ex s.executor state (s.result.map some)
  nonempty : 0 < s.result.length
  le : ex.stateID ≤ s.executor.stateID

/-- Splitting an entry leaves its id. -/
theorem map_set_id {l : List ExecutionState} {k depth : ℕ} {es : ExecutionState}
    (h : l[k]? = some es) : (l.set k { es with depth := depth }).map ExecutionState.id
      = l.map ExecutionState.id := by
  obtain ⟨hlt, rfl⟩ := List.getElem?_eq_some_iff.mp h
  have hlt' : k < (l.map ExecutionState.id).length := by simpa using hlt
  have hsame := List.set_getElem_self hlt'
  rw [List.getElem_map] at hsame
  rw [List.map_set]
  exact hsame

theorem pairwise_apart_map (l : List ExecutionState) :
    (l.map some).Pairwise Apart ↔ (l.map ExecutionState.id).Nodup := by
  rw [List.Nodup, List.pairwise_map, List.pairwise_map]
  simp [Apart]

theorem Splitting.step_inv (hid : state.id ≤ ex.stateID) {s s' : Splitting}
    (hinv : s.Inv ex state) (h : s.step = some s') :
    s'.Inv ex state ∧ s'.result.length = s.result.length + 1 := by
  obtain ⟨es, hes, heq⟩ := Option.bind_eq_some_iff.mp h
  dsimp only at heq
  obtain rfl := Option.some.inj heq
  have hmem : es ∈ s.result := List.mem_of_getElem? hes
  obtain ⟨hsolver, hreplay, hseedMap, hremoved, hconstraints, hids, hapart⟩ := hinv.offspring
  have hold : ∀ t ∈ s.result, t.constraints = state.constraints ∧ (t.id = state.id
      ∨ (ex.stateID < t.id ∧ t.id ≤ s.executor.stateID ∧ t.id ∈ s.executor.addedStates)) :=
    fun t ht => ⟨hconstraints t (List.mem_map_of_mem ht), hids t (List.mem_map_of_mem ht)⟩
  have hle := hinv.le
  have hnew : s.executor.insertState.stateID = s.executor.stateID + 1 := rfl
  refine ⟨⟨⟨hsolver, hreplay, hseedMap, hremoved, ?_, ?_, ?_⟩, by simp, Nat.le_succ_of_le hle⟩,
    by simp⟩
  · intro t ht
    simp only [List.map_append, List.mem_append, List.mem_map, Option.some.injEq, exists_eq_right,
      List.mem_singleton] at ht
    rcases ht with ht | ht
    · rcases List.mem_or_eq_of_mem_set ht with ht | rfl
      · exact (hold t ht).1
      · exact (hold es hmem).1
    · obtain ⟨t', rfl, rfl⟩ := ht
      exact (hold es hmem).1
  · intro t ht
    simp only [List.map_append, List.mem_append, List.mem_map, Option.some.injEq, exists_eq_right,
      List.mem_singleton] at ht
    have hgrow : ∀ id, (id = state.id ∨ (ex.stateID < id ∧ id ≤ s.executor.stateID
        ∧ id ∈ s.executor.addedStates)) → id = state.id ∨ (ex.stateID < id
          ∧ id ≤ s.executor.stateID + 1 ∧ id ∈ (s.executor.stateID + 1) :: s.executor.addedStates) :=
      fun i hi => hi.imp_right fun h => ⟨h.1, Nat.le_succ_of_le h.2.1, List.mem_cons_of_mem _ h.2.2⟩
    rcases ht with ht | ht
    · rcases List.mem_or_eq_of_mem_set ht with ht | rfl
      · exact hgrow _ (hold t ht).2
      · exact hgrow _ (hold es hmem).2
    · obtain ⟨t', rfl, rfl⟩ := ht
      exact .inr ⟨Nat.lt_succ_of_le hle, le_rfl, List.mem_cons_self ..⟩
  · rw [pairwise_apart_map] at hapart ⊢
    rw [List.map_append, map_set_id hes, List.nodup_append]
    refine ⟨hapart, by simp, ?_⟩
    simp only [List.mem_map, List.map_cons, List.map_nil, List.mem_singleton]
    rintro _ ⟨t, ht, rfl⟩ _ rfl
    rcases (hold t ht).2 with h | h <;> omega

theorem Splitting.run_inv (hid : state.id ≤ ex.stateID) {n : ℕ} {s s' : Splitting}
    (hinv : s.Inv ex state) (h : Splitting.run n s = some s') :
    s'.Inv ex state ∧ s'.result.length = s.result.length + n := by
  induction n generalizing s with
  | zero =>
    obtain rfl := Option.some.inj h
    exact ⟨hinv, rfl⟩
  | succ n ih =>
    obtain ⟨mid, hmid, h⟩ := Option.bind_eq_some_iff.mp h
    obtain ⟨hmidinv, hlen⟩ := step_inv hid hinv hmid
    obtain ⟨hinv', hlen'⟩ := ih hmidinv h
    exact ⟨hinv', by omega⟩

/-- The loop does not leave the vector. -/
theorem Splitting.run_returns (n : ℕ) {s : Splitting} (h : 0 < s.result.length) :
    ∃ s', Splitting.run n s = some s' := by
  induction n generalizing s with
  | zero => exact ⟨s, rfl⟩
  | succ n ih =>
    have hlt := s.rng.below_lt h
    obtain ⟨s', hs'⟩ : ∃ s', s.step = some s' ∧ 0 < s'.result.length := by
      simp only [Splitting.step, List.getElem?_eq_getElem hlt, Option.bind_eq_bind,
        Option.bind_some, Option.some.injEq, exists_eq_left']
      simp
    obtain ⟨r, hr⟩ := ih hs'.2
    exact ⟨r, by rw [Splitting.run, hs'.1]; exact hr⟩

/-- The vector has one entry for each condition, and a state in each of them before the limit. -/
theorem createStates_spec {rng : RNG} {N : ℕ} {r : BranchResult} (hN : 0 < N)
    (hid : state.id ≤ ex.stateID) (h : ex.createStates rng state N = some r) :
    Offspring ex r.executor state r.result ∧ r.result.length = N
      ∧ (none ∈ r.result → ex.atMaxForks = true) := by
  unfold createStates at h
  split at h
  next hmax =>
    obtain rfl := Option.some.inj h
    refine ⟨⟨rfl, rfl, rfl, rfl, ?_, ?_, ?_⟩, by simp, fun _ => hmax⟩
    · intro es hes
      obtain ⟨i, -, hi⟩ := List.mem_map.mp hes
      split at hi
      next => exact (Option.some.inj hi) ▸ rfl
      next => cases hi
    · intro es hes
      obtain ⟨i, -, hi⟩ := List.mem_map.mp hes
      split at hi
      next => exact .inl ((Option.some.inj hi) ▸ rfl)
      next => cases hi
    · rw [List.pairwise_map]
      refine List.Pairwise.imp ?_ List.nodup_range
      intro a b hab es hes es' hes'
      exact absurd ((by simpa using hes : a = _ ∧ _).1.trans
        (by simpa using hes' : b = _ ∧ _).1.symm) hab
  next hmax =>
    obtain ⟨s, hs, heq⟩ := Option.bind_eq_some_iff.mp h
    obtain rfl := Option.some.inj heq
    have hstart : Splitting.Inv ex state ⟨ex.addForks (N - 1), rng, [state]⟩ :=
      ⟨⟨rfl, rfl, rfl, rfl, by simp, by simp, by simp⟩, by simp, le_rfl⟩
    obtain ⟨hinv, hlen⟩ := Splitting.run_inv hid hstart hs
    refine ⟨hinv.offspring, ?_, by simp⟩
    simp only [List.length_map, hlen, List.length_singleton]
    omega

theorem createStates_returns (rng : RNG) (N : ℕ) : ∃ r, ex.createStates rng state N = some r := by
  unfold createStates
  split
  next => exact ⟨_, rfl⟩
  next =>
    obtain ⟨s, hs⟩ := @Splitting.run_returns (N - 1) ⟨ex.addForks (N - 1), rng, [state]⟩
      Nat.one_pos
    exact ⟨⟨s.executor, s.rng, s.result.map some⟩, by rw [hs]; rfl⟩

end Created

/-! ## Where the seeds go -/

/-- The seeds that are placed at an index, in their order. -/
def seedsAt (seeds : List SeedInfo) (place : List ℕ) (i : ℕ) : List SeedInfo :=
  ((seeds.zip place).filter fun p => p.2 == i).map Prod.fst

theorem seedsAt_cons (siit : SeedInfo) (seeds : List SeedInfo) (k : ℕ) (place : List ℕ) (i : ℕ) :
    seedsAt (siit :: seeds) (k :: place) i
      = if k = i then siit :: seedsAt seeds place i else seedsAt seeds place i := by
  by_cases h : k = i
  · simp [seedsAt, h]
  · simp [seedsAt, h]

section Placed

variable {ex : Executor} {state : ExecutionState} {conditions : List Expr}

theorem findCondition_le {siit : SeedInfo} {i : ℕ}
    (h : ex.findCondition state siit conditions = some i) : i ≤ conditions.length := by
  induction conditions generalizing i with
  | nil => exact (Option.some.inj h).ge
  | cons c cs ih =>
    obtain ⟨res, -, h⟩ := Option.bind_eq_some_iff.mp h
    split at h
    next =>
      obtain rfl := Option.some.inj h
      exact Nat.zero_le _
    next =>
      obtain ⟨k, hk, h⟩ := Option.bind_eq_some_iff.mp h
      obtain rfl := Option.some.inj h
      exact Nat.succ_le_succ (ih hk)

/-- The condition that was found is true under the seed. -/
theorem seedBranch_of_findCondition {siit : SeedInfo} {i : ℕ} {c : Expr}
    (h : ex.findCondition state siit conditions = some i) (hc : conditions[i]? = some c) :
    ex.seedBranch state c siit = some true := by
  induction conditions generalizing i with
  | nil => simp at hc
  | cons c' cs ih =>
    obtain ⟨res, hres, h⟩ := Option.bind_eq_some_iff.mp h
    split at h
    next htrue =>
      obtain rfl := Option.some.inj h
      obtain rfl := Option.some.inj hc
      rw [hres, htrue]
    next =>
      obtain ⟨k, hk, h⟩ := Option.bind_eq_some_iff.mp h
      obtain rfl := Option.some.inj h
      exact ih hk (by simpa using hc)

/-- The bytes of the seed make the condition true. -/
def SeedSatisfies (condition : Expr) (siit : SeedInfo) : Prop :=
  siit.evaluate condition = .Constant (.ofBool true)

/-- The bytes of the seed give each of the conditions a value. -/
def SeedDecides (conditions : List Expr) (siit : SeedInfo) : Prop :=
  ∀ c ∈ conditions, ∃ b, siit.evaluate c = .Constant (.ofBool b)

/-- No two conditions are true at once. -/
def Exclusive (constraints conditions : List Expr) : Prop :=
  ∀ (i j : ℕ) (c c' : Expr), conditions[i]? = some c → conditions[j]? = some c' → i ≠ j →
    ∀ σ, Satisfies σ constraints → c.Holds σ → ¬c'.Holds σ

theorem seedBranch_of_satisfies {c : Expr} {siit : SeedInfo} (h : SeedSatisfies c siit) :
    ex.seedBranch state c siit = some true :=
  seedBranch_of_constant h

/-- A seed that satisfies one condition and no other is found to satisfy it. -/
theorem findCondition_of_satisfies {siit : SeedInfo} (hdecides : SeedDecides conditions siit)
    {i : ℕ} {c : Expr} (hc : conditions[i]? = some c) (hsat : SeedSatisfies c siit)
    (honly : ∀ j c', conditions[j]? = some c' → j ≠ i → ¬SeedSatisfies c' siit) :
    ex.findCondition state siit conditions = some i := by
  induction conditions generalizing i with
  | nil => simp at hc
  | cons c' cs ih =>
    obtain ⟨⟨b, hb⟩, hdecides⟩ := List.forall_mem_cons.mp hdecides
    have hbranch : ex.seedBranch state c' siit = some b := by
      rw [seedBranch_of_constant hb]
      cases b <;> rfl
    cases i with
    | zero =>
      obtain rfl := Option.some.inj hc
      simp [findCondition, seedBranch_of_satisfies hsat]
    | succ i =>
      have hfalse : b = false := by
        cases b with
        | false => rfl
        | true => exact absurd hb (honly 0 c' rfl (Nat.succ_ne_zero i).symm)
      have hrest := ih hdecides (by simpa using hc) fun j c' hj hne =>
        honly (j + 1) c' (by simpa using hj) (by omega)
      simp [findCondition, hbranch, hfalse, hrest]

theorem findCondition_congr {ex' : Executor} (h : ex'.solver = ex.solver) (siit : SeedInfo) :
    ex'.findCondition state siit conditions = ex.findCondition state siit conditions := by
  induction conditions with
  | nil => rfl
  | cons c cs ih =>
    have hbranch : ex'.seedBranch state c siit = ex.seedBranch state c siit := by
      rw [seedBranch, seedBranch, h]
    rw [findCondition, findCondition, hbranch, ih]

/-- A seed is placed at a condition it satisfies, or anywhere if it satisfies none. -/
def Places (ex : Executor) (state : ExecutionState) (conditions : List Expr) (siit : SeedInfo)
    (i : ℕ) : Prop :=
  i < conditions.length ∧ (ex.findCondition state siit conditions = some i
    ∨ ex.findCondition state siit conditions = some conditions.length)

theorem placeSeed_places {rng rng' : RNG} {siit : SeedInfo} {i : ℕ} (hne : conditions ≠ [])
    (h : ex.placeSeed rng state conditions siit = some (i, rng')) :
    Places ex state conditions siit i := by
  obtain ⟨k, hk, h⟩ := Option.bind_eq_some_iff.mp h
  split at h
  next heq =>
    have hi := (Prod.mk.inj (Option.some.inj h)).1
    exact ⟨hi ▸ rng.below_lt (List.length_pos_iff.mpr hne), .inr (heq ▸ hk)⟩
  next hne' =>
    obtain ⟨rfl, -⟩ := Prod.mk.inj (Option.some.inj h)
    exact ⟨Nat.lt_of_le_of_ne (findCondition_le hk) hne', .inl hk⟩

theorem Places.congr {ex' : Executor} (h : ex'.solver = ex.solver) {siit : SeedInfo} {i : ℕ}
    (hplaces : Places ex' state conditions siit i) : Places ex state conditions siit i := by
  rw [Places, findCondition_congr h] at hplaces
  exact hplaces

/-- An executor with other seeds. -/
structure SameButSeeds (ex ex' : Executor) : Prop where
  solver : ex'.solver = ex.solver
  OnlyReplaySeeds : ex'.OnlyReplaySeeds = ex.OnlyReplaySeeds
  addedStates : ex'.addedStates = ex.addedStates
  removedStates : ex'.removedStates = ex.removedStates

theorem SameButSeeds.refl (ex : Executor) : SameButSeeds ex ex := ⟨rfl, rfl, rfl, rfl⟩

theorem SameButSeeds.trans {ex ex' ex'' : Executor} (h : SameButSeeds ex ex')
    (h' : SameButSeeds ex' ex'') : SameButSeeds ex ex'' :=
  ⟨h'.solver.trans h.solver, h'.OnlyReplaySeeds.trans h.OnlyReplaySeeds,
    h'.addedStates.trans h.addedStates, h'.removedStates.trans h.removedStates⟩

/-- What one turn of the loop over the seeds does. -/
theorem redistributeSeed_cases {result : List (Option ExecutionState)} (hne : conditions ≠ [])
    {ex' : Executor} {rng rng' : RNG} {siit : SeedInfo}
    (h : redistributeSeed state conditions result (ex, rng) siit = some (ex', rng')) :
    ∃ k, Places ex state conditions siit k
      ∧ ((∃ es, result[k]? = some (some es) ∧ ex' = ex.pushSeed es siit)
        ∨ (result[k]? = some none ∧ ex' = ex)) := by
  obtain ⟨⟨k, rng₁⟩, hplace, h⟩ := Option.bind_eq_some_iff.mp h
  obtain ⟨entry, hentry, h⟩ := Option.bind_eq_some_iff.mp h
  refine ⟨k, placeSeed_places hne hplace, ?_⟩
  cases entry with
  | some es => exact .inl ⟨es, hentry, (Prod.mk.inj (Option.some.inj h)).1.symm⟩
  | none => exact .inr ⟨hentry, (Prod.mk.inj (Option.some.inj h)).1.symm⟩

/-- The loop over the seeds adds to each entry the seeds that are placed there. -/
theorem foldlM_redistributeSeed {result : List (Option ExecutionState)}
    (hne : conditions ≠ []) (hapart : result.Pairwise Apart) {seeds : List SeedInfo}
    {s s' : Executor × RNG} (before : ℕ → List SeedInfo)
    (hbefore : ∀ i es, result[i]? = some (some es) → s.1.seedMap es.id = seedEntry (before i))
    (h : seeds.foldlM (redistributeSeed state conditions result) s = some s') :
    SameButSeeds s.1 s'.1 ∧ ∃ place, List.Forall₂ (Places s.1 state conditions) seeds place
      ∧ ∀ i es, result[i]? = some (some es) →
        s'.1.seedMap es.id = seedEntry (before i ++ seedsAt seeds place i) := by
  induction seeds generalizing s before with
  | nil =>
    obtain rfl := Option.some.inj h
    refine ⟨.refl _, [], .nil, fun i es hi => ?_⟩
    rw [hbefore i es hi]
    simp [seedsAt]
  | cons siit seeds ih =>
    rw [List.foldlM_cons] at h
    obtain ⟨mid, hmid, h⟩ := Option.bind_eq_some_iff.mp h
    obtain ⟨k, hplaces, hcases⟩ := redistributeSeed_cases hne hmid
    have hsame : SameButSeeds s.1 mid.1 := by
      rcases hcases with ⟨es, -, heq⟩ | ⟨-, heq⟩
      · rw [heq]
        exact ⟨rfl, rfl, rfl, rfl⟩
      · rw [heq]
        exact .refl _
    have hmidmap : ∀ i es, result[i]? = some (some es) → mid.1.seedMap es.id
        = seedEntry (before i ++ if k = i then [siit] else []) := by
      intro i es hi
      rcases hcases with ⟨es', hk, heq⟩ | ⟨hk, heq⟩
      · rw [heq]
        by_cases hki : k = i
        · subst hki
          obtain rfl : es' = es := by simpa using hk.symm.trans hi
          have hpush : (s.1.pushSeed es' siit).seedMap es'.id
              = some ((s.1.seedMap es'.id).getD [] ++ [siit]) := Function.update_self ..
          rw [hpush, hbefore k es' hi, seedEntry_getD, if_pos rfl]
          simp [seedEntry]
        · have hpush : (s.1.pushSeed es' siit).seedMap es.id = s.1.seedMap es.id :=
            Function.update_of_ne (ids_ne hapart hi hk (Ne.symm hki)) ..
          rw [hpush, hbefore i es hi, if_neg hki, List.append_nil]
      · have hki : k ≠ i := fun hki => by
          rw [hki, hi] at hk
          simp at hk
        rw [heq, hbefore i es hi, if_neg hki, List.append_nil]
    obtain ⟨hsame', place, hall, hmap⟩ := ih _ hmidmap h
    refine ⟨hsame.trans hsame', k :: place, ?_, fun i es hi => ?_⟩
    · exact .cons hplaces (hall.imp fun _ _ hp => hp.congr hsame.solver)
    · rw [hmap i es hi, seedsAt_cons, List.append_assoc]
      by_cases hki : k = i
      · simp [hki]
      · simp [hki]

/-- The loop that terminates states removes the ones without seeds. -/
theorem terminateUnseeded_spec (ex : Executor) (result : List (Option ExecutionState)) :
    (ex.terminateUnseeded result).2
        = result.map (Option.filter fun es => (ex.seedMap es.id).isSome)
      ∧ (ex.terminateUnseeded result).1.seedMap = ex.seedMap
      ∧ (ex.terminateUnseeded result).1.solver = ex.solver
      ∧ (∀ id, (ex.seedMap id).isSome → id ∈ ex.addedStates →
        id ∈ (ex.terminateUnseeded result).1.addedStates)
      ∧ ∀ id ∈ (ex.terminateUnseeded result).1.removedStates,
        id ∈ ex.removedStates ∨ ex.seedMap id = none := by
  induction result generalizing ex with
  | nil => exact ⟨rfl, rfl, rfl, fun _ _ h => h, fun _ h => .inl h⟩
  | cons entry result ih =>
    cases entry with
    | none =>
      obtain ⟨hresult, hmap, hsolver, hadded, hremoved⟩ := ih ex
      exact ⟨by simp [terminateUnseeded, hresult], hmap, hsolver, hadded, hremoved⟩
    | some es =>
      cases hseeds : ex.seedMap es.id with
      | some seeds =>
        obtain ⟨hresult, hmap, hsolver, hadded, hremoved⟩ := ih ex
        have hstep : ex.terminateUnseeded (some es :: result)
            = ((ex.terminateUnseeded result).1, some es :: (ex.terminateUnseeded result).2) := by
          simp [terminateUnseeded, hseeds]
        rw [hstep]
        exact ⟨by simp [hresult, Option.filter, hseeds], hmap, hsolver, hadded, hremoved⟩
      | none =>
        obtain ⟨hresult, hmap, hsolver, hadded, hremoved⟩ := ih (ex.terminateState es)
        have hstep : ex.terminateUnseeded (some es :: result)
            = (((ex.terminateState es).terminateUnseeded result).1,
              none :: ((ex.terminateState es).terminateUnseeded result).2) := by
          simp [terminateUnseeded, hseeds]
        have hkeep : (ex.terminateState es).seedMap = ex.seedMap := by
          unfold terminateState
          split
          · rw [← hseeds, Function.update_eq_self]
          · rfl
        have hsolver' : (ex.terminateState es).solver = ex.solver := by
          unfold terminateState
          split <;> rfl
        rw [hkeep] at hresult hmap hadded hremoved
        rw [hstep]
        refine ⟨by simp [hresult, Option.filter, hseeds], hmap, hsolver.trans hsolver', fun i hi hmem => ?_,
          fun i hmem => ?_⟩
        · refine hadded i hi ?_
          unfold terminateState
          split
          · refine (List.mem_erase_of_ne fun heq => ?_).mpr hmem
            rw [heq, hseeds] at hi
            cases hi
          · exact hmem
        · rcases hremoved i hmem with hmem | hnone
          · unfold terminateState at hmem
            split at hmem
            · exact .inl hmem
            · rcases List.mem_cons.mp hmem with rfl | hmem
              · exact .inr hseeds
              · exact .inl hmem
          · exact .inr hnone

theorem notMem_of_seedsAt_nil {R : SeedInfo → ℕ → Prop} {seeds : List SeedInfo} {place : List ℕ}
    (h : List.Forall₂ R seeds place) {i : ℕ} (hnil : seedsAt seeds place i = []) : i ∉ place := by
  induction h with
  | nil => simp
  | @cons siit k seeds place _ _ ih =>
    rw [seedsAt_cons] at hnil
    split at hnil
    next => cases hnil
    next hne =>
      rw [List.mem_cons, not_or]
      exact ⟨fun h => hne h.symm, ih hnil⟩

theorem mem_seedsAt {R : SeedInfo → ℕ → Prop} {seeds : List SeedInfo} {place : List ℕ}
    (h : List.Forall₂ R seeds place) {i : ℕ} {siit : SeedInfo} (hmem : siit ∈ seedsAt seeds place i) :
    siit ∈ seeds ∧ R siit i := by
  induction h with
  | nil => cases hmem
  | @cons siit' k seeds place hR _ ih =>
    rw [seedsAt_cons] at hmem
    split at hmem
    next hk =>
      rcases List.mem_cons.mp hmem with rfl | hmem
      · exact ⟨List.mem_cons_self .., hk ▸ hR⟩
      · exact (ih hmem).imp_left (List.mem_cons_of_mem _)
    next => exact (ih hmem).imp_left (List.mem_cons_of_mem _)

/-- What is known of the vector and the seeds before the conditions are added. -/
structure Redistributed (ex : Executor) (state : ExecutionState) (conditions : List Expr)
    (created r : BranchResult) (place : List ℕ) : Prop where
  solver : r.executor.solver = ex.solver
  length : r.result.length = created.result.length
  apart : r.result.Pairwise Apart
  states : ∀ (i : ℕ) (es : ExecutionState), r.result[i]? = some (some es) →
    created.result[i]? = some (some es)
      ∧ r.executor.seedMap es.id
        = seedEntry (seedsAt ((ex.seedMap state.id).getD []) place i)
      ∧ (es.id = state.id ∨ es.id ∈ r.executor.addedStates)
      ∧ (es.id ∈ r.executor.removedStates → es.id ∈ ex.removedStates)
  null : ∀ i : ℕ, r.result[i]? = some none → created.result[i]? = some none
    ∨ (ex.OnlyReplaySeeds = true ∧ (ex.seedMap state.id).isSome ∧ i ∉ place)
  place : List.Forall₂ (Places ex state conditions) ((ex.seedMap state.id).getD []) place

theorem redistributeSeeds_spec (hne : conditions ≠ [])
    (hfresh : ∀ id, ex.stateID < id → ex.seedMap id = none) {created r : BranchResult}
    (hspring : Offspring ex created.executor state created.result)
    (h : redistributeSeeds state conditions created = some r) :
    ∃ place, Redistributed ex state conditions created r place := by
  obtain ⟨hsolver, hreplay, hseedMap, hremoved, -, hids, hapart⟩ := hspring
  unfold redistributeSeeds at h
  rw [hseedMap] at h
  split at h
  next hseeds =>
    obtain rfl := Option.some.inj h
    refine ⟨[], hsolver, rfl, hapart, fun i es hi => ⟨hi, ?_, ?_, ?_⟩, fun i hi => .inl hi, ?_⟩
    · rw [hseedMap, hseeds]
      rcases hids es (List.mem_of_getElem? hi) with hid | ⟨hlt, -⟩
      · rw [hid, hseeds]
        rfl
      · rw [hfresh _ hlt]
        rfl
    · exact (hids es (List.mem_of_getElem? hi)).imp_right fun h => h.2.2
    · rw [hremoved]
      exact id
    · rw [hseeds]
      exact .nil
  next seeds hseeds =>
    obtain ⟨⟨ex₁, rng₁⟩, hfold, h⟩ := Option.bind_eq_some_iff.mp h
    have hstart : ∀ (i : ℕ) (es : ExecutionState), created.result[i]? = some (some es) →
        (created.executor.eraseSeeds state).seedMap es.id = seedEntry [] := by
      intro i es hi
      rw [eraseSeeds, hseedMap]
      rcases hids es (List.mem_of_getElem? hi) with hid | ⟨hlt, -⟩
      · rw [hid]
        exact Function.update_self ..
      · by_cases hid : es.id = state.id
        · rw [hid]
          exact Function.update_self ..
        · refine (Function.update_of_ne hid ..).trans ?_
          rw [hfresh _ hlt]
          rfl
    obtain ⟨hsame, place, hall, hmap⟩ := foldlM_redistributeSeed hne hapart (fun _ => []) hstart hfold
    have hplace : List.Forall₂ (Places ex state conditions) ((ex.seedMap state.id).getD []) place := by
      rw [hseeds]
      exact hall.imp fun _ _ hp =>
        hp.congr (show (created.executor.eraseSeeds state).solver = ex.solver from hsolver)
    have hlive : ∀ es : ExecutionState, some es ∈ created.result → es.id = state.id ∨ es.id ∈ ex₁.addedStates := by
      intro es hes
      rw [hsame.addedStates]
      exact (hids es hes).imp_right fun h => h.2.2
    have hremoved₁ : ex₁.removedStates = ex.removedStates := hsame.removedStates.trans hremoved
    have hreplay₁ : ex₁.OnlyReplaySeeds = ex.OnlyReplaySeeds := hsame.OnlyReplaySeeds.trans hreplay
    simp only [List.nil_append] at hmap
    dsimp only at h
    split at h
    next honly =>
      obtain rfl := Option.some.inj h
      obtain ⟨hresult, hmap', hsolver', hadded', hremoved'⟩ :=
        terminateUnseeded_spec ex₁ created.result
      -- an entry that is left is the one that was there, and has seeds
      have hkept : ∀ (i : ℕ) (es : ExecutionState), (ex₁.terminateUnseeded created.result).2[i]? = some (some es) →
          created.result[i]? = some (some es) ∧ (ex₁.seedMap es.id).isSome = true := by
        intro i es hi
        rw [hresult, List.getElem?_map] at hi
        obtain ⟨entry, hentry, hfilter⟩ := Option.map_eq_some_iff.mp hi
        obtain ⟨rfl, hsome⟩ := Option.filter_eq_some_iff.mp hfilter
        exact ⟨hentry, hsome⟩
      refine ⟨place, hsolver'.trans (hsame.solver.trans hsolver), by simp [hresult], ?_, ?_, ?_,
        hplace⟩
      · rw [hresult, List.pairwise_map]
        refine hapart.imp fun hab es hes es' hes' => hab es ?_ es' ?_
        · exact (Option.filter_eq_some_iff.mp hes).1
        · exact (Option.filter_eq_some_iff.mp hes').1
      · intro i es hi
        obtain ⟨hold, hsome⟩ := hkept i es hi
        refine ⟨hold, ?_, ?_, fun hmem => ?_⟩
        · rw [hmap', hmap i es hold, hseeds]
          rfl
        · exact (hlive es (List.mem_of_getElem? hold)).imp_right (hadded' _ hsome)
        · rcases hremoved' _ hmem with hmem | hnone
          · rwa [hremoved₁] at hmem
          · rw [hnone] at hsome
            cases hsome
      · intro i hi
        rw [hresult, List.getElem?_map] at hi
        obtain ⟨entry, hentry, hfilter⟩ := Option.map_eq_some_iff.mp hi
        cases entry with
        | none => exact .inl hentry
        | some es =>
          have hnone : ex₁.seedMap es.id = none := by simpa [Option.filter] using hfilter
          rw [hmap i es hentry] at hnone
          refine .inr ⟨hreplay₁ ▸ honly, by simp [hseeds], notMem_of_seedsAt_nil hall ?_⟩
          cases hat : seedsAt seeds place i with
          | nil => rfl
          | cons siit rest =>
            rw [hat] at hnone
            simp [seedEntry] at hnone
    next =>
      obtain rfl := Option.some.inj h
      refine ⟨place, hsame.solver.trans hsolver, rfl, hapart, fun i es hi => ⟨hi, ?_, ?_, ?_⟩,
        fun i hi => .inl hi, hplace⟩
      · rw [hmap i es hi, hseeds]
        rfl
      · exact hlive es (List.mem_of_getElem? hi)
      · rw [hremoved₁]
        exact id

end Placed

/-! ## Adding the conditions -/

/-- A seed that rules the condition out is patched. -/
def Patched (solver : TimingSolver) (constraints : List Expr) (condition : Expr)
    (old new : SeedInfo) : Prop :=
  new = old ∨ patchViolated solver constraints condition old = some new

theorem forall₂_of_mapM {α β : Type} {f : α → Option β} {l : List α} {l' : List β}
    (h : l.mapM f = some l') : List.Forall₂ (fun a b => f a = some b) l l' := by
  induction l generalizing l' with
  | nil =>
    obtain rfl : [] = l' := by simpa using h
    exact .nil
  | cons a l ih =>
    rw [List.mapM_cons] at h
    obtain ⟨b, hb, h⟩ := Option.bind_eq_some_iff.mp h
    obtain ⟨bs, hbs, h⟩ := Option.bind_eq_some_iff.mp h
    obtain rfl := Option.some.inj h
    exact .cons hb (ih hbs)

section Conditions

variable {ex ex' : Executor} {condition : Expr}

/-- What `addConstraint` does to the seeds of the state. -/
theorem addConstraint_patched {state state' : ExecutionState}
    (h : ex.addConstraint state condition = some (ex', state')) :
    SameButSeeds ex ex' ∧ (∀ id ≠ state.id, ex'.seedMap id = ex.seedMap id)
      ∧ List.Forall₂ (Patched ex.solver state.constraints condition)
        ((ex.seedMap state.id).getD []) ((ex'.seedMap state.id).getD []) := by
  have hrefl : ∀ seeds, List.Forall₂ (Patched ex.solver state.constraints condition) seeds seeds :=
    fun seeds => List.forall₂_same.mpr fun _ _ => .inl rfl
  unfold addConstraint at h
  split at h
  next CE =>
    split at h
    next =>
      obtain ⟨rfl, -⟩ := Prod.mk.inj (Option.some.inj h)
      exact ⟨.refl _, fun _ _ => rfl, hrefl _⟩
    next => cases h
  next =>
    obtain ⟨seeds, hpatch, h⟩ := Option.bind_eq_some_iff.mp h
    obtain ⟨constraints, -, h⟩ := Option.bind_eq_some_iff.mp h
    obtain ⟨rfl, -⟩ := Prod.mk.inj (Option.some.inj h)
    refine ⟨⟨rfl, rfl, rfl, rfl⟩, fun id hid => Function.update_of_ne hid .., ?_⟩
    change List.Forall₂ _ _ ((Function.update ex.seedMap state.id seeds state.id).getD [])
    rw [Function.update_self]
    unfold patchSeeds at hpatch
    split at hpatch
    next hnone =>
      obtain rfl := Option.some.inj hpatch
      rw [hnone]
      exact .nil
    next seeds₀ hseeds₀ =>
      obtain ⟨seeds', hmap, rfl⟩ := Option.map_eq_some_iff.mp hpatch
      rw [hseeds₀]
      exact (forall₂_of_mapM hmap).imp fun _ _ hp => .inr hp

/-- An entry of the vector after the loop that adds the conditions. -/
structure Conditioned (ex ex' : Executor) (condition : Expr) (es es' : ExecutionState) : Prop where
  adds : Adds (fun σ => condition.Holds σ) es es'
  seeds : List.Forall₂ (Patched ex.solver es.constraints condition)
    ((ex.seedMap es.id).getD []) ((ex'.seedMap es.id).getD [])

/-- The loop adds to each entry the condition at its index. -/
theorem addConditions_spec {result result' : List (Option ExecutionState)}
    {conditions : List Expr} (hcs : ∀ es, some es ∈ result → ∀ c ∈ es.constraints, c.IsBool)
    (he : ∀ c ∈ conditions, c.IsBool) (hapart : result.Pairwise Apart)
    (h : ex.addConditions result conditions = some (ex', result')) :
    SameButSeeds ex ex' ∧ result'.length = result.length
      ∧ (∀ id, (∀ es, some es ∈ result → es.id ≠ id) → ex'.seedMap id = ex.seedMap id)
      ∧ ∀ (i : ℕ) (c : Expr), conditions[i]? = some c →
        (result'[i]? = some none → result[i]? = some none)
          ∧ ∀ es', result'[i]? = some (some es') →
            ∃ es, result[i]? = some (some es) ∧ Conditioned ex ex' c es es' := by
  induction conditions generalizing ex result result' with
  | nil =>
    obtain ⟨rfl, rfl⟩ : ex = ex' ∧ result = result' := by
      cases result <;> simpa [addConditions] using h
    exact ⟨.refl _, rfl, fun _ _ => rfl, fun i c hc => by simp at hc⟩
  | cons condition conditions ih =>
    obtain ⟨hcond, he⟩ := List.forall_mem_cons.mp he
    cases result with
    | nil => cases h
    | cons entry result =>
      obtain ⟨hhead, htail⟩ := List.pairwise_cons.mp hapart
      have hcs' : ∀ es, some es ∈ result → ∀ c ∈ es.constraints, c.IsBool :=
        fun es hes => hcs es (List.mem_cons_of_mem _ hes)
      cases entry with
      | none =>
        obtain ⟨⟨ex₁, result₁⟩, hrest, heq⟩ := Option.bind_eq_some_iff.mp h
        obtain ⟨rfl, rfl⟩ := Prod.mk.inj (Option.some.inj heq)
        obtain ⟨hsame, hlen, hframe, hentries⟩ := ih hcs' he htail hrest
        refine ⟨hsame, by simp [hlen], fun id hid => hframe id fun es hes =>
          hid es (List.mem_cons_of_mem _ hes), fun i c hc => ?_⟩
        cases i with
        | zero => exact ⟨fun _ => rfl, fun es' h => by simp at h⟩
        | succ i => simpa using hentries i c (by simpa using hc)
      | some es =>
        obtain ⟨⟨ex₁, es₁⟩, hadd, h⟩ := Option.bind_eq_some_iff.mp h
        obtain ⟨⟨ex₂, result₂⟩, hrest, heq⟩ := Option.bind_eq_some_iff.mp h
        obtain ⟨rfl, rfl⟩ := Prod.mk.inj (Option.some.inj heq)
        obtain ⟨hsame₁, hother, hpatched⟩ := addConstraint_patched hadd
        obtain ⟨hsame₂, hlen, hframe, hentries⟩ := ih hcs' he htail hrest
        have hadds := (addConstraint_adds (hcs es (List.mem_cons_self ..)) hcond hadd).1
        -- the states of the other entries have other ids
        have hne : ∀ t, some t ∈ result → t.id ≠ es.id :=
          fun t ht => (hhead _ ht es rfl t rfl).symm
        refine ⟨hsame₁.trans hsame₂, by simp [hlen], fun id hid => ?_, fun i c hc => ?_⟩
        · exact (hframe id fun t ht => hid t (List.mem_cons_of_mem _ ht)).trans
            (hother id (hid es (List.mem_cons_self ..)).symm)
        · cases i with
          | zero =>
            obtain rfl := Option.some.inj hc
            refine ⟨fun h => by simp at h, fun es' hes' => ⟨es, rfl, ?_⟩⟩
            obtain rfl : es₁ = es' := by simpa using hes'
            refine ⟨hadds, ?_⟩
            have hkeep : ex₂.seedMap es.id = ex₁.seedMap es.id := hframe es.id hne
            rw [hkeep]
            exact hpatched
          | succ i =>
            obtain ⟨hnull, hsome⟩ := hentries i c (by simpa using hc)
            refine ⟨by simpa using hnull, fun es' hes' => ?_⟩
            obtain ⟨t, ht, hcond'⟩ := hsome es' (by simpa using hes')
            refine ⟨t, by simpa using ht, hcond'.adds, ?_⟩
            have hkeep : ex₁.seedMap t.id = ex.seedMap t.id :=
              hother t.id (hne t (List.mem_of_getElem? ht))
            rw [← hkeep, ← hsame₁.solver]
            exact hcond'.seeds

end Conditions

end Executor

end Xklee
