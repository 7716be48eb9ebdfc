/-
The live states over a whole run of the executor: `Executor::run` of `lib/Core/Executor.cpp`,
with `fork`, `branch`, `terminateState` and `updateStates` as far as they change which
states there are.

To the sets of `Core/ProcessTree` come the keys of `seedMap`, the states that are allocated,
and the searcher, which is null while seeds are executed. A step has no result where the
code would use or delete a state that is not allocated, or call a function of the searcher
while it is null. What the solver, the seeds, the limits and the random numbers decide is a
parameter of each step, and an instruction may fork, branch and terminate in any order.
-/
import Xklee.Core.ProcessTree
import Xklee.Core.Searcher

set_option autoImplicit false

namespace Xklee

/-! ## The code -/

structure ExecutorOptions where
  usingSeeds : Bool
  OnlyReplaySeeds : Bool
  UseConcreteData : Bool
  UseConcolicSearcher : Bool

/-- Where `run` is. -/
inductive RunPhase
  /-- At the head of the loop over `seedMap`. -/
  | seeding
  | seedInstruction (state : ℕ)
  /-- Before the searcher is made. -/
  | seeded
  /-- At the head of the loop over the states. -/
  | searching
  | searchInstruction (state : ℕ)
  /-- At `dump`. -/
  | halted
  | finished

structure ExecutorRun (Store : Type) where
  sets : StateSets
  /-- The keys of `seedMap`. -/
  seedMap : Finset ℕ
  /-- The states that are not deleted. -/
  allocated : Finset ℕ
  searcher : Option Store
  phase : RunPhase

namespace ExecutorRun

variable {Store : Type} (impl : Searcher ℕ Store) (options : ExecutorOptions)

/-- At the start of `run`. -/
def init : ExecutorRun Store where
  sets := .init
  seedMap := if options.usingSeeds then {0} else ∅
  allocated := {0}
  searcher := none
  phase := if options.usingSeeds then .seeding else .seeded

/-- `searcher->setFlags(..)`. -/
def setFlags (r : ExecutorRun Store) : Option (ExecutorRun Store) :=
  match r.searcher with
  | none => none
  | some _ => some r

/-- `terminateState`. A state in `addedStates` is deleted at once. -/
def terminateState (r : ExecutorRun Store) (state : ℕ) : Option (ExecutorRun Store) :=
  if state ∈ r.allocated then
    if state ∈ r.sets.addedStates then do
      let r ← r.setFlags
      let sets ← r.sets.terminateState state
      return { r with
        sets := sets
        seedMap := r.seedMap.erase state
        allocated := r.allocated.erase state }
    else do
      let sets ← r.sets.terminateState state
      return { r with sets := sets }
  else none

/-- `seedMap[trueState]` and `seedMap[falseState]`, and the erasure of the empty ones. -/
def splitSeeds (seedMap : Finset ℕ) (trueState falseState : ℕ) (trueSeeds falseSeeds : Bool) :
    Finset ℕ :=
  let seedMap := insert falseState (insert trueState seedMap)
  let seedMap := if trueSeeds then seedMap else seedMap.erase trueState
  if falseSeeds then seedMap else seedMap.erase falseState

/-- `trueState` and `falseState`, one of which is new and may be swapped with the other. -/
def forkPair (r : ExecutorRun Store) (current : ℕ) (swap : Bool) : ℕ × ℕ :=
  if swap then (r.sets.stateID + 1, current) else (current, r.sets.stateID + 1)

/-- The part of `fork` that makes the new state and deals the seeds out. -/
def splitState (r : ExecutorRun Store) (current trueState falseState : ℕ)
    (trueSeeds falseSeeds : Bool) : Option (ExecutorRun Store) :=
  ((r.sets.addBranch current).splitNode current falseState trueState).map fun sets =>
    { r with
      sets := sets
      seedMap := if current ∈ r.seedMap then
        splitSeeds r.seedMap trueState falseState trueSeeds falseSeeds else r.seedMap
      allocated := insert (r.sets.stateID + 1) r.allocated }

/-- "select the concolic branch first when useConcreteData in DFSSearcher" -/
def followSeeds (r : ExecutorRun Store) (concolicBr : Bool) : Option (ExecutorRun Store) :=
  if options.UseConcreteData ∧ options.UseConcolicSearcher ∧ concolicBr then r.setFlags else some r

/-- Both states are terminated if they are too deep. -/
def limitDepth (r : ExecutorRun Store) (exceedsDepth : Bool) (trueState falseState : ℕ) :
    Option (ExecutorRun Store) :=
  if exceedsDepth then (r.terminateState trueState).bind fun r => r.terminateState falseState
  else some r

/-- `fork`. The last arguments say whether there are seeds for either side. -/
def fork (r : ExecutorRun Store) (current : ℕ) (decision : ForkDecision)
    (trueSeeds falseSeeds : Bool) : Option (ExecutorRun Store) :=
  if current ∈ r.allocated then
    match decision with
    | .returns => some r
    | .timesOut => r.terminateState current
    | .splits swap exceedsDepth =>
        let (trueState, falseState) := r.forkPair current swap
        let concolicBr := decide (current ∈ r.seedMap) && trueSeeds
        (r.splitState current trueState falseState trueSeeds falseSeeds).bind fun r =>
          (r.followSeeds options concolicBr).bind fun r =>
            r.limitDepth exceedsDepth trueState falseState
  else none

/-- The loop of `branch` under `OnlyReplaySeeds`. -/
def terminateUnseeded : List ℕ → ExecutorRun Store → Option (ExecutorRun Store)
  | [], r => some r
  | state :: result, r =>
      (if state ∈ r.seedMap then some r else r.terminateState state).bind fun r =>
        terminateUnseeded result r

/-- `addConstraint(*result[i], conditions[i])`, for the states in `result` that are not
null. -/
def addConstraints (result : List ℕ) (r : ExecutorRun Store) : Option (ExecutorRun Store) :=
  if ∀ d ∈ result, d ∈ r.allocated then some r else none

/-- The part of `branch` that deals with seeds, for the states in `result` that are not
null. `unseeded` says which of them get no seed. -/
def distributeSeeds (r : ExecutorRun Store) (state : ℕ) (result : List ℕ) (unseeded : ℕ → Bool) :
    Option (ExecutorRun Store) :=
  if state ∈ r.seedMap then
    let seedMap := r.seedMap.erase state ∪ (result.filter (fun d => !unseeded d)).toFinset
    let r := { r with seedMap := seedMap }
    if options.OnlyReplaySeeds then
      (terminateUnseeded result r).bind (addConstraints (result.filter (· ∈ seedMap)))
    else addConstraints result r
  else addConstraints result r

/-- `branch`. -/
def branch (r : ExecutorRun Store) (state : ℕ) (decision : BranchDecision) :
    Option (ExecutorRun Store) :=
  if state ∈ r.allocated then
    match decision with
    | .returns => some r
    | .limited unseeded => r.distributeSeeds options state [state] fun _ => unseeded
    | .splits picks unseeded =>
        (r.sets.branchLoop [state] picks).bind fun (result, sets) =>
          { r with sets := sets, allocated := r.allocated ∪ result.toFinset }.distributeSeeds
            options state result unseeded
  else none

/-- The loop of `updateStates` over the removed states, as to seeds and memory. -/
def deleteStates : List ℕ → ExecutorRun Store → Option (ExecutorRun Store)
  | [], r => some r
  | es :: order, r =>
      if es ∈ r.allocated then
        deleteStates order { r with
          seedMap := r.seedMap.erase es
          allocated := r.allocated.erase es }
      else none

/-- `if (searcher) searcher->update(current, addedStates, removedStates)`. -/
def updateSearcher (r : ExecutorRun Store) (current : Option ℕ) : Option (ExecutorRun Store) :=
  match r.searcher with
  | none => some r
  | some store => do
      let store ← impl.update store current r.sets.addedStates r.sets.removedStates
      return { r with searcher := some store }

/-- `updateStates`, going through the removed states in some order. -/
def updateStates (r : ExecutorRun Store) (current : Option ℕ) (order : List ℕ) :
    Option (ExecutorRun Store) := do
  let r ← r.updateSearcher impl current
  let sets ← r.sets.updateStates order
  let r ← deleteStates order r
  return { r with sets := sets }

/-- The loop that kills states over the memory cap: each random number chooses one of the
rest of the array, which the last one takes the place of. -/
def killStates : List ℕ → List ℕ → ExecutorRun Store → Option (ExecutorRun Store)
  | [], _, r => some r
  | pick :: picks, arr, r =>
      match arr[pick % arr.length]?, arr.getLast? with
      | some es, some last => do
          let r ← r.terminateState es
          killStates picks (arr.set (pick % arr.length) last).dropLast r
      | _, _ => some r

/-- The loop of `dump`. -/
def terminateAll : List ℕ → ExecutorRun Store → Option (ExecutorRun Store)
  | [], r => some r
  | es :: order, r => do
      let r ← r.terminateState es
      terminateAll order r

end ExecutorRun

/-- A step of `run`. -/
inductive RunCall
  /-- The next state of `seedMap` starts an instruction. -/
  | selectSeed (state : ℕ)
  /-- The loop over `seedMap` ends. -/
  | stopSeeding
  /-- The searcher is made. -/
  | startSearch
  /-- `searcher->selectState()` starts an instruction. -/
  | selectState
  | fork (current : ℕ) (decision : ForkDecision) (trueSeeds falseSeeds : Bool)
  | branch (state : ℕ) (decision : BranchDecision)
  | terminateState (state : ℕ)
  /-- `processTimers`, where the time for an instruction may be exceeded. -/
  | processTimers (exceeded : Bool)
  | killStates (picks arr : List ℕ)
  /-- `updateStates(&state)` ends an instruction. -/
  | updateStates (order : List ℕ)
  /-- The run goes to `dump`; a searcher is deleted. -/
  | halt
  | dump (arr order : List ℕ)

namespace ExecutorRun

variable {Store : Type} (impl : Searcher ℕ Store) (new : Store) (options : ExecutorOptions)

/-- The state whose instruction runs. -/
def current (r : ExecutorRun Store) : Option ℕ :=
  match r.phase with
  | .seedInstruction state => some state
  | .searchInstruction state => some state
  | _ => none

/-- The phase after an instruction. -/
def nextPhase (r : ExecutorRun Store) : RunPhase :=
  match r.phase with
  | .seedInstruction _ => .seeding
  | _ => .searching

/-- One step. `new` is what a new searcher stores. -/
def step (r : ExecutorRun Store) : RunCall → Option (ExecutorRun Store)
  | .selectSeed state =>
      -- `stepInstruction(state)`
      if state ∈ r.allocated then some { r with phase := .seedInstruction state } else none
  | .stopSeeding =>
      -- `(*it)->weight = 1.`
      if r.sets.states ⊆ r.allocated then some { r with phase := .seeded } else none
  | .startSearch => do
      let store ← impl.update new none r.sets.states ∅
      return { r with
        seedMap := if options.UseConcreteData && !options.usingSeeds then insert 0 r.seedMap else r.seedMap
        searcher := some store
        phase := .searching }
  | .selectState => do
      let store ← r.searcher
      let (state, store) ← impl.selectState store
      if state ∈ r.allocated then
        some { r with searcher := some store, phase := .searchInstruction state }
      else none
  | .fork current decision trueSeeds falseSeeds =>
      r.fork options current decision trueSeeds falseSeeds
  | .branch state decision => r.branch options state decision
  | .terminateState state => r.terminateState state
  | .processTimers exceeded =>
      match r.current with
      | none => none
      | some state =>
          if exceeded && state ∉ r.sets.removedStates then r.terminateState state else some r
  | .killStates picks arr => killStates picks arr r
  | .updateStates order =>
      (r.updateStates impl r.current order).map fun r' => { r' with phase := r.nextPhase }
  | .halt => some { r with searcher := none, phase := .halted }
  | .dump arr order => do
      let r ← terminateAll arr r
      let r ← r.updateStates impl none order
      return { r with phase := .finished }

/-- The step as `run` takes it: there is no answer. -/
def stepRun (r : ExecutorRun Store) (c : RunCall) : Option (Unit × ExecutorRun Store) :=
  (r.step impl new options c).map fun r => ((), r)

/-- An instruction runs. -/
def InInstruction (r : ExecutorRun Store) : Prop := r.current.isSome

/-- The steps are taken in the order of `run`, and an instruction works on live states. The
arrays and orders list the sets that the code goes through. -/
def Allowed (r : ExecutorRun Store) : RunCall → Prop
  | .selectSeed state => r.phase = .seeding ∧ state ∈ r.seedMap
  | .stopSeeding => r.phase = .seeding
  | .startSearch => r.phase = .seeded
  | .selectState => r.phase = .searching ∧ r.sets.states.Nonempty
  | .fork current _ _ _ => r.InInstruction ∧ current ∈ r.sets.live
  | .branch state _ => r.InInstruction ∧ state ∈ r.sets.live
  | .terminateState state => r.InInstruction ∧ state ∈ r.sets.live
  | .processTimers _ => r.InInstruction
  | .killStates _ arr => r.InInstruction ∧ arr.Nodup ∧ arr.toFinset = r.sets.states
  | .updateStates order => r.InInstruction ∧ order.Nodup ∧ order.toFinset = r.sets.removedStates
  | .halt => r.phase = .seeding ∨ r.phase = .seeded ∨ r.phase = .searching
  | .dump arr order => r.phase = .halted ∧ arr.Nodup ∧ arr.toFinset = r.sets.states
      ∧ order.Nodup ∧ order.toFinset = r.sets.states

/-- The searcher is told: a state is deleted that it does not know, or `fork` follows the
seeds. -/
def TellsSearcher (r : ExecutorRun Store) : RunCall → Prop
  | .fork current .timesOut _ _ => current ∈ r.sets.addedStates
  | .fork current (.splits _ exceedsDepth) trueSeeds _ => exceedsDepth ∨
      options.UseConcreteData ∧ options.UseConcolicSearcher ∧ current ∈ r.seedMap ∧ trueSeeds
  | .branch state (.limited unseeded) =>
      options.OnlyReplaySeeds ∧ state ∈ r.seedMap ∧ unseeded ∧ state ∈ r.sets.addedStates
  | .branch state (.splits picks unseeded) =>
      options.OnlyReplaySeeds ∧ state ∈ r.seedMap ∧ ∃ d, unseeded d ∧
        (d = state ∧ state ∈ r.sets.addedStates
          ∨ r.sets.stateID < d ∧ d ≤ r.sets.stateID + picks.length)
  | .terminateState state => state ∈ r.sets.addedStates
  | _ => False

/-- The condition for a step: it tells the searcher only where there is one. -/
def HasSearcher (r : ExecutorRun Store) (c : RunCall) : Prop :=
  r.TellsSearcher options c → r.searcher ≠ none

/-- The bookkeeping of the live states. -/
structure Sound (Holds : Store → Finset ℕ → Prop) (r : ExecutorRun Store) : Prop where
  disjoint : Disjoint r.sets.addedStates r.sets.states
  removed : r.sets.removedStates ⊆ r.sets.states
  seedMap : r.seedMap ⊆ r.sets.live
  allocated : r.allocated = r.sets.live
  searcher : ∀ store, r.searcher = some store → Holds store r.sets.states

end ExecutorRun

namespace StateSets

/-! ## The sets -/

variable {s s' : StateSets} {order : List ℕ}

theorem splitNode_sets {es left right : ℕ} (h : s.splitNode es left right = some s') :
    s'.states = s.states ∧ s'.addedStates = s.addedStates ∧ s'.removedStates = s.removedStates
      ∧ s'.stateID = s.stateID := by
  obtain ⟨⟨⟨l, r⟩, tree⟩, -, rfl⟩ := Option.map_eq_some_iff.mp h
  exact ⟨rfl, rfl, rfl, rfl⟩

theorem terminateState_sets {state : ℕ} (h : s.terminateState state = some s') :
    s'.states = s.states ∧ s'.addedStates = s.addedStates.erase state ∧ s'.stateID = s.stateID
      ∧ (state ∉ s.addedStates → s'.removedStates = insert state s.removedStates) := by
  rw [terminateState] at h
  by_cases hadded : state ∈ s.addedStates
  · rw [if_pos hadded] at h
    obtain ⟨tree, -, rfl⟩ := Option.map_eq_some_iff.mp h
    exact ⟨rfl, rfl, rfl, fun hnot => absurd hadded hnot⟩
  · rw [if_neg hadded] at h
    obtain rfl := Option.some.inj h
    exact ⟨rfl, (Finset.erase_eq_of_notMem hadded).symm, rfl, fun _ => rfl⟩

/-- The states that `branchLoop` makes have the next numbers. -/
theorem branchLoop_sets {picks : List (BitVec 32)} {result result' : List ℕ}
    (h : s.branchLoop result picks = some (result', s')) :
    s'.states = s.states ∧ s'.removedStates = s.removedStates
      ∧ s'.stateID = s.stateID + picks.length
      ∧ result' = result ++ List.range' (s.stateID + 1) picks.length
      ∧ s'.addedStates = s.addedStates ∪ (List.range' (s.stateID + 1) picks.length).toFinset := by
  induction picks generalizing s result with
  | nil =>
    obtain ⟨rfl, rfl⟩ := Prod.mk.inj (Option.some.inj h)
    simp
  | cons pick picks ih =>
    rw [branchLoop] at h
    obtain ⟨es, -, h⟩ := Option.bind_eq_some_iff.mp h
    obtain ⟨s₁, hsplit, h⟩ := Option.bind_eq_some_iff.mp h
    obtain ⟨hstates, hadded, hremoved, hid⟩ := splitNode_sets hsplit
    obtain ⟨hstates', hremoved', hid', hresult, hadded'⟩ := ih h
    have hid₁ : s₁.stateID = s.stateID + 1 := hid
    have hadded₁ : s₁.addedStates = insert (s.stateID + 1) s.addedStates := hadded
    rw [hid₁] at hid' hresult hadded'
    refine ⟨hstates'.trans hstates, hremoved'.trans hremoved, ?_, ?_, ?_⟩
    · rw [hid', List.length_cons]
      omega
    · rw [hresult, List.length_cons, List.range'_succ, List.append_assoc, List.singleton_append]
    · rw [hadded', hadded₁, List.length_cons, List.range'_succ, List.toFinset_cons,
        Finset.insert_union, Finset.union_insert]

theorem removeStates_sets (h : removeStates order s = some s') :
    s'.states = s.states \ order.toFinset := by
  induction order generalizing s with
  | nil =>
    obtain rfl := Option.some.inj h
    simp
  | cons es order ih =>
    rw [removeStates] at h
    by_cases hes : es ∈ s.states
    · rw [if_pos hes] at h
      obtain ⟨tree, -, h⟩ := Option.bind_eq_some_iff.mp h
      rw [ih h, List.toFinset_cons, Finset.sdiff_insert, ← Finset.erase_sdiff_comm]
    · rw [if_neg hes] at h
      exact absurd h (by simp)

theorem removeStates_added (h : removeStates order s = some s') :
    s'.addedStates = s.addedStates := by
  induction order generalizing s with
  | nil =>
    obtain rfl := Option.some.inj h
    rfl
  | cons es order ih =>
    rw [removeStates] at h
    by_cases hes : es ∈ s.states
    · rw [if_pos hes] at h
      obtain ⟨tree, -, h⟩ := Option.bind_eq_some_iff.mp h
      have hadded := ih h
      exact hadded
    · rw [if_neg hes] at h
      exact absurd h (by simp)

theorem updateStates_added (h : s.updateStates order = some s') :
    s'.addedStates = ∅ := by
  obtain ⟨s₁, hremove, rfl⟩ := Option.map_eq_some_iff.mp h
  exact removeStates_added hremove

theorem updateStates_sets (h : s.updateStates order = some s') :
    s'.states = (s.states ∪ s.addedStates) \ order.toFinset ∧ s'.removedStates = ∅ := by
  obtain ⟨s₁, hremove, rfl⟩ := Option.map_eq_some_iff.mp h
  exact ⟨removeStates_sets hremove, rfl⟩

end StateSets

namespace ExecutorRun

variable {Store : Type} {impl : Searcher ℕ Store} {new : Store} {options : ExecutorOptions}
  {Holds : Store → Finset ℕ → Prop} {r r' r'' : ExecutorRun Store} {state : ℕ}

/-! ## Steps of an instruction -/

/-- What holds inside an instruction as well. -/
structure Tracked (Holds : Store → Finset ℕ → Prop) (r : ExecutorRun Store) : Prop where
  mirrored : r.sets.Mirrored
  seedMap : r.seedMap ⊆ r.sets.live
  allocated : r.allocated = r.sets.live
  searcher : ∀ store, r.searcher = some store → Holds store r.sets.states

/-- What a step of an instruction leaves as it is. -/
structure SameRun (r r' : ExecutorRun Store) : Prop where
  states : r'.sets.states = r.sets.states
  searcher : r'.searcher = r.searcher
  phase : r'.phase = r.phase

theorem SameRun.refl (r : ExecutorRun Store) : SameRun r r := ⟨rfl, rfl, rfl⟩

theorem SameRun.trans (h : SameRun r r') (h' : SameRun r' r'') : SameRun r r'' :=
  ⟨h'.states.trans h.states, h'.searcher.trans h.searcher, h'.phase.trans h.phase⟩

theorem Tracked.sound (h : Tracked Holds r) : Sound Holds r :=
  ⟨h.mirrored.disjoint.symm, h.mirrored.removed, h.seedMap, h.allocated, h.searcher⟩

theorem setFlags_eq (h : r.searcher ≠ none) : r.setFlags = some r := by
  rw [setFlags]
  cases hsearcher : r.searcher with
  | none => exact absurd hsearcher h
  | some store => rfl

theorem setFlags_none (h : r.searcher = none) : r.setFlags = none := by
  rw [setFlags, h]

/-- What `terminateState` comes to. -/
structure Terminated (r r' : ExecutorRun Store) (state : ℕ) : Prop where
  same : SameRun r r'
  addedStates : r'.sets.addedStates = r.sets.addedStates.erase state
  removedStates : state ∉ r.sets.addedStates →
    r'.sets.removedStates = insert state r.sets.removedStates
  seedMap : ∀ d, d ≠ state → (d ∈ r'.seedMap ↔ d ∈ r.seedMap)

variable {d trueState falseState current : ℕ} {trueSeeds falseSeeds : Bool}
  {decision : ForkDecision} {result arr order : List ℕ} {unseeded : ℕ → Bool} {c : RunCall}

theorem Terminated.live (h : Terminated r r' state) (hd : d ∈ r.sets.live) (hne : d ≠ state) :
    d ∈ r'.sets.live := by
  rw [StateSets.live, h.same.states, h.addedStates, Finset.mem_union, Finset.mem_erase]
  exact (Finset.mem_union.mp hd).imp_right fun hmem => ⟨hne, hmem⟩

theorem terminateState_tracked (h : Tracked Holds r) (hstate : state ∈ r.sets.live)
    (hknown : state ∈ r.sets.addedStates → r.searcher ≠ none) :
    ∃ r', r.terminateState state = some r' ∧ Tracked Holds r' ∧ Terminated r r' state := by
  obtain ⟨sets, heq, hmirrored, -⟩ := StateSets.terminateState_mirrored h.mirrored hstate
  obtain ⟨hstates, hadded, -, hremoved⟩ := StateSets.terminateState_sets heq
  have hallocated : state ∈ r.allocated := by rwa [h.allocated]
  rw [terminateState, if_pos hallocated]
  by_cases hnew : state ∈ r.sets.addedStates
  · have hnot : state ∉ r.sets.states := Finset.disjoint_right.mp h.mirrored.disjoint hnew
    have hlive : sets.live = r.sets.live.erase state := by
      rw [StateSets.live, hstates, hadded, StateSets.live, Finset.erase_union_distrib,
        Finset.erase_eq_of_notMem hnot]
    rw [if_pos hnew, setFlags_eq (hknown hnew)]
    refine ⟨{ r with
        sets := sets
        seedMap := r.seedMap.erase state
        allocated := r.allocated.erase state }, ?_, ⟨hmirrored, ?_, ?_, ?_⟩,
      ⟨⟨hstates, rfl, rfl⟩, hadded, hremoved, ?_⟩⟩
    · change Option.bind (r.sets.terminateState state) _ = _
      rw [heq]
      rfl
    · rw [hlive]
      exact Finset.erase_subset_erase state h.seedMap
    · change r.allocated.erase state = sets.live
      rw [hlive, h.allocated]
    · change ∀ store, r.searcher = some store → Holds store sets.states
      rw [hstates]
      exact h.searcher
    · intro d hd
      exact Finset.mem_erase.trans (and_iff_right hd)
  · have hlive : sets.live = r.sets.live := by
      rw [StateSets.live, hstates, hadded, Finset.erase_eq_of_notMem hnew, StateSets.live]
    rw [if_neg hnew]
    refine ⟨{ r with sets := sets }, ?_, ⟨hmirrored, ?_, ?_, ?_⟩,
      ⟨⟨hstates, rfl, rfl⟩, hadded, hremoved, fun d _ => Iff.rfl⟩⟩
    · rw [heq]
      rfl
    · rw [hlive]
      exact h.seedMap
    · exact h.allocated.trans hlive.symm
    · change ∀ store, r.searcher = some store → Holds store sets.states
      rw [hstates]
      exact h.searcher

/-- Without a searcher, no state that it does not know can be terminated. -/
theorem terminateState_none (hsearcher : r.searcher = none) (hstate : state ∈ r.sets.addedStates) :
    r.terminateState state = none := by
  rw [terminateState]
  by_cases hallocated : state ∈ r.allocated
  · rw [if_pos hallocated, if_pos hstate, setFlags_none hsearcher]
    rfl
  · rw [if_neg hallocated]

theorem terminateState_parts (h : r.terminateState state = some r') :
    ∃ sets, r.sets.terminateState state = some sets ∧ r'.sets = sets
      ∧ r'.searcher = r.searcher ∧ r'.seedMap ⊆ r.seedMap := by
  rw [terminateState] at h
  by_cases hallocated : state ∈ r.allocated
  · rw [if_pos hallocated] at h
    by_cases hnew : state ∈ r.sets.addedStates
    · rw [if_pos hnew] at h
      cases hsearcher : r.searcher with
      | none =>
        rw [setFlags_none hsearcher] at h
        exact absurd h (by simp)
      | some store =>
        rw [setFlags_eq (by rw [hsearcher]; simp), Option.bind_eq_bind, Option.bind_some] at h
        obtain ⟨sets, hsets, heq⟩ := Option.bind_eq_some_iff.mp h
        obtain rfl := Option.some.inj heq
        exact ⟨sets, hsets, rfl, hsearcher, Finset.erase_subset _ _⟩
    · rw [if_neg hnew] at h
      obtain ⟨sets, hsets, heq⟩ := Option.bind_eq_some_iff.mp h
      obtain rfl := Option.some.inj heq
      exact ⟨sets, hsets, rfl, rfl, Finset.Subset.refl _⟩
  · rw [if_neg hallocated] at h
    exact absurd h (by simp)

/-- Another state stays in `addedStates`, and there is still no searcher. -/
theorem terminateState_keepsNew (h : r.terminateState state = some r') (hd : d ∈ r.sets.addedStates)
    (hne : d ≠ state) :
    d ∈ r'.sets.addedStates ∧ r'.searcher = r.searcher ∧ (d ∉ r.seedMap → d ∉ r'.seedMap) := by
  obtain ⟨sets, hsets, hr', hsearcher, hsubset⟩ := terminateState_parts h
  obtain ⟨-, hadded, -⟩ := StateSets.terminateState_sets hsets
  refine ⟨?_, hsearcher, fun hnot hmem => hnot (hsubset hmem)⟩
  rw [hr', hadded]
  exact Finset.mem_erase.mpr ⟨hne, hd⟩

theorem splitSeeds_subset (seedMap : Finset ℕ) (trueState falseState : ℕ)
    (trueSeeds falseSeeds : Bool) :
    splitSeeds seedMap trueState falseState trueSeeds falseSeeds
      ⊆ insert falseState (insert trueState seedMap) := by
  cases trueSeeds <;> cases falseSeeds
  · exact (Finset.erase_subset _ _).trans (Finset.erase_subset _ _)
  · exact Finset.erase_subset _ _
  · exact Finset.erase_subset _ _
  · exact Finset.Subset.refl _

theorem forkPair_eq (r : ExecutorRun Store) (current : ℕ) (swap : Bool) :
    ∃ t f, r.forkPair current swap = (t, f)
      ∧ (f = current ∧ t = r.sets.stateID + 1 ∨ f = r.sets.stateID + 1 ∧ t = current) := by
  cases swap with
  | true => exact ⟨_, _, rfl, .inl ⟨rfl, rfl⟩⟩
  | false => exact ⟨_, _, rfl, .inr ⟨rfl, rfl⟩⟩

/-- A new state. -/
theorem splitState_tracked (h : Tracked Holds r) (hcurrent : current ∈ r.sets.live)
    (hpair : falseState = current ∧ trueState = r.sets.stateID + 1
      ∨ falseState = r.sets.stateID + 1 ∧ trueState = current) (trueSeeds falseSeeds : Bool) :
    ∃ r', r.splitState current trueState falseState trueSeeds falseSeeds = some r'
      ∧ Tracked Holds r' ∧ SameRun r r'
      ∧ trueState ∈ r'.sets.live ∧ falseState ∈ r'.sets.live ∧ falseState ≠ trueState := by
  obtain ⟨sets, heq, hmirrored, hlive, -⟩ :=
    StateSets.splitNode_mirrored h.mirrored hcurrent hpair
  obtain ⟨hstates, -⟩ := StateSets.splitNode_sets heq
  have hnew : r.sets.stateID + 1 ≠ current := fun heq =>
    absurd (h.mirrored.fresh current hcurrent) (heq ▸ Nat.not_succ_le_self _)
  have hmem : trueState ∈ sets.live ∧ falseState ∈ sets.live ∧ falseState ≠ trueState := by
    rw [hlive, Finset.mem_insert, Finset.mem_insert]
    rcases hpair with ⟨rfl, rfl⟩ | ⟨rfl, rfl⟩
    · exact ⟨.inl rfl, .inr hcurrent, hnew.symm⟩
    · exact ⟨.inr hcurrent, .inl rfl, hnew⟩
  have hkeys : r.seedMap ⊆ sets.live := by
    rw [hlive]
    exact h.seedMap.trans (Finset.subset_insert _ _)
  refine ⟨_, congrArg (Option.map _) heq, ⟨hmirrored, ?_, ?_, ?_⟩, ⟨hstates, rfl, rfl⟩, hmem⟩
  · change (if current ∈ r.seedMap then _ else _) ⊆ sets.live
    by_cases hseeding : current ∈ r.seedMap
    · rw [if_pos hseeding]
      exact (splitSeeds_subset ..).trans
        (Finset.insert_subset hmem.2.1 (Finset.insert_subset hmem.1 hkeys))
    · rw [if_neg hseeding]
      exact hkeys
  · change insert _ r.allocated = sets.live
    rw [hlive, h.allocated]
  · change ∀ store, r.searcher = some store → Holds store sets.states
    rw [hstates]
    exact h.searcher

/-- `fork` with a searcher, where it needs one. -/
theorem fork_tracked (h : Tracked Holds r) (hcurrent : current ∈ r.sets.live)
    (hknown : r.HasSearcher options (.fork current decision trueSeeds falseSeeds)) :
    ∃ r', r.fork options current decision trueSeeds falseSeeds = some r' ∧ Tracked Holds r'
      ∧ SameRun r r' := by
  have hallocated : current ∈ r.allocated := by rwa [h.allocated]
  rw [fork.eq_def, if_pos hallocated]
  cases decision with
  | returns => exact ⟨r, rfl, h, .refl r⟩
  | timesOut =>
    obtain ⟨r', heq, htracked, hterminated⟩ := terminateState_tracked h hcurrent hknown
    exact ⟨r', heq, htracked, hterminated.same⟩
  | splits swap exceedsDepth =>
    obtain ⟨trueState, falseState, hpair, hcases⟩ := forkPair_eq r current swap
    obtain ⟨r₁, hsplit, htracked₁, hsame₁, htrue, hfalse, hne⟩ :=
      splitState_tracked h hcurrent hcases trueSeeds falseSeeds
    have hflags : r₁.followSeeds options (decide (current ∈ r.seedMap) && trueSeeds) = some r₁ := by
      rw [followSeeds]
      by_cases hconcolic : options.UseConcreteData ∧ options.UseConcolicSearcher
          ∧ (decide (current ∈ r.seedMap) && trueSeeds) = true
      · rw [if_pos hconcolic]
        refine setFlags_eq ?_
        rw [hsame₁.searcher]
        refine hknown (.inr ?_)
        simpa only [Bool.and_eq_true, decide_eq_true_eq] using hconcolic
      · rw [if_neg hconcolic]
    simp only [hpair, hsplit, Option.bind_some, hflags]
    rw [limitDepth]
    cases exceedsDepth with
    | false => exact ⟨r₁, rfl, htracked₁, hsame₁⟩
    | true =>
      have hsome : r.searcher ≠ none := hknown (.inl rfl)
      obtain ⟨r₂, heq₂, htracked₂, hterminated₂⟩ := terminateState_tracked htracked₁ htrue
        fun _ => by rw [hsame₁.searcher]; exact hsome
      have hsame₂ := hsame₁.trans hterminated₂.same
      obtain ⟨r₃, heq₃, htracked₃, hterminated₃⟩ :=
        terminateState_tracked htracked₂ (hterminated₂.live hfalse hne)
          fun _ => by rw [hsame₂.searcher]; exact hsome
      refine ⟨r₃, ?_, htracked₃, hsame₂.trans hterminated₃.same⟩
      rw [if_pos rfl, heq₂]
      exact heq₃

theorem splitState_parts
    (h : r.splitState current trueState falseState trueSeeds falseSeeds = some r') :
    r'.searcher = r.searcher
      ∧ r'.sets.addedStates = insert (r.sets.stateID + 1) r.sets.addedStates := by
  obtain ⟨sets, hsets, rfl⟩ := Option.map_eq_some_iff.mp h
  exact ⟨rfl, (StateSets.splitNode_sets hsets).2.1⟩

theorem terminateBoth_none {a b : ℕ} (hsearcher : r.searcher = none)
    (hadded : a ∈ r.sets.addedStates ∨ b ∈ r.sets.addedStates) (hne : b ≠ a) :
    (r.terminateState a).bind (fun r => r.terminateState b) = none := by
  cases heq : r.terminateState a with
  | none => rfl
  | some r₁ =>
    have hb : b ∈ r.sets.addedStates := by
      refine hadded.resolve_left ?_
      intro ha
      rw [terminateState_none hsearcher ha] at heq
      exact absurd heq (by simp)
    obtain ⟨hb', hsearcher', -⟩ := terminateState_keepsNew heq hb hne
    exact terminateState_none (hsearcher'.trans hsearcher) hb'

/-- Without one `fork` has no result. -/
theorem fork_none (hcurrent : current ≠ r.sets.stateID + 1) (hsearcher : r.searcher = none)
    (htells : r.TellsSearcher options (.fork current decision trueSeeds falseSeeds)) :
    r.fork options current decision trueSeeds falseSeeds = none := by
  rw [fork.eq_def]
  by_cases hallocated : current ∈ r.allocated
  · rw [if_pos hallocated]
    cases decision with
    | returns => exact absurd htells (by exact id)
    | timesOut => exact terminateState_none hsearcher htells
    | splits swap exceedsDepth =>
      obtain ⟨trueState, falseState, hpair, hcases⟩ := forkPair_eq r current swap
      simp only [hpair]
      cases hsplit : r.splitState current trueState falseState trueSeeds falseSeeds with
      | none => rfl
      | some r₁ =>
        obtain ⟨hsearcher₁, hadded₁⟩ := splitState_parts hsplit
        have hnone : r₁.setFlags = none := setFlags_none (hsearcher₁.trans hsearcher)
        rw [Option.bind_some, followSeeds]
        by_cases hfollow : options.UseConcreteData ∧ options.UseConcolicSearcher
            ∧ (decide (current ∈ r.seedMap) && trueSeeds) = true
        · rw [if_pos hfollow, hnone]
          rfl
        · have hexceeds : exceedsDepth = true := by
            refine htells.resolve_right ?_
            rintro ⟨hdata, hconcolic, hseeding, hseeds⟩
            refine hfollow ⟨hdata, hconcolic, ?_⟩
            rw [Bool.and_eq_true, decide_eq_true_eq]
            exact ⟨hseeding, hseeds⟩
          rw [if_neg hfollow, Option.bind_some, limitDepth, if_pos hexceeds]
          refine terminateBoth_none (hsearcher₁.trans hsearcher) ?_ ?_
          · rw [hadded₁]
            rcases hcases with ⟨-, rfl⟩ | ⟨rfl, -⟩
            · exact .inl (Finset.mem_insert_self _ _)
            · exact .inr (Finset.mem_insert_self _ _)
          · rcases hcases with ⟨rfl, rfl⟩ | ⟨rfl, rfl⟩
            · exact hcurrent
            · exact hcurrent.symm
  · rw [if_neg hallocated]

/-- The states without seeds are terminated one after the other. -/
theorem terminateUnseeded_tracked (h : Tracked Holds r) (hnodup : result.Nodup)
    (hlive : ∀ d ∈ result, d ∈ r.sets.live)
    (hknown : ∀ d ∈ result, d ∉ r.seedMap → d ∈ r.sets.addedStates → r.searcher ≠ none) :
    ∃ r', terminateUnseeded result r = some r' ∧ Tracked Holds r' ∧ SameRun r r'
      ∧ ∀ d ∈ r.sets.live, d ∈ r.seedMap ∨ d ∉ result → d ∈ r'.sets.live := by
  induction result generalizing r with
  | nil => exact ⟨r, rfl, h, .refl r, fun _ hd _ => hd⟩
  | cons d result ih =>
    obtain ⟨hd, hlive⟩ := List.forall_mem_cons.mp hlive
    obtain ⟨hknown, hrest⟩ := List.forall_mem_cons.mp hknown
    obtain ⟨hnot, hnodup⟩ := List.nodup_cons.mp hnodup
    rw [terminateUnseeded]
    by_cases hseeded : d ∈ r.seedMap
    · obtain ⟨r₁, heq, htracked, hsame, hkept⟩ := ih h hnodup hlive hrest
      refine ⟨r₁, ?_, htracked, hsame, ?_⟩
      · rw [if_pos hseeded]
        exact heq
      · exact fun d' hd' hor => hkept d' hd'
          (hor.imp_right fun hnot' hmem => hnot' (List.mem_cons_of_mem _ hmem))
    · obtain ⟨r₁, heq, htracked, hterminated⟩ := terminateState_tracked h hd (hknown hseeded)
      have hne : ∀ d' ∈ result, d' ≠ d := fun d' hd' heq => hnot (heq ▸ hd')
      obtain ⟨r₂, heq₂, htracked₂, hsame₂, hkept⟩ := ih htracked hnodup
        (fun d' hd' => hterminated.live (hlive d' hd') (hne d' hd'))
        (fun d' hd' hunseeded hadded => by
          rw [hterminated.same.searcher]
          rw [hterminated.addedStates] at hadded
          rw [hterminated.seedMap d' (hne d' hd')] at hunseeded
          exact hrest d' hd' hunseeded (Finset.mem_of_mem_erase hadded))
      refine ⟨r₂, ?_, htracked₂, hterminated.same.trans hsame₂, ?_⟩
      · rw [if_neg hseeded, heq]
        exact heq₂
      · intro d' hd' hor
        have hne' : d' ≠ d := by
          rintro rfl
          exact hor.elim hseeded fun hnot' => hnot' List.mem_cons_self
        refine hkept d' (hterminated.live hd' hne') ?_
        rw [hterminated.seedMap d' hne']
        exact hor.imp_right fun hnot' hmem => hnot' (List.mem_cons_of_mem _ hmem)

theorem terminateUnseeded_none (hsearcher : r.searcher = none) (hnodup : result.Nodup)
    (hd : d ∈ result) (hunseeded : d ∉ r.seedMap) (hadded : d ∈ r.sets.addedStates) :
    terminateUnseeded result r = none := by
  induction result generalizing r with
  | nil => exact absurd hd List.not_mem_nil
  | cons d' result ih =>
    obtain ⟨hnot, hnodup⟩ := List.nodup_cons.mp hnodup
    rw [terminateUnseeded]
    by_cases hseeded : d' ∈ r.seedMap
    · have hrest : d ∈ result := by
        refine (List.mem_cons.mp hd).resolve_left ?_
        rintro rfl
        exact hunseeded hseeded
      rw [if_pos hseeded]
      exact ih hsearcher hnodup hrest hunseeded hadded
    · rw [if_neg hseeded]
      cases heq : r.terminateState d' with
      | none => rfl
      | some r₁ =>
        have hne : d ≠ d' := by
          rintro rfl
          rw [terminateState_none hsearcher hadded] at heq
          exact absurd heq (by simp)
        obtain ⟨hadded₁, hsearcher₁, hunseeded₁⟩ := terminateState_keepsNew heq hadded hne
        exact ih (hsearcher₁.trans hsearcher) hnodup ((List.mem_cons.mp hd).resolve_left hne)
          (hunseeded₁ hunseeded) hadded₁

/-- The keys of `seedMap` after the seeds of a state are dealt out, for one of the states that
they are dealt out to. -/
theorem mem_distributed {seedMap : Finset ℕ} (hd : d ∈ result) (hkey : d = state ∨ d ∉ seedMap) :
    d ∈ seedMap.erase state ∪ (result.filter (fun d => !unseeded d)).toFinset
      ↔ unseeded d = false := by
  rw [Finset.mem_union, Finset.mem_erase, List.mem_toFinset, List.mem_filter]
  rcases hkey with rfl | hnot
  · simp [hd]
  · simp [hd, hnot]

theorem addConstraints_eq (h : Tracked Holds r) (hlive : ∀ d ∈ result, d ∈ r.sets.live) :
    addConstraints result r = some r := by
  rw [addConstraints, if_pos]
  intro d hd
  rw [h.allocated]
  exact hlive d hd

theorem distributeSeeds_tracked (options : ExecutorOptions) (state : ℕ) (unseeded : ℕ → Bool)
    (h : Tracked Holds r) (hnodup : result.Nodup) (hlive : ∀ d ∈ result, d ∈ r.sets.live)
    (hkeys : ∀ d ∈ result, d = state ∨ d ∉ r.seedMap)
    (hknown : options.OnlyReplaySeeds → state ∈ r.seedMap → ∀ d ∈ result, unseeded d →
      d ∈ r.sets.addedStates → r.searcher ≠ none) :
    ∃ r', r.distributeSeeds options state result unseeded = some r' ∧ Tracked Holds r'
      ∧ SameRun r r' := by
  rw [distributeSeeds]
  by_cases hseeding : state ∈ r.seedMap
  · set r₁ : ExecutorRun Store := { r with seedMap := r.seedMap.erase state
        ∪ (result.filter (fun d => !unseeded d)).toFinset } with hr₁
    have htracked : Tracked Holds r₁ := by
      refine ⟨h.mirrored, Finset.union_subset ((Finset.erase_subset _ _).trans h.seedMap) ?_,
        h.allocated, h.searcher⟩
      intro d hd
      exact hlive d (List.mem_of_mem_filter (List.mem_toFinset.mp hd))
    rw [if_pos hseeding]
    by_cases honly : options.OnlyReplaySeeds = true
    · obtain ⟨r', heq, htracked', hsame, hkept⟩ := terminateUnseeded_tracked htracked hnodup hlive
        (fun d hd hunseeded hadded => hknown honly hseeding d hd
          (by
            rw [mem_distributed hd (hkeys d hd)] at hunseeded
            simpa using hunseeded) hadded)
      refine ⟨r', ?_, htracked', hsame.states, hsame.searcher, hsame.phase⟩
      simp only [if_pos honly]
      rw [heq, Option.bind_some]
      refine addConstraints_eq htracked' ?_
      intro d hd
      obtain ⟨hmem, hseeded⟩ := List.mem_filter.mp hd
      exact hkept d (hlive d hmem) (.inl (of_decide_eq_true hseeded))
    · refine ⟨r₁, ?_, htracked, rfl, rfl, rfl⟩
      simp only [if_neg honly]
      exact addConstraints_eq htracked hlive
  · rw [if_neg hseeding]
    exact ⟨r, addConstraints_eq h hlive, h, .refl r⟩

theorem distributeSeeds_none (hsearcher : r.searcher = none) (hnodup : result.Nodup)
    (honly : options.OnlyReplaySeeds) (hseeding : state ∈ r.seedMap) (hd : d ∈ result)
    (hkey : d = state ∨ d ∉ r.seedMap) (hunseeded : unseeded d) (hadded : d ∈ r.sets.addedStates) :
    r.distributeSeeds options state result unseeded = none := by
  have hnone : terminateUnseeded result { r with seedMap := r.seedMap.erase state
      ∪ (result.filter (fun d => !unseeded d)).toFinset } = none := by
    refine terminateUnseeded_none hsearcher hnodup hd ?_ hadded
    rw [mem_distributed hd hkey, hunseeded]
    decide
  rw [distributeSeeds, if_pos hseeding]
  simp only [if_pos honly]
  rw [hnone]
  rfl

/-- The states of `result` in `branch`. -/
theorem branchLoop_tracked (h : Tracked Holds r) (hstate : state ∈ r.sets.live)
    (picks : List (BitVec 32)) :
    ∃ sets, r.sets.branchLoop [state] picks
        = some (state :: List.range' (r.sets.stateID + 1) picks.length, sets)
      ∧ Tracked Holds { r with
          sets := sets
          allocated := r.allocated
            ∪ (state :: List.range' (r.sets.stateID + 1) picks.length).toFinset }
      ∧ sets.states = r.sets.states
      ∧ sets.addedStates = r.sets.addedStates
          ∪ (List.range' (r.sets.stateID + 1) picks.length).toFinset
      ∧ (state :: List.range' (r.sets.stateID + 1) picks.length).Nodup
      ∧ ∀ d ∈ state :: List.range' (r.sets.stateID + 1) picks.length, d ∈ sets.live := by
  obtain ⟨result, sets, heq, hmirrored, hnodup, hlive⟩ := StateSets.branchLoop_mirrored picks
    h.mirrored (by simp) (List.nodup_singleton state) (List.forall_mem_singleton.mpr hstate)
  obtain ⟨hstates, -, -, rfl, hadded⟩ := StateSets.branchLoop_sets heq
  have hsets : sets.live = r.sets.live
      ∪ (state :: List.range' (r.sets.stateID + 1) picks.length).toFinset := by
    rw [StateSets.live, hstates, hadded, ← Finset.union_assoc, ← StateSets.live,
      List.toFinset_cons, Finset.union_insert, Finset.insert_eq_of_mem]
    exact Finset.mem_union_left _ hstate
  refine ⟨sets, heq, ⟨hmirrored, ?_, ?_, ?_⟩, hstates, hadded, hnodup, hlive⟩
  · rw [hsets]
    exact h.seedMap.trans Finset.subset_union_left
  · change r.allocated ∪ _ = sets.live
    rw [hsets, h.allocated]
  · change ∀ store, r.searcher = some store → Holds store sets.states
    rw [hstates]
    exact h.searcher

theorem branch_tracked (h : Tracked Holds r) (hstate : state ∈ r.sets.live)
    {decision : BranchDecision} (hknown : r.HasSearcher options (.branch state decision)) :
    ∃ r', r.branch options state decision = some r' ∧ Tracked Holds r' ∧ SameRun r r' := by
  have hallocated : state ∈ r.allocated := by rwa [h.allocated]
  rw [branch.eq_def, if_pos hallocated]
  cases decision with
  | returns => exact ⟨r, rfl, h, .refl r⟩
  | limited unseeded =>
    refine distributeSeeds_tracked options state _ h (List.nodup_singleton state)
      (List.forall_mem_singleton.mpr hstate) (List.forall_mem_singleton.mpr (.inl rfl)) ?_
    intro honly hseeding d hd hunseeded hadded
    obtain rfl := List.mem_singleton.mp hd
    exact hknown ⟨honly, hseeding, hunseeded, hadded⟩
  | splits picks unseeded =>
    obtain ⟨sets, heq, htracked, hstates, hadded, hnodup, hlive⟩ := branchLoop_tracked h hstate picks
    have hfresh : ∀ d ∈ List.range' (r.sets.stateID + 1) picks.length, d ∉ r.seedMap := by
      intro d hd hmem
      have hle := h.mirrored.fresh d (h.seedMap hmem)
      rw [List.mem_range'_1] at hd
      omega
    obtain ⟨r', heq', htracked', hsame⟩ := distributeSeeds_tracked options state unseeded htracked
      hnodup hlive
      (List.forall_mem_cons.mpr ⟨.inl rfl, fun d hd => .inr (hfresh d hd)⟩)
      (by
        intro honly hseeding d hd hunseeded hmem
        refine hknown ⟨honly, hseeding, d, hunseeded, ?_⟩
        rcases List.mem_cons.mp hd with rfl | hd
        · refine .inl ⟨rfl, ?_⟩
          change d ∈ sets.addedStates at hmem
          rw [hadded, Finset.mem_union] at hmem
          refine hmem.resolve_right ?_
          rw [List.mem_toFinset]
          exact (List.nodup_cons.mp hnodup).1
        · rw [List.mem_range'_1] at hd
          exact .inr (by omega))
    refine ⟨r', ?_, htracked', hsame.states.trans hstates, hsame.searcher, hsame.phase⟩
    simp only [heq, Option.bind_some]
    exact heq'

theorem branch_none {decision : BranchDecision} (h : Tracked Holds r) (hstate : state ∈ r.sets.live)
    (hsearcher : r.searcher = none) (htells : r.TellsSearcher options (.branch state decision)) :
    r.branch options state decision = none := by
  rw [branch.eq_def]
  by_cases hallocated : state ∈ r.allocated
  · rw [if_pos hallocated]
    cases decision with
    | returns => exact absurd htells (by exact id)
    | limited unseeded =>
      obtain ⟨honly, hseeding, hunseeded, hadded⟩ := htells
      exact distributeSeeds_none hsearcher (List.nodup_singleton state) honly hseeding
        (List.mem_singleton_self state) (.inl rfl) hunseeded hadded
    | splits picks unseeded =>
      obtain ⟨honly, hseeding, d, hunseeded, hd⟩ := htells
      obtain ⟨sets, heq, -, -, hadded, hnodup, -⟩ := branchLoop_tracked h hstate picks
      simp only [heq, Option.bind_some]
      rcases hd with ⟨rfl, hmem⟩ | hd
      · refine distributeSeeds_none hsearcher hnodup honly hseeding List.mem_cons_self (.inl rfl)
          hunseeded ?_
        change d ∈ sets.addedStates
        rw [hadded]
        exact Finset.mem_union_left _ hmem
      · have hrange : d ∈ List.range' (r.sets.stateID + 1) picks.length := by
          rw [List.mem_range'_1]
          omega
        refine distributeSeeds_none hsearcher hnodup honly hseeding (List.mem_cons_of_mem _ hrange)
          (.inr ?_) hunseeded ?_
        · intro hmem
          have hle := h.mirrored.fresh d (h.seedMap hmem)
          omega
        · change d ∈ sets.addedStates
          rw [hadded]
          exact Finset.mem_union_right _ (List.mem_toFinset.mpr hrange)
  · rw [if_neg hallocated]

/-! ## Steps between instructions -/

/-- A state that the searcher knows is only queued for removal. -/
theorem terminateState_known (h : Tracked Holds r) (hstate : state ∈ r.sets.states) :
    ∃ r', r.terminateState state = some r' ∧ Tracked Holds r' ∧ Terminated r r' state
      ∧ r'.sets.addedStates = r.sets.addedStates
      ∧ r'.sets.removedStates = insert state r.sets.removedStates := by
  have hnot : state ∉ r.sets.addedStates := Finset.disjoint_left.mp h.mirrored.disjoint hstate
  obtain ⟨r', heq, htracked, hterminated⟩ := terminateState_tracked h
    (Finset.mem_union_left _ hstate) fun hadded => absurd hadded hnot
  refine ⟨r', heq, htracked, hterminated, ?_, hterminated.removedStates hnot⟩
  rw [hterminated.addedStates, Finset.erase_eq_of_notMem hnot]

theorem killStates_tracked (picks : List ℕ) (h : Tracked Holds r)
    (harr : ∀ es ∈ arr, es ∈ r.sets.states) :
    ∃ r', killStates picks arr r = some r' ∧ Tracked Holds r' ∧ SameRun r r' := by
  induction picks generalizing r arr with
  | nil => exact ⟨r, rfl, h, .refl r⟩
  | cons pick picks ih =>
    rw [killStates]
    cases hes : arr[pick % arr.length]? with
    | none => exact ⟨r, rfl, h, .refl r⟩
    | some es =>
      cases hlast : arr.getLast? with
      | none => exact ⟨r, rfl, h, .refl r⟩
      | some last =>
        obtain ⟨r₁, heq, htracked, hterminated, -⟩ :=
          terminateState_known h (harr es (List.mem_of_getElem? hes))
        have hrest : ∀ d ∈ (arr.set (pick % arr.length) last).dropLast, d ∈ r₁.sets.states := by
          intro d hd
          rw [hterminated.same.states]
          rcases List.mem_or_eq_of_mem_set (List.mem_of_mem_dropLast hd) with hmem | rfl
          · exact harr d hmem
          · exact harr d (List.mem_of_getLast? hlast)
        obtain ⟨r₂, heq₂, htracked₂, hsame⟩ := ih htracked hrest
        refine ⟨r₂, ?_, htracked₂, hterminated.same.trans hsame⟩
        simp only [heq, Option.bind_eq_bind, Option.bind_some]
        exact heq₂

theorem terminateAll_tracked (arr : List ℕ) (h : Tracked Holds r)
    (harr : ∀ es ∈ arr, es ∈ r.sets.states) :
    ∃ r', terminateAll arr r = some r' ∧ Tracked Holds r' ∧ SameRun r r'
      ∧ r'.sets.addedStates = r.sets.addedStates
      ∧ r'.sets.removedStates = r.sets.removedStates ∪ arr.toFinset := by
  induction arr generalizing r with
  | nil => exact ⟨r, rfl, h, .refl r, rfl, by simp⟩
  | cons es arr ih =>
    obtain ⟨hes, harr⟩ := List.forall_mem_cons.mp harr
    obtain ⟨r₁, heq, htracked, hterminated, hadded, hremoved⟩ := terminateState_known h hes
    obtain ⟨r₂, heq₂, htracked₂, hsame, hadded₂, hremoved₂⟩ := ih htracked
      (fun d hd => by rw [hterminated.same.states]; exact harr d hd)
    refine ⟨r₂, ?_, htracked₂, hterminated.same.trans hsame, hadded₂.trans hadded, ?_⟩
    · rw [terminateAll, heq]
      exact heq₂
    · rw [hremoved₂, hremoved, List.toFinset_cons, Finset.insert_union, Finset.union_insert]

/-- Every removed state is deleted once. -/
theorem deleteStates_eq (hnodup : order.Nodup) (horder : ∀ es ∈ order, es ∈ r.allocated) :
    deleteStates order r = some { r with
      seedMap := r.seedMap \ order.toFinset
      allocated := r.allocated \ order.toFinset } := by
  induction order generalizing r with
  | nil => simp [deleteStates]
  | cons es order ih =>
    obtain ⟨hes, horder⟩ := List.forall_mem_cons.mp horder
    obtain ⟨hnot, hnodup⟩ := List.nodup_cons.mp hnodup
    rw [deleteStates, if_pos hes, ih hnodup]
    · rw [List.toFinset_cons, Finset.sdiff_insert, Finset.sdiff_insert, Finset.erase_sdiff_comm,
        Finset.erase_sdiff_comm]
    · intro d hd
      exact Finset.mem_erase.mpr ⟨fun heq => hnot (heq ▸ hd), horder d hd⟩

/-- What `updateStates` comes to. -/
structure Updated (r r' : ExecutorRun Store) : Prop where
  states : r'.sets.states = (r.sets.states ∪ r.sets.addedStates) \ r.sets.removedStates
  addedStates : r'.sets.addedStates = ∅
  removedStates : r'.sets.removedStates = ∅
  searcher : r.searcher ≠ none → r'.searcher ≠ none

theorem updateSearcher_eq (keeps : impl.Keeps Holds) (h : Tracked Holds r) {current : Option ℕ}
    (hcurrent : ∀ es, current = some es → es ∈ r.sets.states) :
    ∃ searcher, r.updateSearcher impl current = some { r with searcher := searcher }
      ∧ (∀ store, searcher = some store →
          Holds store ((r.sets.states ∪ r.sets.addedStates) \ r.sets.removedStates))
      ∧ (r.searcher ≠ none → searcher ≠ none) := by
  rw [updateSearcher]
  cases hsearcher : r.searcher with
  | none =>
    have hnull : r = { r with searcher := none } := by rw [← hsearcher]
    exact ⟨none, congrArg some hnull, by simp, fun hne => absurd rfl hne⟩
  | some store =>
    obtain ⟨store', heq, hholds⟩ := keeps.update (h.searcher store hsearcher) current hcurrent
      h.mirrored.disjoint (h.mirrored.removed.trans Finset.subset_union_left)
    refine ⟨some store', ?_, ?_, by simp⟩
    · simp only [heq]
      rfl
    · intro store'' heq'
      exact Option.some.inj heq' ▸ hholds

theorem updateStates_tracked (keeps : impl.Keeps Holds) (h : Tracked Holds r) (current : Option ℕ)
    (hcurrent : ∀ es, current = some es → es ∈ r.sets.states) (hnodup : order.Nodup)
    (horder : order.toFinset = r.sets.removedStates) :
    ∃ r', r.updateStates impl current order = some r' ∧ Tracked Holds r' ∧ Updated r r'
      ∧ r'.phase = r.phase := by
  obtain ⟨searcher, hsearcher, hholds, hsome⟩ := updateSearcher_eq keeps h hcurrent
  obtain ⟨sets, hsets, hmirrored⟩ := StateSets.updateStates_mirrored h.mirrored hnodup horder
  obtain ⟨hstates, hremoved⟩ := StateSets.updateStates_sets hsets
  have hadded : sets.addedStates = ∅ := StateSets.updateStates_added hsets
  have hlive : sets.live = r.sets.live \ order.toFinset := by
    rw [StateSets.live, hadded, Finset.union_empty, hstates, StateSets.live]
  have hallocated : ∀ es ∈ order, es ∈ r.allocated := by
    intro es hes
    rw [h.allocated]
    have hmem : es ∈ r.sets.removedStates := horder ▸ List.mem_toFinset.mpr hes
    exact Finset.mem_union_left _ (h.mirrored.removed hmem)
  refine ⟨{ r with
      sets := sets
      seedMap := r.seedMap \ order.toFinset
      allocated := r.allocated \ order.toFinset
      searcher := searcher }, ?_, ⟨hmirrored, ?_, ?_, ?_⟩,
    ⟨by rw [hstates, horder], hadded, hremoved, hsome⟩, rfl⟩
  · have hdelete := deleteStates_eq (r := { r with searcher := searcher }) hnodup hallocated
    rw [updateStates, hsearcher]
    simp only [Option.bind_eq_bind, Option.bind_some, hsets, hdelete]
    rfl
  · rw [hlive]
    exact Finset.sdiff_subset_sdiff h.seedMap (Finset.Subset.refl _)
  · change r.allocated \ order.toFinset = sets.live
    rw [hlive, h.allocated]
  · change ∀ store, searcher = some store → Holds store sets.states
    rw [hstates, horder]
    exact hholds

/-! ## Runs -/

/-- What every step of `run` keeps. -/
structure Inv (options : ExecutorOptions) (Holds : Store → Finset ℕ → Prop) (r : ExecutorRun Store) :
    Prop where
  tracked : Tracked Holds r
  current : ∀ state, r.current = some state → state ∈ r.sets.states
  between : r.current = none → r.sets.addedStates = ∅ ∧ r.sets.removedStates = ∅
  searching : r.phase = .searching ∨ (∃ state, r.phase = .searchInstruction state) →
    r.searcher ≠ none
  seeding : r.phase = .seeding ∨ (∃ state, r.phase = .seedInstruction state) →
    options.usingSeeds = true
  unseeded : r.phase = .seeded → options.usingSeeds = false → 0 ∈ r.sets.states

theorem init_inv : Inv options Holds (init options : ExecutorRun Store) where
  tracked := by
    refine ⟨StateSets.mirrored_init, ?_, rfl, by simp [init]⟩
    change (if options.usingSeeds then {0} else ∅) ⊆ ({0} : Finset ℕ) ∪ ∅
    split <;> simp
  current state hstate := by
    rw [current, init] at hstate
    cases hseeds : options.usingSeeds <;> simp [hseeds] at hstate
  between _ := ⟨rfl, rfl⟩
  searching h := by
    rw [init] at h
    cases hseeds : options.usingSeeds <;> simp [hseeds] at h
  seeding h := by
    rw [init] at h
    cases hseeds : options.usingSeeds <;> simp [hseeds] at h ⊢
  unseeded _ _ := Finset.mem_singleton_self 0

/-- A step of an instruction keeps the phase, the searcher and the states it knows. -/
theorem Inv.instruction (h : Inv options Holds r) (hin : r.InInstruction) (htracked : Tracked Holds r')
    (hsame : SameRun r r') : Inv options Holds r' := by
  have hcurrent : r'.current = r.current := by
    rw [ExecutorRun.current, ExecutorRun.current, hsame.phase]
  refine ⟨htracked, ?_, ?_, ?_, ?_, ?_⟩
  · rw [hcurrent, hsame.states]
    exact h.current
  · rw [hcurrent]
    intro hnone
    rw [InInstruction, hnone] at hin
    exact absurd hin (by simp)
  · rw [hsame.phase, hsame.searcher]
    exact h.searching
  · rw [hsame.phase]
    exact h.seeding
  · rw [hsame.phase, hsame.states]
    exact h.unseeded

/-- Outside an instruction all live states are in `states`. -/
theorem Inv.live (h : Inv options Holds r) (hnone : r.current = none) :
    r.sets.live = r.sets.states := by
  rw [StateSets.live, (h.between hnone).1, Finset.union_empty]

theorem selectSeed_inv (h : Inv options Holds r)
    (hc : r.Allowed (.selectSeed state)) :
    ∃ r', r.step impl new options (.selectSeed state) = some r' ∧ Inv options Holds r' := by
  obtain ⟨hphase, hstate⟩ := hc
  have hnone : r.current = none := by rw [current, hphase]
  have hlive : state ∈ r.sets.states := by
    rw [← h.live hnone]
    exact h.tracked.seedMap hstate
  have hallocated : state ∈ r.allocated := by
    rw [h.tracked.allocated, h.live hnone]
    exact hlive
  have htracked := h.tracked
  refine ⟨{ r with phase := .seedInstruction state }, if_pos hallocated,
    ⟨⟨htracked.1, htracked.2, htracked.3, htracked.4⟩, ?_, ?_, ?_, ?_, ?_⟩⟩
  · intro state' hstate'
    exact Option.some.inj hstate' ▸ hlive
  · exact fun hnone' => absurd hnone' (by simp [current])
  · rintro (hphase' | ⟨_, hphase'⟩) <;> exact absurd hphase' (by simp)
  · exact fun _ => h.seeding (.inl hphase)
  · exact fun hphase' => absurd hphase' (by simp)

theorem stopSeeding_inv (h : Inv options Holds r) (hc : r.Allowed .stopSeeding) :
    ∃ r', r.step impl new options .stopSeeding = some r' ∧ Inv options Holds r' := by
  have hphase : r.phase = .seeding := hc
  have hnone : r.current = none := by rw [current, hphase]
  have hsubset : r.sets.states ⊆ r.allocated := by
    rw [h.tracked.allocated]
    exact Finset.subset_union_left
  have htracked := h.tracked
  refine ⟨{ r with phase := .seeded }, if_pos hsubset,
    ⟨⟨htracked.1, htracked.2, htracked.3, htracked.4⟩, ?_, fun _ => h.between hnone, ?_, ?_, ?_⟩⟩
  · exact fun state' hstate' => absurd hstate' (by simp [current])
  · rintro (hphase' | ⟨_, hphase'⟩) <;> exact absurd hphase' (by simp)
  · rintro (hphase' | ⟨_, hphase'⟩) <;> exact absurd hphase' (by simp)
  · intro _ hseeds
    rw [h.seeding (.inl hphase)] at hseeds
    exact absurd hseeds (by decide)

theorem startSearch_inv (keeps : impl.Keeps Holds) (hnew : Holds new ∅) (h : Inv options Holds r)
    (hc : r.Allowed .startSearch) :
    ∃ r', r.step impl new options .startSearch = some r' ∧ Inv options Holds r' := by
  have hphase : r.phase = .seeded := hc
  have hnone : r.current = none := by rw [current, hphase]
  obtain ⟨store, heq, hholds⟩ := keeps.update hnew none (by simp)
    (Finset.disjoint_empty_left r.sets.states) (Finset.empty_subset _)
  rw [Finset.empty_union, Finset.sdiff_empty] at hholds
  refine ⟨{ r with
      seedMap := if options.UseConcreteData && !options.usingSeeds then insert 0 r.seedMap
        else r.seedMap
      searcher := some store
      phase := .searching }, ?_,
    ⟨⟨h.tracked.mirrored, ?_, h.tracked.allocated, ?_⟩, ?_, fun _ => h.between hnone, ?_, ?_, ?_⟩⟩
  · simp only [step, heq]
    rfl
  · change (if options.UseConcreteData && !options.usingSeeds then insert 0 r.seedMap
      else r.seedMap) ⊆ r.sets.live
    by_cases hdata : (options.UseConcreteData && !options.usingSeeds) = true
    · rw [if_pos hdata]
      rw [Bool.and_eq_true, Bool.not_eq_true'] at hdata
      refine Finset.insert_subset ?_ h.tracked.seedMap
      exact Finset.mem_union_left _ (h.unseeded hphase hdata.2)
    · rw [if_neg hdata]
      exact h.tracked.seedMap
  · intro store' hstore'
    exact Option.some.inj hstore' ▸ hholds
  · exact fun state' hstate' => absurd hstate' (by simp [current])
  · exact fun _ => by simp
  · rintro (hphase' | ⟨_, hphase'⟩) <;> exact absurd hphase' (by simp)
  · exact fun hphase' => absurd hphase' (by simp)

theorem selectState_inv (keeps : impl.Keeps Holds) (h : Inv options Holds r)
    (hc : r.Allowed .selectState) :
    ∃ r', r.step impl new options .selectState = some r' ∧ Inv options Holds r' := by
  obtain ⟨hphase, hstates⟩ := hc
  obtain ⟨store, hstore⟩ := Option.ne_none_iff_exists'.mp (h.searching (.inl hphase))
  obtain ⟨es, store', heq, hes, hholds⟩ :=
    keeps.selectState (h.tracked.searcher store hstore) hstates
  have hallocated : es ∈ r.allocated := by
    rw [h.tracked.allocated]
    exact Finset.mem_union_left _ hes
  refine ⟨{ r with searcher := some store', phase := .searchInstruction es }, ?_,
    ⟨⟨h.tracked.mirrored, h.tracked.seedMap, h.tracked.allocated, ?_⟩, ?_, ?_, ?_, ?_, ?_⟩⟩
  · simp only [step, hstore, Option.bind_eq_bind, Option.bind_some, heq, if_pos hallocated]
  · intro store'' hstore''
    exact Option.some.inj hstore'' ▸ hholds
  · intro state' hstate'
    exact Option.some.inj hstate' ▸ hes
  · exact fun hnone' => absurd hnone' (by simp [current])
  · exact fun _ => by simp
  · rintro (hphase' | ⟨_, hphase'⟩) <;> exact absurd hphase' (by simp)
  · exact fun hphase' => absurd hphase' (by simp)

theorem updateStates_inv (keeps : impl.Keeps Holds) (h : Inv options Holds r)
    (hc : r.Allowed (.updateStates order)) :
    ∃ r', r.step impl new options (.updateStates order) = some r' ∧ Inv options Holds r' := by
  obtain ⟨hin, hnodup, horder⟩ := hc
  obtain ⟨r', heq, htracked, hupdated, -⟩ :=
    updateStates_tracked keeps h.tracked r.current h.current hnodup horder
  have hphases : (∃ state, r.phase = .seedInstruction state) ∧ r.nextPhase = .seeding
      ∨ (∃ state, r.phase = .searchInstruction state) ∧ r.nextPhase = .searching := by
    rw [InInstruction, current] at hin
    rw [nextPhase]
    cases hphase : r.phase <;> simp [hphase] at hin ⊢
  have hnone : ({ r' with phase := r.nextPhase } : ExecutorRun Store).current = none := by
    rw [current]
    rcases hphases with ⟨-, hnext⟩ | ⟨-, hnext⟩ <;> simp only [hnext]
  refine ⟨{ r' with phase := r.nextPhase }, congrArg (Option.map _) heq,
    ⟨⟨htracked.1, htracked.2, htracked.3, htracked.4⟩, ?_, ?_, ?_, ?_, ?_⟩⟩
  · rw [hnone]
    exact fun state' hstate' => absurd hstate' (by simp)
  · exact fun _ => ⟨hupdated.addedStates, hupdated.removedStates⟩
  · intro hsearching
    refine hupdated.searcher (h.searching ?_)
    rcases hphases with ⟨-, hnext⟩ | ⟨hphase, -⟩
    · simp [hnext] at hsearching
    · exact .inr hphase
  · intro hseeding
    refine h.seeding ?_
    rcases hphases with ⟨hphase, -⟩ | ⟨-, hnext⟩
    · exact .inr hphase
    · simp [hnext] at hseeding
  · intro hseeded
    rcases hphases with ⟨-, hnext⟩ | ⟨-, hnext⟩ <;> simp [hnext] at hseeded

theorem halt_inv (h : Inv options Holds r) (hc : r.Allowed .halt) :
    ∃ r', r.step impl new options .halt = some r' ∧ Inv options Holds r' := by
  have hnone : r.current = none := by
    rcases hc with hphase | hphase | hphase <;> rw [current, hphase]
  refine ⟨{ r with searcher := none, phase := .halted }, rfl,
    ⟨⟨h.tracked.mirrored, h.tracked.seedMap, h.tracked.allocated, by simp⟩, ?_,
      fun _ => h.between hnone, ?_, ?_, ?_⟩⟩
  · exact fun state' hstate' => absurd hstate' (by simp [current])
  · rintro (hphase' | ⟨_, hphase'⟩) <;> exact absurd hphase' (by simp)
  · rintro (hphase' | ⟨_, hphase'⟩) <;> exact absurd hphase' (by simp)
  · exact fun hphase' => absurd hphase' (by simp)

theorem dump_inv (keeps : impl.Keeps Holds) (h : Inv options Holds r)
    (hc : r.Allowed (.dump arr order)) :
    ∃ r', r.step impl new options (.dump arr order) = some r' ∧ Inv options Holds r' := by
  obtain ⟨hphase, -, harr, hnodup, horder⟩ := hc
  have hnone : r.current = none := by rw [current, hphase]
  obtain ⟨r₁, heq₁, htracked₁, hsame₁, -, hremoved₁⟩ := terminateAll_tracked arr h.tracked
    (fun es hes => by rw [← harr]; exact List.mem_toFinset.mpr hes)
  have hqueued : order.toFinset = r₁.sets.removedStates := by
    rw [hremoved₁, (h.between hnone).2, Finset.empty_union, harr, horder]
  obtain ⟨r₂, heq₂, htracked₂, hupdated, -⟩ :=
    updateStates_tracked keeps htracked₁ none (by simp) hnodup hqueued
  refine ⟨{ r₂ with phase := .finished }, ?_,
    ⟨⟨htracked₂.1, htracked₂.2, htracked₂.3, htracked₂.4⟩, ?_,
      fun _ => ⟨hupdated.addedStates, hupdated.removedStates⟩, ?_, ?_, ?_⟩⟩
  · simp only [step, heq₁, Option.bind_eq_bind, Option.bind_some, heq₂]
    rfl
  · exact fun state' hstate' => absurd hstate' (by simp [current])
  · rintro (hphase' | ⟨_, hphase'⟩) <;> exact absurd hphase' (by simp)
  · rintro (hphase' | ⟨_, hphase'⟩) <;> exact absurd hphase' (by simp)
  · exact fun hphase' => absurd hphase' (by simp)

theorem processTimers_inv (h : Inv options Holds r) {exceeded : Bool}
    (hc : r.Allowed (.processTimers exceeded)) :
    ∃ r', r.step impl new options (.processTimers exceeded) = some r' ∧ Inv options Holds r' := by
  obtain ⟨state, hstate⟩ := Option.isSome_iff_exists.mp hc
  obtain ⟨r', heq, htracked, hterminated, -⟩ :=
    terminateState_known h.tracked (h.current state hstate)
  simp only [step, hstate]
  by_cases hexceeded : (exceeded && decide (state ∉ r.sets.removedStates)) = true
  · rw [if_pos hexceeded]
    exact ⟨r', heq, h.instruction hc htracked hterminated.same⟩
  · rw [if_neg hexceeded]
    exact ⟨r, rfl, h⟩

/-- A step that is allowed has a result and keeps the invariant, if it has a searcher where
it needs one. -/
theorem step_inv (keeps : impl.Keeps Holds) (hnew : Holds new ∅) (h : Inv options Holds r)
    (hc : r.Allowed c) (hknown : r.HasSearcher options c) :
    ∃ r', r.step impl new options c = some r' ∧ Inv options Holds r' := by
  cases c with
  | selectSeed state => exact selectSeed_inv h hc
  | stopSeeding => exact stopSeeding_inv h hc
  | startSearch => exact startSearch_inv keeps hnew h hc
  | selectState => exact selectState_inv keeps h hc
  | fork current decision trueSeeds falseSeeds =>
    obtain ⟨r', heq, htracked, hsame⟩ := fork_tracked h.tracked hc.2 hknown
    exact ⟨r', heq, h.instruction hc.1 htracked hsame⟩
  | branch state decision =>
    obtain ⟨r', heq, htracked, hsame⟩ := branch_tracked h.tracked hc.2 hknown
    exact ⟨r', heq, h.instruction hc.1 htracked hsame⟩
  | terminateState state =>
    obtain ⟨r', heq, htracked, hterminated⟩ := terminateState_tracked h.tracked hc.2 hknown
    exact ⟨r', heq, h.instruction hc.1 htracked hterminated.same⟩
  | processTimers exceeded => exact processTimers_inv h hc
  | killStates picks arr =>
    obtain ⟨hin, -, harr⟩ := hc
    obtain ⟨r', heq, htracked, hsame⟩ := killStates_tracked picks h.tracked
      (fun es hes => by rw [← harr]; exact List.mem_toFinset.mpr hes)
    exact ⟨r', heq, h.instruction hin htracked hsame⟩
  | updateStates order => exact updateStates_inv keeps h hc
  | halt => exact halt_inv h hc
  | dump arr order => exact dump_inv keeps h hc

/-- Without a searcher, a step that tells it something has no result. -/
theorem step_none (h : Inv options Holds r) (hc : r.Allowed c) (hknown : ¬r.HasSearcher options c) :
    r.step impl new options c = none := by
  rw [HasSearcher, Classical.not_imp, not_not] at hknown
  obtain ⟨htells, hsearcher⟩ := hknown
  cases c with
  | fork current decision trueSeeds falseSeeds =>
    refine fork_none ?_ hsearcher htells
    intro heq
    exact absurd (h.tracked.mirrored.fresh current hc.2) (heq ▸ Nat.not_succ_le_self _)
  | branch state decision => exact branch_none h.tracked hc.2 hsearcher htells
  | terminateState state => exact terminateState_none hsearcher htells
  | selectSeed | stopSeeding | startSearch | selectState | processTimers | killStates
  | updateStates | halt | dump => exact absurd htells (by exact id)

/-- In a run whose steps tell the searcher something only where there is one, the
bookkeeping is sound, and the next step of the executor has a sound result exactly if it
has a searcher where it needs one. -/
theorem reaches_sound (keeps : impl.Keeps Holds) (hnew : Holds new ∅)
    (h : Reaches (stepRun impl new options)
      (fun r c => r.Allowed c ∧ r.HasSearcher options c) (init options) r) :
    Sound Holds r ∧ ∀ c, r.Allowed c →
      ((∃ r', r.step impl new options c = some r' ∧ Sound Holds r') ↔ r.HasSearcher options c) := by
  have hinv : Inv options Holds r := by
    refine h.invariant init_inv ?_
    intro r c a r' hr hok hstep
    obtain ⟨r'', heq, hr''⟩ := step_inv keeps hnew hr hok.1 hok.2
    rw [stepRun, heq] at hstep
    obtain ⟨-, rfl⟩ := Prod.mk.inj (Option.some.inj hstep)
    exact hr''
  refine ⟨hinv.tracked.sound, fun c hc => ⟨?_, ?_⟩⟩
  · rintro ⟨r', heq, -⟩
    by_contra hnot
    rw [step_none hinv hc hnot] at heq
    exact absurd heq (by simp)
  · intro hknown
    obtain ⟨r', heq, hinv'⟩ := step_inv keeps hnew hinv hc hknown
    exact ⟨r', heq, hinv'.tracked.sound⟩

/-! ## An error while seeds are executed -/

/-- With seeds and no further options. -/
def seedOptions : ExecutorOptions := ⟨true, false, false, false⟩

/-- The first state, which has the seeds, forked: the new state has none of them. -/
theorem reaches_seedFork : ∃ r : ExecutorRun (List ℕ),
    Reaches (stepRun (DFSSearcher (.increasing ℕ)) [] seedOptions)
      (fun r c => r.Allowed c ∧ r.HasSearcher seedOptions c) (init seedOptions) r
      ∧ r.InInstruction ∧ r.searcher = none ∧ r.sets.addedStates = {1} ∧ r.sets.live = {0, 1} := by
  have hselect : Reaches (stepRun (DFSSearcher (.increasing ℕ)) [] seedOptions)
      (fun r c => r.Allowed c ∧ r.HasSearcher seedOptions c) (init seedOptions) _ :=
    .step (c := .selectSeed 0) .init ⟨⟨rfl, Finset.mem_singleton_self 0⟩, fun h => absurd h (by exact id)⟩ rfl
  have hfork : Reaches (stepRun (DFSSearcher (.increasing ℕ)) [] seedOptions)
      (fun r c => r.Allowed c ∧ r.HasSearcher seedOptions c) (init seedOptions) _ :=
    .step (c := .fork 0 (.splits false false) true false) hselect
      ⟨⟨rfl, Finset.mem_union_left _ (Finset.mem_singleton_self 0)⟩, by
        rintro (h | ⟨h, -⟩) <;> exact absurd h (by decide)⟩ rfl
  exact ⟨_, hfork, rfl, rfl, rfl, rfl⟩

/-- The instruction ends, and the new state is taken over. -/
theorem reaches_sound_seedFork : ∃ r : ExecutorRun (List ℕ), r.sets.live = {0, 1}
    ∧ Sound ListSearcher.Holds r ∧ ∃ r', r.step (DFSSearcher (.increasing ℕ)) [] seedOptions
        (.terminateState 0) = some r' ∧ Sound ListSearcher.Holds r' := by
  obtain ⟨r, hreaches, hin, -, hadded, hlive⟩ := reaches_seedFork
  obtain ⟨hsound, hstep⟩ := reaches_sound (DFSSearcher.keeps (.increasing ℕ))
    ⟨List.nodup_nil, rfl⟩ hreaches
  have hallowed : r.Allowed (.terminateState 0) := by
    refine ⟨hin, ?_⟩
    rw [hlive]
    exact Finset.mem_insert_self 0 _
  refine ⟨r, hlive, hsound, (hstep _ hallowed).mpr ?_⟩
  intro htells
  change 0 ∈ r.sets.addedStates at htells
  rw [hadded] at htells
  exact absurd htells (by decide)

/-- The instruction ends the new state with an error. -/
theorem seedFork_error :
    ¬∀ r : ExecutorRun (List ℕ), Reaches (stepRun (DFSSearcher (.increasing ℕ)) [] seedOptions)
        Allowed (init seedOptions) r →
      ∀ c, r.Allowed c → ∃ r', r.step (DFSSearcher (.increasing ℕ)) [] seedOptions c = some r'
        ∧ Sound ListSearcher.Holds r' := by
  intro h
  obtain ⟨r, hreaches, hin, hsearcher, hadded, hlive⟩ := reaches_seedFork
  have hallowed : r.Allowed (.terminateState 1) := by
    refine ⟨hin, ?_⟩
    rw [hlive]
    decide
  obtain ⟨r', heq, -⟩ := h r (hreaches.mono fun _ _ hok => hok.1) _ hallowed
  have hnone : r.terminateState 1 = none := terminateState_none hsearcher (by rw [hadded]; decide)
  rw [step, hnone] at heq
  exact absurd heq (by simp)

end ExecutorRun

end Xklee
