/-
Merging at calls of `klee_merge`: `MergingSearcher` of `lib/Core/Searcher.cpp`, and
`Executor::terminateState` as far as the searcher meets it.

A state whose next instruction calls the merge function waits in `statesAtMerge`. When
all states wait, those at one merge point are merged as far as possible, the rest of them
is terminated, and what is left steps past the merge point. A terminated state stays in
`statesAtMerge` until the next `update`, with its `pc` set back; `selectState` calls itself
after a merge, so a second merge may find it there.
-/
import Xklee.Core.Searcher
import Xklee.Data.Run
import Mathlib.Data.Finset.Card
import Mathlib.Data.Finset.Image
import Mathlib.Order.WithBot

set_option autoImplicit false

namespace Xklee

/-! ## The code -/

/-- What the searcher looks at in an instruction. -/
inductive MergeInstruction
  | callsMergeFunction
  | other
deriving DecidableEq

/-- What `selectState` does to states. -/
inductive MergeEvent (S : Type)
  /-- `base->merge(*mergeWith)` -/
  | merge (base mergeWith : S)
  /-- `executor.terminateState(es)` -/
  | terminate (es : S)
  /-- `return es` -/
  | returned (es : S)
deriving DecidableEq

/-- The states that an event is about. -/
def MergeEvent.states {S : Type} : MergeEvent S → List S
  | .merge base mergeWith => [base, mergeWith]
  | .terminate es => [es]
  | .returned es => [es]

/-- What does not change: the base searcher's code, the program, and the orders of sets of
states and of maps from instructions. The null pointer is `none`. -/
structure MergingEnv (S Store : Type) where
  impl : Searcher S Store
  program : List MergeInstruction
  stateOrder : SetOrder S
  pointOrder : SetOrder (Option ℕ)

/-- The fields of `MergingSearcher`, the fields of the states and of the executor that it
uses, and what the last calls of `selectState` did. -/
structure MergingSearcher (S Store : Type) where
  baseSearcher : Store
  statesAtMerge : Finset S
  pc : S → ℕ
  prevPC : S → ℕ
  removedStates : Finset S
  log : List (MergeEvent S)

namespace MergingSearcher

variable {S Store : Type} [DecidableEq S] (env : MergingEnv S Store)

/-- `program[pc]` calls the merge function. -/
def IsMergePoint (pc : ℕ) : Prop := env.program[pc]? = some .callsMergeFunction

instance (pc : ℕ) : Decidable (IsMergePoint env pc) :=
  inferInstanceAs (Decidable (env.program[pc]? = some .callsMergeFunction))

/-- `getMergePoint`. -/
def getMergePoint (s : MergingSearcher S Store) (es : S) : Option ℕ :=
  if IsMergePoint env (s.pc es) then some (s.pc es) else none

/-- `Executor::terminateState`, for a state that is not in `addedStates`. When a state is
selected, `updateStates` has just emptied `addedStates`. -/
def terminateState (s : MergingSearcher S Store) (es : S) : MergingSearcher S Store :=
  { s with
    pc := Function.update s.pc es (s.prevPC es)
    removedStates := insert es s.removedStates }

/-- The first loop of `selectState`: the state it returns, or `none` when the base searcher
is empty. The first argument bounds the rounds. -/
def gather : ℕ → MergingSearcher S Store → Option (Option S × MergingSearcher S Store)
  | 0, _ => none
  | n + 1, s =>
      if env.impl.empty s.baseSearcher then some (none, s)
      else do
        let (es, baseSearcher) ← env.impl.selectState s.baseSearcher
        let s := { s with baseSearcher := baseSearcher }
        if (getMergePoint env s es).isSome then
          let baseSearcher ← env.impl.removeState s.baseSearcher es (some es)
          gather n { s with
            baseSearcher := baseSearcher
            statesAtMerge := insert es s.statesAtMerge }
        else some (some es, s)

/-- The map of merge points, as the state lists in the order of their keys. -/
def merges (s : MergingSearcher S Store) : List (List S) :=
  (env.pointOrder.toList (s.statesAtMerge.image (getMergePoint env s))).map fun mp =>
    env.stateOrder.toList (s.statesAtMerge.filter fun es => getMergePoint env s es = mp)

variable (outcome : ℕ → S → S → Bool)

/-- One round of the loop over `toMerge`: what is left of it. `outcome` is what
`ExecutionState::merge` answers at an instruction. -/
def mergeBase (base : S) (toMerge : List S) (s : MergingSearcher S Store) :
    Option (List S × MergingSearcher S Store) :=
  let toErase := toMerge.filter (outcome (s.pc base) base)
  let log := s.log ++ toMerge.map (.merge base) ++ toErase.map .terminate
  let s := toErase.foldl terminateState { s with log := log }
  -- step past merge and toss base back in pool
  if base ∈ s.statesAtMerge then do
    let baseSearcher ← env.impl.addState s.baseSearcher base none
    return (toMerge.filter (· ∉ toErase),
      { s with
        baseSearcher := baseSearcher
        statesAtMerge := s.statesAtMerge.erase base
        pc := Function.update s.pc base (s.pc base + 1) })
  else none

/-- The loop over `toMerge`. The first argument bounds the rounds. -/
def mergeStates : ℕ → List S → MergingSearcher S Store → Option (MergingSearcher S Store)
  | _, [], s => some s
  | 0, _ :: _, _ => none
  | n + 1, base :: toMerge, s => do
      let (toMerge, s) ← mergeBase env outcome base toMerge s
      mergeStates n toMerge s

/-- The loop over the merge points. -/
def mergeAll (s : MergingSearcher S Store) : Option (MergingSearcher S Store) :=
  (merges env s).foldlM (fun s states => mergeStates env outcome states.length states s) s

/-- `selectState`. The first argument bounds the states that the base searcher holds, the
second one the merges. -/
def selectState (bound : ℕ) : ℕ → MergingSearcher S Store → Option (S × MergingSearcher S Store)
  | 0, _ => none
  | n + 1, s => do
      let (res, s) ← gather env bound s
      match res with
      | some es => return (es, { s with log := s.log ++ [.returned es] })
      | none =>
          let s ← mergeAll env outcome s
          selectState bound n s

/-- One round of the loop of `update` over the removed states. -/
def dropWaiting : Finset S × Finset S → S → Finset S × Finset S
  | (statesAtMerge, alt), es =>
      if es ∈ statesAtMerge then (statesAtMerge.erase es, alt.erase es) else (statesAtMerge, alt)

/-- `update`. -/
def update (s : MergingSearcher S Store) (current : Option S)
    (addedStates removedStates : Finset S) : Option (MergingSearcher S Store) :=
  if removedStates ≠ ∅ then do
    let (statesAtMerge, alt) := (env.stateOrder.toList removedStates).foldl dropWaiting
      (s.statesAtMerge, removedStates)
    let baseSearcher ← env.impl.update s.baseSearcher current addedStates alt
    return { s with baseSearcher := baseSearcher, statesAtMerge := statesAtMerge }
  else do
    let baseSearcher ← env.impl.update s.baseSearcher current addedStates removedStates
    return { s with baseSearcher := baseSearcher }

end MergingSearcher

/-! ## Its caller -/

/-- The searcher between two steps of `Executor::run`, the live states and the one that
runs. -/
structure MergingRun (S Store : Type) where
  searcher : MergingSearcher S Store
  live : Finset S
  selected : Option S

/-- A step of `Executor::run`. -/
inductive MergingCall (S : Type)
  /-- `searcher->selectState()`, with the answers of `ExecutionState::merge`. -/
  | selectState (outcome : ℕ → S → S → Bool)
  /-- `stepInstruction` and `executeInstruction`: the new `pc` and `prevPC` of the state. -/
  | execute (pc prevPC : ℕ)
  /-- `terminateState`, called by the executor. -/
  | terminate (es : S)
  /-- `updateStates`: the added states and where they are. -/
  | update (current : Option S) (addedStates : Finset S) (pc prevPC : S → ℕ)

namespace MergingRun

variable {S Store : Type} [DecidableEq S] (env : MergingEnv S Store)

/-- Before the first call. -/
def init (baseSearcher : Store) : MergingRun S Store where
  searcher := ⟨baseSearcher, ∅, fun _ => 0, fun _ => 0, ∅, []⟩
  live := ∅
  selected := none

/-- One step: the state that is returned, and what comes after it. -/
def step (r : MergingRun S Store) : MergingCall S → Option (Option S × MergingRun S Store)
  | .selectState outcome =>
      (r.searcher.selectState env outcome (r.live.card + 1) (env.program.length + 1)).map
        fun (es, searcher) => (some es, { r with searcher := searcher, selected := some es })
  | .execute pc prevPC =>
      match r.selected with
      | none => none
      | some es => some (none, { r with
          searcher := { r.searcher with
            pc := Function.update r.searcher.pc es pc
            prevPC := Function.update r.searcher.prevPC es prevPC } })
  | .terminate es => some (none, { r with searcher := r.searcher.terminateState es })
  | .update current addedStates pc prevPC =>
      let s := { r.searcher with
        pc := fun es => if es ∈ addedStates then pc es else r.searcher.pc es
        prevPC := fun es => if es ∈ addedStates then prevPC es else r.searcher.prevPC es }
      (s.update env current addedStates s.removedStates).map fun searcher =>
        (none, ⟨{ searcher with removedStates := ∅, log := [] },
          (r.live ∪ addedStates) \ s.removedStates, none⟩)

/-- What `Executor::run` takes care of: a state is selected when there is one and the last
update took all terminated ones away, the selected state runs, live states are terminated,
added states are new. -/
def Allowed (r : MergingRun S Store) : MergingCall S → Prop
  | .selectState _ => r.live.Nonempty ∧ r.searcher.removedStates = ∅
  | .execute _ _ => r.selected.isSome
  | .terminate es => es ∈ r.live
  | .update current addedStates _ _ =>
      (∀ es, current = some es → r.selected = some es) ∧ Disjoint r.live addedStates

/-- No two states are merged at a merge point after which every live state is at one more
merge point. -/
def Passes (live : Finset S) (pc : S → ℕ) (outcome : ℕ → S → S → Bool) : Prop :=
  ∀ j, (∀ es ∈ live, ∀ i ≤ j + 1, MergingSearcher.IsMergePoint env (pc es + i)) →
    ∀ a ∈ live, ∀ b ∈ live, outcome (pc a + j) a b = false

/-- The condition for a step. -/
def MergesLast (r : MergingRun S Store) : MergingCall S → Prop
  | .selectState outcome => Passes env r.live r.searcher.pc outcome
  | _ => True

/-- The base searcher and `statesAtMerge` have no state in common, and together all live
states. -/
def KeepsLive (Holds : Store → Finset S → Prop) (r : MergingRun S Store) : Prop :=
  ∃ held, Holds r.searcher.baseSearcher held ∧ Disjoint held r.searcher.statesAtMerge
    ∧ held ∪ r.searcher.statesAtMerge = r.live

end MergingRun

/-- No event is about a state that was terminated before. -/
def NeverAgain {S : Type} (log : List (MergeEvent S)) : Prop :=
  log.Pairwise fun earlier later => ∀ es, earlier = .terminate es → es ∉ later.states

/-! ## Logs -/

section Log

variable {S : Type} {log events : List (MergeEvent S)} {T U : Finset S}

theorem NeverAgain.append (h : NeverAgain log) (h' : NeverAgain events)
    (hlog : ∀ es, .terminate es ∈ log → es ∈ T)
    (hevents : ∀ e ∈ events, ∀ es ∈ e.states, es ∉ T) : NeverAgain (log ++ events) := by
  rw [NeverAgain, List.pairwise_append]
  refine ⟨h, h', ?_⟩
  intro e he e' he' es heq hes
  subst heq
  exact hevents e' he' es hes (hlog es he)

/-- The events of one base: it is merged with what is left, and some of that is
terminated. -/
theorem neverAgain_mergeBase {base : S} {toMerge : List S} (hnodup : (base :: toMerge).Nodup)
    (p : S → Bool) :
    NeverAgain (toMerge.map (.merge base) ++ (toMerge.filter p).map .terminate) := by
  obtain ⟨hbase, htoMerge⟩ := List.nodup_cons.mp hnodup
  rw [NeverAgain, List.pairwise_append]
  refine ⟨?_, ?_, ?_⟩
  · rw [List.pairwise_map]
    refine List.pairwise_of_forall ?_
    intro a b es heq
    exact absurd heq (by simp)
  · rw [List.pairwise_map]
    refine (htoMerge.filter p).imp ?_
    intro a b hne es heq
    obtain rfl : a = es := MergeEvent.terminate.inj heq
    rw [MergeEvent.states, List.mem_singleton]
    exact hne
  · intro e he e' _ es heq
    obtain ⟨mergeWith, -, rfl⟩ := List.mem_map.mp he
    exact absurd heq (by simp)

end Log

namespace MergingSearcher

variable {S Store : Type} [DecidableEq S] {env : MergingEnv S Store} {Holds : Store → Finset S → Prop}
  {outcome : ℕ → S → S → Bool} {s s' s'' : MergingSearcher S Store}
  {held survivors dead touched survivors' dead' touched' : Finset S}

variable {es : S} {n bound : ℕ} {states : List S} {live : Finset S}

omit [DecidableEq S] in
theorem getMergePoint_eq_some {mp : ℕ} :
    getMergePoint env s es = some mp ↔ IsMergePoint env (s.pc es) ∧ s.pc es = mp := by
  rw [getMergePoint]
  by_cases h : IsMergePoint env (s.pc es)
  · simp [h]
  · simp [h]

omit [DecidableEq S] in
theorem isSome_getMergePoint :
    (getMergePoint env s es).isSome = true ↔ IsMergePoint env (s.pc es) := by
  rw [getMergePoint]
  by_cases h : IsMergePoint env (s.pc es)
  · simp [h]
  · simp [h]

/-! ## Merging -/

/-- What a part of the merge comes to, which deals with the states `touched`: `survivors`
step past their merge point and go to the base searcher, and `dead` is terminated. -/
structure Merged (s s' : MergingSearcher S Store) (survivors dead touched : Finset S) : Prop where
  subset : survivors ∪ dead ⊆ touched
  statesAtMerge : s'.statesAtMerge = s.statesAtMerge \ survivors
  pc_survivor : ∀ es ∈ survivors, s'.pc es = s.pc es + 1
  pc_other : ∀ es, es ∉ survivors → es ∉ dead → s'.pc es = s.pc es
  removedStates : s'.removedStates = s.removedStates ∪ dead
  log : ∃ events, s'.log = s.log ++ events ∧ NeverAgain events
    ∧ (∀ e ∈ events, ∀ es ∈ e.states, es ∈ touched)
    ∧ ∀ es, .terminate es ∈ events → es ∈ dead

theorem Merged.refl (s : MergingSearcher S Store) : Merged s s ∅ ∅ ∅ where
  subset := Finset.Subset.refl _
  statesAtMerge := Finset.sdiff_empty.symm
  pc_survivor es hes := absurd hes (Finset.notMem_empty es)
  pc_other _ _ _ := rfl
  removedStates := (Finset.union_empty _).symm
  log := ⟨[], (List.append_nil _).symm, List.Pairwise.nil, by simp, by simp⟩

/-- A second part that deals with none of the states the first one is done with. -/
theorem Merged.trans (h : Merged s s' survivors dead touched)
    (h' : Merged s' s'' survivors' dead' touched')
    (hdisjoint : Disjoint (survivors ∪ dead) touched') :
    Merged s s'' (survivors ∪ survivors') (dead ∪ dead') (touched ∪ touched') where
  subset := by
    rw [Finset.union_union_union_comm]
    exact Finset.union_subset_union h.subset h'.subset
  statesAtMerge := by
    rw [h'.statesAtMerge, h.statesAtMerge, sdiff_sdiff_left]
    rfl
  pc_survivor es hes := by
    have hdone : es ∈ survivors ∪ dead → es ∉ survivors' ∪ dead' := fun h₁ h₂ =>
      Finset.disjoint_left.mp hdisjoint h₁ (h'.subset h₂)
    by_cases hes' : es ∈ survivors
    · have hother := hdone (Finset.mem_union_left dead hes')
      rw [Finset.mem_union, not_or] at hother
      rw [h'.pc_other es hother.1 hother.2, h.pc_survivor es hes']
    · have hmem := (Finset.mem_union.mp hes).resolve_left hes'
      have hother : es ∉ survivors ∪ dead := fun h₁ => hdone h₁ (Finset.mem_union_left dead' hmem)
      rw [Finset.mem_union, not_or] at hother
      rw [h'.pc_survivor es hmem, h.pc_other es hother.1 hother.2]
  pc_other es hsurvivors hdead := by
    rw [Finset.mem_union, not_or] at hsurvivors hdead
    rw [h'.pc_other es hsurvivors.2 hdead.2, h.pc_other es hsurvivors.1 hdead.1]
  removedStates := by rw [h'.removedStates, h.removedStates, Finset.union_assoc]
  log := by
    obtain ⟨events, hlog, hnever, hstates, hterminate⟩ := h.log
    obtain ⟨events', hlog', hnever', hstates', hterminate'⟩ := h'.log
    refine ⟨events ++ events', by rw [hlog', hlog, List.append_assoc], ?_, ?_, ?_⟩
    · refine hnever.append hnever' hterminate ?_
      intro e he es hes hdead
      exact Finset.disjoint_left.mp hdisjoint (Finset.mem_union_right survivors hdead)
        (hstates' e he es hes)
    · intro e he es hes
      rw [Finset.mem_union]
      exact (List.mem_append.mp he).imp (fun he => hstates e he es hes)
        (fun he => hstates' e he es hes)
    · intro es hes
      rw [Finset.mem_union]
      exact (List.mem_append.mp hes).imp (hterminate es) (hterminate' es)

theorem foldl_terminateState (es : List S) (s : MergingSearcher S Store) :
    es.foldl terminateState s = { s with
      pc := fun x => if x ∈ es then s.prevPC x else s.pc x
      removedStates := s.removedStates ∪ es.toFinset } := by
  induction es generalizing s with
  | nil => simp
  | cons e es ih =>
    rw [List.foldl_cons, ih, terminateState]
    congr 1
    · funext x
      by_cases hx : x ∈ es
      · simp [hx]
      · by_cases hxe : x = e
        · simp [hxe]
        · simp [hx, hxe]
    · rw [List.toFinset_cons, Finset.insert_union, Finset.union_insert]

/-- The states that one base is merged with. -/
theorem mergeBase_eq (outcome : ℕ → S → S → Bool) (keeps : env.impl.Keeps Holds) (hheld : Holds s.baseSearcher held) {base : S}
    {toMerge : List S} (hnodup : (base :: toMerge).Nodup) (hbase : base ∈ s.statesAtMerge)
    (hnot : base ∉ held) :
    ∃ s', mergeBase env outcome base toMerge s
        = some (toMerge.filter fun es => !outcome (s.pc base) base es, s')
      ∧ Holds s'.baseSearcher (insert base held)
      ∧ Merged s s' {base} (toMerge.filter (outcome (s.pc base) base)).toFinset
          (base :: toMerge).toFinset := by
  obtain ⟨store, hadd, hstore⟩ := keeps.addState hheld none (by simp) hnot
  have hnotMem : base ∉ toMerge := (List.nodup_cons.mp hnodup).1
  have hnotErased : base ∉ toMerge.filter (outcome (s.pc base) base) :=
    fun h => hnotMem (List.mem_of_mem_filter h)
  have hkept : toMerge.filter (· ∉ toMerge.filter (outcome (s.pc base) base))
      = toMerge.filter fun es => !outcome (s.pc base) base es := by
    refine List.filter_congr ?_
    intro es hes
    simp [List.mem_filter, hes]
  refine ⟨{ baseSearcher := store
            statesAtMerge := s.statesAtMerge.erase base
            pc := Function.update
              (fun x => if x ∈ toMerge.filter (outcome (s.pc base) base) then s.prevPC x else s.pc x)
              base (s.pc base + 1)
            prevPC := s.prevPC
            removedStates := s.removedStates ∪ (toMerge.filter (outcome (s.pc base) base)).toFinset
            log := s.log ++ toMerge.map (.merge base)
              ++ (toMerge.filter (outcome (s.pc base) base)).map .terminate }, ?_, hstore, ?_⟩
  · rw [mergeBase, foldl_terminateState]
    simp only [if_pos hbase, hadd, hkept, if_neg hnotErased]
    rfl
  · constructor
    · intro es hes
      rw [Finset.mem_union, Finset.mem_singleton, List.mem_toFinset] at hes
      rw [List.mem_toFinset, List.mem_cons]
      exact hes.imp_right List.mem_of_mem_filter
    · exact (Finset.sdiff_singleton_eq_erase base s.statesAtMerge).symm
    · intro es hes
      rw [Finset.mem_singleton.mp hes]
      dsimp only
      rw [Function.update_self]
    · intro es hsurvivor hdead
      rw [Finset.mem_singleton] at hsurvivor
      rw [List.mem_toFinset] at hdead
      dsimp only
      rw [Function.update_of_ne hsurvivor, if_neg hdead]
    · rfl
    · refine ⟨_, List.append_assoc _ _ _, neverAgain_mergeBase hnodup _, ?_, ?_⟩
      · intro e he es hes
        rw [List.mem_toFinset, List.mem_cons]
        rcases List.mem_append.mp he with he | he
        · obtain ⟨mergeWith, hmem, rfl⟩ := List.mem_map.mp he
          rw [MergeEvent.states, List.mem_pair] at hes
          refine hes.imp_right ?_
          rintro rfl
          exact hmem
        · obtain ⟨erased, hmem, rfl⟩ := List.mem_map.mp he
          rw [MergeEvent.states, List.mem_singleton] at hes
          exact .inr (hes ▸ List.mem_of_mem_filter hmem)
      · intro es hes
        rw [List.mem_toFinset]
        rcases List.mem_append.mp hes with hes | hes
        · obtain ⟨mergeWith, -, heq⟩ := List.mem_map.mp hes
          exact absurd heq (by simp)
        · obtain ⟨erased, hmem, heq⟩ := List.mem_map.mp hes
          exact MergeEvent.terminate.inj heq ▸ hmem

/-- A merge that is carried out: who survives and who is dead. -/
structure MergesTo (Holds : Store → Finset S → Prop) (outcome : ℕ → S → S → Bool)
    (s s' : MergingSearcher S Store) (held : Finset S) (states : List S)
    (survivors dead : Finset S) : Prop where
  holds : Holds s'.baseSearcher (held ∪ survivors)
  merged : Merged s s' survivors dead states.toFinset
  union : survivors ∪ dead = states.toFinset
  disjoint : Disjoint survivors dead
  /-- Where no merge succeeds, nothing is terminated. -/
  dead_empty : (∀ a ∈ states, ∀ b ∈ states, outcome (s.pc a) a b = false) → dead = ∅

/-- The states at one merge point. The induction is on the rounds left; each of them takes
at least its base out of `toMerge`. -/
theorem mergeStates_eq (outcome : ℕ → S → S → Bool) (keeps : env.impl.Keeps Holds)
    (hlength : states.length ≤ n) (hheld : Holds s.baseSearcher held) (hnodup : states.Nodup)
    (hstates : ∀ es ∈ states, es ∈ s.statesAtMerge ∧ es ∉ held) :
    ∃ s' survivors dead, mergeStates env outcome n states s = some s'
      ∧ MergesTo Holds outcome s s' held states survivors dead
      ∧ (states ≠ [] → survivors.Nonempty) := by
  induction n generalizing s held states with
  | zero =>
    obtain rfl : states = [] := List.length_eq_zero_iff.mp (Nat.le_zero.mp hlength)
    refine ⟨s, ∅, ∅, rfl, ⟨?_, .refl s, rfl, Finset.disjoint_empty_left _, fun _ => rfl⟩, by simp⟩
    rwa [Finset.union_empty]
  | succ n ih =>
    cases states with
    | nil =>
      refine ⟨s, ∅, ∅, rfl, ⟨?_, .refl s, rfl, Finset.disjoint_empty_left _, fun _ => rfl⟩, by simp⟩
      rwa [Finset.union_empty]
    | cons base toMerge =>
      obtain ⟨hbase, hnot⟩ := hstates base List.mem_cons_self
      obtain ⟨s₁, heq, hheld₁, hmerged⟩ := mergeBase_eq outcome keeps hheld hnodup
        hbase hnot
      set erased := toMerge.filter (outcome (s.pc base) base) with herased
      set kept := toMerge.filter (fun es => !outcome (s.pc base) base es) with hkept
      have hsub : ∀ es ∈ kept, es ∈ toMerge := fun es hes => List.mem_of_mem_filter hes
      have hne : ∀ es ∈ kept, es ≠ base := fun es hes hes' =>
        (List.nodup_cons.mp hnodup).1 (hes' ▸ hsub es hes)
      have hnotErased : ∀ es ∈ kept, es ∉ erased := by
        intro es hes hes'
        have htrue := (List.mem_filter.mp hes').2
        have hfalse := (List.mem_filter.mp hes).2
        rw [htrue] at hfalse
        exact absurd hfalse (by decide)
      have hkeptStates : ∀ es ∈ kept, es ∈ s₁.statesAtMerge ∧ es ∉ insert base held := by
        intro es hes
        obtain ⟨hes', hheld'⟩ := hstates es (List.mem_cons_of_mem _ (hsub es hes))
        rw [hmerged.statesAtMerge, Finset.mem_sdiff, Finset.mem_singleton, Finset.mem_insert, not_or]
        exact ⟨⟨hes', hne es hes⟩, hne es hes, hheld'⟩
      have hkeptLength : kept.length ≤ n :=
        (List.length_filter_le _ _).trans (Nat.le_of_succ_le_succ hlength)
      obtain ⟨s₂, survivors, dead, heq', hto, -⟩ := ih hkeptLength hheld₁
        ((List.nodup_cons.mp hnodup).2.filter _) hkeptStates
      have hdone : Disjoint ({base} ∪ erased.toFinset) kept.toFinset := by
        rw [Finset.disjoint_right]
        intro es hes
        rw [List.mem_toFinset] at hes
        rw [Finset.mem_union, Finset.mem_singleton, List.mem_toFinset, not_or]
        exact ⟨hne es hes, hnotErased es hes⟩
      have hall : (base :: toMerge).toFinset ∪ kept.toFinset = (base :: toMerge).toFinset := by
        rw [Finset.union_eq_left]
        intro es hes
        rw [List.mem_toFinset] at hes ⊢
        exact List.mem_cons_of_mem _ (hsub es hes)
      refine ⟨s₂, {base} ∪ survivors, erased.toFinset ∪ dead, ?_, ⟨?_, ?_, ?_, ?_, ?_⟩, ?_⟩
      · rw [mergeStates, heq]
        exact heq'
      · have hholds := hto.holds
        rwa [Finset.insert_eq, Finset.union_comm {base} held, Finset.union_assoc] at hholds
      · have htrans := hmerged.trans hto.merged hdone
        rwa [hall] at htrans
      · rw [Finset.union_union_union_comm, hto.union, List.toFinset_cons, Finset.insert_eq,
          Finset.union_assoc, ← List.toFinset_append]
        congr 1
        ext es
        rw [List.mem_toFinset, List.mem_toFinset, List.mem_append, herased, hkept, List.mem_filter,
          List.mem_filter]
        cases outcome (s.pc base) base es <;> simp
      · have hrest : survivors ∪ dead ⊆ kept.toFinset := hto.union.subset
        rw [Finset.disjoint_union_left, Finset.disjoint_union_right, Finset.disjoint_union_right]
        refine ⟨⟨?_, ?_⟩, ?_, hto.disjoint⟩
        · rw [Finset.disjoint_singleton_left, List.mem_toFinset]
          exact fun h => (List.nodup_cons.mp hnodup).1 (List.mem_of_mem_filter h)
        · exact (hdone.mono_left Finset.subset_union_left).mono_right
            (Finset.subset_union_right.trans hrest)
        · exact ((hdone.mono_left Finset.subset_union_right).mono_right
            (Finset.subset_union_left.trans hrest)).symm
      · intro hfails
        have herasedNil : erased = [] := by
          rw [herased, List.filter_eq_nil_iff]
          intro es hes
          rw [hfails base List.mem_cons_self es (List.mem_cons_of_mem _ hes)]
          decide
        have hpc : ∀ es ∈ kept, s₁.pc es = s.pc es := by
          intro es hes
          refine hmerged.pc_other es ?_ ?_
          · rw [Finset.mem_singleton]
            exact hne es hes
          · rw [List.mem_toFinset]
            exact hnotErased es hes
        rw [herasedNil, List.toFinset_nil, Finset.empty_union]
        refine hto.dead_empty ?_
        intro a ha b hb
        rw [hpc a ha]
        exact hfails a (List.mem_cons_of_mem _ (hsub a ha)) b (List.mem_cons_of_mem _ (hsub b hb))
      · intro _
        exact ⟨base, Finset.mem_union_left _ (Finset.mem_singleton_self base)⟩

theorem MergesTo.nil (hheld : Holds s.baseSearcher held) :
    MergesTo Holds outcome s s held [] ∅ ∅ where
  holds := by rwa [Finset.union_empty]
  merged := .refl s
  union := rfl
  disjoint := Finset.disjoint_empty_left _
  dead_empty _ := rfl

/-- Two lists of states, one after the other. -/
theorem MergesTo.append {states' : List S}
    (h : MergesTo Holds outcome s s' held states survivors dead)
    (h' : MergesTo Holds outcome s' s'' (held ∪ survivors) states' survivors' dead')
    (hdisjoint : states.Disjoint states') :
    MergesTo Holds outcome s s'' held (states ++ states') (survivors ∪ survivors')
      (dead ∪ dead') := by
  have hfinset : Disjoint states.toFinset states'.toFinset := by
    rw [Finset.disjoint_left]
    intro es hes hes'
    exact hdisjoint (List.mem_toFinset.mp hes) (List.mem_toFinset.mp hes')
  have hparts : Disjoint (survivors ∪ dead) (survivors' ∪ dead') := by
    rw [h.union, h'.union]
    exact hfinset
  constructor
  · have hholds := h'.holds
    rwa [Finset.union_assoc] at hholds
  · have hmerged := h.merged.trans h'.merged (by rw [h.union]; exact hfinset)
    rwa [← List.toFinset_append] at hmerged
  · rw [Finset.union_union_union_comm, h.union, h'.union, List.toFinset_append]
  · rw [Finset.disjoint_union_left, Finset.disjoint_union_right, Finset.disjoint_union_right]
    exact ⟨⟨h.disjoint, hparts.mono Finset.subset_union_left Finset.subset_union_right⟩,
      (hparts.mono Finset.subset_union_right Finset.subset_union_left).symm, h'.disjoint⟩
  · intro hfails
    have hdead : dead = ∅ := h.dead_empty fun a ha b hb =>
      hfails a (List.mem_append_left _ ha) b (List.mem_append_left _ hb)
    rw [hdead, Finset.empty_union]
    refine h'.dead_empty ?_
    intro a ha b hb
    have hpc : s'.pc a = s.pc a := by
      have hnot : a ∉ survivors ∪ dead := by
        rw [h.union, List.mem_toFinset]
        exact fun hmem => hdisjoint hmem ha
      rw [Finset.mem_union, not_or] at hnot
      exact h.merged.pc_other a hnot.1 hnot.2
    rw [hpc]
    exact hfails a (List.mem_append_right _ ha) b (List.mem_append_right _ hb)

/-- The merge points one after the other. Each of them has a survivor. -/
theorem foldlM_mergeStates (outcome : ℕ → S → S → Bool) (keeps : env.impl.Keeps Holds) {groups : List (List S)}
    (hheld : Holds s.baseSearcher held) (hnodup : groups.flatten.Nodup)
    (hstates : ∀ es ∈ groups.flatten, es ∈ s.statesAtMerge ∧ es ∉ held) :
    ∃ s' survivors dead,
      groups.foldlM (fun s states => mergeStates env outcome states.length states s) s = some s'
      ∧ MergesTo Holds outcome s s' held groups.flatten survivors dead
      ∧ ∀ states ∈ groups, states ≠ [] → ∃ es ∈ states, es ∈ survivors := by
  induction groups generalizing s held with
  | nil => exact ⟨s, ∅, ∅, rfl, .nil hheld, by simp⟩
  | cons states groups ih =>
    rw [List.flatten_cons] at hnodup hstates ⊢
    obtain ⟨hnodup₁, hnodup₂, hdisjoint⟩ := List.nodup_append'.mp hnodup
    obtain ⟨s₁, survivors, dead, heq, hto, hsome⟩ := mergeStates_eq outcome keeps
      le_rfl hheld hnodup₁ (fun es hes => hstates es (List.mem_append_left _ hes))
    have hrest : ∀ es ∈ groups.flatten, es ∈ s₁.statesAtMerge ∧ es ∉ held ∪ survivors := by
      intro es hes
      obtain ⟨hmem, hnot⟩ := hstates es (List.mem_append_right _ hes)
      have hother : es ∉ survivors := fun h => by
        have hmem' := hto.union.subset (Finset.mem_union_left dead h)
        exact hdisjoint (List.mem_toFinset.mp hmem') hes
      rw [hto.merged.statesAtMerge, Finset.mem_sdiff, Finset.mem_union, not_or]
      exact ⟨⟨hmem, hother⟩, hnot, hother⟩
    obtain ⟨s₂, survivors', dead', heq', hto', hsome'⟩ := ih hto.holds hnodup₂ hrest
    refine ⟨s₂, survivors ∪ survivors', dead ∪ dead', ?_, hto.append hto' hdisjoint, ?_⟩
    · rw [List.foldlM_cons, heq]
      exact heq'
    · intro group hgroup hne
      rcases List.mem_cons.mp hgroup with rfl | hgroup
      · obtain ⟨es, hes⟩ := hsome hne
        have hmem := hto.union.subset (Finset.mem_union_left dead hes)
        exact ⟨es, List.mem_toFinset.mp hmem, Finset.mem_union_left _ hes⟩
      · obtain ⟨es, hmem, hes⟩ := hsome' group hgroup hne
        exact ⟨es, hmem, Finset.mem_union_right _ hes⟩

omit [DecidableEq S] in
theorem mem_flatten_merges : es ∈ (merges env s).flatten ↔ es ∈ s.statesAtMerge := by
  rw [List.mem_flatten]
  constructor
  · rintro ⟨states, hstates, hes⟩
    obtain ⟨mp, -, rfl⟩ := List.mem_map.mp hstates
    rw [env.stateOrder.mem_toList, Finset.mem_filter] at hes
    exact hes.1
  · intro hes
    refine ⟨_, List.mem_map.mpr ⟨getMergePoint env s es, ?_, rfl⟩, ?_⟩
    · rw [env.pointOrder.mem_toList]
      exact Finset.mem_image_of_mem _ hes
    · rw [env.stateOrder.mem_toList, Finset.mem_filter]
      exact ⟨hes, rfl⟩

omit [DecidableEq S] in
theorem nodup_flatten_merges (env : MergingEnv S Store) (s : MergingSearcher S Store) :
    (merges env s).flatten.Nodup := by
  rw [List.nodup_flatten]
  constructor
  · intro states hstates
    obtain ⟨mp, -, rfl⟩ := List.mem_map.mp hstates
    exact env.stateOrder.nodup _
  · rw [merges, List.pairwise_map]
    refine (env.pointOrder.nodup _).imp ?_
    intro mp mp' hne es hes hes'
    rw [env.stateOrder.mem_toList, Finset.mem_filter] at hes hes'
    exact hne (hes.2.symm.trans hes'.2)

/-- All states that wait are merged. At each merge point one of them survives. -/
theorem mergeAll_eq (outcome : ℕ → S → S → Bool) (keeps : env.impl.Keeps Holds) (hheld : Holds s.baseSearcher ∅)
    (hpoints : ∀ es ∈ s.statesAtMerge, IsMergePoint env (s.pc es)) :
    ∃ s' survivors dead, mergeAll env outcome s = some s'
      ∧ MergesTo Holds outcome s s' ∅ (merges env s).flatten survivors dead
      ∧ ∀ es ∈ s.statesAtMerge, ∃ es' ∈ survivors, s.pc es' = s.pc es := by
  obtain ⟨s', survivors, dead, heq, hto, hsome⟩ := foldlM_mergeStates outcome keeps
    hheld (nodup_flatten_merges env s)
    (fun es hes => ⟨mem_flatten_merges.mp hes, Finset.notMem_empty es⟩)
  refine ⟨s', survivors, dead, heq, hto, ?_⟩
  intro es hes
  obtain ⟨states, hstates, hmem⟩ := List.mem_flatten.mp (mem_flatten_merges.mpr hes)
  obtain ⟨es', hes', hsurvivor⟩ := hsome states hstates (List.ne_nil_of_mem hmem)
  obtain ⟨mp, -, rfl⟩ := List.mem_map.mp hstates
  rw [env.stateOrder.mem_toList, Finset.mem_filter] at hmem hes'
  have hpoint : getMergePoint env s es = some (s.pc es) :=
    getMergePoint_eq_some.mpr ⟨hpoints es hes, rfl⟩
  have hpoint' : getMergePoint env s es' = some (s.pc es) := by
    rw [hes'.2, ← hmem.2, hpoint]
  exact ⟨es', hsurvivor, (getMergePoint_eq_some.mp hpoint').2⟩

/-! ## Selecting -/

/-- The first loop moves states at merge points and returns another one, if there is one. -/
theorem gather_eq (keeps : env.impl.Keeps Holds) (hn : held.card < n)
    (hheld : Holds s.baseSearcher held) :
    ∃ res store moved, gather env n s
        = some (res, { s with
            baseSearcher := store
            statesAtMerge := s.statesAtMerge ∪ moved })
      ∧ Holds store (held \ moved) ∧ moved ⊆ held ∧ (∀ es ∈ moved, IsMergePoint env (s.pc es))
      ∧ (res = none → moved = held)
      ∧ ∀ es, res = some es → es ∈ held \ moved ∧ ¬IsMergePoint env (s.pc es) := by
  induction n generalizing s held with
  | zero => exact absurd hn (Nat.not_lt_zero _)
  | succ n ih =>
    rw [gather]
    by_cases hempty : env.impl.empty s.baseSearcher = true
    · have hnone : held = ∅ := (keeps.empty_iff hheld).mp hempty
      refine ⟨none, s.baseSearcher, ∅, ?_, ?_, Finset.empty_subset _, by simp,
        fun _ => hnone.symm, by simp⟩
      · rw [if_pos hempty, Finset.union_empty]
      · rwa [Finset.sdiff_empty]
    · have hne : held.Nonempty := by
        rw [Finset.nonempty_iff_ne_empty]
        exact fun h => hempty ((keeps.empty_iff hheld).mpr h)
      obtain ⟨es, store, hselect, hes, hstore⟩ := keeps.selectState hheld hne
      rw [if_neg hempty, hselect]
      by_cases hpoint : IsMergePoint env (s.pc es)
      · obtain ⟨store', hremove, hstore'⟩ := keeps.removeState hstore (some es)
          (fun es' h => Option.some.inj h ▸ hes) hes
        have hcard : (held.erase es).card < n := by
          have hlt := Finset.card_erase_lt_of_mem hes
          omega
        obtain ⟨res, store'', moved, heq, hholds, hsub, hpoints, hnone, hsome⟩ :=
          ih (s := { s with
            baseSearcher := store'
            statesAtMerge := insert es s.statesAtMerge }) hcard hstore'
        have hmoved : insert es moved ⊆ held :=
          Finset.insert_subset hes (hsub.trans (Finset.erase_subset es held))
        have hsdiff : held.erase es \ moved = held \ insert es moved := by
          rw [← Finset.sdiff_singleton_eq_erase, sdiff_sdiff_left, Finset.insert_eq]
          rfl
        rw [hsdiff] at hholds hsome
        refine ⟨res, store'', insert es moved, ?_, hholds, hmoved, ?_, ?_, hsome⟩
        · have hisSome : (getMergePoint env { s with baseSearcher := store } es).isSome = true :=
            isSome_getMergePoint.mpr hpoint
          change (if (getMergePoint env { s with baseSearcher := store } es).isSome = true then
            (env.impl.removeState store es (some es)).bind _ else _) = _
          rw [if_pos hisSome, hremove]
          change gather env n _ = _
          rw [heq, Finset.insert_union, Finset.union_insert]
        · intro es' hes'
          rcases Finset.mem_insert.mp hes' with rfl | hes'
          · exact hpoint
          · exact hpoints es' hes'
        · intro hres
          rw [hnone hres, Finset.insert_erase hes]
      · refine ⟨some es, store, ∅, ?_, ?_, Finset.empty_subset _, by simp, by simp, ?_⟩
        · have hisSome : ¬(getMergePoint env { s with baseSearcher := store } es).isSome = true :=
            fun h => hpoint (isSome_getMergePoint.mp h)
          change (if (getMergePoint env { s with baseSearcher := store } es).isSome = true then _
            else _) = _
          rw [if_neg hisSome, Finset.union_empty]
        · rwa [Finset.sdiff_empty]
        · intro es' hes'
          rw [Finset.sdiff_empty, ← Option.some.inj hes']
          exact ⟨hes, hpoint⟩

/-- What `selectState` comes to: it returns a state of the base searcher. -/
structure Selected (env : MergingEnv S Store) (Holds : Store → Finset S → Prop) (live : Finset S)
    (es : S) (s : MergingSearcher S Store) : Prop where
  held : ∃ held, Holds s.baseSearcher held ∧ Disjoint held s.statesAtMerge
    ∧ held ∪ s.statesAtMerge = live ∧ es ∈ held
  removedStates : s.removedStates ⊆ live
  log : NeverAgain s.log
  terminated : ∀ es, .terminate es ∈ s.log → es ∈ s.removedStates
  points : ∀ es ∈ s.statesAtMerge, es ∉ s.removedStates → IsMergePoint env (s.pc es)

/-- A state of the base searcher that is not at a merge point ends the call. The states that
are terminated are in `statesAtMerge`. -/
theorem selectState_returns (keeps : env.impl.Keeps Holds) (hheld : Holds s.baseSearcher held)
    (hdisjoint : Disjoint held s.statesAtMerge) (hlive : held ∪ s.statesAtMerge = live)
    (hbound : live.card < bound) (hn : 0 < n) (hruns : ∃ es ∈ held, ¬IsMergePoint env (s.pc es))
    (hremoved : Disjoint held s.removedStates) (hsub : s.removedStates ⊆ live)
    (hlog : NeverAgain s.log) (hterminated : ∀ es, .terminate es ∈ s.log → es ∈ s.removedStates)
    (hpoints : ∀ es ∈ s.statesAtMerge, es ∉ s.removedStates → IsMergePoint env (s.pc es)) :
    ∃ es s', selectState env outcome bound n s = some (es, s') ∧ Selected env Holds live es s' := by
  obtain ⟨n, rfl⟩ : ∃ m, n = m + 1 := Nat.exists_eq_succ_of_ne_zero hn.ne'
  have hcard : held.card < bound := by
    refine lt_of_le_of_lt (Finset.card_le_card ?_) hbound
    rw [← hlive]
    exact Finset.subset_union_left
  obtain ⟨res, store, moved, heq, hstore, hmoved, hmovedPoints, hnone, hsome⟩ :=
    gather_eq (s := s) keeps hcard hheld
  obtain ⟨runs, hruns, hnotPoint⟩ := hruns
  cases res with
  | none =>
    have hall := hnone rfl
    exact absurd (hmovedPoints runs (by rw [hall]; exact hruns)) hnotPoint
  | some es =>
    obtain ⟨hes, -⟩ := hsome es rfl
    have hesHeld : es ∈ held := (Finset.mem_sdiff.mp hes).1
    refine ⟨es, { s with
      baseSearcher := store
      statesAtMerge := s.statesAtMerge ∪ moved
      log := s.log ++ [.returned es] }, ?_, ⟨⟨held \ moved, hstore, ?_, ?_, hes⟩, hsub, ?_, ?_, ?_⟩⟩
    · rw [selectState, heq]
      rfl
    · rw [Finset.disjoint_union_right]
      exact ⟨hdisjoint.mono_left Finset.sdiff_subset, Finset.sdiff_disjoint⟩
    · rw [Finset.union_comm s.statesAtMerge, ← Finset.union_assoc,
        Finset.sdiff_union_of_subset hmoved, hlive]
    · refine hlog.append (List.pairwise_singleton _ _) hterminated ?_
      intro e he es' hes'
      rw [List.mem_singleton.mp he, MergeEvent.states, List.mem_singleton] at hes'
      rw [hes']
      exact Finset.disjoint_left.mp hremoved hesHeld
    · intro es' hes'
      rcases List.mem_append.mp hes' with hes' | hes'
      · exact hterminated es' hes'
      · exact absurd (List.mem_singleton.mp hes') (by simp)
    · intro es' hes' hnot
      rcases Finset.mem_union.mp hes' with hes' | hes'
      · exact hpoints es' hes' hnot
      · exact hmovedPoints es' hes'

omit [DecidableEq S] in
/-- The condition after a merge point that every state leaves. -/
theorem passes_next {pc pc' : S → ℕ} (hpc : ∀ es ∈ live, pc' es = pc es + 1)
    (hpoints : ∀ es ∈ live, IsMergePoint env (pc es)) (h : MergingRun.Passes env live pc outcome) :
    MergingRun.Passes env live pc' outcome := by
  intro j hj a ha b hb
  have hnext := h (j + 1) ?_ a ha b hb
  · rwa [hpc a ha, Nat.add_right_comm, Nat.add_assoc]
  · intro es hes i hi
    cases i with
    | zero => exact hpoints es hes
    | succ i =>
      have hpoint := hj es hes i (by omega)
      rwa [hpc es hes, Nat.add_right_comm, Nat.add_assoc] at hpoint

/-- `selectState` under the condition. The induction is on the merges left: as long as every
state goes from one merge point to the next, nothing is terminated, and each of them brings
the state `es₀` closer to the end of the program. -/
theorem selectState_keeps (outcome : ℕ → S → S → Bool) (keeps : env.impl.Keeps Holds) {es₀ : S}
    (hheld : Holds s.baseSearcher held) (hdisjoint : Disjoint held s.statesAtMerge)
    (hlive : held ∪ s.statesAtMerge = live) (hbound : live.card < bound) (hn : 0 < n)
    (hes₀ : es₀ ∈ live) (hlength : env.program.length < n + s.pc es₀)
    (hpoints : ∀ es ∈ s.statesAtMerge, IsMergePoint env (s.pc es))
    (hpasses : MergingRun.Passes env live s.pc outcome) (hremoved : s.removedStates = ∅)
    (hlog : NeverAgain s.log) (hterminated : ∀ es, .terminate es ∉ s.log) :
    ∃ es s', selectState env outcome bound n s = some (es, s') ∧ Selected env Holds live es s' := by
  induction n generalizing s held with
  | zero => exact absurd hn (lt_irrefl 0)
  | succ n ih =>
    by_cases hruns : ∃ es ∈ held, ¬IsMergePoint env (s.pc es)
    · refine selectState_returns keeps hheld hdisjoint hlive hbound hn hruns ?_ ?_ hlog ?_ ?_
      · rw [hremoved]
        exact Finset.disjoint_empty_right _
      · rw [hremoved]
        exact Finset.empty_subset _
      · exact fun es hes => absurd hes (hterminated es)
      · exact fun es hes _ => hpoints es hes
    · -- all states are at merge points, and the base searcher is emptied
      have hall : ∀ es ∈ live, IsMergePoint env (s.pc es) := by
        intro es hes
        rw [← hlive, Finset.mem_union] at hes
        rcases hes with hes | hes
        · by_contra hnot
          exact hruns ⟨es, hes, hnot⟩
        · exact hpoints es hes
      have hcard : held.card < bound := by
        refine lt_of_le_of_lt (Finset.card_le_card ?_) hbound
        rw [← hlive]
        exact Finset.subset_union_left
      obtain ⟨res, store, moved, heq, hstore, hmoved, -, hnone, hsome⟩ :=
        gather_eq (s := s) keeps hcard hheld
      have hres : res = none := by
        cases res with
        | none => rfl
        | some es =>
          obtain ⟨hes, hnot⟩ := hsome es rfl
          exact absurd (hall es (by
            rw [← hlive]
            exact Finset.mem_union_left _ (Finset.mem_sdiff.mp hes).1)) hnot
      obtain rfl := hnone hres
      rw [sdiff_self] at hstore
      have hwaiting : s.statesAtMerge ∪ moved = live := by rw [Finset.union_comm, hlive]
      set s₁ : MergingSearcher S Store := { s with
        baseSearcher := store
        statesAtMerge := s.statesAtMerge ∪ moved } with hs₁
      have hpoints₁ : ∀ es ∈ s₁.statesAtMerge, IsMergePoint env (s₁.pc es) := by
        intro es hes
        exact hall es (by rw [← hwaiting]; exact hes)
      obtain ⟨s₂, survivors, dead, heq₂, hto, hsurvivor⟩ := mergeAll_eq outcome keeps
        (s := s₁) hstore hpoints₁
      have hselect : selectState env outcome bound (n + 1) s
          = selectState env outcome bound n s₂ := by
        rw [selectState, heq, hres]
        change (mergeAll env outcome s₁).bind _ = _
        rw [heq₂]
        rfl
      have hparts : survivors ∪ dead = live := by
        rw [hto.union, ← hwaiting]
        ext es
        rw [List.mem_toFinset, mem_flatten_merges]
      have hheld₂ : Holds s₂.baseSearcher survivors := by
        have hholds := hto.holds
        rwa [Finset.empty_union] at hholds
      have hwaiting₂ : s₂.statesAtMerge = dead := by
        rw [hto.merged.statesAtMerge]
        change (s.statesAtMerge ∪ moved) \ survivors = dead
        rw [hwaiting, ← hparts, Finset.union_sdiff_left,
          Finset.sdiff_eq_self_of_disjoint hto.disjoint.symm]
      have hremoved₂ : s₂.removedStates = dead := by
        rw [hto.merged.removedStates]
        change s.removedStates ∪ dead = dead
        rw [hremoved, Finset.empty_union]
      obtain ⟨events, hevents, hnever, -, hdead⟩ := hto.merged.log
      have hlog₂ : NeverAgain s₂.log := by
        rw [hevents]
        exact hlog.append (T := ∅) hnever (fun es hes => absurd hes (hterminated es)) (by simp)
      have hterminated₂ : ∀ es, .terminate es ∈ s₂.log → es ∈ dead := by
        intro es hes
        rw [hevents] at hes
        rcases List.mem_append.mp hes with hes | hes
        · exact absurd hes (hterminated es)
        · exact hdead es hes
      have hes₀Length : s.pc es₀ < env.program.length := by
        have hpoint := hall es₀ hes₀
        exact (List.getElem?_eq_some_iff.mp hpoint).1
      rw [hselect]
      by_cases hlast : ∃ es ∈ live, ¬IsMergePoint env (s.pc es + 1)
      · -- a state leaves the merge points, so there is no further merge
        obtain ⟨es, hes, hnot⟩ := hlast
        obtain ⟨es', hes', hpc⟩ := hsurvivor es (by change es ∈ s.statesAtMerge ∪ moved; rwa [hwaiting])
        refine selectState_returns keeps hheld₂ ?_ ?_ hbound (by omega) ⟨es', hes', ?_⟩ ?_ ?_ hlog₂ ?_ ?_
        · rw [hwaiting₂]
          exact hto.disjoint
        · rw [hwaiting₂, hparts]
        · rw [hto.merged.pc_survivor es' hes', hpc]
          exact hnot
        · rw [hremoved₂]
          exact hto.disjoint
        · rw [hremoved₂, ← hparts]
          exact Finset.subset_union_right
        · rw [hremoved₂]
          exact hterminated₂
        · rw [hwaiting₂, hremoved₂]
          exact fun es hes hnot => absurd hes hnot
      · -- all states go on to a further merge point, and none was merged
        have hnext : ∀ es ∈ live, IsMergePoint env (s.pc es + 1) := by
          intro es hes
          by_contra hnot
          exact hlast ⟨es, hes, hnot⟩
        have hfails : ∀ a ∈ live, ∀ b ∈ live, outcome (s.pc a) a b = false := by
          refine hpasses 0 ?_
          intro es hes i hi
          match i with
          | 0 => exact hall es hes
          | 1 => exact hnext es hes
          | i + 2 => omega
        have hdeadEmpty : dead = ∅ := by
          refine hto.dead_empty ?_
          intro a ha b hb
          rw [mem_flatten_merges] at ha hb
          exact hfails a (by rw [← hwaiting]; exact ha) b (by rw [← hwaiting]; exact hb)
        rw [hdeadEmpty] at hwaiting₂ hremoved₂ hterminated₂ hparts
        rw [Finset.union_empty] at hparts
        obtain rfl := hparts
        have hpc : ∀ es ∈ survivors, s₂.pc es = s.pc es + 1 := hto.merged.pc_survivor
        have hes₀Next : s.pc es₀ + 1 < env.program.length :=
          (List.getElem?_eq_some_iff.mp (hnext es₀ hes₀)).1
        refine ih hheld₂ ?_ ?_ (by omega) ?_ ?_ (passes_next hpc hall hpasses) hremoved₂ hlog₂ ?_
        · rw [hwaiting₂]
          exact Finset.disjoint_empty_right _
        · rw [hwaiting₂, Finset.union_empty]
        · rw [hpc es₀ hes₀]
          omega
        · rw [hwaiting₂]
          simp
        · exact fun es hes => absurd (hterminated₂ es hes) (Finset.notMem_empty es)

/-! ## Updating -/

theorem foldl_dropWaiting (removed : List S) (waiting alt : Finset S) :
    removed.foldl dropWaiting (waiting, alt)
      = (waiting \ removed.toFinset, alt \ (removed.toFinset ∩ waiting)) := by
  induction removed generalizing waiting alt with
  | nil => simp
  | cons es removed ih =>
    rw [List.foldl_cons, dropWaiting, List.toFinset_cons]
    by_cases h : es ∈ waiting
    · rw [if_pos h, ih, ← Finset.sdiff_singleton_eq_erase, ← Finset.sdiff_singleton_eq_erase,
        Finset.insert_inter_of_mem h]
      congr 1
      · ext x
        simp only [Finset.mem_sdiff, Finset.mem_singleton, Finset.mem_insert]
        tauto
      · ext x
        simp only [Finset.mem_sdiff, Finset.mem_singleton, Finset.mem_insert, Finset.mem_inter]
        tauto
    · rw [if_neg h, ih, Finset.insert_inter_of_notMem h, Finset.sdiff_insert,
        Finset.erase_eq_of_notMem]
      rw [Finset.mem_sdiff]
      exact fun h' => h h'.1

/-- What `update` comes to: the removed states are taken out of the set each of them is in. -/
theorem update_eq (keeps : env.impl.Keeps Holds) (current : Option S) {added removed : Finset S}
    (hheld : Holds s.baseSearcher held) (hdisjoint : Disjoint held s.statesAtMerge)
    (hcurrent : ∀ es, current = some es → es ∈ held)
    (hadded : Disjoint (held ∪ s.statesAtMerge) added)
    (hremoved : removed ⊆ held ∪ s.statesAtMerge) :
    ∃ store, update env s current added removed = some { s with
        baseSearcher := store
        statesAtMerge := s.statesAtMerge \ removed }
      ∧ Holds store ((held ∪ added) \ removed) := by
  obtain ⟨hadded, hwaiting⟩ := Finset.disjoint_union_left.mp hadded
  have hapart : Disjoint (held ∪ added) s.statesAtMerge :=
    Finset.disjoint_union_left.mpr ⟨hdisjoint, hwaiting.symm⟩
  have hsub : removed \ (removed ∩ s.statesAtMerge) ⊆ held ∪ added := by
    intro es hes
    rw [Finset.sdiff_inter_self_left, Finset.mem_sdiff] at hes
    exact Finset.mem_union_left _ ((Finset.mem_union.mp (hremoved hes.1)).resolve_right hes.2)
  obtain ⟨store, heq, hstore⟩ := keeps.update hheld current hcurrent hadded hsub
  refine ⟨store, ?_, ?_⟩
  · rw [update]
    by_cases hempty : removed = ∅
    · rw [if_neg (not_not.mpr hempty)]
      rw [hempty, Finset.empty_inter, Finset.sdiff_empty] at heq
      rw [hempty, heq, Finset.sdiff_empty]
      rfl
    · rw [if_pos hempty, foldl_dropWaiting, env.stateOrder.toFinset_toList]
      change (env.impl.update s.baseSearcher current added _).bind _ = _
      rw [heq]
      rfl
  · have hset : (held ∪ added) \ (removed \ (removed ∩ s.statesAtMerge))
        = (held ∪ added) \ removed := by
      ext es
      rw [Finset.sdiff_inter_self_left, Finset.mem_sdiff, Finset.mem_sdiff, Finset.mem_sdiff]
      have hnot : es ∈ held ∪ added → es ∉ s.statesAtMerge := fun h => Finset.disjoint_left.mp hapart h
      tauto
    rwa [hset] at hstore

end MergingSearcher

/-! ## Runs -/

namespace MergingRun

open MergingSearcher

variable {S Store : Type} [DecidableEq S] {env : MergingEnv S Store} {Holds : Store → Finset S → Prop}
  {r r' : MergingRun S Store} {c : MergingCall S}

/-- What every step keeps. -/
structure Inv (env : MergingEnv S Store) (Holds : Store → Finset S → Prop)
    (r : MergingRun S Store) : Prop where
  held : ∃ held, Holds r.searcher.baseSearcher held ∧ Disjoint held r.searcher.statesAtMerge
    ∧ held ∪ r.searcher.statesAtMerge = r.live ∧ ∀ es, r.selected = some es → es ∈ held
  removedStates : r.searcher.removedStates ⊆ r.live
  log : NeverAgain r.searcher.log
  terminated : ∀ es, .terminate es ∈ r.searcher.log → es ∈ r.searcher.removedStates
  points : ∀ es ∈ r.searcher.statesAtMerge, es ∉ r.searcher.removedStates →
    IsMergePoint env (r.searcher.pc es)

theorem init_inv {baseSearcher : Store} (h : Holds baseSearcher ∅) :
    Inv env Holds (init baseSearcher) where
  held := ⟨∅, h, Finset.disjoint_empty_left _, rfl, by simp [init]⟩
  removedStates := Finset.empty_subset _
  log := List.Pairwise.nil
  terminated := by simp [init]
  points := by simp [init]

theorem selectState_inv (keeps : env.impl.Keeps Holds) (h : Inv env Holds r)
    {outcome : ℕ → S → S → Bool} (hc : r.Allowed (.selectState outcome))
    (hpasses : Passes env r.live r.searcher.pc outcome) :
    ∃ a r', step env r (.selectState outcome) = some (a, r') ∧ Inv env Holds r' := by
  obtain ⟨⟨es₀, hes₀⟩, hremoved⟩ := hc
  obtain ⟨held, hheld, hdisjoint, hlive, -⟩ := h.held
  obtain ⟨es, s, heq, hselected⟩ := MergingSearcher.selectState_keeps outcome keeps
    hheld hdisjoint hlive (Nat.lt_succ_self r.live.card) (Nat.succ_pos env.program.length) hes₀
    (by omega) (fun es hes => h.points es hes (by rw [hremoved]; exact Finset.notMem_empty es))
    hpasses hremoved h.log
    (fun es hes => by
      have hmem := h.terminated es hes
      rw [hremoved] at hmem
      exact Finset.notMem_empty es hmem)
  obtain ⟨held', hheld', hdisjoint', hlive', hes⟩ := hselected.held
  refine ⟨some es, { r with searcher := s, selected := some es }, ?_,
    ⟨⟨held', hheld', hdisjoint', hlive', ?_⟩, hselected.removedStates, hselected.log,
      hselected.terminated, hselected.points⟩⟩
  · rw [step, heq]
    rfl
  · intro es' hes'
    exact Option.some.inj hes' ▸ hes

theorem execute_inv (h : Inv env Holds r) {pc prevPC : ℕ} (hc : r.Allowed (.execute pc prevPC)) :
    ∃ a r', step env r (.execute pc prevPC) = some (a, r') ∧ Inv env Holds r' := by
  obtain ⟨es, hes⟩ := Option.isSome_iff_exists.mp hc
  refine ⟨none, { r with searcher := { r.searcher with
    pc := Function.update r.searcher.pc es pc
    prevPC := Function.update r.searcher.prevPC es prevPC } }, ?_,
    ⟨h.held, h.removedStates, h.log, h.terminated, ?_⟩⟩
  · rw [step, hes]
  · intro es' hes' hnot
    obtain ⟨held, -, hdisjoint, -, hselected⟩ := h.held
    have hne : es' ≠ es := by
      rintro rfl
      exact Finset.disjoint_left.mp hdisjoint (hselected es' hes) hes'
    change IsMergePoint env (Function.update r.searcher.pc es pc es')
    rw [Function.update_of_ne hne]
    exact h.points es' hes' hnot

theorem terminate_inv (h : Inv env Holds r) {es : S} (hc : r.Allowed (.terminate es)) :
    ∃ a r', step env r (.terminate es) = some (a, r') ∧ Inv env Holds r' := by
  refine ⟨none, { r with searcher := r.searcher.terminateState es }, rfl,
    ⟨h.held, Finset.insert_subset hc h.removedStates, h.log, ?_, ?_⟩⟩
  · exact fun es' hes' => Finset.mem_insert_of_mem (h.terminated es' hes')
  · intro es' hes' hnot
    have hnot' : es' ≠ es ∧ es' ∉ r.searcher.removedStates := by
      change es' ∉ insert es r.searcher.removedStates at hnot
      rwa [Finset.mem_insert, not_or] at hnot
    change IsMergePoint env (Function.update r.searcher.pc es _ es')
    rw [Function.update_of_ne hnot'.1]
    exact h.points es' hes' hnot'.2

theorem update_inv (keeps : env.impl.Keeps Holds) (h : Inv env Holds r) {current : Option S}
    {addedStates : Finset S} {pc prevPC : S → ℕ}
    (hc : r.Allowed (.update current addedStates pc prevPC)) :
    ∃ a r', step env r (.update current addedStates pc prevPC) = some (a, r') ∧ Inv env Holds r' := by
  obtain ⟨hcurrent, hadded⟩ := hc
  obtain ⟨held, hheld, hdisjoint, hlive, hselected⟩ := h.held
  set s : MergingSearcher S Store := { r.searcher with
    pc := fun es => if es ∈ addedStates then pc es else r.searcher.pc es
    prevPC := fun es => if es ∈ addedStates then prevPC es else r.searcher.prevPC es } with hs
  have hnew : Disjoint (held ∪ s.statesAtMerge) addedStates := by
    change Disjoint (held ∪ r.searcher.statesAtMerge) addedStates
    rw [hlive]
    exact hadded
  have hold : s.removedStates ⊆ held ∪ s.statesAtMerge := by
    change s.removedStates ⊆ held ∪ r.searcher.statesAtMerge
    rw [hlive]
    exact h.removedStates
  obtain ⟨store, heq, hstore⟩ := MergingSearcher.update_eq (s := s) keeps current hheld hdisjoint
    (fun es hes => hselected es (hcurrent es hes)) hnew hold
  have hnotAdded : ∀ es ∈ r.searcher.statesAtMerge, es ∉ addedStates := by
    intro es hes
    refine Finset.disjoint_left.mp hadded ?_
    rw [← hlive]
    exact Finset.mem_union_right _ hes
  have hwaiting : Disjoint (held ∪ addedStates) r.searcher.statesAtMerge := by
    rw [Finset.disjoint_union_left]
    exact ⟨hdisjoint, Finset.disjoint_right.mpr hnotAdded⟩
  refine ⟨none, ⟨{ s with
      baseSearcher := store
      statesAtMerge := r.searcher.statesAtMerge \ r.searcher.removedStates
      removedStates := ∅
      log := [] }, (r.live ∪ addedStates) \ r.searcher.removedStates, none⟩, ?_,
    ⟨⟨_, hstore, hwaiting.mono Finset.sdiff_subset Finset.sdiff_subset, ?_, by simp⟩,
      Finset.empty_subset _, List.Pairwise.nil, by simp, ?_⟩⟩
  · rw [step, heq]
    rfl
  · change (held ∪ addedStates) \ r.searcher.removedStates
      ∪ r.searcher.statesAtMerge \ r.searcher.removedStates = _
    rw [← Finset.union_sdiff_distrib, Finset.union_right_comm, hlive]
  · intro es hes _
    obtain ⟨hes, hnot⟩ := Finset.mem_sdiff.mp hes
    change IsMergePoint env (if es ∈ addedStates then pc es else r.searcher.pc es)
    rw [if_neg (hnotAdded es hes)]
    exact h.points es hes hnot

/-- A step of the caller under the condition. -/
theorem step_keeps (keeps : env.impl.Keeps Holds) (h : Inv env Holds r) (hc : r.Allowed c)
    (hmerges : r.MergesLast env c) : ∃ a r', step env r c = some (a, r') ∧ Inv env Holds r' := by
  cases c with
  | selectState outcome => exact selectState_inv keeps h hc hmerges
  | execute pc prevPC => exact execute_inv h hc
  | terminate es => exact terminate_inv h hc
  | update current addedStates pc prevPC => exact update_inv keeps h hc

/-- In a run in which every call of `selectState` meets the condition, the live states are
kept, no terminated state is met again, and every further call has a result. -/
theorem reaches_neverAgain (keeps : env.impl.Keeps Holds) {baseSearcher : Store}
    (hbase : Holds baseSearcher ∅)
    (h : Reaches (step env) (fun r c => r.Allowed c ∧ r.MergesLast env c) (init baseSearcher) r) :
    KeepsLive Holds r ∧ NeverAgain r.searcher.log
      ∧ ∀ c, r.Allowed c → r.MergesLast env c → ∃ a r', step env r c = some (a, r') := by
  have hinv : Inv env Holds r := by
    refine h.invariant (init_inv hbase) ?_
    intro r c a r' hr hok hstep
    obtain ⟨a', r'', heq, hr''⟩ := step_keeps keeps hr hok.1 hok.2
    rw [hstep] at heq
    obtain ⟨-, rfl⟩ := Prod.mk.inj (Option.some.inj heq)
    exact hr''
  obtain ⟨held, hheld, hdisjoint, hlive, -⟩ := hinv.held
  refine ⟨⟨held, hheld, hdisjoint, hlive⟩, hinv.log, ?_⟩
  intro c hc hmerges
  obtain ⟨a, r', heq, -⟩ := step_keeps keeps hinv hc hmerges
  exact ⟨a, r', heq⟩

/-! ## Two merge points in a row -/

/-- A depth first searcher, and a program that calls the merge function twice. -/
def twoCalls : MergingEnv ℕ (List ℕ) where
  impl := DFSSearcher (.increasing ℕ)
  program := [.other, .callsMergeFunction, .callsMergeFunction, .other]
  stateOrder := .increasing ℕ
  pointOrder := SetOrder.increasing (WithBot ℕ)

/-- Three states at the first call. -/
def threeWaiting : MergingRun ℕ (List ℕ) where
  searcher := ⟨[1, 2, 3], ∅, fun es => if es ∈ ({1, 2, 3} : Finset ℕ) then 1 else 0,
    fun es => if es ∈ ({1, 2, 3} : Finset ℕ) then 0 else 0, ∅, []⟩
  live := {1, 2, 3}
  selected := none

theorem reaches_threeWaiting :
    Reaches (step twoCalls) (fun r c => r.Allowed c ∧ r.MergesLast twoCalls c) (init [])
      threeWaiting :=
  .step (c := .update none {1, 2, 3} (fun _ => 1) (fun _ => 0)) (a := none) .init
    ⟨⟨by simp, Finset.disjoint_empty_left _⟩, trivial⟩ (by rfl)

theorem threeWaiting_allowed (outcome : ℕ → ℕ → ℕ → Bool) :
    threeWaiting.Allowed (.selectState outcome) :=
  ⟨⟨1, Finset.mem_insert_self 1 _⟩, rfl⟩

/-- The states are merged at the second call only. -/
theorem reaches_neverAgain_threeWaiting :
    KeepsLive ListSearcher.Holds threeWaiting ∧ NeverAgain threeWaiting.searcher.log
      ∧ ∃ a r', step twoCalls threeWaiting (.selectState fun mp _ _ => decide (mp = 2))
          = some (a, r') := by
  have hbase : twoCalls.impl.Keeps ListSearcher.Holds := DFSSearcher.keeps (.increasing ℕ)
  obtain ⟨hkeeps, hnever, hstep⟩ :=
    reaches_neverAgain hbase ⟨List.nodup_nil, rfl⟩ reaches_threeWaiting
  refine ⟨hkeeps, hnever, hstep _ (threeWaiting_allowed _) ?_⟩
  intro j hj a ha b _
  have hpc : ∀ es ∈ threeWaiting.live, threeWaiting.searcher.pc es = 1 := fun es hes => if_pos hes
  cases j with
  | zero =>
    rw [hpc a ha]
    rfl
  | succ j =>
    have hpoint := hj a ha 2 (by omega)
    rw [hpc a ha] at hpoint
    exact absurd hpoint (by decide)

/-- All merges succeed. State 1 goes on alone, and at the second call the state 2, which was
terminated, is merged with the state 3, which was terminated too. -/
theorem twoCalls_again :
    ¬∀ r, Reaches (step twoCalls) Allowed (init []) r → NeverAgain r.searcher.log := by
  intro h
  have hlog : (step twoCalls threeWaiting (.selectState fun _ _ _ => true)).map
      (fun answer => answer.2.searcher.log)
      = some [.merge 1 2, .merge 1 3, .terminate 2, .terminate 3, .merge 2 3, .terminate 3,
          .returned 1] := by
    decide
  obtain ⟨⟨a, r⟩, hstep, hlog⟩ := Option.map_eq_some_iff.mp hlog
  have hnever := h r (.step (reaches_threeWaiting.mono fun _ _ hok => hok.1)
    (threeWaiting_allowed _) hstep)
  rw [hlog, NeverAgain] at hnever
  have hlater := List.pairwise_iff_getElem.mp hnever 2 4 (by decide) (by decide) (by decide) 2 rfl
  exact hlater List.mem_cons_self

end MergingRun

end Xklee
