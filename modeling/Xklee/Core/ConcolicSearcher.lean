/-
The searcher that follows a seed: `ConcolicDFSSearcher` of `lib/Core/Searcher.cpp`, under
`run`, `fork`, `branch`, `terminateState` and `updateStates` of `lib/Core/Executor.cpp`.

There is one seed. `fork` and `branch` hand it on to one of the states they make, and
`fork` tells the searcher with a flag if the seed goes to the true side. The flag makes
the next `update` swap the last two states, whatever happens in between: the states that
an instruction adds come in the order of their addresses, more of them may follow, and
the end of one that was added clears the flag.

The states held are the live ones after every `update`. The seed is followed exactly as
long as it belongs to the state that `update` moves to the back (`InOrder`), which a single
fork ensures unless its sides are swapped.
-/
import Xklee.Core.ExecutorRun
import Mathlib.Data.List.Infix

set_option autoImplicit false

namespace Xklee

/-! ## The searcher -/

structure ConcolicDFSSearcher (S : Type) where
  states : List S
  swapLastState : Bool

namespace ConcolicDFSSearcher

variable {S : Type} [DecidableEq S]

/-- `new ConcolicDFSSearcher()`, with all members zero. -/
def new : ConcolicDFSSearcher S := ⟨[], false⟩

/-- `*states.back()`. -/
def selectState (s : ConcolicDFSSearcher S) : Option S := s.states.getLast?

def setFlags (s : ConcolicDFSSearcher S) (flag : Bool) : ConcolicDFSSearcher S :=
  { s with swapLastState := flag }

/-- `std::swap(states[size-1],states[size-2])`. -/
def swapLast (states : List S) : Option (List S) :=
  match states.reverse with
  | last :: second :: rest => some (second :: last :: rest).reverse
  | _ => none

/-- The states before any is removed. -/
def insertStates (order : SetOrder S) (s : ConcolicDFSSearcher S) (addedStates : Finset S) :
    Option (List S) :=
  let states := s.states ++ order.toList addedStates
  if s.swapLastState then swapLast states else some states

/-- `update`. The removed states are looked for as in `DFSSearcher`. -/
def update (order : SetOrder S) (s : ConcolicDFSSearcher S) (addedStates removedStates : Finset S) :
    Option (ConcolicDFSSearcher S) := do
  let states ← s.insertStates order addedStates
  let states ← ListSearcher.removeStates DFSSearcher.removeOne states (order.toList removedStates)
  return ⟨states, false⟩

end ConcolicDFSSearcher

/-! ## The run -/

/-- Where `run` is. -/
inductive SearchPhase
  /-- The searcher is made, and does not know any state. -/
  | starting
  /-- At the head of the loop over the states. -/
  | searching
  | instruction (state : ℕ)

/-- What the search starts with. -/
structure SearchStart where
  states : Finset ℕ
  stateID : ℕ
  seed : Option ℕ
  numbered : ∀ s ∈ states, s ≤ stateID
  seeded : ∀ t, seed = some t → t ∈ states

/-- With `UseConcreteData` and no seed files: the initial state has the seed. -/
def SearchStart.initial : SearchStart where
  states := {0}
  stateID := 0
  seed := some 0
  numbered := fun _ hs => (Finset.mem_singleton.mp hs).le
  seeded := fun _ ht => Finset.mem_singleton.mpr (Option.some.inj ht).symm

/-- The members of `Executor` that say which states there are, and which of them is the key
of the seed in `seedMap`. -/
structure ConcolicRun where
  searcher : ConcolicDFSSearcher ℕ
  states : Finset ℕ
  addedStates : Finset ℕ
  removedStates : Finset ℕ
  stateID : ℕ
  seed : Option ℕ
  phase : SearchPhase

/-- A step of `run`. What the solver and the random numbers decide are arguments. -/
inductive ConcolicCall
  /-- `searcher->update(0, states, ..)`. -/
  | startSearch
  /-- `searcher->selectState()` starts an instruction. -/
  | selectState
  /-- A `fork` that makes a new state. `swap` is `RandomizeFork && theRNG.getBool()`, and
  `trueSeed` says whether the seed makes the condition true. -/
  | fork (current : ℕ) (swap trueSeed : Bool)
  /-- A `branch` that makes `count` new states. A seed goes to the result `index`, if there
  is one. -/
  | branch (state count index : ℕ)
  | terminateState (state : ℕ)
  /-- `updateStates(&state)` ends the instruction. -/
  | updateStates

namespace ConcolicRun

/-- Before the first `update`. -/
def init (start : SearchStart) : ConcolicRun where
  searcher := .new
  states := start.states
  addedStates := ∅
  removedStates := ∅
  stateID := start.stateID
  seed := start.seed
  phase := .starting

/-- `fork`, when both sides are possible. -/
def fork (options : ExecutorOptions) (r : ConcolicRun) (current : ℕ) (swap trueSeed : Bool) :
    ConcolicRun :=
  let new := r.stateID + 1
  let trueState := if swap then new else current
  let falseState := if swap then current else new
  let concolicBr := decide (r.seed = some current) && trueSeed
  { r with
    -- "select the concolic branch first when useConcreteData in DFSSearcher"
    searcher := if options.UseConcreteData ∧ options.UseConcolicSearcher ∧ concolicBr
      then r.searcher.setFlags true else r.searcher
    addedStates := insert new r.addedStates
    stateID := new
    seed := if r.seed = some current then some (if trueSeed then trueState else falseState)
      else r.seed }

/-- The new states of `branch`. -/
def newStates (r : ConcolicRun) (count : ℕ) : List ℕ := List.range' (r.stateID + 1) count

/-- `branch`. -/
def branch (r : ConcolicRun) (state count index : ℕ) : ConcolicRun :=
  let result := state :: r.newStates count
  { r with
    addedStates := r.addedStates ∪ (r.newStates count).toFinset
    stateID := r.stateID + count
    seed := if r.seed = some state then result[index]? else r.seed }

/-- `terminateState`. -/
def terminateState (r : ConcolicRun) (state : ℕ) : ConcolicRun :=
  if state ∈ r.addedStates then
    -- "never reached searcher, just delete immediately"
    { r with
      searcher := r.searcher.setFlags false
      addedStates := r.addedStates.erase state
      seed := if r.seed = some state then none else r.seed }
  else { r with removedStates := insert state r.removedStates }

/-- `updateStates`, with `assert(it2!=states.end())`. -/
def updateStates (order : SetOrder ℕ) (r : ConcolicRun) : Option ConcolicRun := do
  let searcher ← r.searcher.update order r.addedStates r.removedStates
  let states := r.states ∪ r.addedStates
  if r.removedStates ⊆ states then
    return { r with
      searcher := searcher
      states := states \ r.removedStates
      addedStates := ∅
      removedStates := ∅
      seed := r.seed.filter fun t => t ∉ r.removedStates
      phase := .searching }
  else none

/-- One step. -/
def step (order : SetOrder ℕ) (options : ExecutorOptions) (r : ConcolicRun) :
    ConcolicCall → Option ConcolicRun
  | .startSearch => do
      let searcher ← r.searcher.update order r.states ∅
      return { r with searcher := searcher, phase := .searching }
  | .selectState => do
      let state ← r.searcher.selectState
      return { r with phase := .instruction state }
  | .fork current swap trueSeed => some (r.fork options current swap trueSeed)
  | .branch state count index => some (r.branch state count index)
  | .terminateState state => some (r.terminateState state)
  | .updateStates => r.updateStates order

/-- The step as `run` takes it: there is no answer. -/
def stepRun (order : SetOrder ℕ) (options : ExecutorOptions) (r : ConcolicRun) (c : ConcolicCall) :
    Option (Unit × ConcolicRun) :=
  (r.step order options c).map fun r' => ((), r')

/-- The states that are not deleted. -/
def known (r : ConcolicRun) : Finset ℕ := r.states ∪ r.addedStates

def InInstruction (r : ConcolicRun) : Prop := ∃ state, r.phase = .instruction state

/-- The steps are taken in the order of `run`, and an instruction works on states that are
not deleted; those that fork have not been terminated either. -/
def Allowed (r : ConcolicRun) : ConcolicCall → Prop
  | .startSearch => r.phase = .starting
  | .selectState => r.phase = .searching ∧ r.states.Nonempty
  | .fork current _ _ => r.InInstruction ∧ current ∈ r.known \ r.removedStates
  | .branch state _ _ => r.InInstruction ∧ state ∈ r.known \ r.removedStates
  | .terminateState state => r.InInstruction ∧ state ∈ r.known
  | .updateStates => r.InInstruction

/-- The state with the seed is the one to be selected. -/
def FollowsSeed (r : ConcolicRun) : Prop :=
  ∀ t, r.seed = some t → r.searcher.selectState = some t

/-- The state `t` comes where `update` moves it to the back. Without the flag, that is the
last place of the added states; with it the place before, or the place of the current
state if only one state was added. -/
def ComesLast (order : SetOrder ℕ) (r : ConcolicRun) (t : ℕ) : Prop :=
  match r.searcher.swapLastState, (order.toList r.addedStates).reverse with
  | _, [] => True
  | false, last :: _ => t = last
  | true, [_] => ∃ s, r.phase = .instruction s ∧ (t = s ∨ s ∈ r.removedStates)
  | true, _ :: second :: _ => t = second

/-- If a live state has the seed when the searcher is told about the states, then it comes
where it is moved to the back. -/
def InOrder (order : SetOrder ℕ) (r : ConcolicRun) : ConcolicCall → Prop
  | .startSearch => ∀ t, r.seed = some t → (order.toList r.states).getLast? = some t
  | .updateStates => ∀ t, r.seed = some t → t ∉ r.removedStates → r.ComesLast order t
  | _ => True

end ConcolicRun

namespace ConcolicDFSSearcher

variable {S : Type}

/-! ## The parts of `update` -/

theorem swapLast_append (states : List S) (a b : S) :
    swapLast (states ++ [a, b]) = some (states ++ [b, a]) := by
  simp [swapLast]

variable {states : List S} {s : ConcolicDFSSearcher S} {addedStates removedStates : Finset S}

/-- Where the states are before any is removed: without the flag in the order in which they
were added, with it with the last two exchanged. -/
theorem insertStates_cases (order : SetOrder S)
    (hflag : s.swapLastState = true → addedStates.Nonempty) (hne : s.states ≠ []) :
    (s.swapLastState = false ∧ order.toList addedStates = []
        ∧ s.insertStates order addedStates = some s.states)
      ∨ (∃ before last, s.swapLastState = false ∧ order.toList addedStates = before ++ [last]
        ∧ s.insertStates order addedStates = some (s.states ++ before ++ [last]))
      ∨ (∃ init back last, s.swapLastState = true ∧ order.toList addedStates = [last]
        ∧ s.states = init ++ [back] ∧ s.insertStates order addedStates = some (init ++ [last, back]))
      ∨ ∃ before second last, s.swapLastState = true
        ∧ order.toList addedStates = before ++ [second, last]
        ∧ s.insertStates order addedStates = some (s.states ++ before ++ [last, second]) := by
  unfold insertStates
  dsimp only
  cases hswap : s.swapLastState with
  | false =>
    rw [if_neg Bool.false_ne_true]
    rcases List.eq_nil_or_concat' (order.toList addedStates) with hnil | ⟨before, last, hlast⟩
    · rw [hnil, List.append_nil]
      exact .inl ⟨rfl, rfl, rfl⟩
    · rw [hlast, ← List.append_assoc]
      exact .inr (.inl ⟨before, last, rfl, rfl, rfl⟩)
  | true =>
    rw [if_pos rfl]
    rcases List.eq_nil_or_concat' (order.toList addedStates) with hnil | ⟨before, last, hlast⟩
    · -- the flag is set only with a state that is still to be added
      obtain ⟨es, hes⟩ := hflag hswap
      rw [← order.mem_toList, hnil] at hes
      exact absurd hes List.not_mem_nil
    · rcases List.eq_nil_or_concat' before with rfl | ⟨before, second, rfl⟩
      · obtain ⟨init, back, hback⟩ := (List.eq_nil_or_concat' s.states).resolve_left hne
        refine .inr (.inr (.inl ⟨init, back, last, rfl, hlast, hback, ?_⟩))
        rw [hlast, hback, List.append_assoc]
        exact swapLast_append init back last
      · rw [List.append_assoc] at hlast
        refine .inr (.inr (.inr ⟨before, second, last, rfl, hlast, ?_⟩))
        rw [hlast, ← List.append_assoc]
        exact swapLast_append (s.states ++ before) second last

/-- No state is lost, and none is read from outside the vector. -/
theorem insertStates_perm (order : SetOrder S)
    (hflag : s.swapLastState = true → addedStates.Nonempty) (hne : s.states ≠ []) :
    ∃ states, s.insertStates order addedStates = some states
      ∧ states.Perm (s.states ++ order.toList addedStates) := by
  rcases insertStates_cases order hflag hne with ⟨-, hadded, heq⟩ | ⟨before, last, -, hadded, heq⟩
    | ⟨init, back, last, -, hadded, hstates, heq⟩ | ⟨before, second, last, -, hadded, heq⟩
  · refine ⟨_, heq, ?_⟩
    rw [hadded, List.append_nil]
  · refine ⟨_, heq, ?_⟩
    rw [hadded, List.append_assoc]
  · refine ⟨_, heq, ?_⟩
    rw [hadded, hstates, List.append_assoc]
    exact (List.Perm.swap back last []).append_left init
  · refine ⟨_, heq, ?_⟩
    rw [hadded, ← List.append_assoc]
    exact (List.Perm.swap second last []).append_left _

variable [DecidableEq S]

/-- The loop over the removed states keeps the order of the others. -/
theorem removeStates_eq {removeOne : List S → S → Option (List S)}
    (h : ListSearcher.Removes removeOne) {removed : List S} (hstates : states.Nodup)
    (hremoved : removed.Nodup) (hsubset : ∀ es ∈ removed, es ∈ states) :
    ListSearcher.removeStates removeOne states removed
      = some (states.filter fun es => es ∉ removed) := by
  induction removed generalizing states with
  | nil =>
    simp [ListSearcher.removeStates]
  | cons es removed ih =>
    obtain ⟨hes, hremoved⟩ := List.nodup_cons.mp hremoved
    have hmem : es ∈ states := hsubset es List.mem_cons_self
    have hrest : ∀ es' ∈ removed, es' ∈ states.erase es := by
      intro es' hes'
      rw [hstates.mem_erase_iff]
      exact ⟨fun heq => hes (heq ▸ hes'), hsubset es' (List.mem_cons_of_mem es hes')⟩
    have hfirst := ih (hstates.erase es) hremoved hrest
    rw [ListSearcher.removeStates, List.foldlM_cons, h hstates hmem]
    refine hfirst.trans (congrArg some ?_)
    rw [hstates.erase_eq_filter, List.filter_filter]
    refine List.filter_congr fun es' _ => ?_
    rw [Bool.eq_iff_iff]
    simp [and_comm]

theorem update_eq {order : SetOrder S} (hinsert : s.insertStates order addedStates = some states)
    (hstates : states.Nodup) (hremoved : ∀ es ∈ removedStates, es ∈ states) :
    s.update order addedStates removedStates
      = some ⟨states.filter fun es => es ∉ removedStates, false⟩ := by
  have hloop := removeStates_eq DFSSearcher.removeOne_removes hstates (order.nodup removedStates)
    (fun es hes => hremoved es ((order.mem_toList _ _).mp hes))
  simp only [order.mem_toList] at hloop
  unfold update
  rw [hinsert]
  change (ListSearcher.removeStates _ _ _).bind _ = _
  rw [hloop]
  rfl

/-- `update` has a result, in which the live states keep the places that they were put at. -/
theorem update_spec (order : SetOrder S) {held : Finset S}
    (hholds : ListSearcher.Holds s.states held) (hne : s.states ≠ [])
    (hflag : s.swapLastState = true → addedStates.Nonempty) (hadded : Disjoint held addedStates)
    (hremoved : removedStates ⊆ held ∪ addedStates) :
    ∃ states, s.insertStates order addedStates = some states
      ∧ s.update order addedStates removedStates
        = some ⟨states.filter fun es => es ∉ removedStates, false⟩
      ∧ ListSearcher.Holds (states.filter fun es => es ∉ removedStates)
          ((held ∪ addedStates) \ removedStates) := by
  obtain ⟨states, heq, hperm⟩ := insertStates_perm order hflag hne
  obtain ⟨hnodup, rfl⟩ := hholds
  have happend : (s.states ++ order.toList addedStates).Nodup := by
    rw [List.nodup_append']
    refine ⟨hnodup, order.nodup addedStates, fun x hx hx' => ?_⟩
    exact Finset.disjoint_left.mp hadded (List.mem_toFinset.mpr hx) ((order.mem_toList _ _).mp hx')
  have hmem : ∀ es, es ∈ states ↔ es ∈ s.states.toFinset ∪ addedStates := by
    intro es
    rw [hperm.mem_iff, List.mem_append, order.mem_toList, Finset.mem_union, List.mem_toFinset]
  have hstates : states.Nodup := hperm.nodup_iff.mpr happend
  refine ⟨states, heq, update_eq heq hstates fun es hes => (hmem es).mpr (hremoved hes),
    hstates.filter _, ?_⟩
  ext es
  rw [List.mem_toFinset, List.mem_filter, hmem, Finset.mem_sdiff, decide_eq_true_eq]

/-! ## The state at the back -/

section

variable {states : List S} {removedStates : Finset S} {es last : S}

theorem getLast?_kept (hes : es ∉ removedStates) :
    ((states ++ [es]).filter fun x => x ∉ removedStates).getLast? = some es := by
  have hfilter : [es].filter (fun x => x ∉ removedStates) = [es] := by simp [hes]
  rw [List.filter_append, hfilter]
  exact List.getLast?_concat

theorem getLast?_removed (hes : es ∈ removedStates) :
    ((states ++ [es]).filter fun x => x ∉ removedStates).getLast?
      = (states.filter fun x => x ∉ removedStates).getLast? := by
  have hfilter : [es].filter (fun x => x ∉ removedStates) = [] := by simp [hes]
  rw [List.filter_append, hfilter, List.append_nil]

/-- Behind a state that is kept, the last one is selected unless it is removed. -/
theorem getLast?_eq_iff {t : S} (hlast : last ∉ removedStates) (ht : t ∉ removedStates)
    (hplace : t = es ∨ t = last) :
    ((states ++ [last, es]).filter fun x => x ∉ removedStates).getLast? = some t
      ↔ t = es ∨ es ∈ removedStates := by
  have hsplit : states ++ [last, es] = (states ++ [last]) ++ [es] := by
    rw [List.append_assoc]
    rfl
  rw [hsplit]
  by_cases hes : es ∈ removedStates
  · have hne : t ≠ es := fun heq => ht (heq ▸ hes)
    rw [getLast?_removed hes, getLast?_kept hlast, hplace.resolve_left hne]
    exact iff_of_true rfl (.inr hes)
  · rw [getLast?_kept hes, Option.some.injEq, or_iff_left hes]
    exact eq_comm

end

/-- The first `update`. -/
theorem update_new (order : SetOrder S) (states : Finset S) :
    (new : ConcolicDFSSearcher S).update order states ∅ = some ⟨order.toList states, false⟩ := by
  have hinsert : (new : ConcolicDFSSearcher S).insertStates order states
      = some (order.toList states) := rfl
  rw [update_eq hinsert (order.nodup states) (fun es hes => absurd hes (Finset.notMem_empty es))]
  simp

end ConcolicDFSSearcher

namespace ConcolicRun

variable {order : SetOrder ℕ} {options : ExecutorOptions} {r r' : ConcolicRun}

/-! ## What holds along every run -/

/-- The searcher holds the states that are not new, the flag is set only with a new state,
and the current state is the last one. -/
structure Sound (r : ConcolicRun) : Prop where
  numbered : ∀ s ∈ r.known, s ≤ r.stateID
  disjoint : Disjoint r.states r.addedStates
  removed : r.removedStates ⊆ r.states
  seeded : ∀ t, r.seed = some t → t ∈ r.known
  starting : r.phase = .starting → r.searcher = .new
  holds : r.phase ≠ .starting → ListSearcher.Holds r.searcher.states r.states
  flag : r.searcher.swapLastState = true → r.addedStates.Nonempty
  current : ∀ s, r.phase = .instruction s → r.searcher.selectState = some s
  between : ¬r.InInstruction → r.addedStates = ∅ ∧ r.removedStates = ∅

theorem InInstruction.not_starting (h : r.InInstruction) : r.phase ≠ .starting := by
  obtain ⟨s, hs⟩ := h
  rw [hs]
  exact SearchPhase.noConfusion

theorem init_sound (start : SearchStart) : (init start).Sound where
  numbered := by
    intro s hs
    rw [known, init, Finset.union_empty] at hs
    exact start.numbered s hs
  disjoint := Finset.disjoint_empty_right _
  removed := Finset.empty_subset _
  seeded := by
    intro t ht
    rw [known, init, Finset.union_empty]
    exact start.seeded t ht
  starting := fun _ => rfl
  holds := fun h => absurd rfl h
  flag := fun h => absurd h Bool.false_ne_true
  current := fun _ h => by simp [init] at h
  between := fun _ => ⟨rfl, rfl⟩

theorem Sound.states_ne_nil (h : r.Sound) (hin : r.InInstruction) : r.searcher.states ≠ [] := by
  obtain ⟨s, hs⟩ := hin
  have hselect := h.current s hs
  rintro hnil
  rw [ConcolicDFSSearcher.selectState, hnil] at hselect
  exact absurd hselect (by simp)

/-- The searcher can always be told about the states. -/
theorem Sound.update_spec (order : SetOrder ℕ) (h : r.Sound) (hin : r.InInstruction) :
    ∃ states, r.searcher.insertStates order r.addedStates = some states
      ∧ r.searcher.update order r.addedStates r.removedStates
        = some ⟨states.filter fun es => es ∉ r.removedStates, false⟩
      ∧ ListSearcher.Holds (states.filter fun es => es ∉ r.removedStates)
          (r.known \ r.removedStates) := by
  exact ConcolicDFSSearcher.update_spec order (h.holds hin.not_starting) (h.states_ne_nil hin) h.flag
    h.disjoint (h.removed.trans Finset.subset_union_left)

/-! ## The steps of an instruction -/

theorem fork_known (r : ConcolicRun) (current : ℕ) (swap trueSeed : Bool) :
    (r.fork options current swap trueSeed).known = insert (r.stateID + 1) r.known :=
  Finset.union_insert _ _ _

variable {start : SearchStart} {current t state count index : ℕ} {swap trueSeed : Bool}
  {states : List ℕ} {c : ConcolicCall}

/-- The seed goes to the state that forks or to the new one. -/
theorem fork_seed (h : (r.fork options current swap trueSeed).seed = some t) :
    r.seed = some t ∨ t = r.stateID + 1 := by
  simp only [fork] at h
  by_cases hseed : r.seed = some current
  · rw [if_pos hseed, Option.some.injEq] at h
    rw [hseed, Option.some.injEq]
    cases swap <;> cases trueSeed <;> simp_all
  · rw [if_neg hseed] at h
    exact .inl h

theorem fork_searcher (r : ConcolicRun) (current : ℕ) (swap trueSeed : Bool) :
    (r.fork options current swap trueSeed).searcher.states = r.searcher.states := by
  simp only [fork]
  split <;> rfl

theorem fork_sound (h : r.Sound) (hin : r.InInstruction) :
    (r.fork options current swap trueSeed).Sound where
  numbered := by
    intro s hs
    rw [fork_known, Finset.mem_insert] at hs
    change s ≤ r.stateID + 1
    rcases hs with rfl | hs
    · exact le_rfl
    · exact (h.numbered s hs).trans (Nat.le_succ _)
  disjoint := by
    change Disjoint r.states (insert _ r.addedStates)
    rw [Finset.disjoint_insert_right]
    refine ⟨fun hs => ?_, h.disjoint⟩
    exact absurd (h.numbered _ (Finset.mem_union_left _ hs)) (by omega)
  removed := h.removed
  seeded := by
    intro t ht
    rw [fork_known, Finset.mem_insert]
    exact (fork_seed ht).symm.imp_right (h.seeded t)
  starting := fun hphase => absurd hphase hin.not_starting
  holds := by
    rw [fork_searcher]
    exact h.holds
  flag := fun _ => Finset.insert_nonempty _ _
  current := by
    unfold ConcolicDFSSearcher.selectState
    rw [fork_searcher]
    exact h.current
  between := fun hnot => absurd hin hnot

theorem branch_seed (h : (r.branch state count index).seed = some t) :
    r.seed = some t ∨ t ∈ r.newStates count := by
  simp only [branch] at h
  by_cases hseed : r.seed = some state
  · rw [if_pos hseed] at h
    rcases List.mem_cons.mp (List.mem_of_getElem? h) with rfl | hnew
    · exact .inl hseed
    · exact .inr hnew
  · rw [if_neg hseed] at h
    exact .inl h

theorem branch_sound (h : r.Sound) (hin : r.InInstruction) :
    (r.branch state count index).Sound where
  numbered := by
    intro s hs
    change s ≤ r.stateID + count
    change s ∈ r.states ∪ (r.addedStates ∪ (r.newStates count).toFinset) at hs
    rw [← Finset.union_assoc, Finset.mem_union] at hs
    rcases hs with hs | hs
    · exact (h.numbered s hs).trans (Nat.le_add_right _ _)
    · rw [List.mem_toFinset, newStates, List.mem_range'_1] at hs
      omega
  disjoint := by
    change Disjoint r.states (r.addedStates ∪ _)
    rw [Finset.disjoint_union_right]
    refine ⟨h.disjoint, Finset.disjoint_left.mpr fun s hs hnew => ?_⟩
    have hle := h.numbered s (Finset.mem_union_left _ hs)
    rw [List.mem_toFinset, newStates, List.mem_range'_1] at hnew
    omega
  removed := h.removed
  seeded := by
    intro t ht
    change t ∈ r.states ∪ (r.addedStates ∪ (r.newStates count).toFinset)
    rw [← Finset.union_assoc, Finset.mem_union, List.mem_toFinset]
    exact (branch_seed ht).imp_left (h.seeded t)
  starting := fun hphase => absurd hphase hin.not_starting
  holds := h.holds
  flag := fun hflag => (h.flag hflag).mono Finset.subset_union_left
  current := h.current
  between := fun hnot => absurd hin hnot

theorem terminateState_added (h : state ∈ r.addedStates) :
    r.terminateState state = { r with
      searcher := r.searcher.setFlags false
      addedStates := r.addedStates.erase state
      seed := if r.seed = some state then none else r.seed } := if_pos h

theorem terminateState_known (h : state ∉ r.addedStates) :
    r.terminateState state = { r with removedStates := insert state r.removedStates } := if_neg h

theorem terminateState_phase (r : ConcolicRun) (state : ℕ) :
    (r.terminateState state).phase = r.phase := by
  unfold terminateState
  split <;> rfl

theorem terminateState_sound (h : r.Sound) (hin : r.InInstruction) (hstate : state ∈ r.known) :
    (r.terminateState state).Sound := by
  by_cases hadded : state ∈ r.addedStates
  · rw [terminateState_added hadded]
    refine { h with
      numbered := ?_
      disjoint := h.disjoint.mono_right (Finset.erase_subset _ _)
      seeded := ?_
      starting := fun hphase => absurd hphase hin.not_starting
      flag := fun hflag => absurd hflag Bool.false_ne_true
      between := fun hnot => absurd hin hnot }
    · intro s hs
      exact h.numbered s (Finset.union_subset_union_right (Finset.erase_subset _ _) hs)
    · intro t ht
      change (if r.seed = some state then none else r.seed) = some t at ht
      by_cases hseed : r.seed = some state
      · rw [if_pos hseed] at ht
        exact absurd ht (by simp)
      · rw [if_neg hseed] at ht
        have hne : t ≠ state := fun heq => hseed (heq ▸ ht)
        change t ∈ r.states ∪ r.addedStates.erase state
        rw [Finset.mem_union, Finset.mem_erase]
        exact (Finset.mem_union.mp (h.seeded t ht)).imp_right fun hmem => ⟨hne, hmem⟩
  · rw [terminateState_known hadded]
    refine { h with
      removed := ?_
      between := fun hnot => absurd hin hnot }
    exact Finset.insert_subset ((Finset.mem_union.mp hstate).resolve_right hadded) h.removed

theorem selectState_sound (h : r.Sound) (hc : r.Allowed .selectState) :
    ∃ state, r.searcher.selectState = some state
      ∧ ({ r with phase := .instruction state } : ConcolicRun).Sound := by
  obtain ⟨hphase, hstates⟩ := hc
  have hholds : ListSearcher.Holds r.searcher.states r.states :=
    h.holds (by rw [hphase]; exact SearchPhase.noConfusion)
  have hne : r.searcher.states ≠ [] := by
    rw [← hholds.2, List.toFinset_nonempty_iff] at hstates
    exact hstates
  have hselect : r.searcher.selectState = some (r.searcher.states.getLast hne) :=
    List.getLast?_eq_some_getLast hne
  refine ⟨_, hselect, { h with
    starting := fun hstarting => SearchPhase.noConfusion hstarting
    holds := fun _ => hholds
    current := ?_
    between := fun hnot => absurd ⟨_, rfl⟩ hnot }⟩
  intro s hs
  rw [hselect]
  exact congrArg some (SearchPhase.instruction.inj hs)

/-! ## The end of an instruction -/

/-- What `updateStates` leads to, for the states that the searcher holds afterwards. -/
def updated (r : ConcolicRun) (states : List ℕ) : ConcolicRun where
  searcher := ⟨states, false⟩
  states := r.known \ r.removedStates
  addedStates := ∅
  removedStates := ∅
  stateID := r.stateID
  seed := r.seed.filter fun t => t ∉ r.removedStates
  phase := .searching

theorem updated_seed :
    (r.updated states).seed = some t ↔ r.seed = some t ∧ t ∉ r.removedStates := by
  change Option.filter _ r.seed = some t ↔ _
  rw [Option.filter_eq_some_iff, decide_eq_true_eq]

theorem updated_sound (h : r.Sound) (hholds : ListSearcher.Holds states (r.known \ r.removedStates))
    : (r.updated states).Sound where
  numbered := by
    intro s hs
    rw [known, updated, Finset.union_empty, Finset.mem_sdiff] at hs
    exact h.numbered s hs.1
  disjoint := Finset.disjoint_empty_right _
  removed := Finset.empty_subset _
  seeded := by
    intro t ht
    rw [updated_seed] at ht
    rw [known, updated, Finset.union_empty, Finset.mem_sdiff]
    exact ⟨h.seeded t ht.1, ht.2⟩
  starting := fun hphase => SearchPhase.noConfusion hphase
  holds := fun _ => hholds
  flag := fun hflag => absurd hflag Bool.false_ne_true
  current := fun _ hs => SearchPhase.noConfusion hs
  between := fun _ => ⟨rfl, rfl⟩

theorem updateStates_spec (order : SetOrder ℕ) (h : r.Sound) (hin : r.InInstruction) :
    ∃ states, r.searcher.insertStates order r.addedStates = some states
      ∧ r.updateStates order = some (r.updated (states.filter fun es => es ∉ r.removedStates))
      ∧ (r.updated (states.filter fun es => es ∉ r.removedStates)).Sound := by
  obtain ⟨states, hinsert, hupdate, hholds⟩ := h.update_spec order hin
  refine ⟨states, hinsert, ?_, updated_sound h hholds⟩
  have hremoved : r.removedStates ⊆ r.states ∪ r.addedStates :=
    h.removed.trans Finset.subset_union_left
  unfold updateStates
  rw [hupdate]
  change (if r.removedStates ⊆ r.states ∪ r.addedStates then _ else none) = _
  rw [if_pos hremoved]
  rfl

theorem startSearch_spec (order : SetOrder ℕ) (options : ExecutorOptions) (h : r.Sound) (hc : r.Allowed .startSearch) :
    r.step order options .startSearch
        = some { r with searcher := ⟨order.toList r.states, false⟩, phase := .searching }
      ∧ ({ r with searcher := ⟨order.toList r.states, false⟩, phase := .searching } :
          ConcolicRun).Sound := by
  have hbetween := h.between fun hin => hin.not_starting hc
  constructor
  · simp only [step]
    rw [h.starting hc, ConcolicDFSSearcher.update_new]
    rfl
  · refine { h with
      starting := fun hphase => SearchPhase.noConfusion hphase
      holds := fun _ => ⟨order.nodup _, order.toFinset_toList _⟩
      flag := fun hflag => absurd hflag Bool.false_ne_true
      current := fun _ hs => SearchPhase.noConfusion hs
      between := fun _ => hbetween }

/-- A step that is allowed has a result, and the searcher still holds the live states. -/
theorem step_sound (order : SetOrder ℕ) (options : ExecutorOptions) (h : r.Sound) (hc : r.Allowed c)
    : ∃ r', r.step order options c = some r' ∧ r'.Sound := by
  cases c with
  | startSearch => exact ⟨_, startSearch_spec order options h hc⟩
  | selectState =>
    obtain ⟨state, hselect, hsound⟩ := selectState_sound h hc
    refine ⟨_, ?_, hsound⟩
    simp only [step, hselect]
    rfl
  | fork current swap trueSeed => exact ⟨_, rfl, fork_sound h hc.1⟩
  | branch state count index => exact ⟨_, rfl, branch_sound h hc.1⟩
  | terminateState state => exact ⟨_, rfl, terminateState_sound h hc.1 hc.2⟩
  | updateStates =>
    obtain ⟨states, -, heq, hsound⟩ := updateStates_spec order h hc
    exact ⟨_, heq, hsound⟩

/-! ## The seed -/

/-- During an instruction, the seed belongs to the current state or to a new one. -/
def Trails (r : ConcolicRun) : Prop :=
  r.phase ≠ .starting → ∀ t, r.seed = some t →
    r.searcher.selectState = some t ∨ t ∈ r.addedStates

theorem fork_trails (h : r.Trails) :
    (r.fork options current swap trueSeed).Trails := by
  intro hphase t ht
  unfold ConcolicDFSSearcher.selectState
  rw [fork_searcher]
  change _ ∨ t ∈ insert (r.stateID + 1) r.addedStates
  rcases fork_seed ht with hseed | rfl
  · exact (h hphase t hseed).imp_right (Finset.mem_insert_of_mem)
  · exact .inr (Finset.mem_insert_self _ _)

theorem branch_trails (h : r.Trails) :
    (r.branch state count index).Trails := by
  intro hphase t ht
  change _ ∨ t ∈ r.addedStates ∪ (r.newStates count).toFinset
  rcases branch_seed ht with hseed | hnew
  · exact (h hphase t hseed).imp_right (Finset.mem_union_left _)
  · exact .inr (Finset.mem_union_right _ (List.mem_toFinset.mpr hnew))

theorem terminateState_trails (h : r.Trails) : (r.terminateState state).Trails := by
  by_cases hadded : state ∈ r.addedStates
  · rw [terminateState_added hadded]
    intro hphase t ht
    change (if r.seed = some state then none else r.seed) = some t at ht
    by_cases hseed : r.seed = some state
    · rw [if_pos hseed] at ht
      exact absurd ht (by simp)
    · rw [if_neg hseed] at ht
      have hne : t ≠ state := fun heq => hseed (heq ▸ ht)
      exact (h hphase t ht).imp_right fun hmem => Finset.mem_erase.mpr ⟨hne, hmem⟩
  · rw [terminateState_known hadded]
    exact h

/-- The state with the seed is selected next exactly if it comes where it is moved to the
back. -/
theorem selects_iff (h : r.Sound) (htrails : r.Trails) (hin : r.InInstruction)
    (hseed : r.seed = some t) (hlive : t ∉ r.removedStates)
    (hinsert : r.searcher.insertStates order r.addedStates = some states) :
    (states.filter fun es => es ∉ r.removedStates).getLast? = some t ↔ r.ComesLast order t := by
  have hnew : ∀ es ∈ order.toList r.addedStates, es ∉ r.removedStates := by
    intro es hes hremoved
    exact Finset.disjoint_left.mp h.disjoint (h.removed hremoved) ((order.mem_toList _ _).mp hes)
  have hplace : r.searcher.selectState = some t ∨ t ∈ order.toList r.addedStates := by
    rw [order.mem_toList]
    exact htrails hin.not_starting t hseed
  unfold ComesLast
  rcases ConcolicDFSSearcher.insertStates_cases order h.flag (h.states_ne_nil hin) with
    ⟨hflag, hadded, heq⟩ | ⟨before, last, hflag, hadded, heq⟩
    | ⟨init, back, last, hflag, hadded, hstates, heq⟩ | ⟨before, second, last, hflag, hadded, heq⟩
  all_goals
    obtain rfl := Option.some.inj (hinsert.symm.trans heq)
    rw [hadded] at hnew hplace
    rw [hflag, hadded]
  · -- nothing was added: the current state has the seed
    show _ ↔ True
    obtain ⟨init, hinit⟩ :=
      List.getLast?_eq_some_iff.mp (hplace.resolve_right List.not_mem_nil)
    rw [hinit, iff_true]
    exact ConcolicDFSSearcher.getLast?_kept hlive
  · -- the last state that was added is at the back
    rw [List.reverse_append]
    show _ ↔ t = last
    have hlast : last ∉ r.removedStates :=
      hnew last (List.mem_append_right _ (List.mem_singleton_self last))
    rw [ConcolicDFSSearcher.getLast?_kept hlast, Option.some.injEq]
    exact eq_comm
  · -- the current state is at the back, and the one that was added is before it
    show _ ↔ ∃ s, r.phase = .instruction s ∧ (t = s ∨ s ∈ r.removedStates)
    obtain ⟨s, hs⟩ := hin
    have hback : r.searcher.selectState = some back := by
      rw [ConcolicDFSSearcher.selectState, hstates]
      exact List.getLast?_concat
    obtain rfl : s = back := Option.some.inj ((h.current s hs).symm.trans hback)
    rw [hback, Option.some.injEq, List.mem_singleton] at hplace
    rw [ConcolicDFSSearcher.getLast?_eq_iff (hnew last (List.mem_singleton_self last)) hlive
      (hplace.imp_left Eq.symm), hs]
    simp
  · -- the last two states that were added are exchanged
    rw [List.reverse_append]
    show _ ↔ t = second
    have hsecond : second ∉ r.removedStates :=
      hnew second (List.mem_append_right _ List.mem_cons_self)
    have hsplit : r.searcher.states ++ before ++ [last, second]
        = (r.searcher.states ++ before ++ [last]) ++ [second] := by
      rw [List.append_assoc _ [last]]
      rfl
    rw [hsplit, ConcolicDFSSearcher.getLast?_kept hsecond, Option.some.injEq]
    exact eq_comm

/-- After `updateStates`, the seed is followed exactly if it was in order. -/
theorem updateStates_follows (h : r.Sound) (htrails : r.Trails) (hin : r.InInstruction)
    (hstep : r.updateStates order = some r') : r'.FollowsSeed ↔ r.InOrder order .updateStates := by
  obtain ⟨states, hinsert, heq, -⟩ := updateStates_spec order h hin
  obtain rfl : r.updated _ = r' := Option.some.inj (heq.symm.trans hstep)
  have hselects := fun t hseed hlive => selects_iff h htrails hin (t := t) hseed hlive hinsert
  constructor
  · intro hfollows t hseed hlive
    exact (hselects t hseed hlive).mp (hfollows t (updated_seed.mpr ⟨hseed, hlive⟩))
  · intro hinOrder t ht
    obtain ⟨hseed, hlive⟩ := updated_seed.mp ht
    exact (hselects t hseed hlive).mpr (hinOrder t hseed hlive)

/-- Whenever the searcher is told about the states, the seed is followed afterwards exactly
if it was in order. -/
theorem step_follows (h : r.Sound) (htrails : r.Trails) (hc : r.Allowed c)
    (hstep : r.step order options c = some r') (hphase : r'.phase = .searching) :
    r'.FollowsSeed ↔ r.InOrder order c := by
  cases c with
  | startSearch =>
    obtain rfl := Option.some.inj ((startSearch_spec order options h hc).1.symm.trans hstep)
    exact Iff.rfl
  | selectState =>
    obtain ⟨state, hselect, -⟩ := selectState_sound h hc
    simp only [step, hselect] at hstep
    obtain rfl := Option.some.inj hstep
    exact SearchPhase.noConfusion hphase
  | fork current swap trueSeed =>
    obtain rfl := Option.some.inj hstep
    obtain ⟨s, hs⟩ := hc.1
    exact SearchPhase.noConfusion (hs.symm.trans hphase)
  | branch state count index =>
    obtain rfl := Option.some.inj hstep
    obtain ⟨s, hs⟩ := hc.1
    exact SearchPhase.noConfusion (hs.symm.trans hphase)
  | terminateState state =>
    obtain rfl := Option.some.inj hstep
    rw [terminateState_phase] at hphase
    obtain ⟨s, hs⟩ := hc.1
    exact SearchPhase.noConfusion (hs.symm.trans hphase)
  | updateStates => exact updateStates_follows h htrails hc hstep

theorem step_trails (h : r.Sound) (htrails : r.Trails) (hc : r.Allowed c)
    (hinOrder : r.InOrder order c) (hstep : r.step order options c = some r') : r'.Trails := by
  cases c with
  | startSearch =>
    have heq := (startSearch_spec order options h hc).1
    have hphase : r'.phase = .searching := by
      obtain rfl := Option.some.inj (heq.symm.trans hstep)
      rfl
    exact fun _ t ht => .inl ((step_follows h htrails hc hstep hphase).mpr hinOrder t ht)
  | selectState =>
    have hphase : r.phase ≠ .starting := by
      rw [hc.1]
      exact SearchPhase.noConfusion
    obtain ⟨state, hselect, -⟩ := selectState_sound h hc
    simp only [step, hselect] at hstep
    obtain rfl := Option.some.inj hstep
    exact fun _ => htrails hphase
  | fork current swap trueSeed =>
    obtain rfl := Option.some.inj hstep
    exact fork_trails htrails
  | branch state count index =>
    obtain rfl := Option.some.inj hstep
    exact branch_trails htrails
  | terminateState state =>
    obtain rfl := Option.some.inj hstep
    exact terminateState_trails htrails
  | updateStates =>
    exact fun _ t ht => .inl ((updateStates_follows h htrails hc hstep).mpr hinOrder t ht)

/-! ## Runs -/

theorem sound_of_reaches (h : Reaches (stepRun order options) Allowed (init start) r) :
    r.Sound := by
  refine h.invariant (init_sound start) ?_
  intro r c a r' hr hc hstep
  obtain ⟨r'', heq, hr''⟩ := step_sound order options hr hc
  rw [stepRun, heq] at hstep
  obtain ⟨-, rfl⟩ := Prod.mk.inj (Option.some.inj hstep)
  exact hr''

/-- As long as the seed is in order when the searcher is told about the states, it trails. -/
theorem trails_of_reaches
    (h : Reaches (stepRun order options) (fun r c => r.Allowed c ∧ r.InOrder order c)
      (init start) r) : r.Sound ∧ r.Trails := by
  refine @Reaches.invariant _ _ _ _ _ _ _ (fun r => r.Sound ∧ r.Trails) ?_ ?_ h
  · exact ⟨init_sound start, fun hphase => absurd rfl hphase⟩
  · intro r c a r' hr hok hstep
    obtain ⟨r'', heq, hr''⟩ := step_sound order options hr.1 hok.1
    rw [stepRun, heq] at hstep
    obtain ⟨-, rfl⟩ := Prod.mk.inj (Option.some.inj hstep)
    exact ⟨hr'', step_trails hr.1 hr.2 hok.1 hok.2 heq⟩

/-- In every run the searcher holds the live states after each `update`, and the next step
has a result. As long as the seed is in order whenever the searcher is told about the
states, the live state that has it is selected next; and it is selected after the next
`update` exactly if it is in order there, too. -/
theorem reaches_follows (order : SetOrder ℕ) (options : ExecutorOptions) (start : SearchStart)
    {r : ConcolicRun} (h : Reaches (stepRun order options) Allowed (init start) r) :
    ((r.phase = .searching → ListSearcher.Holds r.searcher.states r.states)
        ∧ ∀ c, r.Allowed c → ∃ r', r.step order options c = some r')
      ∧ (Reaches (stepRun order options) (fun r c => r.Allowed c ∧ r.InOrder order c)
          (init start) r →
        (r.phase = .searching → r.FollowsSeed)
          ∧ ∀ c r', r.Allowed c → r.step order options c = some r' → r'.phase = .searching →
            (r'.FollowsSeed ↔ r.InOrder order c)) := by
  have hsound := sound_of_reaches h
  refine ⟨⟨?_, ?_⟩, fun hinOrder => ⟨?_, ?_⟩⟩
  · intro hphase
    exact hsound.holds (by rw [hphase]; exact SearchPhase.noConfusion)
  · intro c hc
    obtain ⟨r', heq, -⟩ := step_sound order options hsound hc
    exact ⟨r', heq⟩
  · intro hphase t ht
    have hbetween := hsound.between fun ⟨s, hs⟩ => SearchPhase.noConfusion (hphase.symm.trans hs)
    have hstarted : r.phase ≠ .starting := by
      rw [hphase]
      exact SearchPhase.noConfusion
    refine ((trails_of_reaches hinOrder).2 hstarted t ht).resolve_right ?_
    rw [hbetween.1]
    exact Finset.notMem_empty t
  · intro c r' hc hstep hphase
    exact step_follows hsound (trails_of_reaches hinOrder).2 hc hstep hphase

/-! ## Runs with one state at first -/

/-- `UseConcreteData` and `UseConcolicSearcher`. -/
def concolicOptions : ExecutorOptions := ⟨false, false, true, true⟩

/-- The initial state forks once and its seed goes to the true side, which it stays on: the
new state is put before it. -/
theorem reaches_follows_fork : ∃ r : ConcolicRun, r.states = {0, 1}
    ∧ ListSearcher.Holds r.searcher.states r.states ∧ r.seed = some 0
    ∧ r.searcher.selectState = some 0 := by
  have hstart : Reaches (stepRun (.increasing ℕ) concolicOptions)
      (fun r c => r.Allowed c ∧ r.InOrder (.increasing ℕ) c) (init .initial) _ :=
    .step (c := .startSearch) .init ⟨rfl, fun t ht => ht⟩ rfl
  have hselect : Reaches (stepRun (.increasing ℕ) concolicOptions)
      (fun r c => r.Allowed c ∧ r.InOrder (.increasing ℕ) c) (init .initial) _ :=
    .step (c := .selectState) hstart ⟨⟨rfl, Finset.singleton_nonempty 0⟩, trivial⟩ rfl
  have hfork : Reaches (stepRun (.increasing ℕ) concolicOptions)
      (fun r c => r.Allowed c ∧ r.InOrder (.increasing ℕ) c) (init .initial) _ :=
    .step (c := .fork 0 false true) hselect ⟨⟨⟨0, rfl⟩, by decide⟩, trivial⟩ rfl
  have hupdate : Reaches (stepRun (.increasing ℕ) concolicOptions)
      (fun r c => r.Allowed c ∧ r.InOrder (.increasing ℕ) c) (init .initial) _ :=
    .step (c := .updateStates) hfork
      ⟨⟨0, rfl⟩, fun t ht _ => ⟨0, rfl, .inl (Option.some.inj ht).symm⟩⟩ rfl
  obtain ⟨⟨hholds, -⟩, hfollows⟩ :=
    reaches_follows (.increasing ℕ) concolicOptions .initial (hupdate.mono fun _ _ hok => hok.1)
  exact ⟨_, rfl, hholds rfl, rfl, (hfollows hupdate).1 rfl 0 rfl⟩

/-- The initial state forks, its seed goes to the true side, which it stays on, and the new
state forks once more: that one is selected. -/
theorem forks_lose_seed : ¬∀ r, Reaches (stepRun (.increasing ℕ) concolicOptions) Allowed
    (init .initial) r → r.phase = .searching →
      ListSearcher.Holds r.searcher.states r.states ∧ r.FollowsSeed := by
  intro hclaim
  have hstart : Reaches (stepRun (.increasing ℕ) concolicOptions) Allowed (init .initial) _ :=
    .step (c := .startSearch) .init rfl rfl
  have hselect : Reaches (stepRun (.increasing ℕ) concolicOptions) Allowed (init .initial) _ :=
    .step (c := .selectState) hstart ⟨rfl, Finset.singleton_nonempty 0⟩ rfl
  have hfork : Reaches (stepRun (.increasing ℕ) concolicOptions) Allowed (init .initial) _ :=
    .step (c := .fork 0 false true) hselect ⟨⟨0, rfl⟩, by decide⟩ rfl
  have hfork' : Reaches (stepRun (.increasing ℕ) concolicOptions) Allowed (init .initial) _ :=
    .step (c := .fork 1 false false) hfork ⟨⟨0, rfl⟩, by decide⟩ rfl
  have hupdate : Reaches (stepRun (.increasing ℕ) concolicOptions) Allowed (init .initial) _ :=
    .step (c := .updateStates) hfork' ⟨0, rfl⟩ rfl
  have hselected := (hclaim _ hupdate rfl).2 0 rfl
  exact absurd hselected (by decide)

end ConcolicRun

end Xklee
