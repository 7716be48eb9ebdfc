/-
The states of the executor and the process tree: `fork`, `branch`, `terminateState` and
`updateStates` of `lib/Core/Executor.cpp`, as far as they change either.

What the solver, the seeds, the limits and the random numbers decide is a parameter of
each call, so a run here takes any decisions. A state is live from its creation until
`updateStates` or `terminateState` deletes it. `std::set` iterates in the order of
addresses, which may be any.
-/
import Xklee.Core.PTree
import Xklee.Data.Run
import Mathlib.Data.Finset.Basic
import Mathlib.Data.Finset.Dedup
import Mathlib.Data.Finset.Lattice.Lemmas

set_option autoImplicit false

namespace Xklee

/-- The fields of the executor and of its states that concern the process tree. -/
structure StateSets where
  processTree : PTree
  /-- `ptreeNode` of each state. -/
  ptreeNode : ℕ → ℕ
  states : Finset ℕ
  addedStates : Finset ℕ
  removedStates : Finset ℕ
  stateID : ℕ

/-- What `fork` comes to. -/
inductive ForkDecision
  /-- One side is returned. -/
  | returns
  /-- "Query timed out (fork)." -/
  | timesOut
  /-- Both sides are possible. They may be swapped, and may be too deep. -/
  | splits (swap exceedsDepth : Bool)
deriving DecidableEq

/-- What `branch` comes to. -/
inductive BranchDecision
  /-- Forking is disabled. -/
  | returns
  /-- `--max-forks` is reached; the state may be without seeds. -/
  | limited (unseeded : Bool)
  /-- One random number for each further condition, and the states without seeds. -/
  | splits (picks : List (BitVec 32)) (unseeded : ℕ → Bool)

namespace StateSets

/-- At the start of `run`. -/
def init : StateSets where
  processTree := .new 0
  ptreeNode := fun _ => 0
  states := {0}
  addedStates := ∅
  removedStates := ∅
  stateID := 0

/-- `es->branch(++stateID)`, inserted into `addedStates`. The copy has the node of `es`. -/
def addBranch (s : StateSets) (es : ℕ) : StateSets :=
  { s with
    stateID := s.stateID + 1
    addedStates := insert (s.stateID + 1) s.addedStates
    ptreeNode := Function.update s.ptreeNode (s.stateID + 1) (s.ptreeNode es) }

/-- `es->ptreeNode->data = 0`, and the split between `left` and `right`. -/
def splitNode (s : StateSets) (es left right : ℕ) : Option StateSets :=
  ((s.processTree.clearData (s.ptreeNode es)).bind fun tree =>
    tree.split (s.ptreeNode es) left right).map fun ((l, r), tree) =>
      { s with
        processTree := tree
        ptreeNode := Function.update (Function.update s.ptreeNode left l) right r }

def terminateState (s : StateSets) (state : ℕ) : Option StateSets :=
  if state ∈ s.addedStates then
    (s.processTree.remove (s.ptreeNode state)).map fun tree =>
      { s with processTree := tree, addedStates := s.addedStates.erase state }
  else some { s with removedStates := insert state s.removedStates }

def fork (s : StateSets) (current : ℕ) : ForkDecision → Option StateSets
  | .returns => some s
  | .timesOut => s.terminateState current
  | .splits swap exceedsDepth =>
      let new := s.stateID + 1
      let (trueState, falseState) := if swap then (new, current) else (current, new)
      ((s.addBranch current).splitNode current falseState trueState).bind fun s =>
        if exceedsDepth then
          (s.terminateState trueState).bind fun s => s.terminateState falseState
        else some s

/-- The loop of `branch` over the further conditions, with the states so far. -/
def branchLoop (s : StateSets) (result : List ℕ) :
    List (BitVec 32) → Option (List ℕ × StateSets)
  | [] => some (result, s)
  | pick :: picks =>
      result[pick.toNat % result.length]?.bind fun es =>
        ((s.addBranch es).splitNode es (s.stateID + 1) es).bind fun s' =>
          s'.branchLoop (result ++ [s.stateID + 1]) picks

/-- The loop of `branch` that terminates the states without seeds. -/
def terminateUnseeded (unseeded : ℕ → Bool) : List ℕ → StateSets → Option StateSets
  | [], s => some s
  | state :: result, s =>
      (if unseeded state then s.terminateState state else some s).bind
        (terminateUnseeded unseeded result)

def branch (s : StateSets) (state : ℕ) : BranchDecision → Option StateSets
  | .returns => some s
  | .limited unseeded => terminateUnseeded (fun _ => unseeded) [state] s
  | .splits picks unseeded =>
      (s.branchLoop [state] picks).bind fun (result, s) => terminateUnseeded unseeded result s

/-- The loop of `updateStates` over the removed states. -/
def removeStates : List ℕ → StateSets → Option StateSets
  | [], s => some s
  | es :: order, s =>
      if es ∈ s.states then
        (s.processTree.remove (s.ptreeNode es)).bind fun tree =>
          removeStates order { s with processTree := tree, states := s.states.erase es }
      else none

/-- `updateStates`, going through the removed states in some order. -/
def updateStates (s : StateSets) (order : List ℕ) : Option StateSets :=
  (removeStates order
    { s with states := s.states ∪ s.addedStates, addedStates := ∅ }).map fun s =>
      { s with removedStates := ∅ }

end StateSets

/-- A call on the executor, or of `RandomPathSearcher::selectState`. -/
inductive StateCall
  | fork (current : ℕ) (decision : ForkDecision)
  | branch (state : ℕ) (decision : BranchDecision)
  | terminateState (state : ℕ)
  | updateStates (order : List ℕ)
  | selectState (rng : ℕ → BitVec 32)

namespace StateSets

/-- One call; `selectState` answers a state. -/
def step (s : StateSets) : StateCall → Option (Option ℕ × StateSets)
  | .fork current decision => (s.fork current decision).map fun s => (none, s)
  | .branch state decision => (s.branch state decision).map fun s => (none, s)
  | .terminateState state => (s.terminateState state).map fun s => (none, s)
  | .updateStates order => (s.updateStates order).map fun s => (none, s)
  | .selectState rng => (s.processTree.selectState rng).map fun d => (some d, s)

/-- The live states. -/
def live (s : StateSets) : Finset ℕ := s.states ∪ s.addedStates

/-- A call works on a live state, and a state is selected only while there are states. -/
def Valid (s : StateSets) : StateCall → Prop
  | .fork current _ => current ∈ s.live
  | .branch state _ => state ∈ s.live
  | .terminateState state => state ∈ s.live
  | .updateStates order => order.Nodup ∧ order.toFinset = s.removedStates
  | .selectState _ => s.states.Nonempty

/-- The node of each live state. -/
def place (s : StateSets) (d : ℕ) : Option ℕ := if d ∈ s.live then some (s.ptreeNode d) else none

/-- The process tree mirrors the live states. -/
structure Mirrored (s : StateSets) : Prop where
  tree : s.processTree.Mirrors s.place
  disjoint : Disjoint s.states s.addedStates
  removed : s.removedStates ⊆ s.states
  fresh : ∀ d ∈ s.live, d ≤ s.stateID

variable {s : StateSets} {d state : ℕ}

theorem place_of_live (h : d ∈ s.live) : s.place d = some (s.ptreeNode d) :=
  if_pos h

theorem place_ne_none : s.place d ≠ none ↔ d ∈ s.live := by
  rw [place]
  by_cases h : d ∈ s.live
  · simp [h]
  · simp [h]

/-! ## Every call keeps the invariant -/

theorem mirrored_init : init.Mirrored where
  tree := by
    have hplace : init.place = Function.update (fun _ => none) 0 (some 0) := by
      funext d
      by_cases hd : d = 0
      · rw [hd, Function.update_self]
        rfl
      · rw [Function.update_of_ne hd]
        exact if_neg (by simpa [live, init] using hd)
    exact hplace ▸ PTree.mirrors_new 0
  disjoint := Finset.disjoint_empty_right _
  removed := Finset.empty_subset _
  fresh d hd := by
    obtain rfl : d = 0 := by simpa [live, init] using hd
    exact Nat.le_refl 0

/-- A new state takes one half of the node of a live state. -/
theorem splitNode_mirrored (h : s.Mirrored) {es : ℕ} (hes : es ∈ s.live) {a b : ℕ}
    (hab : a = es ∧ b = s.stateID + 1 ∨ a = s.stateID + 1 ∧ b = es) :
    ∃ s', (s.addBranch es).splitNode es a b = some s' ∧ s'.Mirrored
      ∧ s'.live = insert (s.stateID + 1) s.live ∧ s'.stateID = s.stateID + 1 := by
  have hnew : s.stateID + 1 ∉ s.live := fun hmem => absurd (h.fresh _ hmem) (Nat.not_succ_le_self _)
  have hne : es ≠ s.stateID + 1 := fun heq => hnew (heq ▸ hes)
  have hnode : (s.addBranch es).ptreeNode es = s.ptreeNode es := Function.update_of_ne hne _ _
  obtain ⟨tree, hsplit, hmirrors⟩ := h.tree.split (place_of_live hes) (if_neg hnew) hab
  have hlive : ∀ d, d ∈ s.states ∪ insert (s.stateID + 1) s.addedStates
      ↔ d = s.stateID + 1 ∨ d ∈ s.live := by
    intro d
    rw [Finset.union_insert, Finset.mem_insert, live]
  refine ⟨⟨tree, Function.update (Function.update (s.addBranch es).ptreeNode a
      s.processTree.heap.next) b (s.processTree.heap.next + 1), s.states,
      insert (s.stateID + 1) s.addedStates, s.removedStates, s.stateID + 1⟩,
    ?_, ⟨?_, ?_, h.removed, ?_⟩, Finset.union_insert _ _ _, rfl⟩
  · rw [splitNode, hnode]
    exact congrArg (Option.map _) hsplit
  · -- The two halves, and the states whose nodes stay.
    convert hmirrors using 1
    funext d
    change (if d ∈ s.states ∪ insert (s.stateID + 1) s.addedStates then some (Function.update
      (Function.update (s.addBranch es).ptreeNode a _) b _ d) else none) = _
    by_cases hb : d = b
    · have hd : d = s.stateID + 1 ∨ d ∈ s.live := by
        rcases hab with ⟨-, rfl⟩ | ⟨-, rfl⟩
        · exact .inl hb
        · exact .inr (hb ▸ hes)
      rw [if_pos ((hlive d).mpr hd), hb, Function.update_self, Function.update_self]
    · by_cases ha : d = a
      · have hd : d = s.stateID + 1 ∨ d ∈ s.live := by
          rcases hab with ⟨rfl, -⟩ | ⟨rfl, -⟩
          · exact .inr (ha ▸ hes)
          · exact .inl ha
        rw [if_pos ((hlive d).mpr hd), Function.update_of_ne hb, Function.update_of_ne hb, ha,
          Function.update_self, Function.update_self]
      · have hd : d ≠ s.stateID + 1 := by
          rcases hab with ⟨-, rfl⟩ | ⟨rfl, -⟩
          · exact hb
          · exact ha
        have hsame : (s.addBranch es).ptreeNode d = s.ptreeNode d := Function.update_of_ne hd _ _
        rw [Function.update_of_ne hb, Function.update_of_ne ha, Function.update_of_ne hb,
          Function.update_of_ne ha, hsame, place]
        exact if_congr ((hlive d).trans (or_iff_right hd)) rfl rfl
  · refine Finset.disjoint_insert_right.mpr ⟨fun hmem => hnew ?_, h.disjoint⟩
    exact Finset.mem_union_left _ hmem
  · intro d hd
    rcases (hlive d).mp hd with rfl | hd
    · exact Nat.le_refl _
    · exact Nat.le_succ_of_le (h.fresh d hd)

/-- What is left after a state is taken out of the tree. -/
theorem place_erase {tree : PTree} {states addedStates : Finset ℕ}
    (h : tree.Mirrors (Function.update s.place state none))
    (hlive : ∀ d, d ∈ states ∪ addedStates ↔ d ≠ state ∧ d ∈ s.live) :
    tree.Mirrors ({ s with
      processTree := tree, states := states, addedStates := addedStates } : StateSets).place := by
  convert h using 1
  funext d
  change (if d ∈ states ∪ addedStates then some (s.ptreeNode d) else none) = _
  by_cases hd : d = state
  · rw [hd, Function.update_self]
    exact if_neg fun hmem => ((hlive state).mp hmem).1 rfl
  · rw [Function.update_of_ne hd, place]
    exact if_congr ((hlive d).trans (and_iff_right hd)) rfl rfl

theorem terminateState_mirrored (h : s.Mirrored) (hstate : state ∈ s.live) :
    ∃ s', s.terminateState state = some s' ∧ s'.Mirrored
      ∧ ∀ d ∈ s.live, d ≠ state → d ∈ s'.live := by
  rw [terminateState]
  by_cases hadded : state ∈ s.addedStates
  · rw [if_pos hadded]
    obtain ⟨tree, hremove, hmirrors⟩ := h.tree.remove (place_of_live hstate)
    have hnot : state ∉ s.states := Finset.disjoint_right.mp h.disjoint hadded
    have hlive : ∀ d, d ∈ s.states ∪ s.addedStates.erase state ↔ d ≠ state ∧ d ∈ s.live := by
      intro d
      rw [Finset.mem_union, Finset.mem_erase, live, Finset.mem_union]
      have hd : d ∈ s.states → d ≠ state := fun hmem heq => hnot (heq ▸ hmem)
      tauto
    rw [hremove]
    refine ⟨_, rfl, ⟨place_erase hmirrors hlive, ?_, h.removed, ?_⟩, ?_⟩
    · exact h.disjoint.mono_right (Finset.erase_subset _ _)
    · exact fun d hd => h.fresh d ((hlive d).mp hd).2
    · exact fun d hd hne => (hlive d).mpr ⟨hne, hd⟩
  · rw [if_neg hadded]
    have hmem : state ∈ s.states := (Finset.mem_union.mp hstate).resolve_right hadded
    refine ⟨_, rfl, ⟨h.tree, h.disjoint, ?_, h.fresh⟩, fun d hd _ => hd⟩
    exact Finset.insert_subset_iff.mpr ⟨hmem, h.removed⟩

theorem fork_mirrored (h : s.Mirrored) {current : ℕ} (hcurrent : current ∈ s.live)
    (decision : ForkDecision) : ∃ s', s.fork current decision = some s' ∧ s'.Mirrored := by
  cases decision with
  | returns => exact ⟨s, rfl, h⟩
  | timesOut =>
    obtain ⟨s', hs', hmirrored, -⟩ := terminateState_mirrored h hcurrent
    exact ⟨s', hs', hmirrored⟩
  | splits swap exceedsDepth =>
    have hnew : s.stateID + 1 ≠ current := fun heq =>
      absurd (h.fresh current hcurrent) (heq ▸ Nat.not_succ_le_self _)
    -- Whichever way round, the two states are the current and the new one.
    obtain ⟨trueState, falseState, hpair, hab⟩ : ∃ t f : ℕ,
        (if swap then (s.stateID + 1, current) else (current, s.stateID + 1)) = (t, f)
          ∧ (f = current ∧ t = s.stateID + 1 ∨ f = s.stateID + 1 ∧ t = current) := by
      cases swap with
      | true => exact ⟨_, _, rfl, .inl ⟨rfl, rfl⟩⟩
      | false => exact ⟨_, _, rfl, .inr ⟨rfl, rfl⟩⟩
    obtain ⟨s₁, hs₁, hmirrored, hlive, -⟩ := splitNode_mirrored h hcurrent hab
    have hmem : trueState ∈ s₁.live ∧ falseState ∈ s₁.live ∧ falseState ≠ trueState := by
      rw [hlive, Finset.mem_insert, Finset.mem_insert]
      rcases hab with ⟨rfl, rfl⟩ | ⟨rfl, rfl⟩
      · exact ⟨.inl rfl, .inr hcurrent, hnew.symm⟩
      · exact ⟨.inr hcurrent, .inl rfl, hnew⟩
    simp only [fork, hpair, hs₁, Option.bind_some]
    cases exceedsDepth with
    | false => exact ⟨s₁, rfl, hmirrored⟩
    | true =>
      obtain ⟨s₂, hs₂, hmirrored₂, hlive₂⟩ := terminateState_mirrored hmirrored hmem.1
      obtain ⟨s₃, hs₃, hmirrored₃, -⟩ :=
        terminateState_mirrored hmirrored₂ (hlive₂ falseState hmem.2.1 hmem.2.2)
      exact ⟨s₃, by rw [if_pos rfl, hs₂, Option.bind_some, hs₃], hmirrored₃⟩

/-- The loop of `branch` gives distinct live states. -/
theorem branchLoop_mirrored (picks : List (BitVec 32)) (h : s.Mirrored) {result : List ℕ}
    (hne : result ≠ []) (hnodup : result.Nodup) (hlive : ∀ d ∈ result, d ∈ s.live) :
    ∃ result' s', s.branchLoop result picks = some (result', s') ∧ s'.Mirrored
      ∧ result'.Nodup ∧ ∀ d ∈ result', d ∈ s'.live := by
  induction picks generalizing s result with
  | nil => exact ⟨result, s, rfl, h, hnodup, hlive⟩
  | cons pick picks ih =>
    have hlt : pick.toNat % result.length < result.length :=
      Nat.mod_lt _ (List.length_pos_iff.mpr hne)
    have hes : result[pick.toNat % result.length] ∈ s.live := hlive _ (List.getElem_mem hlt)
    obtain ⟨s₁, hs₁, hmirrored, hlive₁, -⟩ := splitNode_mirrored h hes (.inr ⟨rfl, rfl⟩)
    have hfresh : s.stateID + 1 ∉ result := fun hmem =>
      absurd (h.fresh _ (hlive _ hmem)) (Nat.not_succ_le_self _)
    have hnext : ∀ d ∈ result ++ [s.stateID + 1], d ∈ s₁.live := by
      intro d hd
      rw [hlive₁, Finset.mem_insert]
      rcases List.mem_append.mp hd with hd | hd
      · exact .inr (hlive d hd)
      · exact .inl (List.mem_singleton.mp hd)
    have hnodup₁ : (result ++ [s.stateID + 1]).Nodup := by
      rw [List.nodup_append]
      refine ⟨hnodup, List.nodup_singleton _, ?_⟩
      rintro x hx y hy rfl
      exact hfresh (List.mem_singleton.mp hy ▸ hx)
    rw [branchLoop, List.getElem?_eq_getElem hlt, Option.bind_some, hs₁, Option.bind_some]
    exact ih hmirrored (by simp) hnodup₁ hnext

theorem terminateUnseeded_mirrored (unseeded : ℕ → Bool) (result : List ℕ) (h : s.Mirrored)
    (hnodup : result.Nodup) (hlive : ∀ d ∈ result, d ∈ s.live) :
    ∃ s', terminateUnseeded unseeded result s = some s' ∧ s'.Mirrored := by
  induction result generalizing s with
  | nil => exact ⟨s, rfl, h⟩
  | cons state result ih =>
    obtain ⟨hstate, hlive⟩ := List.forall_mem_cons.mp hlive
    obtain ⟨hnot, hnodup⟩ := List.nodup_cons.mp hnodup
    rw [terminateUnseeded]
    cases unseeded state with
    | false => exact ih h hnodup hlive
    | true =>
      obtain ⟨s₁, hs₁, hmirrored, hlive₁⟩ := terminateState_mirrored h hstate
      rw [if_pos rfl, hs₁]
      exact ih hmirrored hnodup fun d hd => hlive₁ d (hlive d hd) fun heq => hnot (heq ▸ hd)

theorem branch_mirrored (h : s.Mirrored) (hstate : state ∈ s.live) (decision : BranchDecision) :
    ∃ s', s.branch state decision = some s' ∧ s'.Mirrored := by
  have hone : ∀ d ∈ [state], d ∈ s.live := List.forall_mem_singleton.mpr hstate
  cases decision with
  | returns => exact ⟨s, rfl, h⟩
  | limited unseeded => exact terminateUnseeded_mirrored _ _ h (List.nodup_singleton _) hone
  | splits picks unseeded =>
    obtain ⟨result, s₁, hs₁, hmirrored, hnodup, hlive⟩ :=
      branchLoop_mirrored picks h (by simp) (List.nodup_singleton _) hone
    obtain ⟨s₂, hs₂, hmirrored₂⟩ := terminateUnseeded_mirrored unseeded result hmirrored hnodup hlive
    refine ⟨s₂, ?_, hmirrored₂⟩
    rw [branch, hs₁]
    exact hs₂

theorem removeStates_mirrors (order : List ℕ) (h : s.processTree.Mirrors s.place)
    (hadded : s.addedStates = ∅) (hnodup : order.Nodup) (horder : ∀ d ∈ order, d ∈ s.states) :
    ∃ s', removeStates order s = some s' ∧ s'.processTree.Mirrors s'.place
      ∧ s'.addedStates = ∅ ∧ s'.states ⊆ s.states ∧ s'.stateID = s.stateID := by
  induction order generalizing s with
  | nil => exact ⟨s, rfl, h, hadded, Finset.Subset.refl _, rfl⟩
  | cons es order ih =>
    obtain ⟨hes, horder⟩ := List.forall_mem_cons.mp horder
    obtain ⟨hnot, hnodup⟩ := List.nodup_cons.mp hnodup
    obtain ⟨tree, hremove, hmirrors⟩ := h.remove (place_of_live (Finset.mem_union_left _ hes))
    have hlive : ∀ d, d ∈ s.states.erase es ∪ s.addedStates ↔ d ≠ es ∧ d ∈ s.live := by
      intro d
      rw [live, hadded, Finset.union_empty, Finset.union_empty, Finset.mem_erase]
    have hrest : ∀ d ∈ order, d ∈ s.states.erase es := fun d hd =>
      Finset.mem_erase.mpr ⟨fun heq => hnot (heq ▸ hd), horder d hd⟩
    obtain ⟨s', hs', hmirrors', hadded', hsub, hid⟩ :=
      ih (s := { s with processTree := tree, states := s.states.erase es })
        (place_erase hmirrors hlive) hadded hnodup hrest
    refine ⟨s', ?_, hmirrors', hadded', hsub.trans (Finset.erase_subset _ _), hid⟩
    rw [removeStates, if_pos hes, hremove]
    exact hs'

theorem updateStates_mirrored (h : s.Mirrored) {order : List ℕ} (hnodup : order.Nodup)
    (horder : order.toFinset = s.removedStates) :
    ∃ s', s.updateStates order = some s' ∧ s'.Mirrored := by
  have hplace : ({ s with states := s.states ∪ s.addedStates, addedStates := ∅ } :
      StateSets).place = s.place := by
    funext d
    change (if d ∈ s.states ∪ s.addedStates ∪ ∅ then some (s.ptreeNode d) else none) = _
    rw [Finset.union_empty]
    rfl
  have hmem : ∀ d ∈ order, d ∈ s.states ∪ s.addedStates := by
    intro d hd
    have hremoved : d ∈ s.removedStates := horder ▸ List.mem_toFinset.mpr hd
    exact Finset.mem_union_left _ (h.removed hremoved)
  obtain ⟨s', hs', hmirrors, hadded, hsub, hid⟩ := removeStates_mirrors order
    (s := { s with states := s.states ∪ s.addedStates, addedStates := ∅ }) (hplace ▸ h.tree) rfl
    hnodup hmem
  refine ⟨_, congrArg (Option.map _) hs', hmirrors, ?_, Finset.empty_subset _, ?_⟩
  · change Disjoint s'.states s'.addedStates
    rw [hadded]
    exact Finset.disjoint_empty_right _
  · intro d hd
    change d ∈ s'.states ∪ s'.addedStates at hd
    rw [hadded, Finset.union_empty] at hd
    exact (h.fresh d (hsub hd)).trans (Nat.le_of_eq hid.symm)

/-- `selectState` gives a live state. -/
theorem selectState_live (h : s.Mirrored) (hstates : s.states.Nonempty) (rng : ℕ → BitVec 32) :
    ∃ d ∈ s.live, s.processTree.selectState rng = some d := by
  obtain ⟨d, hd⟩ := hstates
  obtain ⟨d', hselect, hplace⟩ :=
    h.tree.selectState (place_ne_none.mpr (Finset.mem_union_left _ hd)) rng
  exact ⟨d', place_ne_none.mp hplace, hselect⟩

/-- A valid call succeeds, and the tree mirrors the live states afterwards. -/
theorem step_mirrored (h : s.Mirrored) {c : StateCall} (hc : s.Valid c) :
    ∃ a s', s.step c = some (a, s') ∧ s'.Mirrored := by
  cases c with
  | fork current decision =>
    obtain ⟨s', hs', hmirrored⟩ := fork_mirrored h hc decision
    exact ⟨none, s', congrArg (Option.map _) hs', hmirrored⟩
  | branch state decision =>
    obtain ⟨s', hs', hmirrored⟩ := branch_mirrored h hc decision
    exact ⟨none, s', congrArg (Option.map _) hs', hmirrored⟩
  | terminateState state =>
    obtain ⟨s', hs', hmirrored, -⟩ := terminateState_mirrored h hc
    exact ⟨none, s', congrArg (Option.map _) hs', hmirrored⟩
  | updateStates order =>
    obtain ⟨s', hs', hmirrored⟩ := updateStates_mirrored h hc.1 hc.2
    exact ⟨none, s', congrArg (Option.map _) hs', hmirrored⟩
  | selectState rng =>
    obtain ⟨d, -, hselect⟩ := selectState_live h hc rng
    exact ⟨some d, s, congrArg (Option.map _) hselect, h⟩

end StateSets

end Xklee
