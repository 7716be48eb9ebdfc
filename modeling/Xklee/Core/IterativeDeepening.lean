/-
Iterative deepening by time: `IterativeDeepeningTimeSearcher` of `lib/Core/Searcher.cpp`.

A state that runs for longer than the time budget is paused. When the base searcher has
no state left, the budget is doubled and the paused states are given back. Times are
rational numbers; the readings of the wall clock are arguments of the calls.

`update` keeps the states apart as long as no removed state is paused. For a paused state
it erases from `pausedStates` with an iterator into `removedStates`, which has no defined
result.
-/
import Xklee.Core.Searcher
import Xklee.Data.Run
import Mathlib.Algebra.Order.Field.Rat
import Mathlib.Tactic.NormNum.Basic
import Mathlib.Tactic.NormNum.Ineq

set_option autoImplicit false

namespace Xklee

/-! ## The code -/

/-- The sets that the loop over the removed states has iterators into. -/
inductive SetName
  | removedStates
  | pausedStates
  | alt
deriving DecidableEq

/-- A `std::set<ExecutionState*>::iterator` that is not the end. -/
structure SetIterator (S : Type) where
  container : SetName
  element : S

namespace SetIterator

variable {S : Type} [DecidableEq S]

/-- `find`, where `none` is the end. -/
def find (container : SetName) (set : Finset S) (es : S) : Option (SetIterator S) :=
  if es ∈ set then some ⟨container, es⟩ else none

/-- `erase(it)`, which has a result for an iterator into the same set only. -/
def erase (container : SetName) (set : Finset S) (it : SetIterator S) : Option (Finset S) :=
  if it.container = container ∧ it.element ∈ set then some (set.erase it.element) else none

end SetIterator

/-- The fields of `IterativeDeepeningTimeSearcher`. -/
structure IterativeDeepeningTimeSearcher (S Store : Type) where
  baseSearcher : Store
  time : ℚ
  startTime : ℚ
  pausedStates : Finset S

namespace IterativeDeepeningTimeSearcher

variable {S Store : Type} [DecidableEq S]

/-- The constructor. `startTime` is not set by it. -/
def new (baseSearcher : Store) (startTime : ℚ) : IterativeDeepeningTimeSearcher S Store where
  baseSearcher := baseSearcher
  time := 1
  startTime := startTime
  pausedStates := ∅

/-- `selectState`. -/
def selectState (impl : Searcher S Store) (s : IterativeDeepeningTimeSearcher S Store)
    (wallTime : ℚ) : Option (S × IterativeDeepeningTimeSearcher S Store) :=
  (impl.selectState s.baseSearcher).map fun (res, baseSearcher) =>
    (res, { s with baseSearcher := baseSearcher, startTime := wallTime })

/-- One round of the loop over the removed states: `pausedStates` and `alt` after it. -/
def removePaused : Finset S × Finset S → S → Option (Finset S × Finset S)
  | (pausedStates, alt), es =>
      let it : SetIterator S := ⟨.removedStates, es⟩
      match SetIterator.find .pausedStates pausedStates es with
      | none => some (pausedStates, alt)
      | some _ => do
          -- `it2` was looked up for this, but `it` is erased
          let pausedStates ← SetIterator.erase .pausedStates pausedStates it
          let alt ← SetIterator.erase .alt alt ⟨.alt, es⟩
          return (pausedStates, alt)

/-- The first part of `update`, which tells the base searcher. -/
def updateBase (impl : Searcher S Store) (order : SetOrder S)
    (s : IterativeDeepeningTimeSearcher S Store) (current : Option S)
    (addedStates removedStates : Finset S) : Option (IterativeDeepeningTimeSearcher S Store) :=
  if removedStates ≠ ∅ then do
    let (pausedStates, alt) ← (order.toList removedStates).foldlM removePaused
      (s.pausedStates, removedStates)
    let baseSearcher ← impl.update s.baseSearcher current addedStates alt
    return { s with baseSearcher := baseSearcher, pausedStates := pausedStates }
  else do
    let baseSearcher ← impl.update s.baseSearcher current addedStates removedStates
    return { s with baseSearcher := baseSearcher }

/-- The second part of `update`, which pauses the current state. -/
def pauseCurrent (impl : Searcher S Store) (s : IterativeDeepeningTimeSearcher S Store)
    (current : Option S) (removedStates : Finset S) (elapsed : ℚ) :
    Option (IterativeDeepeningTimeSearcher S Store) :=
  match current with
  | none => some s
  | some current =>
      if current ∉ removedStates ∧ elapsed > s.time then do
        let baseSearcher ← impl.removeState s.baseSearcher current none
        return { s with
          baseSearcher := baseSearcher
          pausedStates := insert current s.pausedStates }
      else some s

/-- The third part of `update`, which gives the paused states back. -/
def refill (impl : Searcher S Store) (s : IterativeDeepeningTimeSearcher S Store) :
    Option (IterativeDeepeningTimeSearcher S Store) :=
  if impl.empty s.baseSearcher then do
    let baseSearcher ← impl.update s.baseSearcher none s.pausedStates ∅
    return { s with
      baseSearcher := baseSearcher
      time := s.time * 2
      pausedStates := ∅ }
  else some s

/-- `update`. -/
def update (impl : Searcher S Store) (order : SetOrder S)
    (s : IterativeDeepeningTimeSearcher S Store) (current : Option S)
    (addedStates removedStates : Finset S) (wallTime : ℚ) :
    Option (IterativeDeepeningTimeSearcher S Store) := do
  let elapsed := wallTime - s.startTime
  let s ← s.updateBase impl order current addedStates removedStates
  let s ← s.pauseCurrent impl current removedStates elapsed
  s.refill impl

end IterativeDeepeningTimeSearcher

/-! ## Its caller -/

/-- The searcher between two calls of `Executor::run`: the live states, and the one that
was selected for the instruction that runs. -/
structure DeepeningRun (S Store : Type) where
  searcher : IterativeDeepeningTimeSearcher S Store
  live : Finset S
  selected : Option S

/-- A call, at a time on the wall clock. -/
inductive SearcherCall (S : Type)
  | selectState (wallTime : ℚ)
  | update (current : Option S) (addedStates removedStates : Finset S) (wallTime : ℚ)

namespace DeepeningRun

variable {S Store : Type} [DecidableEq S]

/-- Before the first call. -/
def init (baseSearcher : Store) (startTime : ℚ) : DeepeningRun S Store where
  searcher := .new baseSearcher startTime
  live := ∅
  selected := none

/-- The answer to a call and what comes after it. -/
def step (impl : Searcher S Store) (order : SetOrder S) (r : DeepeningRun S Store) :
    SearcherCall S → Option (Option S × DeepeningRun S Store)
  | .selectState wallTime =>
      (r.searcher.selectState impl wallTime).map fun (es, searcher) =>
        (some es, { r with searcher := searcher, selected := some es })
  | .update current addedStates removedStates wallTime =>
      (r.searcher.update impl order current addedStates removedStates wallTime).map fun searcher =>
        (none, ⟨searcher, (r.live ∪ addedStates) \ removedStates, none⟩)

/-- What `Executor::run` and `Executor::updateStates` take care of: a state is selected when
there is one, the current state is the one that was selected, added states are new, and
removed states are live. -/
def Allowed (r : DeepeningRun S Store) : SearcherCall S → Prop
  | .selectState _ => r.live.Nonempty
  | .update current addedStates removedStates _ =>
      (∀ es, current = some es → r.selected = some es) ∧ Disjoint r.live addedStates
        ∧ removedStates ⊆ r.live ∪ addedStates

/-- No state that the call removes is paused. -/
def RemovesNoPaused (r : DeepeningRun S Store) : SearcherCall S → Prop
  | .selectState _ => True
  | .update _ _ removedStates _ => Disjoint removedStates r.searcher.pausedStates

/-- The live states are apart in the base searcher and in `pausedStates`, and the base
searcher is not empty as long as there is a live state. -/
def KeepsLive (impl : Searcher S Store) (Holds : Store → Finset S → Prop)
    (r : DeepeningRun S Store) : Prop :=
  ∃ base, Holds r.searcher.baseSearcher base ∧ Disjoint base r.searcher.pausedStates
    ∧ base ∪ r.searcher.pausedStates = r.live
    ∧ (r.live.Nonempty → impl.empty r.searcher.baseSearcher = false)

end DeepeningRun

namespace IterativeDeepeningTimeSearcher

variable {S Store : Type} [DecidableEq S] {impl : Searcher S Store} {order : SetOrder S}
  {Holds : Store → Finset S → Prop} {s : IterativeDeepeningTimeSearcher S Store}
  {base addedStates removedStates : Finset S} {current : Option S}

/-! ## The removed states -/

variable {pausedStates alt : Finset S} {es : S}

theorem removePaused_unpaused (h : es ∉ pausedStates) :
    removePaused (pausedStates, alt) es = some (pausedStates, alt) := by
  rw [removePaused, SetIterator.find, if_neg h]

/-- The iterator that is erased is not one into `pausedStates`. -/
theorem removePaused_paused (h : es ∈ pausedStates) :
    removePaused (pausedStates, alt) es = none := by
  have herase : SetIterator.erase .pausedStates pausedStates ⟨.removedStates, es⟩ = none :=
    if_neg fun h => absurd h.1 (by rintro ⟨⟩)
  rw [removePaused, SetIterator.find, if_pos h]
  change Option.bind _ _ = none
  rw [herase]
  rfl

theorem foldlM_removePaused (pausedStates alt : Finset S) (removed : List S) :
    removed.foldlM removePaused (pausedStates, alt)
      = if ∀ es ∈ removed, es ∉ pausedStates then some (pausedStates, alt) else none := by
  induction removed with
  | nil =>
    rw [if_pos (fun es hes => absurd hes List.not_mem_nil)]
    rfl
  | cons es removed ih =>
    rw [List.foldlM_cons]
    by_cases h : es ∈ pausedStates
    · rw [removePaused_paused h, if_neg (fun h' => h' es List.mem_cons_self h)]
      rfl
    · rw [removePaused_unpaused h]
      change removed.foldlM removePaused (pausedStates, alt) = _
      rw [ih]
      simp only [List.forall_mem_cons, h, not_false_eq_true, true_and]

/-- The base searcher is told everything, unless a removed state is paused. -/
theorem updateBase_eq :
    s.updateBase impl order current addedStates removedStates
      = if Disjoint removedStates s.pausedStates then
          (impl.update s.baseSearcher current addedStates removedStates).map
            fun baseSearcher => { s with baseSearcher := baseSearcher }
        else none := by
  have hiff : (∀ es ∈ order.toList removedStates, es ∉ s.pausedStates)
      ↔ Disjoint removedStates s.pausedStates := by
    simp only [order.mem_toList, Finset.disjoint_left]
  rw [updateBase]
  by_cases hempty : removedStates = ∅
  · rw [if_neg (not_not.mpr hempty), if_pos (by rw [hempty]; exact Finset.disjoint_empty_left _)]
    exact Option.map_eq_bind.symm
  · rw [if_pos hempty, foldlM_removePaused]
    by_cases h : Disjoint removedStates s.pausedStates
    · rw [if_pos (hiff.mpr h), if_pos h]
      exact Option.map_eq_bind.symm
    · rw [if_neg (fun h' => h (hiff.mp h')), if_neg h]
      rfl

/-! ## The parts of `update` -/

theorem pauseCurrent_keeps (keeps : impl.Keeps Holds) (hbase : Holds s.baseSearcher base)
    (hdisjoint : Disjoint base s.pausedStates)
    (hcurrent : ∀ es, current = some es → es ∉ removedStates → es ∈ base) (elapsed : ℚ) :
    ∃ s' base', s.pauseCurrent impl current removedStates elapsed = some s'
      ∧ Holds s'.baseSearcher base' ∧ Disjoint base' s'.pausedStates
      ∧ base' ∪ s'.pausedStates = base ∪ s.pausedStates := by
  cases current with
  | none => exact ⟨s, base, rfl, hbase, hdisjoint, rfl⟩
  | some es =>
    by_cases h : es ∉ removedStates ∧ elapsed > s.time
    · have hes : es ∈ base := hcurrent es rfl h.1
      obtain ⟨store, heq, hstore⟩ := keeps.removeState hbase none (by simp) hes
      refine ⟨{ s with baseSearcher := store, pausedStates := insert es s.pausedStates },
        base.erase es, ?_, hstore, ?_, ?_⟩
      · rw [pauseCurrent, if_pos h, heq]
        rfl
      · rw [Finset.disjoint_insert_right]
        exact ⟨Finset.notMem_erase es base, hdisjoint.mono_left (Finset.erase_subset es base)⟩
      · change base.erase es ∪ insert es s.pausedStates = _
        rw [Finset.union_insert, ← Finset.insert_union, Finset.insert_erase hes]
    · refine ⟨s, base, ?_, hbase, hdisjoint, rfl⟩
      rw [pauseCurrent, if_neg h]

theorem refill_keeps (keeps : impl.Keeps Holds) (hbase : Holds s.baseSearcher base)
    (hdisjoint : Disjoint base s.pausedStates) :
    ∃ s' base', s.refill impl = some s' ∧ Holds s'.baseSearcher base'
      ∧ Disjoint base' s'.pausedStates ∧ base' ∪ s'.pausedStates = base ∪ s.pausedStates
      ∧ ((base ∪ s.pausedStates).Nonempty → impl.empty s'.baseSearcher = false) := by
  by_cases h : impl.empty s.baseSearcher = true
  · have hempty : base = ∅ := (keeps.empty_iff hbase).mp h
    obtain ⟨store, heq, hstore⟩ := keeps.update hbase none (by simp) hdisjoint
      (Finset.empty_subset _)
    rw [Finset.sdiff_empty] at hstore
    refine ⟨{ s with baseSearcher := store, time := s.time * 2, pausedStates := ∅ },
      base ∪ s.pausedStates, ?_, hstore, Finset.disjoint_empty_right _,
      Finset.union_empty _, ?_⟩
    · rw [refill, if_pos h, heq]
      rfl
    · intro hne
      rw [Bool.eq_false_iff]
      exact fun htrue => hne.ne_empty ((keeps.empty_iff hstore).mp htrue)
  · refine ⟨s, base, ?_, hbase, hdisjoint, rfl, fun _ => Bool.eq_false_iff.mpr h⟩
    rw [refill, if_neg h]

/-- The states after `update`. -/
theorem update_keeps (order : SetOrder S) (keeps : impl.Keeps Holds) (hbase : Holds s.baseSearcher base)
    (hdisjoint : Disjoint base s.pausedStates) (hcurrent : ∀ es, current = some es → es ∈ base)
    (hadded : Disjoint (base ∪ s.pausedStates) addedStates)
    (hremoved : removedStates ⊆ base ∪ s.pausedStates ∪ addedStates)
    (hunpaused : Disjoint removedStates s.pausedStates) (wallTime : ℚ) :
    ∃ s' base', s.update impl order current addedStates removedStates wallTime = some s'
      ∧ Holds s'.baseSearcher base' ∧ Disjoint base' s'.pausedStates
      ∧ base' ∪ s'.pausedStates = (base ∪ s.pausedStates ∪ addedStates) \ removedStates
      ∧ ((base ∪ s.pausedStates ∪ addedStates) \ removedStates |>.Nonempty →
          impl.empty s'.baseSearcher = false) := by
  obtain ⟨hadded, hadded'⟩ := Finset.disjoint_union_left.mp hadded
  have hsubset : removedStates ⊆ base ∪ addedStates := by
    intro es hes
    have hes' := hremoved hes
    rw [Finset.union_right_comm, Finset.mem_union] at hes'
    exact hes'.resolve_right (Finset.disjoint_left.mp hunpaused hes)
  obtain ⟨store, heq, hstore⟩ := keeps.update hbase current hcurrent hadded hsubset
  have hupdate : s.updateBase impl order current addedStates removedStates
      = some { s with baseSearcher := store } := by
    rw [updateBase_eq, if_pos hunpaused, heq]
    rfl
  have hdisjoint' : Disjoint ((base ∪ addedStates) \ removedStates) s.pausedStates :=
    (Finset.disjoint_union_left.mpr ⟨hdisjoint, hadded'.symm⟩).mono_left Finset.sdiff_subset
  have hunion : (base ∪ addedStates) \ removedStates ∪ s.pausedStates
      = (base ∪ s.pausedStates ∪ addedStates) \ removedStates := by
    rw [Finset.union_right_comm, Finset.union_sdiff_distrib _ s.pausedStates,
      Finset.sdiff_eq_self_of_disjoint hunpaused.symm]
  have hselected : ∀ es, current = some es → es ∉ removedStates →
      es ∈ (base ∪ addedStates) \ removedStates := by
    intro es hes hnot
    exact Finset.mem_sdiff.mpr ⟨Finset.mem_union_left _ (hcurrent es hes), hnot⟩
  obtain ⟨s₁, base₁, hpause, hbase₁, hdisjoint₁, hunion₁⟩ :=
    pauseCurrent_keeps (s := { s with baseSearcher := store }) keeps hstore hdisjoint' hselected
      (wallTime - s.startTime)
  obtain ⟨s₂, base₂, hrefill, hbase₂, hdisjoint₂, hunion₂, hempty⟩ :=
    refill_keeps keeps hbase₁ hdisjoint₁
  have hall : base₁ ∪ s₁.pausedStates = (base ∪ s.pausedStates ∪ addedStates) \ removedStates :=
    hunion₁.trans hunion
  rw [hall] at hunion₂ hempty
  refine ⟨s₂, base₂, ?_, hbase₂, hdisjoint₂, hunion₂, hempty⟩
  rw [update, hupdate]
  change Option.bind (pauseCurrent _ _ _ _ _) _ = _
  rw [hpause]
  exact hrefill

end IterativeDeepeningTimeSearcher

/-! ## Runs -/

namespace DeepeningRun

open IterativeDeepeningTimeSearcher

variable {S Store : Type} [DecidableEq S] {impl : Searcher S Store} {order : SetOrder S}
  {Holds : Store → Finset S → Prop} {r : DeepeningRun S Store} {c : SearcherCall S}

/-- What every call keeps: the live states are kept, and the selected one is not paused. -/
structure Inv (impl : Searcher S Store) (Holds : Store → Finset S → Prop)
    (r : DeepeningRun S Store) : Prop where
  keepsLive : KeepsLive impl Holds r
  selected : ∀ es, r.selected = some es → es ∈ r.live \ r.searcher.pausedStates

theorem sdiff_pausedStates {base paused live : Finset S} (hdisjoint : Disjoint base paused)
    (hunion : base ∪ paused = live) : live \ paused = base := by
  rw [← hunion, Finset.union_sdiff_right, Finset.sdiff_eq_self_of_disjoint hdisjoint]

theorem selectState_keeps (keeps : impl.Keeps Holds) (h : Inv impl Holds r)
    (hne : r.live.Nonempty) (wallTime : ℚ) :
    ∃ a r', step impl order r (.selectState wallTime) = some (a, r') ∧ Inv impl Holds r' := by
  obtain ⟨base, hbase, hdisjoint, hunion, hempty⟩ := h.keepsLive
  have hnonempty : base.Nonempty := by
    rw [Finset.nonempty_iff_ne_empty]
    intro heq
    have hfalse := hempty hne
    rw [(keeps.empty_iff hbase).mpr heq] at hfalse
    exact absurd hfalse (by decide)
  obtain ⟨es, store, heq, hes, hstore⟩ := keeps.selectState hbase hnonempty
  have hnotEmpty : impl.empty store = false := by
    rw [Bool.eq_false_iff]
    exact fun htrue => hnonempty.ne_empty ((keeps.empty_iff hstore).mp htrue)
  refine ⟨some es, { r with
    searcher := { r.searcher with baseSearcher := store, startTime := wallTime }
    selected := some es }, ?_, ⟨base, hstore, hdisjoint, hunion, fun _ => hnotEmpty⟩, ?_⟩
  · rw [step, selectState, heq]
    rfl
  · intro es' hes'
    obtain rfl : es = es' := Option.some.inj hes'
    change es ∈ r.live \ r.searcher.pausedStates
    rw [sdiff_pausedStates hdisjoint hunion]
    exact hes

/-- A call that is allowed and removes no paused state has a result, and keeps the
invariant. -/
theorem step_keeps (order : SetOrder S) (keeps : impl.Keeps Holds) (h : Inv impl Holds r) (hc : r.Allowed c)
    (hpaused : r.RemovesNoPaused c) :
    ∃ a r', step impl order r c = some (a, r') ∧ Inv impl Holds r' := by
  cases c with
  | selectState wallTime => exact selectState_keeps keeps h hc wallTime
  | update current addedStates removedStates wallTime =>
    obtain ⟨hcurrent, hadded, hremoved⟩ := hc
    obtain ⟨base, hbase, hdisjoint, hunion, -⟩ := h.keepsLive
    have hselected : ∀ es, current = some es → es ∈ base := by
      intro es hes
      rw [← sdiff_pausedStates hdisjoint hunion]
      exact h.selected es (hcurrent es hes)
    rw [← hunion] at hadded hremoved
    obtain ⟨s, base', heq, hbase', hdisjoint', hunion', hempty⟩ := update_keeps order
      keeps hbase hdisjoint hselected hadded hremoved hpaused wallTime
    rw [hunion] at hunion' hempty
    refine ⟨none, ⟨s, (r.live ∪ addedStates) \ removedStates, none⟩, ?_,
      ⟨base', hbase', hdisjoint', hunion', hempty⟩, ?_⟩
    · rw [step, heq]
      rfl
    · intro es hes
      exact absurd hes (by simp)

/-- A call that removes a paused state has no result. -/
theorem step_removesPaused (h : ¬r.RemovesNoPaused c) : step impl order r c = none := by
  cases c with
  | selectState wallTime => exact absurd trivial h
  | update current addedStates removedStates wallTime =>
    have hpaused : ¬Disjoint removedStates r.searcher.pausedStates := h
    rw [step, update, updateBase_eq, if_neg hpaused]
    rfl

theorem init_inv {baseSearcher : Store} (h : Holds baseSearcher ∅)
    (startTime : ℚ) : Inv impl Holds (init (S := S) baseSearcher startTime) where
  keepsLive := ⟨∅, h, Finset.disjoint_empty_left _, Finset.empty_union _,
    fun hne => absurd hne Finset.not_nonempty_empty⟩
  selected es hes := absurd hes (by simp [init])

/-- In a run of allowed calls none of which removes a paused state, the live states are
kept, and the next allowed call has a result that keeps them exactly when it removes no
paused state. -/
theorem reaches_keepsLive (keeps : impl.Keeps Holds) {baseSearcher : Store}
    (hbase : Holds baseSearcher ∅) (startTime : ℚ)
    (h : Reaches (step impl order) (fun r c => r.Allowed c ∧ r.RemovesNoPaused c)
      (init baseSearcher startTime) r) :
    KeepsLive impl Holds r ∧ ∀ c, r.Allowed c →
      ((∃ a r', step impl order r c = some (a, r') ∧ KeepsLive impl Holds r')
        ↔ r.RemovesNoPaused c) := by
  have hinv : Inv impl Holds r := by
    refine h.invariant (init_inv hbase startTime) ?_
    intro r c a r' hr hok hstep
    obtain ⟨a', r'', heq, hr''⟩ := step_keeps order keeps hr hok.1 hok.2
    rw [hstep] at heq
    obtain ⟨-, rfl⟩ := Prod.mk.inj (Option.some.inj heq)
    exact hr''
  refine ⟨hinv.keepsLive, fun c hc => ⟨?_, ?_⟩⟩
  · rintro ⟨a, r', heq, -⟩
    by_contra hpaused
    rw [step_removesPaused hpaused] at heq
    exact absurd heq (by simp)
  · intro hpaused
    obtain ⟨a, r', heq, hr'⟩ := step_keeps order keeps hinv hc hpaused
    exact ⟨a, r', heq, hr'.keepsLive⟩

/-! ## A paused state -/

/-- Two states over a depth first searcher: the second one ran for five seconds and is
paused, and the first one was selected. -/
def onePaused : DeepeningRun ℕ (List ℕ) where
  searcher := ⟨[1], 1, 5, {2}⟩
  live := {1, 2}
  selected := some 1

/-- The calls that lead there. -/
theorem reaches_onePaused :
    Reaches (step (DFSSearcher (.increasing ℕ)) (.increasing ℕ))
      (fun r c => r.Allowed c ∧ r.RemovesNoPaused c) (init [] 0) onePaused := by
  have hadd : Reaches (step (DFSSearcher (.increasing ℕ)) (.increasing ℕ))
      (fun r c => r.Allowed c ∧ r.RemovesNoPaused c) (init [] 0)
      ⟨⟨[1, 2], 1, 0, ∅⟩, {1, 2}, none⟩ :=
    .step (c := .update none {1, 2} ∅ 0) (a := none) .init
      ⟨⟨by simp, Finset.disjoint_empty_left _, Finset.empty_subset _⟩,
        Finset.disjoint_empty_left _⟩ (by rfl)
  have hselect : Reaches (step (DFSSearcher (.increasing ℕ)) (.increasing ℕ))
      (fun r c => r.Allowed c ∧ r.RemovesNoPaused c) (init [] 0)
      ⟨⟨[1, 2], 1, 0, ∅⟩, {1, 2}, some 2⟩ :=
    .step (c := .selectState 0) (a := some 2) hadd
      ⟨⟨1, Finset.mem_insert_self 1 _⟩, trivial⟩ (by rfl)
  have helapsed : (5 : ℚ) - 0 > 1 := by norm_num
  have hpause : Reaches (step (DFSSearcher (.increasing ℕ)) (.increasing ℕ))
      (fun r c => r.Allowed c ∧ r.RemovesNoPaused c) (init [] 0)
      ⟨⟨[1], 1, 0, {2}⟩, {1, 2}, none⟩ := by
    refine .step (c := .update (some 2) ∅ ∅ 5) (a := none) hselect
      ⟨⟨fun _ h => h, Finset.disjoint_empty_right _, Finset.empty_subset _⟩,
        Finset.disjoint_empty_left _⟩ ?_
    have hcurrent : pauseCurrent (DFSSearcher (.increasing ℕ)) ⟨[1, 2], 1, 0, ∅⟩ (some 2) ∅ (5 - 0)
        = some ⟨[1], 1, 0, {2}⟩ := by
      rw [pauseCurrent, if_pos ⟨Finset.notMem_empty 2, helapsed⟩]
      rfl
    change Option.map _ (Option.bind (pauseCurrent (DFSSearcher (.increasing ℕ))
      ⟨[1, 2], 1, 0, ∅⟩ (some 2) ∅ (5 - 0)) _) = _
    rw [hcurrent]
    rfl
  exact .step (c := .selectState 5) (a := some 1) hpause
    ⟨⟨1, Finset.mem_insert_self 1 _⟩, trivial⟩ (by rfl)

/-- The first state ends and the second one stays paused. -/
theorem reaches_keepsLive_onePaused :
    KeepsLive (DFSSearcher (.increasing ℕ)) ListSearcher.Holds onePaused
      ∧ ∃ a r', step (DFSSearcher (.increasing ℕ)) (.increasing ℕ) onePaused
          (.update (some 1) ∅ {1} 6) = some (a, r')
        ∧ KeepsLive (DFSSearcher (.increasing ℕ)) ListSearcher.Holds r' := by
  obtain ⟨hkeeps, hstep⟩ := reaches_keepsLive (DFSSearcher.keeps (.increasing ℕ))
    ⟨List.nodup_nil, rfl⟩ 0 reaches_onePaused
  have hallowed : onePaused.Allowed (.update (some 1) ∅ {1} 6) :=
    ⟨fun _ h => h, Finset.disjoint_empty_right _, by decide⟩
  refine ⟨hkeeps, (hstep _ hallowed).mpr ?_⟩
  change Disjoint ({1} : Finset ℕ) {2}
  decide

/-- The second state is removed while it is paused. -/
theorem removesPaused_undefined :
    ¬∀ r, Reaches (step (DFSSearcher (.increasing ℕ)) (.increasing ℕ)) Allowed (init [] 0) r →
      ∀ c, r.Allowed c → ∃ a r', step (DFSSearcher (.increasing ℕ)) (.increasing ℕ) r c
          = some (a, r')
        ∧ KeepsLive (DFSSearcher (.increasing ℕ)) ListSearcher.Holds r' := by
  intro h
  have hallowed : onePaused.Allowed (.update (some 1) ∅ {2} 6) :=
    ⟨fun _ h => h, Finset.disjoint_empty_right _, by decide⟩
  obtain ⟨a, r', heq, -⟩ := h onePaused (reaches_onePaused.mono fun _ _ h => h.1) _ hallowed
  rw [step_removesPaused (by change ¬Disjoint ({2} : Finset ℕ) {2}; decide)] at heq
  exact absurd heq (by simp)

end DeepeningRun

end Xklee
