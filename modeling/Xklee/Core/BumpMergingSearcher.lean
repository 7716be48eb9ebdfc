/-
Merging by bumps: `BumpMergingSearcher` of `lib/Core/Searcher.cpp`.

A state that the base searcher selects at a call of `klee_merge` waits there, taken out of the base
searcher. When one waits there already it is merged with the new state. If that succeeds the new
state is put back into the base searcher and terminated, for `update` to take it out; if not, the
one that waited is bumped past the merge point. `selectState` goes on until the base searcher
selects a state elsewhere, and that may be the one that was terminated. `update` passes the removed
states on to the base searcher, which does not know the ones that wait.
-/
import Xklee.Core.MergingSearcher
import Mathlib.Algebra.Order.BigOperators.Group.Finset
import Mathlib.Algebra.BigOperators.Group.Finset.Basic
import Mathlib.Algebra.Group.Action.Defs

set_option autoImplicit false

namespace Xklee

/-! ## The code -/

/-- The fields of `BumpMergingSearcher`, and the fields of the states and of the executor that it
uses. -/
structure BumpMergingSearcher (S Store : Type) where
  baseSearcher : Store
  statesAtMerge : ℕ → Option S
  pc : S → ℕ
  prevPC : S → ℕ
  removedStates : Finset S

namespace BumpMergingSearcher

open MergingSearcher (IsMergePoint)

variable {S Store : Type} [DecidableEq S] (env : MergingEnv S Store)

/-- `getMergePoint`. -/
def getMergePoint (s : BumpMergingSearcher S Store) (es : S) : Option ℕ :=
  if IsMergePoint env (s.pc es) then some (s.pc es) else none

/-- `Executor::terminateState`, for a state that is not in `addedStates`. -/
def terminateState (s : BumpMergingSearcher S Store) (es : S) : BumpMergingSearcher S Store :=
  { s with
    pc := Function.update s.pc es (s.prevPC es)
    removedStates := insert es s.removedStates }

/-- The key of `statesAtMerge.begin()`. -/
def firstPoint (s : BumpMergingSearcher S Store) : Option ℕ :=
  let points := (Finset.range env.program.length).filter fun mp => (s.statesAtMerge mp).isSome
  (env.pointOrder.toList (points.image some)).head?.join

/-- "out of base states, pick one to pop". -/
def popState (s : BumpMergingSearcher S Store) : Option (BumpMergingSearcher S Store) :=
  if env.impl.empty s.baseSearcher then do
    let mp ← firstPoint env s
    let es ← s.statesAtMerge mp
    let baseSearcher ← env.impl.addState s.baseSearcher es none
    some { s with
      baseSearcher := baseSearcher
      statesAtMerge := Function.update s.statesAtMerge mp none
      pc := Function.update s.pc es (s.pc es + 1) }
  else some s

/-- What the base searcher selects. -/
def pickState (s : BumpMergingSearcher S Store) : Option (S × BumpMergingSearcher S Store) := do
  let s ← popState env s
  let (es, baseSearcher) ← env.impl.selectState s.baseSearcher
  some (es, { s with baseSearcher := baseSearcher })

variable (outcome : ℕ → S → S → Bool)

/-- What is done with a state at a merge point. `outcome` is what `ExecutionState::merge` answers
at an instruction. -/
def atMergePoint (mp : ℕ) (es : S) (s : BumpMergingSearcher S Store) :
    Option (BumpMergingSearcher S Store) := do
  let baseSearcher ← env.impl.removeState s.baseSearcher es none
  match s.statesAtMerge mp with
  | none =>
      some { s with
        baseSearcher := baseSearcher
        statesAtMerge := Function.update s.statesAtMerge mp (some es) }
  | some mergeWith =>
      if outcome mp mergeWith es then do
        let baseSearcher ← env.impl.addState baseSearcher es none
        some ({ s with baseSearcher := baseSearcher }.terminateState es)
      else do
        -- the bump
        let baseSearcher ← env.impl.addState baseSearcher mergeWith none
        some { s with
          baseSearcher := baseSearcher
          statesAtMerge := Function.update s.statesAtMerge mp (some es)
          pc := Function.update s.pc mergeWith (s.pc mergeWith + 1) }

/-- `selectState`. The first argument bounds the rounds. -/
def selectState : ℕ → BumpMergingSearcher S Store → Option (S × BumpMergingSearcher S Store)
  | 0, _ => none
  | n + 1, s => do
      let (es, s) ← pickState env s
      match getMergePoint env s es with
      | none => some (es, s)
      | some mp => do
          let s ← atMergePoint env outcome mp es s
          selectState n s

/-- `update`. -/
def update (s : BumpMergingSearcher S Store) (current : Option S)
    (addedStates removedStates : Finset S) : Option (BumpMergingSearcher S Store) := do
  let baseSearcher ← env.impl.update s.baseSearcher current addedStates removedStates
  some { s with baseSearcher := baseSearcher }

/-- A bound for the rounds of `selectState`: each of them takes a state out of the base searcher,
past a merge point or away. -/
def rounds (live : Finset S) : ℕ := (2 * env.program.length + 1) * live.card + 1

end BumpMergingSearcher

/-! ## Its caller -/

/-- The searcher between two steps of `Executor::run`, the states of the executor and the one that
runs. -/
structure BumpRun (S Store : Type) where
  searcher : BumpMergingSearcher S Store
  live : Finset S
  selected : Option S

namespace BumpRun

variable {S Store : Type} [DecidableEq S] (env : MergingEnv S Store)

/-- Before the first call. -/
def init (baseSearcher : Store) : BumpRun S Store where
  searcher := ⟨baseSearcher, fun _ => none, fun _ => 0, fun _ => 0, ∅⟩
  live := ∅
  selected := none

/-- One step: the state that is returned, and what comes after it. -/
def step (r : BumpRun S Store) : MergingCall S → Option (Option S × BumpRun S Store)
  | .selectState outcome =>
      (r.searcher.selectState env outcome (BumpMergingSearcher.rounds env r.live)).map
        fun (es, searcher) => (some es, { r with searcher := searcher, selected := some es })
  | .execute pc prevPC =>
      match r.selected with
      | none => none
      | some es => some (none, { r with
          searcher := { r.searcher with
            pc := Function.update r.searcher.pc es pc
            prevPC := Function.update r.searcher.prevPC es prevPC } })
  | .terminate es => some (none, { r with searcher := r.searcher.terminateState es })
  | .update current addedStates pc prevPC =>
      let s := { r.searcher with
        pc := fun es => if es ∈ addedStates then pc es else r.searcher.pc es
        prevPC := fun es => if es ∈ addedStates then prevPC es else r.searcher.prevPC es }
      (s.update env current addedStates s.removedStates).map fun searcher =>
        (none, ⟨{ searcher with removedStates := ∅ },
          (r.live ∪ addedStates) \ s.removedStates, none⟩)

/-- What `Executor::run` takes care of, as for `MergingSearcher`. -/
def Allowed (r : BumpRun S Store) : MergingCall S → Prop
  | .selectState _ => r.live.Nonempty ∧ r.searcher.removedStates = ∅
  | .execute _ _ => r.selected.isSome
  | .terminate es => es ∈ r.live
  | .update current addedStates _ _ =>
      (∀ es, current = some es → r.selected = some es) ∧ Disjoint r.live addedStates

end BumpRun

/-- The base searcher does not select a state again that was merged away in the same call of
`selectState`. -/
def BumpMergingSearcher.Spares {S Store : Type} [DecidableEq S] (env : MergingEnv S Store)
    (outcome : ℕ → S → S → Bool) : ℕ → BumpMergingSearcher S Store → Prop
  | 0, _ => True
  | n + 1, s => ∀ es s', pickState env s = some (es, s') → es ∉ s'.removedStates
      ∧ ∀ mp s'', getMergePoint env s' es = some mp → atMergePoint env outcome mp es s' = some s'' →
        Spares env outcome n s''

namespace BumpRun

variable {S Store : Type} [DecidableEq S] (env : MergingEnv S Store)

/-- The condition for a step: no state is selected again in the call that merged it away, and no
state that is removed waits at a merge point. -/
def Within (r : BumpRun S Store) : MergingCall S → Prop
  | .selectState outcome =>
      r.searcher.Spares env outcome (BumpMergingSearcher.rounds env r.live)
  | .update _ _ _ _ =>
      ∀ es ∈ r.searcher.removedStates, ∀ mp, r.searcher.statesAtMerge mp ≠ some es
  | _ => True

/-- The base searcher and `statesAtMerge` have no state in common, and together all live
states. -/
def KeepsLive (Holds : Store → Finset S → Prop) (r : BumpRun S Store) : Prop :=
  ∃ held, Holds r.searcher.baseSearcher held
    ∧ (∀ mp es, r.searcher.statesAtMerge mp = some es → es ∉ held)
    ∧ ∀ es, es ∈ r.live ↔ es ∈ held ∨ ∃ mp, r.searcher.statesAtMerge mp = some es

end BumpRun

/-! ## The states that wait -/

/-- The live states are those the base searcher holds and, apart from them, those that wait. A
state that waits and was not terminated is at its merge point. -/
structure Waiting {S Store : Type} (env : MergingEnv S Store) (live held removed : Finset S)
    (statesAtMerge : ℕ → Option S) (pc : S → ℕ) : Prop where
  apart : ∀ mp es, statesAtMerge mp = some es → es ∉ held
  cover : ∀ es, es ∈ live ↔ es ∈ held ∨ ∃ mp, statesAtMerge mp = some es
  points : ∀ mp es, statesAtMerge mp = some es →
    MergingSearcher.IsMergePoint env mp ∧ (es ∉ removed → pc es = mp)

namespace Waiting

open MergingSearcher (IsMergePoint)

variable {S Store : Type} [DecidableEq S] {env : MergingEnv S Store} {live held removed : Finset S}
  {statesAtMerge : ℕ → Option S} {pc : S → ℕ} {es : S} {mp : ℕ}

omit [DecidableEq S] in
theorem held_subset (h : Waiting env live held removed statesAtMerge pc) : held ⊆ live :=
  fun es hes => (h.cover es).mpr (Or.inl hes)

omit [DecidableEq S] in
/-- What happens to states that do not wait. -/
theorem congr (h : Waiting env live held removed statesAtMerge pc) {removed' : Finset S}
    {pc' : S → ℕ} (hpc : ∀ mp es, statesAtMerge mp = some es → es ∉ removed' →
      es ∉ removed ∧ pc' es = pc es) : Waiting env live held removed' statesAtMerge pc' where
  apart := h.apart
  cover := h.cover
  points mp es hmp := by
    obtain ⟨hpoint, hat⟩ := h.points mp es hmp
    refine ⟨hpoint, ?_⟩
    intro hnot
    obtain ⟨hnot', heq⟩ := hpc mp es hmp hnot
    rw [heq]
    exact hat hnot'

/-- A state that waits goes on behind its merge point. -/
theorem unpark (h : Waiting env live held removed statesAtMerge pc) (hes : statesAtMerge mp = some es)
    (hnot : es ∉ removed) : Waiting env live (insert es held) removed
      (Function.update statesAtMerge mp none) (Function.update pc es (pc es + 1)) := by
  have hold : ∀ mp' es', Function.update statesAtMerge mp none mp' = some es' →
      statesAtMerge mp' = some es' ∧ es' ≠ es := by
    intro mp' es' heq
    have hne : mp' ≠ mp := by
      rintro rfl
      rw [Function.update_self] at heq
      exact absurd heq (by simp)
    rw [Function.update_of_ne hne] at heq
    refine ⟨heq, ?_⟩
    rintro rfl
    exact hne (((h.points mp' es' heq).2 hnot).symm.trans ((h.points mp es' hes).2 hnot))
  refine ⟨?_, ?_, ?_⟩
  · intro mp' es' heq
    obtain ⟨heq, hne⟩ := hold mp' es' heq
    rw [Finset.mem_insert, not_or]
    exact ⟨hne, h.apart mp' es' heq⟩
  · intro es'
    rw [h.cover, Finset.mem_insert, or_assoc]
    by_cases heq : es' = es
    · subst heq
      exact ⟨fun _ => Or.inl rfl, fun _ => Or.inr ⟨mp, hes⟩⟩
    · have hiff : (∃ mp', statesAtMerge mp' = some es')
          ↔ ∃ mp', Function.update statesAtMerge mp none mp' = some es' := by
        constructor
        · rintro ⟨mp', hmp'⟩
          have hne : mp' ≠ mp := by
            rintro rfl
            exact heq (Option.some.inj (hmp'.symm.trans hes))
          exact ⟨mp', by rw [Function.update_of_ne hne, hmp']⟩
        · rintro ⟨mp', hmp'⟩
          exact ⟨mp', (hold mp' es' hmp').1⟩
      rw [hiff]
      exact ⟨Or.inr, fun h => h.resolve_left heq⟩
  · intro mp' es' heq
    obtain ⟨heq, hne⟩ := hold mp' es' heq
    rw [Function.update_of_ne hne]
    exact h.points mp' es' heq

/-- A state at a merge point where none waits is taken out of the base searcher. -/
theorem park (h : Waiting env live held removed statesAtMerge pc) (hes : es ∈ held)
    (hpoint : IsMergePoint env (pc es)) (hnone : statesAtMerge (pc es) = none) :
    Waiting env live (held.erase es) removed (Function.update statesAtMerge (pc es) (some es)) pc := by
  have hnew : ∀ mp' es', Function.update statesAtMerge (pc es) (some es) mp' = some es' →
      (mp' = pc es ∧ es' = es) ∨ statesAtMerge mp' = some es' := by
    intro mp' es' heq
    by_cases hmp : mp' = pc es
    · subst hmp
      rw [Function.update_self] at heq
      exact Or.inl ⟨rfl, (Option.some.inj heq).symm⟩
    · rw [Function.update_of_ne hmp] at heq
      exact Or.inr heq
  refine ⟨?_, ?_, ?_⟩
  · intro mp' es' heq hmem
    obtain ⟨hne, hheld⟩ := Finset.mem_erase.mp hmem
    obtain ⟨-, rfl⟩ | heq := hnew mp' es' heq
    · exact hne rfl
    · exact h.apart mp' es' heq hheld
  · intro es'
    rw [h.cover, Finset.mem_erase]
    by_cases heq : es' = es
    · subst heq
      exact ⟨fun _ => Or.inr ⟨pc es', Function.update_self ..⟩, fun _ => Or.inl hes⟩
    · have hiff : (∃ mp', statesAtMerge mp' = some es')
          ↔ ∃ mp', Function.update statesAtMerge (pc es) (some es) mp' = some es' := by
        constructor
        · rintro ⟨mp', hmp'⟩
          have hne : mp' ≠ pc es := by
            rintro rfl
            exact absurd (hmp'.symm.trans hnone) (by simp)
          exact ⟨mp', by rw [Function.update_of_ne hne, hmp']⟩
        · rintro ⟨mp', hmp'⟩
          exact ⟨mp', (hnew mp' es' hmp').resolve_left fun hboth => heq hboth.2⟩
      rw [hiff]
      exact or_congr_left ⟨fun h => ⟨heq, h⟩, fun h => h.2⟩
  · intro mp' es' heq
    obtain ⟨rfl, rfl⟩ | heq := hnew mp' es' heq
    · exact ⟨hpoint, fun _ => rfl⟩
    · exact h.points mp' es' heq

end Waiting

/-! ## Rounds -/

/-- How often a state can still leave the base searcher or a merge point. -/
def bumpWeight {S : Type} [DecidableEq S] (length : ℕ) (held removed : Finset S) (pc : S → ℕ)
    (es : S) : ℕ :=
  if es ∈ removed then 0 else 2 * (length - pc es) + if es ∈ held then 1 else 0

section Weight

variable {S : Type} [DecidableEq S] {length : ℕ} {live held removed : Finset S} {pc : S → ℕ} {es : S}

theorem bumpWeight_unpark_lt (hes : es ∉ held) (hnot : es ∉ removed) (hpc : pc es < length)
    (hlive : es ∈ live) :
    ∑ x ∈ live, bumpWeight length (insert es held) removed (Function.update pc es (pc es + 1)) x
      < ∑ x ∈ live, bumpWeight length held removed pc x := by
  refine Finset.sum_lt_sum ?_ ⟨es, hlive, ?_⟩
  · intro x _
    rw [bumpWeight, bumpWeight]
    by_cases hx : x = es
    · subst hx
      rw [if_neg hnot, if_neg hnot, Function.update_self, if_pos (Finset.mem_insert_self x held),
        if_neg hes]
      omega
    · rw [Function.update_of_ne hx]
      simp only [Finset.mem_insert, hx, false_or, le_refl]
  · rw [bumpWeight, bumpWeight, if_neg hnot, if_neg hnot, Function.update_self,
      if_pos (Finset.mem_insert_self es held), if_neg hes]
    omega

theorem bumpWeight_park_lt (hes : es ∈ held) (hnot : es ∉ removed) (hlive : es ∈ live) :
    ∑ x ∈ live, bumpWeight length (held.erase es) removed pc x
      < ∑ x ∈ live, bumpWeight length held removed pc x := by
  refine Finset.sum_lt_sum ?_ ⟨es, hlive, ?_⟩
  · intro x _
    rw [bumpWeight, bumpWeight]
    by_cases hx : x = es
    · subst hx
      rw [if_neg hnot, if_neg hnot, if_neg (Finset.notMem_erase x held)]
      omega
    · simp only [Finset.mem_erase, ne_eq, hx, not_false_eq_true, true_and, le_refl]
  · rw [bumpWeight, bumpWeight, if_neg hnot, if_neg hnot, if_neg (Finset.notMem_erase es held),
      if_pos hes]
    omega

theorem bumpWeight_terminate_lt (hes : es ∈ held) (hnot : es ∉ removed) (hlive : es ∈ live) (n : ℕ) :
    ∑ x ∈ live, bumpWeight length held (insert es removed) (Function.update pc es n) x
      < ∑ x ∈ live, bumpWeight length held removed pc x := by
  refine Finset.sum_lt_sum ?_ ⟨es, hlive, ?_⟩
  · intro x _
    rw [bumpWeight, bumpWeight]
    by_cases hx : x = es
    · subst hx
      rw [if_pos (Finset.mem_insert_self x removed)]
      omega
    · rw [Function.update_of_ne hx]
      simp only [Finset.mem_insert, hx, false_or, le_refl]
  · rw [bumpWeight, bumpWeight, if_pos (Finset.mem_insert_self es removed), if_neg hnot, if_pos hes]
    omega

theorem sum_bumpWeight_le :
    ∑ x ∈ live, bumpWeight length held removed pc x ≤ (2 * length + 1) * live.card := by
  rw [Nat.mul_comm, ← smul_eq_mul]
  refine Finset.sum_le_card_nsmul live _ _ ?_
  intro x _
  rw [bumpWeight]
  split
  · exact Nat.zero_le _
  · split <;> omega

end Weight

namespace BumpMergingSearcher

open MergingSearcher (IsMergePoint)

variable {S Store : Type} [DecidableEq S] {env : MergingEnv S Store} {Holds : Store → Finset S → Prop}
  {outcome : ℕ → S → S → Bool} {s : BumpMergingSearcher S Store} {live held : Finset S} {es : S}
  {mp : ℕ}

omit [DecidableEq S] in
theorem getMergePoint_eq_some :
    getMergePoint env s es = some mp ↔ IsMergePoint env (s.pc es) ∧ s.pc es = mp := by
  rw [getMergePoint]
  by_cases h : IsMergePoint env (s.pc es)
  · simp [h]
  · simp [h]

/-- Between two rounds: the base searcher holds `held`, with all terminated states, and the rest of
the live states wait. -/
structure Between (env : MergingEnv S Store) (Holds : Store → Finset S → Prop)
    (live held : Finset S) (s : BumpMergingSearcher S Store) : Prop where
  holds : Holds s.baseSearcher held
  waiting : Waiting env live held s.removedStates s.statesAtMerge s.pc
  removed : s.removedStates ⊆ held

/-- What the rounds left of `selectState` come to at most. -/
def weight (env : MergingEnv S Store) (live held : Finset S) (s : BumpMergingSearcher S Store) : ℕ :=
  ∑ es ∈ live, bumpWeight env.program.length held s.removedStates s.pc es

omit [DecidableEq S] in
theorem Between.notMem_removed (h : Between env Holds live held s) (hes : s.statesAtMerge mp = some es) :
    es ∉ s.removedStates :=
  fun hmem => h.waiting.apart mp es hes (h.removed hmem)

omit [DecidableEq S] in
/-- A state waits when some do. -/
theorem Between.firstPoint (h : Between env Holds live held s) (hes : s.statesAtMerge mp = some es) :
    ∃ mp' es', firstPoint env s = some mp' ∧ s.statesAtMerge mp' = some es' := by
  have hmem : mp ∈ (Finset.range env.program.length).filter
      fun mp => (s.statesAtMerge mp).isSome := by
    rw [Finset.mem_filter, Finset.mem_range, hes]
    exact ⟨(List.getElem?_eq_some_iff.mp (h.waiting.points mp es hes).1).1, rfl⟩
  have hpoint : some mp ∈ env.pointOrder.toList (((Finset.range env.program.length).filter
      fun mp => (s.statesAtMerge mp).isSome).image some) :=
    (env.pointOrder.mem_toList _ _).mpr (Finset.mem_image_of_mem some hmem)
  obtain ⟨first, hfirst⟩ := Option.isSome_iff_exists.mp
    (List.isSome_head?.mpr (List.ne_nil_of_mem hpoint))
  obtain ⟨mp', hmp', rfl⟩ := Finset.mem_image.mp
    ((env.pointOrder.mem_toList _ _).mp (List.mem_of_head? hfirst))
  obtain ⟨es', hes'⟩ := Option.isSome_iff_exists.mp (Finset.mem_filter.mp hmp').2
  refine ⟨mp', es', ?_, hes'⟩
  rw [BumpMergingSearcher.firstPoint, hfirst]
  rfl

/-- A live state is in the base searcher afterwards. -/
theorem popState_between (keeps : env.impl.Keeps Holds) (h : Between env Holds live held s)
    (hlive : live.Nonempty) : ∃ s' held', popState env s = some s'
      ∧ Between env Holds live held' s' ∧ held'.Nonempty
      ∧ weight env live held' s' ≤ weight env live held s := by
  by_cases hempty : env.impl.empty s.baseSearcher = true
  · obtain rfl := (keeps.empty_iff h.holds).mp hempty
    obtain ⟨es₀, hes₀⟩ := hlive
    obtain ⟨mp₀, hmp₀⟩ := ((h.waiting.cover es₀).mp hes₀).resolve_left (Finset.notMem_empty es₀)
    obtain ⟨mp, es, hfirst, hes⟩ := h.firstPoint hmp₀
    have hnot := h.notMem_removed hes
    obtain ⟨baseSearcher, hadd, hholds⟩ := keeps.addState h.holds none (by simp)
      (Finset.notMem_empty es)
    obtain ⟨hpoint, hpc⟩ := h.waiting.points mp es hes
    have hlt : s.pc es < env.program.length := by
      rw [hpc hnot]
      exact (List.getElem?_eq_some_iff.mp hpoint).1
    refine ⟨{ s with
      baseSearcher := baseSearcher
      statesAtMerge := Function.update s.statesAtMerge mp none
      pc := Function.update s.pc es (s.pc es + 1) }, insert es ∅, ?_,
      ⟨hholds, h.waiting.unpark hes hnot, ?_⟩, Finset.insert_nonempty es ∅,
      (bumpWeight_unpark_lt (Finset.notMem_empty es) hnot hlt
        ((h.waiting.cover es).mpr (Or.inr ⟨mp, hes⟩))).le⟩
    · rw [popState, if_pos hempty, hfirst]
      change (s.statesAtMerge mp).bind _ = _
      rw [hes]
      change (env.impl.addState s.baseSearcher es none).bind _ = _
      rw [hadd]
      rfl
    · exact h.removed.trans (Finset.empty_subset _)
  · refine ⟨s, held, if_neg hempty, h, ?_, le_rfl⟩
    rw [Finset.nonempty_iff_ne_empty]
    exact fun heq => hempty ((keeps.empty_iff h.holds).mpr heq)

/-- The base searcher selects one of its states. -/
theorem pickState_between (keeps : env.impl.Keeps Holds) (h : Between env Holds live held s)
    (hlive : live.Nonempty) : ∃ es s' held', pickState env s = some (es, s')
      ∧ Between env Holds live held' s' ∧ es ∈ held'
      ∧ weight env live held' s' ≤ weight env live held s := by
  obtain ⟨s₁, held₁, hpop, h₁, hne, hle⟩ := popState_between keeps h hlive
  obtain ⟨es, baseSearcher, hselect, hes, hholds⟩ := keeps.selectState h₁.holds hne
  refine ⟨es, { s₁ with baseSearcher := baseSearcher }, held₁, ?_, ⟨hholds, h₁.waiting, h₁.removed⟩,
    hes, hle⟩
  rw [pickState, hpop]
  change (env.impl.selectState s₁.baseSearcher).bind _ = _
  rw [hselect]
  rfl

/-- A state at a merge point that was not terminated waits there, or is merged away, or bumps the
one that waited. -/
theorem atMergePoint_between (keeps : env.impl.Keeps Holds) (h : Between env Holds live held s)
    (hes : es ∈ held) (hnot : es ∉ s.removedStates) (hmp : getMergePoint env s es = some mp) :
    ∃ s' held', atMergePoint env outcome mp es s = some s' ∧ Between env Holds live held' s'
      ∧ weight env live held' s' < weight env live held s := by
  obtain ⟨hpoint, rfl⟩ := getMergePoint_eq_some.mp hmp
  have hlive : es ∈ live := h.waiting.held_subset hes
  obtain ⟨store, hremove, hholds⟩ := keeps.removeState h.holds none (by simp) hes
  cases hat : s.statesAtMerge (s.pc es) with
  | none =>
    refine ⟨{ s with
      baseSearcher := store
      statesAtMerge := Function.update s.statesAtMerge (s.pc es) (some es) }, held.erase es, ?_,
      ⟨hholds, h.waiting.park hes hpoint hat, ?_⟩, bumpWeight_park_lt hes hnot hlive⟩
    · rw [atMergePoint, hremove]
      change (match s.statesAtMerge (s.pc es) with | none => _ | some mergeWith => _) = _
      rw [hat]
    · exact fun x hx => Finset.mem_erase.mpr ⟨fun heq => hnot (heq ▸ hx), h.removed hx⟩
  | some mergeWith =>
    have hother := h.waiting.apart _ _ hat
    have hne : mergeWith ≠ es := fun heq => hother (heq ▸ hes)
    by_cases hmerge : outcome (s.pc es) mergeWith es = true
    · -- the new state is merged away, and goes back to the base searcher
      obtain ⟨store', hadd, hholds'⟩ := keeps.addState hholds none (by simp)
        (Finset.notMem_erase es held)
      rw [Finset.insert_erase hes] at hholds'
      refine ⟨({ s with baseSearcher := store' } : BumpMergingSearcher S Store).terminateState es,
        held, ?_, ⟨hholds', ?_, Finset.insert_subset hes h.removed⟩,
        bumpWeight_terminate_lt hes hnot hlive _⟩
      · rw [atMergePoint, hremove]
        change (match s.statesAtMerge (s.pc es) with | none => _ | some mergeWith => _) = _
        rw [hat]
        change (if outcome (s.pc es) mergeWith es then _ else _) = _
        rw [if_pos hmerge, hadd]
        rfl
      · refine h.waiting.congr ?_
        intro mp' es' hes' hnot'
        have hne' : es' ≠ es := fun heq => h.waiting.apart mp' es' hes' (heq ▸ hes)
        exact ⟨fun hmem => hnot' (Finset.mem_insert_of_mem hmem), Function.update_of_ne hne' ..⟩
    · -- the one that waited is bumped, and then the new state waits where none does
      have hnotOther := h.notMem_removed hat
      have hlt : s.pc mergeWith < env.program.length := by
        rw [(h.waiting.points _ _ hat).2 hnotOther]
        exact (List.getElem?_eq_some_iff.mp hpoint).1
      obtain ⟨store', hadd, hholds'⟩ := keeps.addState hholds none (by simp)
        (fun hmem => hother (Finset.mem_of_mem_erase hmem))
      have hbumped := h.waiting.unpark hat hnotOther
      have hpc : Function.update s.pc mergeWith (s.pc mergeWith + 1) es = s.pc es :=
        Function.update_of_ne hne.symm ..
      have hparked := hbumped.park (Finset.mem_insert_of_mem hes)
        (by rw [hpc]; exact hpoint) (by rw [hpc]; exact Function.update_self ..)
      rw [hpc, Function.update_idem, Finset.erase_insert_of_ne hne] at hparked
      refine ⟨{ s with
        baseSearcher := store'
        statesAtMerge := Function.update s.statesAtMerge (s.pc es) (some es)
        pc := Function.update s.pc mergeWith (s.pc mergeWith + 1) },
        insert mergeWith (held.erase es), ?_, ⟨hholds', hparked, ?_⟩, ?_⟩
      · rw [atMergePoint, hremove]
        change (match s.statesAtMerge (s.pc es) with | none => _ | some mergeWith => _) = _
        rw [hat]
        change (if outcome (s.pc es) mergeWith es then _ else _) = _
        rw [if_neg hmerge, hadd]
        rfl
      · exact fun x hx => Finset.mem_insert_of_mem
          (Finset.mem_erase.mpr ⟨fun heq => hnot (heq ▸ hx), h.removed hx⟩)
      · have hunpark := bumpWeight_unpark_lt hother hnotOther hlt
          ((h.waiting.cover mergeWith).mpr (Or.inr ⟨_, hat⟩))
        rw [weight, ← Finset.erase_insert_of_ne hne]
        exact (bumpWeight_park_lt (Finset.mem_insert_of_mem hes) hnot hlive).trans hunpark

/-- `selectState` returns a live state that was not terminated, when the base searcher selects
none of those that are merged away on the way. -/
theorem selectState_between (keeps : env.impl.Keeps Holds) (hlive : live.Nonempty) {n : ℕ}
    (h : Between env Holds live held s) (hspares : s.Spares env outcome n)
    (hn : weight env live held s < n) :
    ∃ es s' held', selectState env outcome n s = some (es, s') ∧ Between env Holds live held' s'
      ∧ es ∈ held' ∧ es ∉ s'.removedStates := by
  induction n generalizing s held with
  | zero => omega
  | succ n ih =>
    obtain ⟨es, s₁, held₁, hpick, h₁, hes, hle⟩ := pickState_between keeps h hlive
    obtain ⟨hnot, hrest⟩ := hspares es s₁ hpick
    rw [selectState, hpick]
    change ∃ es' s' held', (match getMergePoint env s₁ es with
      | none => some (es, s₁)
      | some mp => (atMergePoint env outcome mp es s₁).bind fun s => selectState env outcome n s)
        = some (es', s') ∧ _
    cases hmp : getMergePoint env s₁ es with
    | none => exact ⟨es, s₁, held₁, rfl, h₁, hes, hnot⟩
    | some mp =>
      obtain ⟨s₂, held₂, hat, h₂, hlt⟩ := atMergePoint_between keeps h₁ hes hnot hmp
      obtain ⟨es', s', held', heq, h', hes', hnot'⟩ := ih h₂ (hrest mp s₂ hmp hat) (by omega)
      refine ⟨es', s', held', ?_, h', hes', hnot'⟩
      change (atMergePoint env outcome mp es s₁).bind _ = _
      rw [hat]
      exact heq

/-! ## Merges that fail -/

variable {s' : BumpMergingSearcher S Store}

/-- No state is terminated when a base state is popped. -/
theorem removedStates_pickState (h : pickState env s = some (es, s')) :
    s'.removedStates = s.removedStates := by
  obtain ⟨s₁, hpop, hselect⟩ := Option.bind_eq_some_iff.mp h
  obtain ⟨⟨es', store⟩, -, heq⟩ := Option.bind_eq_some_iff.mp hselect
  obtain ⟨rfl, rfl⟩ := Prod.mk.inj (Option.some.inj heq)
  change s₁.removedStates = s.removedStates
  rw [popState] at hpop
  split at hpop
  · obtain ⟨mp, -, hpop⟩ := Option.bind_eq_some_iff.mp hpop
    obtain ⟨es, -, hpop⟩ := Option.bind_eq_some_iff.mp hpop
    obtain ⟨store, -, heq⟩ := Option.bind_eq_some_iff.mp hpop
    rw [← Option.some.inj heq]
  · rw [← Option.some.inj hpop]

/-- No state is terminated when a merge fails. -/
theorem removedStates_atMergePoint (hfails : ∀ mergeWith, outcome mp mergeWith es = false)
    (h : atMergePoint env outcome mp es s = some s') : s'.removedStates = s.removedStates := by
  obtain ⟨store, -, h⟩ := Option.bind_eq_some_iff.mp h
  split at h
  · rw [← Option.some.inj h]
  · rw [if_neg (by rw [hfails]; exact Bool.false_ne_true)] at h
    obtain ⟨store, -, h⟩ := Option.bind_eq_some_iff.mp h
    rw [← Option.some.inj h]

/-- When no merge succeeds, no state is merged away. -/
theorem spares_of_fails (hfails : ∀ mp a b, outcome mp a b = false) (n : ℕ)
    (hremoved : s.removedStates = ∅) : s.Spares env outcome n := by
  induction n generalizing s with
  | zero => trivial
  | succ n ih =>
    intro es s₁ hpick
    have hremoved₁ : s₁.removedStates = ∅ := (removedStates_pickState hpick).trans hremoved
    refine ⟨hremoved₁ ▸ Finset.notMem_empty es, ?_⟩
    intro mp s₂ _ hat
    exact ih ((removedStates_atMergePoint (fun a => hfails mp a es) hat).trans hremoved₁)

end BumpMergingSearcher

/-! ## Runs -/

namespace BumpRun

open BumpMergingSearcher MergingSearcher

variable {S Store : Type} [DecidableEq S] {env : MergingEnv S Store} {Holds : Store → Finset S → Prop}
  {r r' : BumpRun S Store} {c : MergingCall S}

/-- What every step keeps. -/
structure Inv (env : MergingEnv S Store) (Holds : Store → Finset S → Prop) (r : BumpRun S Store) :
    Prop where
  held : ∃ held, Holds r.searcher.baseSearcher held
    ∧ Waiting env r.live held r.searcher.removedStates r.searcher.statesAtMerge r.searcher.pc
    ∧ ∀ es, r.selected = some es → es ∈ held
  removedStates : r.searcher.removedStates ⊆ r.live

omit [DecidableEq S] in
theorem init_inv {baseSearcher : Store} (h : Holds baseSearcher ∅) :
    Inv env Holds (init baseSearcher) where
  held := ⟨∅, h, ⟨by simp [init], by simp [init], by simp [init]⟩, by simp [init]⟩
  removedStates := Finset.empty_subset _

/-- What a step comes to: the invariant is kept, and a state that is returned is live and was
not terminated. -/
def Steps (env : MergingEnv S Store) (Holds : Store → Finset S → Prop) (r : BumpRun S Store)
    (c : MergingCall S) : Prop :=
  ∃ a r', step env r c = some (a, r') ∧ Inv env Holds r'
    ∧ ∀ es, a = some es → es ∈ r.live ∧ es ∉ r'.searcher.removedStates

theorem selectState_steps (keeps : env.impl.Keeps Holds) (h : Inv env Holds r)
    {outcome : ℕ → S → S → Bool} (hc : r.Allowed (.selectState outcome))
    (hspares : r.Within env (.selectState outcome)) : Steps env Holds r (.selectState outcome) := by
  obtain ⟨hlive, hremoved⟩ := hc
  obtain ⟨held, hholds, hwaiting, -⟩ := h.held
  have hbetween : Between env Holds r.live held r.searcher :=
    ⟨hholds, hwaiting, by rw [hremoved]; exact Finset.empty_subset held⟩
  obtain ⟨es, s, held', heq, hbetween', hes, hnot⟩ :=
    selectState_between keeps hlive hbetween hspares (Nat.lt_succ_of_le sum_bumpWeight_le)
  refine ⟨some es, { r with searcher := s, selected := some es }, ?_,
    ⟨⟨held', hbetween'.holds, hbetween'.waiting, ?_⟩,
      hbetween'.removed.trans hbetween'.waiting.held_subset⟩, ?_⟩
  · rw [step, heq]
    rfl
  · intro es' hes'
    exact Option.some.inj hes' ▸ hes
  · intro es' hes'
    obtain rfl := Option.some.inj hes'
    exact ⟨hbetween'.waiting.held_subset hes, hnot⟩

theorem execute_steps (h : Inv env Holds r) {pc prevPC : ℕ} (hc : r.Allowed (.execute pc prevPC)) :
    Steps env Holds r (.execute pc prevPC) := by
  obtain ⟨es, hes⟩ := Option.isSome_iff_exists.mp hc
  obtain ⟨held, hholds, hwaiting, hselected⟩ := h.held
  refine ⟨none, { r with searcher := { r.searcher with
    pc := Function.update r.searcher.pc es pc
    prevPC := Function.update r.searcher.prevPC es prevPC } }, ?_,
    ⟨⟨held, hholds, hwaiting.congr ?_, hselected⟩, h.removedStates⟩, by simp⟩
  · rw [step, hes]
  · intro mp es' hes' hnot
    have hne : es' ≠ es := fun heq => hwaiting.apart mp es' hes' (heq ▸ hselected es hes)
    exact ⟨hnot, Function.update_of_ne hne ..⟩

theorem terminate_steps (h : Inv env Holds r) {es : S} (hc : r.Allowed (.terminate es)) :
    Steps env Holds r (.terminate es) := by
  obtain ⟨held, hholds, hwaiting, hselected⟩ := h.held
  refine ⟨none, { r with searcher := r.searcher.terminateState es }, rfl,
    ⟨⟨held, hholds, hwaiting.congr ?_, hselected⟩, Finset.insert_subset hc h.removedStates⟩, by simp⟩
  intro mp es' _ hnot
  obtain ⟨hne, hnot⟩ := not_or.mp (Finset.mem_insert.not.mp hnot)
  exact ⟨hnot, Function.update_of_ne hne ..⟩

/-- No removed state waits, so the base searcher holds them all. -/
theorem update_steps (keeps : env.impl.Keeps Holds) (h : Inv env Holds r) {current : Option S}
    {addedStates : Finset S} {pc prevPC : S → ℕ}
    (hc : r.Allowed (.update current addedStates pc prevPC))
    (hparked : r.Within env (.update current addedStates pc prevPC)) :
    Steps env Holds r (.update current addedStates pc prevPC) := by
  obtain ⟨hcurrent, hadded⟩ := hc
  obtain ⟨held, hholds, hwaiting, hselected⟩ := h.held
  have hremoved : r.searcher.removedStates ⊆ held ∪ addedStates := by
    intro es hes
    refine Finset.mem_union_left _ (((hwaiting.cover es).mp (h.removedStates hes)).resolve_right ?_)
    rintro ⟨mp, hmp⟩
    exact hparked es hes mp hmp
  have hnotAdded : ∀ es ∈ r.live, es ∉ addedStates := fun es hes => Finset.disjoint_left.mp hadded hes
  have hlive : ∀ mp es, r.searcher.statesAtMerge mp = some es → es ∈ r.live :=
    fun mp es hmp => (hwaiting.cover es).mpr (Or.inr ⟨mp, hmp⟩)
  obtain ⟨store, heq, hstore⟩ := keeps.update hholds current
    (fun es hes => hselected es (hcurrent es hes)) (hadded.mono_left hwaiting.held_subset) hremoved
  refine ⟨none, ⟨{ r.searcher with
      baseSearcher := store
      pc := fun es => if es ∈ addedStates then pc es else r.searcher.pc es
      prevPC := fun es => if es ∈ addedStates then prevPC es else r.searcher.prevPC es
      removedStates := ∅ }, (r.live ∪ addedStates) \ r.searcher.removedStates, none⟩, ?_,
    ⟨⟨_, hstore, ⟨?_, ?_, ?_⟩, by simp⟩, Finset.empty_subset _⟩, by simp⟩
  · rw [step]
    change ((env.impl.update r.searcher.baseSearcher current addedStates
      r.searcher.removedStates).bind _).map _ = _
    rw [heq]
    rfl
  · intro mp es hmp hmem
    obtain hmem | hmem := Finset.mem_union.mp (Finset.mem_sdiff.mp hmem).1
    · exact hwaiting.apart mp es hmp hmem
    · exact hnotAdded es (hlive mp es hmp) hmem
  · intro es
    have hkept : (∃ mp, r.searcher.statesAtMerge mp = some es) → es ∉ r.searcher.removedStates := by
      rintro ⟨mp, hmp⟩ hes
      exact hparked es hes mp hmp
    rw [Finset.mem_sdiff, Finset.mem_sdiff, Finset.mem_union, Finset.mem_union, hwaiting.cover]
    change _ ↔ _ ∨ ∃ mp, r.searcher.statesAtMerge mp = some es
    tauto
  · intro mp es hmp
    obtain ⟨hpoint, hat⟩ := hwaiting.points mp es hmp
    refine ⟨hpoint, fun _ => ?_⟩
    change (if es ∈ addedStates then pc es else r.searcher.pc es) = mp
    rw [if_neg (hnotAdded es (hlive mp es hmp))]
    exact hat fun hes => hparked es hes mp hmp

/-- A step of the caller under the condition. -/
theorem step_steps (keeps : env.impl.Keeps Holds) (h : Inv env Holds r) (hc : r.Allowed c)
    (hwithin : r.Within env c) : Steps env Holds r c := by
  cases c with
  | selectState outcome => exact selectState_steps keeps h hc hwithin
  | execute pc prevPC => exact execute_steps h hc
  | terminate es => exact terminate_steps h hc
  | update current addedStates pc prevPC => exact update_steps keeps h hc hwithin

/-- In a run in which no call of `selectState` selects a state that it merged away and no removed
state waits, the live states are kept, and every further call has a result: a state that it returns
is live and was not terminated. -/
theorem reaches_bumps (keeps : env.impl.Keeps Holds) {baseSearcher : Store}
    (hbase : Holds baseSearcher ∅)
    (h : Reaches (step env) (fun r c => r.Allowed c ∧ r.Within env c) (init baseSearcher) r) :
    KeepsLive Holds r ∧ ∀ c, r.Allowed c → r.Within env c → ∃ a r', step env r c = some (a, r')
      ∧ ∀ es, a = some es → es ∈ r.live ∧ es ∉ r'.searcher.removedStates := by
  have hinv : Inv env Holds r := by
    refine h.invariant (init_inv hbase) ?_
    intro r c a r' hr hok hstep
    obtain ⟨a', r'', heq, hr'', -⟩ := step_steps keeps hr hok.1 hok.2
    rw [hstep] at heq
    obtain ⟨-, rfl⟩ := Prod.mk.inj (Option.some.inj heq)
    exact hr''
  obtain ⟨held, hholds, hwaiting, -⟩ := hinv.held
  refine ⟨⟨held, hholds, hwaiting.apart, hwaiting.cover⟩, ?_⟩
  intro c hc hwithin
  obtain ⟨a, r', heq, -, hreturned⟩ := step_steps keeps hinv hc hwithin
  exact ⟨a, r', heq, hreturned⟩

/-! ## Two states at one merge point -/

/-- A depth first searcher, and a program that calls the merge function once. -/
def oneCall : MergingEnv ℕ (List ℕ) where
  impl := DFSSearcher (.increasing ℕ)
  program := [.other, .callsMergeFunction, .other]
  stateOrder := .increasing ℕ
  pointOrder := SetOrder.increasing (WithBot ℕ)

/-- Two states at the call. -/
def twoWaiting : BumpRun ℕ (List ℕ) where
  searcher := ⟨[1, 2], fun _ => none, fun es => if es ∈ ({1, 2} : Finset ℕ) then 1 else 0,
    fun es => if es ∈ ({1, 2} : Finset ℕ) then 0 else 0, ∅⟩
  live := {1, 2}
  selected := none

theorem reaches_twoWaiting :
    Reaches (step oneCall) (fun r c => r.Allowed c ∧ r.Within oneCall c) (init []) twoWaiting :=
  .step (c := .update none {1, 2} (fun _ => 1) (fun _ => 0)) (a := none) .init
    ⟨⟨by simp, Finset.disjoint_empty_left _⟩, by simp [Within, init]⟩ (by rfl)

theorem twoWaiting_allowed (outcome : ℕ → ℕ → ℕ → Bool) :
    twoWaiting.Allowed (.selectState outcome) :=
  ⟨⟨1, Finset.mem_insert_self 1 _⟩, rfl⟩

/-- The merge fails, and the state that waited goes on. -/
theorem reaches_bumps_twoWaiting :
    KeepsLive ListSearcher.Holds twoWaiting
      ∧ ∃ a r', step oneCall twoWaiting (.selectState fun _ _ _ => false) = some (a, r')
        ∧ ∀ es, a = some es → es ∈ twoWaiting.live ∧ es ∉ r'.searcher.removedStates := by
  have hbase : oneCall.impl.Keeps ListSearcher.Holds := DFSSearcher.keeps (.increasing ℕ)
  obtain ⟨hkeeps, hstep⟩ := reaches_bumps hbase ⟨List.nodup_nil, rfl⟩ reaches_twoWaiting
  exact ⟨hkeeps, hstep _ (twoWaiting_allowed _) (spares_of_fails (fun _ _ _ => rfl) _ rfl)⟩

/-- When the merge succeeds, the state 1 is terminated and then returned. When it fails, the state 1
waits, and the base searcher does not know it when it is removed. -/
theorem oneCall_again :
    (¬∀ r, Reaches (step oneCall) Allowed (init []) r → ∀ c es r', r.Allowed c →
        step oneCall r c = some (some es, r') → es ∉ r'.searcher.removedStates)
      ∧ ¬∀ r, Reaches (step oneCall) Allowed (init []) r → ∀ c, r.Allowed c →
        (step oneCall r c).isSome := by
  have htwo := reaches_twoWaiting.mono fun _ _ hok => hok.1
  constructor
  · intro h
    have hreturned : (step oneCall twoWaiting (.selectState fun _ _ _ => true)).map
        (fun answer => (answer.1, answer.2.searcher.removedStates)) = some (some 1, {1}) := by
      decide
    obtain ⟨⟨a, r'⟩, hstep, heq⟩ := Option.map_eq_some_iff.mp hreturned
    obtain ⟨rfl, hremoved⟩ := Prod.mk.inj heq
    refine h twoWaiting htwo _ 1 r' (twoWaiting_allowed _) hstep ?_
    rw [hremoved]
    exact Finset.mem_singleton_self 1
  · intro h
    have hbumped : ((step oneCall twoWaiting (.selectState fun _ _ _ => false)).bind fun answer =>
        (step oneCall answer.2 (.terminate 1)).bind fun answer' => some
          ((step oneCall answer'.2 (.update none ∅ (fun _ => 0) fun _ => 0)).isSome,
            answer.2.live)) = some (false, {1, 2}) := by
      decide
    obtain ⟨⟨a, r₁⟩, hselect, hbumped⟩ := Option.bind_eq_some_iff.mp hbumped
    obtain ⟨⟨a', r₂⟩, hterminate, heq⟩ := Option.bind_eq_some_iff.mp hbumped
    obtain ⟨hnone, hlive⟩ := Prod.mk.inj (Option.some.inj heq)
    have hreaches : Reaches (step oneCall) Allowed (init []) r₂ := by
      refine .step (.step htwo (twoWaiting_allowed _) hselect) ?_ hterminate
      change 1 ∈ r₁.live
      rw [hlive]
      exact Finset.mem_insert_self 1 _
    have hsome := h r₂ hreaches (.update none ∅ (fun _ => 0) fun _ => 0)
      ⟨by simp, Finset.disjoint_empty_right _⟩
    exact Bool.false_ne_true (hnone.symm.trans hsome)

end BumpRun

end Xklee
