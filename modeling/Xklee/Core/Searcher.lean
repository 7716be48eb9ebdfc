/-
Searchers: the interface `Searcher` of `lib/Core/Searcher.h`, and the searchers of
`lib/Core/Searcher.cpp` that keep their states in a list.

A searcher that stacks on another one calls it through the interface only. `Keeps` says
what such a caller relies on: the states that are added and not removed are held, and the
state that is selected is one of them. `none` stands for a failing assertion and for
undefined behaviour.
-/
import Xklee.Data.SetOrder
import Mathlib.Data.Finset.Lattice.Lemmas
import Mathlib.Data.Finset.SDiff
import Mathlib.Data.List.Nodup

set_option autoImplicit false

namespace Xklee

/-- The virtual functions of `Searcher`, over what the searcher stores. -/
structure Searcher (S Store : Type) where
  selectState : Store → Option (S × Store)
  update : Store → Option S → Finset S → Finset S → Option Store
  empty : Store → Bool

namespace Searcher

variable {S Store : Type}

/-- `Searcher::addState`. -/
def addState (impl : Searcher S Store) (s : Store) (es : S) (current : Option S) : Option Store :=
  impl.update s current {es} ∅

/-- `Searcher::removeState`. -/
def removeState (impl : Searcher S Store) (s : Store) (es : S) (current : Option S) :
    Option Store :=
  impl.update s current ∅ {es}

/-- What a caller relies on, where `Holds` relates what is stored to the states held. The
caller adds states that are not held, removes states that are, and names a state that is
held as the current one. -/
structure Keeps [DecidableEq S] (impl : Searcher S Store) (Holds : Store → Finset S → Prop) :
    Prop where
  empty_iff {s : Store} {held : Finset S} (h : Holds s held) : impl.empty s = true ↔ held = ∅
  selectState {s : Store} {held : Finset S} (h : Holds s held) (hne : held.Nonempty) :
    ∃ es s', impl.selectState s = some (es, s') ∧ es ∈ held ∧ Holds s' held
  update {s : Store} {held added removed : Finset S} (h : Holds s held) (current : Option S)
    (hcurrent : ∀ es, current = some es → es ∈ held) (hadded : Disjoint held added)
    (hremoved : removed ⊆ held ∪ added) :
    ∃ s', impl.update s current added removed = some s' ∧ Holds s' ((held ∪ added) \ removed)

namespace Keeps

variable [DecidableEq S] {impl : Searcher S Store} {Holds : Store → Finset S → Prop} {s : Store}
  {held : Finset S} {es : S}

theorem addState (keeps : impl.Keeps Holds) (h : Holds s held) (current : Option S)
    (hcurrent : ∀ es, current = some es → es ∈ held) (hes : es ∉ held) :
    ∃ s', impl.addState s es current = some s' ∧ Holds s' (insert es held) := by
  have hdisjoint : Disjoint held {es} := Finset.disjoint_singleton_right.mpr hes
  obtain ⟨s', heq, hs'⟩ := keeps.update h current hcurrent hdisjoint (Finset.empty_subset _)
  refine ⟨s', heq, ?_⟩
  rw [Finset.sdiff_empty, Finset.union_comm, ← Finset.insert_eq] at hs'
  exact hs'

theorem removeState (keeps : impl.Keeps Holds) (h : Holds s held) (current : Option S)
    (hcurrent : ∀ es, current = some es → es ∈ held) (hes : es ∈ held) :
    ∃ s', impl.removeState s es current = some s' ∧ Holds s' (held.erase es) := by
  have hsubset : {es} ⊆ held ∪ ∅ := by
    rw [Finset.union_empty]
    exact Finset.singleton_subset_iff.mpr hes
  obtain ⟨s', heq, hs'⟩ := keeps.update h current hcurrent (Finset.disjoint_empty_right held) hsubset
  refine ⟨s', heq, ?_⟩
  rw [Finset.union_empty, Finset.sdiff_singleton_eq_erase] at hs'
  exact hs'

end Keeps

end Searcher

/-! ## Searchers over a list -/

namespace ListSearcher

variable {S : Type} [DecidableEq S]

/-- The loop that looks for a state and erases it, with `assert(ok && "invalid state
removed")`. -/
def eraseState (states : List S) (es : S) : Option (List S) :=
  if es ∈ states then some (states.erase es) else none

/-- The loop of `update` over the removed states. -/
def removeStates (removeOne : List S → S → Option (List S)) (states removed : List S) :
    Option (List S) :=
  removed.foldlM removeOne states

/-- `states.insert(states.end(), ..)`, and the loop over the removed states. -/
def update (order : SetOrder S) (removeOne : List S → S → Option (List S)) (states : List S)
    (addedStates removedStates : Finset S) : Option (List S) :=
  removeStates removeOne (states ++ order.toList addedStates) (order.toList removedStates)

/-- No state is stored twice. -/
def Holds (states : List S) (held : Finset S) : Prop := states.Nodup ∧ states.toFinset = held

/-- Removes the state, whatever the place it is looked for first. -/
def Removes (removeOne : List S → S → Option (List S)) : Prop :=
  ∀ ⦃states es⦄, states.Nodup → es ∈ states → removeOne states es = some (states.erase es)

theorem eraseState_removes : Removes (S := S) eraseState :=
  fun _ _ _ hes => if_pos hes

variable {states : List S} {held : Finset S} {removeOne : List S → S → Option (List S)}

theorem holds_nil_iff (h : Holds states held) :
    states.isEmpty = true ↔ held = ∅ := by
  rw [← h.2, List.isEmpty_iff, List.toFinset_eq_empty_iff]

theorem removeStates_holds (h : Removes removeOne) {removed : List S} (hstates : states.Nodup)
    (hremoved : removed.Nodup) (hsubset : ∀ es ∈ removed, es ∈ states) :
    ∃ states', removeStates removeOne states removed = some states'
      ∧ Holds states' (states.toFinset \ removed.toFinset) := by
  induction removed generalizing states with
  | nil =>
    refine ⟨states, rfl, hstates, ?_⟩
    rw [List.toFinset_nil, Finset.sdiff_empty]
  | cons es removed ih =>
    obtain ⟨hes, hremoved⟩ := List.nodup_cons.mp hremoved
    have hmem : es ∈ states := hsubset es List.mem_cons_self
    have hrest : ∀ es' ∈ removed, es' ∈ states.erase es := by
      intro es' hes'
      rw [hstates.mem_erase_iff]
      exact ⟨fun heq => hes (heq ▸ hes'), hsubset es' (List.mem_cons_of_mem _ hes')⟩
    obtain ⟨states', heq, hnodup, hset⟩ := ih (hstates.erase es) hremoved hrest
    refine ⟨states', ?_, hnodup, ?_⟩
    · rw [removeStates, List.foldlM_cons, h hstates hmem]
      exact heq
    · rw [hset]
      ext x
      rw [Finset.mem_sdiff, Finset.mem_sdiff, List.mem_toFinset, List.mem_toFinset,
        List.mem_toFinset, List.mem_toFinset, hstates.mem_erase_iff, List.mem_cons]
      tauto

theorem update_holds (order : SetOrder S) (h : Removes removeOne) {added removed : Finset S}
    (hstates : Holds states held) (hadded : Disjoint held added) (hremoved : removed ⊆ held ∪ added) :
    ∃ states', update order removeOne states added removed = some states'
      ∧ Holds states' ((held ∪ added) \ removed) := by
  obtain ⟨hnodup, rfl⟩ := hstates
  have hset : (states ++ order.toList added).toFinset = states.toFinset ∪ added := by
    rw [List.toFinset_append, order.toFinset_toList]
  have happend : (states ++ order.toList added).Nodup := by
    rw [List.nodup_append']
    refine ⟨hnodup, order.nodup added, ?_⟩
    intro x hx hx'
    exact Finset.disjoint_left.mp hadded (List.mem_toFinset.mpr hx) ((order.mem_toList _ _).mp hx')
  obtain ⟨states', heq, hholds⟩ := removeStates_holds h happend (order.nodup removed)
    (fun es hes => by
      have hmem := hremoved ((order.mem_toList _ _).mp hes)
      rwa [← hset, List.mem_toFinset] at hmem)
  rw [hset, order.toFinset_toList] at hholds
  exact ⟨states', heq, hholds⟩

end ListSearcher

section

variable {S : Type} [DecidableEq S] (order : SetOrder S)

open ListSearcher

/-! ## Depth first -/

namespace DFSSearcher

/-- A removed state is looked for at the back first. -/
def removeOne (states : List S) (es : S) : Option (List S) :=
  match states.getLast? with
  | none => none
  | some back => if es = back then some states.dropLast else eraseState states es

end DFSSearcher

/-- `DFSSearcher`. -/
def DFSSearcher : Searcher S (List S) where
  selectState states := states.getLast?.map fun es => (es, states)
  update states _ addedStates removedStates :=
    ListSearcher.update order DFSSearcher.removeOne states addedStates removedStates
  empty states := states.isEmpty

theorem DFSSearcher.removeOne_removes : Removes (S := S) DFSSearcher.removeOne := by
  intro states es hnodup hes
  rcases List.eq_nil_or_concat states with rfl | ⟨init, back, rfl⟩
  · exact absurd hes (List.not_mem_nil)
  · rw [DFSSearcher.removeOne, List.concat_eq_append, List.getLast?_concat]
    by_cases heq : es = back
    · subst heq
      have hinit : es ∉ init := by
        rw [List.concat_eq_append, List.nodup_append'] at hnodup
        exact fun h => hnodup.2.2 h (List.mem_singleton_self es)
      change (if es = es then _ else _) = _
      rw [if_pos rfl, List.dropLast_concat, List.erase_append_right _ hinit, List.erase_cons_head,
        List.append_nil]
    · change (if es = back then _ else _) = _
      rw [if_neg heq]
      exact eraseState_removes (by rwa [List.concat_eq_append] at hnodup)
        (by rwa [List.concat_eq_append] at hes)

theorem DFSSearcher.keeps : (DFSSearcher order).Keeps Holds where
  empty_iff := holds_nil_iff
  selectState := by
    intro states held h hne
    have hstates : states ≠ [] := by
      rintro rfl
      exact hne.ne_empty (by rw [← h.2]; rfl)
    refine ⟨states.getLast hstates, states, ?_, ?_, h⟩
    · change Option.map _ states.getLast? = _
      rw [List.getLast?_eq_some_getLast hstates]
      rfl
    · rw [← h.2, List.mem_toFinset]
      exact List.getLast_mem hstates
  update h _ _ := update_holds order DFSSearcher.removeOne_removes h

/-! ## Breadth first -/

/-- A removed state is looked for at the front first. -/
def BFSSearcher.removeOne (states : List S) (es : S) : Option (List S) :=
  match states with
  | [] => none
  | front :: rest => if es = front then some rest else eraseState states es

/-- `BFSSearcher`. -/
def BFSSearcher : Searcher S (List S) where
  selectState states := states.head?.map fun es => (es, states)
  update states _ addedStates removedStates :=
    ListSearcher.update order BFSSearcher.removeOne states addedStates removedStates
  empty states := states.isEmpty

theorem BFSSearcher.removeOne_removes : Removes (S := S) BFSSearcher.removeOne := by
  intro states es hnodup hes
  cases states with
  | nil => exact absurd hes (List.not_mem_nil)
  | cons front rest =>
    rw [BFSSearcher.removeOne]
    by_cases heq : es = front
    · rw [if_pos heq, heq, List.erase_cons_head]
    · rw [if_neg heq, eraseState_removes hnodup hes]

theorem BFSSearcher.keeps : (BFSSearcher order).Keeps Holds where
  empty_iff := holds_nil_iff
  selectState := by
    intro states held h hne
    cases states with
    | nil => exact absurd hne (by rw [← h.2]; exact Finset.not_nonempty_empty)
    | cons front rest =>
      refine ⟨front, front :: rest, rfl, ?_, h⟩
      rw [← h.2, List.mem_toFinset]
      exact List.mem_cons_self
  update h _ _ := update_holds order BFSSearcher.removeOne_removes h

/-! ## Random -/

/-- What `RandomSearcher` stores, and the numbers that `theRNG.getInt32()` gives next. -/
structure RandomStates (S : Type) where
  states : List S
  draws : ℕ → BitVec 32
  next : ℕ

/-- `RandomSearcher`. -/
def RandomSearcher : Searcher S (RandomStates S) where
  selectState s :=
    (s.states[(s.draws s.next).toNat % s.states.length]?).map fun es =>
      (es, { s with next := s.next + 1 })
  update s _ addedStates removedStates :=
    (ListSearcher.update order eraseState s.states addedStates removedStates).map fun states =>
      { s with states := states }
  empty s := s.states.isEmpty

theorem RandomSearcher.keeps : (RandomSearcher order).Keeps fun s => Holds s.states where
  empty_iff := holds_nil_iff
  selectState := by
    intro s held h hne
    have hlength : 0 < s.states.length := by
      rw [List.length_pos_iff]
      intro heq
      exact hne.ne_empty (by rw [← h.2, heq]; rfl)
    have hindex := Nat.mod_lt (s.draws s.next).toNat hlength
    refine ⟨s.states[(s.draws s.next).toNat % s.states.length], { s with next := s.next + 1 }, ?_,
      ?_, h⟩
    · change Option.map _ _ = _
      rw [List.getElem?_eq_getElem hindex]
      rfl
    · rw [← h.2, List.mem_toFinset]
      exact List.getElem_mem hindex
  update := by
    intro s held added removed h current _ hadded hremoved
    obtain ⟨states, heq, hholds⟩ := update_holds order eraseState_removes h hadded hremoved
    refine ⟨{ s with states := states }, ?_, hholds⟩
    change Option.map _ _ = _
    rw [heq]
    rfl

end

end Xklee
