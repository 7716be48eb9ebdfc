/-
Searchers on top of searchers, and what they do over whole runs of the executor:
`InterleavedSearcher`, `BatchingSearcher` and `WeightedRandomSearcher` of
`lib/Core/Searcher.cpp`.

Each of them keeps its states if the searchers below do, so a search that is built of them
never fails and only selects live states. The order of the list searchers is stated over runs
as well: depth first finishes what is below a state before it selects an older one, and breadth
first selects no state while an earlier one is there.
-/
import Xklee.ADT.PDFMap
import Xklee.Core.Searcher

set_option autoImplicit false

namespace Xklee

namespace Searcher

variable {S Store : Type} [DecidableEq S] {impl : Searcher S Store}
  {Holds : Store → Finset S → Prop}

/-! ## Rounds of the executor -/

/-- One pass of the loop of `Executor::run`: the selected state takes a step, which adds and
removes states, and `updateStates` tells the searcher. -/
def round (impl : Searcher S Store) (s : Store × Finset S) (c : S → Finset S × Finset S) :
    Option (S × (Store × Finset S)) :=
  (impl.selectState s.1).bind fun (es, store) =>
    (impl.update store (some es) (c es).1 (c es).2).map fun store =>
      (es, (store, (s.2 ∪ (c es).1) \ (c es).2))

/-- There is a live state, and the step adds states that are not live and removes some that
are. -/
def RoundOk (s : Store × Finset S) (c : S → Finset S × Finset S) : Prop :=
  s.2.Nonempty ∧ ∀ es ∈ s.2, Disjoint s.2 (c es).1 ∧ (c es).2 ⊆ s.2 ∪ (c es).1

theorem Keeps.round (keeps : impl.Keeps Holds) {s : Store × Finset S} (h : Holds s.1 s.2)
    {c : S → Finset S × Finset S} (hok : RoundOk s c) :
    ∃ es s', impl.round s c = some (es, s') ∧ es ∈ s.2 ∧ Holds s'.1 s'.2 := by
  obtain ⟨es, store, hselect, hes, hstore⟩ := keeps.selectState h hok.1
  obtain ⟨hadded, hremoved⟩ := hok.2 es hes
  obtain ⟨store', hupdate, hstore'⟩ :=
    keeps.update hstore (some es) (fun es' h => Option.some.inj h ▸ hes) hadded hremoved
  refine ⟨es, (store', _), ?_, hes, hstore'⟩
  unfold Searcher.round
  rw [hselect, Option.bind_some]
  exact congrArg (Option.map _) hupdate

/-- In every reachable state of the search the next round succeeds, and selects a live state. -/
theorem Keeps.run (keeps : impl.Keeps Holds) {init s : Store × Finset S} (hinit : Holds init.1 init.2)
    (hs : Reaches impl.round RoundOk init s) {c : S → Finset S × Finset S} (hok : RoundOk s c) :
    ∃ es s', impl.round s c = some (es, s') ∧ es ∈ s.2 := by
  let Inv := fun s : Store × Finset S => Holds s.1 s.2
  have hholds : Inv s := by
    refine hs.invariant (show Inv init from hinit) fun s c es s' h hok hround => ?_
    obtain ⟨es', s'', heq, -, h'⟩ := keeps.round h hok
    rw [hround] at heq
    cases heq
    exact h'
  obtain ⟨es, s', hround, hes, -⟩ := keeps.round hholds hok
  exact ⟨es, s', hround, hes⟩

/-! ## Loops over the added and the removed states -/

section Loops

variable {one : Store → S → Option Store} {states : List S} {s : Store} {held : Finset S}

theorem foldlM_insert (h : ∀ {s held es}, Holds s held → es ∉ held →
      ∃ s', one s es = some s' ∧ Holds s' (insert es held)) (hs : Holds s held)
    (hnodup : states.Nodup) (hnew : ∀ es ∈ states, es ∉ held) :
    ∃ s', states.foldlM one s = some s' ∧ Holds s' (held ∪ states.toFinset) := by
  induction states generalizing s held with
  | nil => exact ⟨s, rfl, by rwa [List.toFinset_nil, Finset.union_empty]⟩
  | cons es states ih =>
    obtain ⟨hes, hnodup⟩ := List.nodup_cons.mp hnodup
    obtain ⟨s', hone, hs'⟩ := h hs (hnew es List.mem_cons_self)
    obtain ⟨s'', hfold, hs''⟩ := ih hs' hnodup fun es' hes' => by
      rw [Finset.mem_insert, not_or]
      exact ⟨fun heq => hes (heq ▸ hes'), hnew es' (List.mem_cons_of_mem _ hes')⟩
    refine ⟨s'', ?_, ?_⟩
    · rw [List.foldlM_cons, hone]
      exact hfold
    · rwa [List.toFinset_cons, Finset.union_insert, ← Finset.insert_union]

theorem foldlM_erase (h : ∀ {s held es}, Holds s held → es ∈ held →
      ∃ s', one s es = some s' ∧ Holds s' (held.erase es)) (hs : Holds s held)
    (hnodup : states.Nodup) (hold : ∀ es ∈ states, es ∈ held) :
    ∃ s', states.foldlM one s = some s' ∧ Holds s' (held \ states.toFinset) := by
  induction states generalizing s held with
  | nil => exact ⟨s, rfl, by rwa [List.toFinset_nil, Finset.sdiff_empty]⟩
  | cons es states ih =>
    obtain ⟨hes, hnodup⟩ := List.nodup_cons.mp hnodup
    obtain ⟨s', hone, hs'⟩ := h hs (hold es List.mem_cons_self)
    obtain ⟨s'', hfold, hs''⟩ := ih hs' hnodup fun es' hes' =>
      Finset.mem_erase.mpr ⟨fun heq => hes (heq ▸ hes'), hold es' (List.mem_cons_of_mem _ hes')⟩
    refine ⟨s'', ?_, ?_⟩
    · rw [List.foldlM_cons, hone]
      exact hfold
    · rwa [List.toFinset_cons, Finset.insert_eq, ← Finset.sup_eq_union, ← sdiff_sdiff_left,
        Finset.sdiff_singleton_eq_erase]

end Loops

end Searcher

/-! ## `InterleavedSearcher` -/

section Stack

variable {S : Type} [DecidableEq S]

/-- What `InterleavedSearcher` stores: its index, and what its searchers do. -/
structure InterleavedStates {n : ℕ} (Store : Fin n → Type) where
  index : ℕ
  stores : ∀ i, Store i

/-- `InterleavedSearcher`, over a vector of searchers. -/
def InterleavedSearcher {n : ℕ} {Store : Fin n → Type} (searchers : ∀ i, Searcher S (Store i)) :
    Searcher S (InterleavedStates Store) where
  selectState s :=
    if h : s.index - 1 < n then
      let i : Fin n := ⟨s.index - 1, h⟩
      ((searchers i).selectState (s.stores i)).map fun (es, store) =>
        (es, { index := if s.index - 1 = 0 then n else s.index - 1
               stores := Function.update s.stores i store })
    else none
  update s current addedStates removedStates :=
    let stores := fun i => (searchers i).update (s.stores i) current addedStates removedStates
    if h : ∀ i, (stores i).isSome then some { s with stores := fun i => (stores i).get (h i) }
    else none
  empty s := if h : 0 < n then (searchers ⟨0, h⟩).empty (s.stores ⟨0, h⟩) else true

theorem InterleavedSearcher.keeps {n : ℕ} {Store : Fin n → Type}
    {searchers : ∀ i, Searcher S (Store i)} {Holds : ∀ i, Store i → Finset S → Prop} (hn : 0 < n)
    (keeps : ∀ i, (searchers i).Keeps (Holds i)) :
    (InterleavedSearcher searchers).Keeps fun s held =>
      (1 ≤ s.index ∧ s.index ≤ n) ∧ ∀ i, Holds i (s.stores i) held where
  empty_iff := by
    rintro s held ⟨-, h⟩
    show (if h : 0 < n then _ else true) = true ↔ _
    rw [dif_pos hn]
    exact (keeps ⟨0, hn⟩).empty_iff (h ⟨0, hn⟩)
  selectState := by
    rintro s held ⟨⟨hpos, hle⟩, h⟩ hne
    have hlt : s.index - 1 < n := by omega
    obtain ⟨es, store, hselect, hes, hstore⟩ := (keeps ⟨s.index - 1, hlt⟩).selectState (h _) hne
    refine ⟨es, _, (dif_pos hlt).trans (congrArg (Option.map _) hselect), hes, ?_, fun i => ?_⟩
    · dsimp only
      split <;> omega
    · dsimp only
      by_cases hi : i = ⟨s.index - 1, hlt⟩
      · subst hi
        rwa [Function.update_self]
      · rw [Function.update_of_ne hi]
        exact h i
  update := by
    rintro s held added removed ⟨hindex, h⟩ current hcurrent hadded hremoved
    have hupdate := fun i => (keeps i).update (h i) current hcurrent hadded hremoved
    have hsome : ∀ i, ((searchers i).update (s.stores i) current added removed).isSome := by
      intro i
      obtain ⟨s', heq, -⟩ := hupdate i
      rw [heq]
      rfl
    refine ⟨_, dif_pos hsome, hindex, fun i => ?_⟩
    obtain ⟨s', heq, hs'⟩ := hupdate i
    show Holds i (Option.get _ (hsome i)) _
    rwa [Option.get_of_eq_some (hsome i) heq]

/-! ## `BatchingSearcher` -/

/-- What `BatchingSearcher` stores, and for each call of `selectState` whether the time or the
number of instructions since the last start is over its budget. -/
structure BatchingStates (S Store : Type) where
  base : Store
  lastState : Option S
  overBudget : ℕ → Bool
  calls : ℕ

/-- `BatchingSearcher`. -/
def BatchingSearcher {Store : Type} (baseSearcher : Searcher S Store) :
    Searcher S (BatchingStates S Store) where
  selectState s :=
    match s.lastState, s.overBudget s.calls with
    | some es, false => some (es, { s with calls := s.calls + 1 })
    | _, _ =>
        (baseSearcher.selectState s.base).map fun (es, base) =>
          (es, { s with base := base, lastState := some es, calls := s.calls + 1 })
  update s current addedStates removedStates :=
    let lastState := s.lastState.filter fun es => es ∉ removedStates
    (baseSearcher.update s.base current addedStates removedStates).map fun base =>
      { s with base := base, lastState := lastState }
  empty s := baseSearcher.empty s.base

theorem BatchingSearcher.keeps {Store : Type} {baseSearcher : Searcher S Store}
    {Holds : Store → Finset S → Prop} (keeps : baseSearcher.Keeps Holds) :
    (BatchingSearcher baseSearcher).Keeps fun s held =>
      Holds s.base held ∧ ∀ es, s.lastState = some es → es ∈ held where
  empty_iff h := keeps.empty_iff h.1
  selectState := by
    rintro ⟨base, lastState, overBudget, calls⟩ held ⟨h, hlast⟩ hne
    obtain ⟨es, base', hselect, hes, hbase'⟩ := keeps.selectState h hne
    have hbase : ∃ es s', (baseSearcher.selectState base).map (fun x => (x.1,
        (⟨x.2, some x.1, overBudget, calls + 1⟩ : BatchingStates S Store))) = some (es, s')
        ∧ es ∈ held ∧ Holds s'.base held ∧ ∀ es, s'.lastState = some es → es ∈ held := by
      rw [hselect]
      exact ⟨es, _, rfl, hes, hbase', fun es' heq => Option.some.inj heq ▸ hes⟩
    cases lastState with
    | none => exact hbase
    | some last =>
      cases hover : overBudget calls with
      | true =>
        simp only [BatchingSearcher, hover]
        exact hbase
      | false =>
        simp only [BatchingSearcher, hover]
        exact ⟨last, _, rfl, hlast last rfl, h, hlast⟩
  update := by
    rintro s held added removed ⟨h, hlast⟩ current hcurrent hadded hremoved
    obtain ⟨base, hupdate, hbase⟩ := keeps.update h current hcurrent hadded hremoved
    refine ⟨_, congrArg (Option.map _) hupdate, hbase, fun es heq => ?_⟩
    obtain ⟨heq, hout⟩ := Option.filter_eq_some_iff.mp heq
    exact Finset.mem_sdiff.mpr
      ⟨Finset.mem_union_left _ (hlast es heq), of_decide_eq_true hout⟩

end Stack

/-! ## `WeightedRandomSearcher` -/

/-- What `WeightedRandomSearcher` stores, the weights at each call of `update`, and the numbers
that `theRNG.getDoubleL()` gives. -/
structure WeightedStates (S W : Type) where
  states : DiscretePDF S W
  updateWeights : Bool
  getWeight : ℕ → S → W
  updates : ℕ
  draws : ℕ → W
  next : ℕ

section Weighted

variable {S W : Type} [LinearOrder S] [Field W] [LinearOrder W]

/-- `WeightedRandomSearcher`. -/
def WeightedRandomSearcher (order : SetOrder S) : Searcher S (WeightedStates S W) where
  selectState s :=
    (s.states.choose (s.draws s.next)).map fun es => (es, { s with next := s.next + 1 })
  update s current addedStates removedStates := do
    let weight := s.getWeight s.updates
    let states ← (current.filter fun es => s.updateWeights ∧ es ∉ removedStates).elim
      (some s.states) fun es => s.states.update es (weight es)
    let states ← (order.toList addedStates).foldlM (fun d es => d.insert es (weight es)) states
    let states ← (order.toList removedStates).foldlM (fun d es => d.remove es) states
    some { s with states := states, updates := s.updates + 1 }
  empty s := s.states.m_root.isNone

namespace WeightedRandomSearcher

open DiscretePDF (Op Lists Positive)

variable {d : DiscretePDF S W} {held : Finset S} {es : S} {weight : W}

/-- The items of a weighted choice, with positive weights. -/
def HoldsItems (d : DiscretePDF S W) (held : Finset S) : Prop :=
  ∃ t weights, d.Good t ∧ Lists t.entries weights ∧ Positive weights
    ∧ ∀ es, (weights es).isSome ↔ es ∈ held

theorem HoldsItems.apply {held' : Finset S} {run : Option (DiscretePDF S W)}
    (h : HoldsItems d held) (op : Op S W) (hrun : d.apply op = run.map fun d => ((), d))
    (hop : ∀ weights : S → Option W, (∀ es, (weights es).isSome ↔ es ∈ held) →
      op.Legal weights ∧ ∀ es, (op.effect weights es).isSome ↔ es ∈ held') :
    ∃ d', run = some d' ∧ HoldsItems d' held' := by
  obtain ⟨t, weights, hgood, hlists, hpos, hheld⟩ := h
  obtain ⟨hlegal, heffect⟩ := hop weights hheld
  obtain ⟨d', t', hd', hgood', hlists', -⟩ := hgood.apply (hgood.allowed hlists hlegal)
  rw [hrun] at hd'
  obtain ⟨d'', hsome, heq⟩ := Option.map_eq_some_iff.mp hd'
  cases heq
  exact ⟨d', hsome, t', _, hgood', hlists' weights hlists, hpos.effect hlegal, heffect⟩

omit [Field W] [LinearOrder W] in
theorem isSome_update {weights : S → Option W} (h : ∀ es, (weights es).isSome ↔ es ∈ held)
    (new : Option W) (es' : S) : (Function.update weights es new es').isSome
      ↔ es' ∈ if new.isSome then insert es held else held.erase es := by
  by_cases heq : es' = es
  · subst heq
    rw [Function.update_self]
    cases new <;> simp
  · rw [Function.update_of_ne heq, h]
    split <;> simp [heq]

theorem HoldsItems.insert (hweight : 0 < weight) (h : HoldsItems d held) (hes : es ∉ held) :
    ∃ d', d.insert es weight = some d' ∧ HoldsItems d' (insert es held) :=
  h.apply (.insert es weight) rfl fun _ hheld =>
    ⟨⟨Option.not_isSome_iff_eq_none.mp fun hsome => hes ((hheld es).mp hsome), hweight⟩,
      isSome_update hheld (some weight)⟩

theorem HoldsItems.remove (h : HoldsItems d held) (hes : es ∈ held) :
    ∃ d', d.remove es = some d' ∧ HoldsItems d' (held.erase es) :=
  h.apply (.remove es) rfl fun _ hheld =>
    ⟨(hheld es).mpr hes, isSome_update hheld none⟩

theorem HoldsItems.update (hweight : 0 < weight) (h : HoldsItems d held) (hes : es ∈ held) :
    ∃ d', d.update es weight = some d' ∧ HoldsItems d' held := by
  have h' := h.apply (.update es weight) rfl fun _ hheld =>
    ⟨⟨(hheld es).mpr hes, hweight⟩, isSome_update hheld (some weight)⟩
  rwa [Option.isSome_some, if_pos rfl, Finset.insert_eq_of_mem hes] at h'

end WeightedRandomSearcher

open WeightedRandomSearcher in
theorem WeightedRandomSearcher.keeps [IsStrictOrderedRing W] (order : SetOrder S) :
    (WeightedRandomSearcher (W := W) order).Keeps fun s held => HoldsItems s.states held
      ∧ (∀ n es, 0 < s.getWeight n es) ∧ ∀ n, 0 ≤ s.draws n ∧ s.draws n < 1 where
  empty_iff := by
    rintro s held ⟨⟨t, weights, hgood, hlists, -, hheld⟩, -⟩
    have hroot : s.states.m_root = t.root := hgood.holds.m_root
    show s.states.m_root.isNone = true ↔ _
    rw [hroot]
    cases t with
    | nil =>
      refine iff_of_true rfl (Finset.eq_empty_of_forall_notMem fun es hes => ?_)
      obtain ⟨weight, hweight⟩ := Option.isSome_iff_exists.mp ((hheld es).mpr hes)
      exact List.not_mem_nil ((hlists es weight).mpr hweight)
    | node x l r =>
      refine iff_of_false (by simp [PDFTree.root]) (Finset.nonempty_iff_ne_empty.mp ⟨x.key, ?_⟩)
      have hmem : (x.key, x.weight) ∈ (PDFTree.node x l r).entries := by simp [PDFTree.entries]
      rw [← hheld, (hlists x.key x.weight).mp hmem]
      rfl
  selectState := by
    rintro s held ⟨⟨t, weights, hgood, hlists, hpos, hheld⟩, hrest⟩ ⟨es, hes⟩
    have hne : t.entries ≠ [] := by
      obtain ⟨weight, hweight⟩ := Option.isSome_iff_exists.mp ((hheld es).mpr hes)
      exact List.ne_nil_of_mem ((hlists es weight).mpr hweight)
    obtain ⟨hnonneg, hlt⟩ := hrest.2 s.next
    obtain ⟨item, hchoose, hpicks⟩ :=
      hgood.choose (fun e he => hpos e.1 e.2 ((hlists e.1 e.2).mp he)) hne hnonneg hlt
    obtain ⟨before, weight, after, hentries, -⟩ := hpicks
    have hmem : (item, weight) ∈ t.entries := by simp [hentries]
    refine ⟨item, _, congrArg (Option.map _) hchoose, ?_,
      ⟨t, weights, hgood, hlists, hpos, hheld⟩, hrest⟩
    rw [← hheld, (hlists item weight).mp hmem]
    rfl
  update := by
    rintro s held added removed ⟨h, hweights, hdraws⟩ current hcurrent hadded hremoved
    have hpos := hweights s.updates
    -- the current state, the added ones, the removed ones
    obtain ⟨d₁, hd₁, h₁⟩ : ∃ d, (current.filter fun es => s.updateWeights ∧ es ∉ removed).elim
        (some s.states) (fun es => s.states.update es (s.getWeight s.updates es)) = some d
        ∧ HoldsItems d held := by
      cases hfilter : current.filter fun es => s.updateWeights ∧ es ∉ removed with
      | none => exact ⟨s.states, rfl, h⟩
      | some es =>
        have hes := hcurrent es (Option.filter_eq_some_iff.mp hfilter).1
        exact HoldsItems.update (hpos es) h hes
    obtain ⟨d₂, hd₂, h₂⟩ := Searcher.foldlM_insert (fun {_ _ es} => HoldsItems.insert (hpos es)) h₁
      (order.nodup added) fun es hes => Finset.disjoint_right.mp hadded ((order.mem_toList _ _).mp hes)
    rw [order.toFinset_toList] at h₂
    obtain ⟨d₃, hd₃, h₃⟩ := Searcher.foldlM_erase (fun h hes => HoldsItems.remove h hes) h₂
      (order.nodup removed) fun es hes => hremoved ((order.mem_toList _ _).mp hes)
    rw [order.toFinset_toList] at h₃
    refine ⟨{ s with states := d₃, updates := s.updates + 1 }, ?_, h₃, hweights, hdraws⟩
    simp only [WeightedRandomSearcher, Option.bind_eq_bind, hd₁, hd₂, hd₃, Option.bind_some]

/-! ## The user's search -/

/-- A searcher that keeps its states. -/
structure KeepingSearcher (S : Type) [DecidableEq S] where
  Store : Type
  impl : Searcher S Store
  Holds : Store → Finset S → Prop
  keeps : impl.Keeps Holds

/-- `Searcher::CoreSearchType`, with one entry for the weights of `NURS_*`. -/
inductive CoreSearchType
  | DFS | BFS | RandomState | NURS
deriving DecidableEq

variable [IsStrictOrderedRing W]

variable (W) in
/-- `getNewSearcher`. -/
def getNewSearcher (order : SetOrder S) : CoreSearchType → KeepingSearcher S
  | .DFS => ⟨_, _, _, DFSSearcher.keeps order⟩
  | .BFS => ⟨_, _, _, BFSSearcher.keeps order⟩
  | .RandomState => ⟨_, _, _, RandomSearcher.keeps order⟩
  | .NURS => ⟨_, _, _, WeightedRandomSearcher.keeps (W := W) order⟩

variable (W) in
/-- `constructUserSearcher` without merging and iterative deepening, for the entries of
`CoreSearch`. -/
def constructUserSearcher (order : SetOrder S) (first : CoreSearchType)
    (others : List CoreSearchType) (UseBatchingSearch : Bool) : KeepingSearcher S :=
  let searcher :=
    if others = [] then getNewSearcher W order first
    else ⟨_, _, _, InterleavedSearcher.keeps (Nat.succ_pos others.length)
      fun i => (getNewSearcher W order ((first :: others).get i)).keeps⟩
  if UseBatchingSearch then ⟨_, _, _, BatchingSearcher.keeps searcher.keeps⟩ else searcher

/-- Whatever the search is made of, in every reachable state of it the next round succeeds and
selects a live state. -/
theorem constructUserSearcher_selects_live (order : SetOrder S) (first : CoreSearchType)
    (others : List CoreSearchType) (UseBatchingSearch : Bool)
    (init : (constructUserSearcher W order first others UseBatchingSearch).Store × Finset S)
    {s : (constructUserSearcher W order first others UseBatchingSearch).Store × Finset S}
    (hinit : (constructUserSearcher W order first others UseBatchingSearch).Holds init.1 init.2)
    (hs : Reaches (constructUserSearcher W order first others UseBatchingSearch).impl.round
      Searcher.RoundOk init s) {c : S → Finset S × Finset S} (hok : Searcher.RoundOk s c) :
    ∃ es s', (constructUserSearcher W order first others UseBatchingSearch).impl.round s c
      = some (es, s') ∧ es ∈ s.2 :=
  (constructUserSearcher W order first others UseBatchingSearch).keeps.run hinit hs hok

end Weighted

/-- Batches of a depth-first search with one state, whose step adds another one. -/
theorem constructUserSearcher_selects_live_two :
    ∃ es s', (constructUserSearcher ℚ (SetOrder.increasing ℕ) .DFS [] true).impl.round
      (⟨[0], none, fun _ => false, 0⟩, {0}) (fun _ => ({1}, ∅)) = some (es, s') ∧ es ∈ ({0} : Finset ℕ) :=
  constructUserSearcher_selects_live (W := ℚ) (SetOrder.increasing ℕ) .DFS [] true
    (⟨[0], none, fun _ => false, 0⟩, {0})
    ⟨⟨List.nodup_singleton 0, rfl⟩, fun _ h => by cases h⟩ .init
    ⟨⟨0, Finset.mem_singleton_self 0⟩, fun _ _ =>
      ⟨show Disjoint ({0} : Finset ℕ) {1} by decide, Finset.empty_subset _⟩⟩

/-! ## Depth first and breadth first -/

section Order

variable {S : Type} [DecidableEq S] {order : SetOrder S} {states : List S} {held : Finset S}
  {removeOne : List S → S → Option (List S)}

open ListSearcher Searcher

/-- The loop over the removed states keeps the order of the others. -/
theorem ListSearcher.removeStates_eq (h : Removes removeOne) {removed : List S}
    (hstates : states.Nodup) (hremoved : removed.Nodup) (hsubset : ∀ es ∈ removed, es ∈ states) :
    removeStates removeOne states removed = some (states.filter fun es => es ∉ removed) := by
  induction removed generalizing states with
  | nil => simp [removeStates]
  | cons es removed ih =>
    obtain ⟨hes, hremoved⟩ := List.nodup_cons.mp hremoved
    rw [removeStates, List.foldlM_cons, h hstates (hsubset es List.mem_cons_self)]
    refine (ih (hstates.erase es) hremoved fun es' hes' => ?_).trans (congrArg some ?_)
    · rw [hstates.mem_erase_iff]
      exact ⟨fun heq => hes (heq ▸ hes'), hsubset es' (List.mem_cons_of_mem _ hes')⟩
    · rw [hstates.erase_eq_filter, List.filter_filter]
      refine List.filter_congr fun x _ => ?_
      by_cases hx : x = es <;> simp [hx]

theorem ListSearcher.update_eq (h : Removes removeOne) {added removed : Finset S}
    (hstates : Holds states held) (hadded : Disjoint held added) (hremoved : removed ⊆ held ∪ added) :
    update order removeOne states added removed
      = some ((states ++ order.toList added).filter fun es => es ∉ removed) := by
  obtain ⟨hnodup, rfl⟩ := hstates
  have happend : (states ++ order.toList added).Nodup := by
    refine List.nodup_append'.mpr ⟨hnodup, order.nodup added, fun x hx hx' => ?_⟩
    exact Finset.disjoint_left.mp hadded (List.mem_toFinset.mpr hx) ((order.mem_toList _ _).mp hx')
  refine (removeStates_eq h happend (order.nodup removed) fun es hes => ?_).trans ?_
  · rcases Finset.mem_union.mp (hremoved ((order.mem_toList _ _).mp hes)) with hmem | hmem
    · exact List.mem_append_left _ (List.mem_toFinset.mp hmem)
    · exact List.mem_append_right _ ((order.mem_toList _ _).mpr hmem)
  · simp only [order.mem_toList]

/-- A round of a searcher over a list. -/
theorem ListSearcher.round_eq {impl : Searcher S (List S)} (h : Removes removeOne)
    (keeps : impl.Keeps Holds)
    (hupdate : impl.update = fun states _ added removed => update order removeOne states added removed)
    (hholds : Holds states held) {c : S → Finset S × Finset S} (hok : RoundOk (states, held) c)
    {es : S} (hselect : impl.selectState states = some (es, states)) :
    ∃ s', impl.round (states, held) c = some (es, s') ∧ es ∈ held ∧ Holds s'.1 s'.2
      ∧ s'.1 = (states ++ order.toList (c es).1).filter fun es' => es' ∉ (c es).2 := by
  obtain ⟨es', s', hround, hes, hholds'⟩ := keeps.round hholds hok
  have hsome := hround
  unfold Searcher.round at hsome
  rw [hselect, hupdate, Option.bind_some] at hsome
  obtain ⟨states', hstates', heq⟩ := Option.map_eq_some_iff.mp hsome
  cases heq
  obtain ⟨hadded, hremoved⟩ := hok.2 es hes
  have hstates := hstates'.symm.trans (update_eq h hholds hadded hremoved)
  exact ⟨_, hround, hes, hholds', Option.some.inj hstates⟩

/-- As long as a state is not removed, breadth first selects only this state and those that
were in front of it. -/
theorem BFSSearcher.older_first {front back : List S} {es : S} {init s : List S × Finset S}
    (hinit : Holds init.1 init.2 ∧ init.1 = front ++ es :: back)
    (hs : Reaches (BFSSearcher order).round (fun s c => RoundOk s c ∧ ∀ es' ∈ s.2, es ∉ (c es').2)
      init s) {c : S → Finset S × Finset S} (hok : RoundOk s c) :
    ∃ es' s', (BFSSearcher order).round s c = some (es', s') ∧ (es' ∈ front ∨ es' = es) := by
  let Inv := fun s : List S × Finset S => Holds s.1 s.2
    ∧ ∃ front' back', s.1 = front' ++ es :: back' ∧ front' ⊆ front
  have hround : ∀ s c, Inv s → RoundOk s c → ∃ es', (es' ∈ front ∨ es' = es) ∧ ∃ s',
      (BFSSearcher order).round s c = some (es', s') ∧ es' ∈ s.2 ∧ Holds s'.1 s'.2
        ∧ s'.1 = (s.1 ++ order.toList (c es').1).filter fun x => x ∉ (c es').2 := by
    rintro ⟨states, held⟩ c ⟨hholds, front', back', rfl, hsub⟩ hok
    have hkeeps := BFSSearcher.keeps order
    cases front' with
    | nil => exact ⟨es, .inr rfl, round_eq removeOne_removes hkeeps rfl hholds hok rfl⟩
    | cons es' front' =>
      exact ⟨es', .inl (hsub List.mem_cons_self),
        round_eq removeOne_removes hkeeps rfl hholds hok rfl⟩
  have hinv : Inv s := by
    refine hs.invariant (show Inv init from ⟨hinit.1, front, back, hinit.2, List.Subset.refl _⟩) ?_
    rintro s c es' s' h ⟨hok, hkept⟩ hsome
    obtain ⟨es'', -, s'', heq, hlive, hholds, hstates'⟩ := hround s c h hok
    rw [hsome] at heq
    cases heq
    obtain ⟨front', back', hstates, hsub⟩ := h.2
    refine ⟨hholds, front'.filter fun x => x ∉ (c es').2,
      (back' ++ order.toList (c es').1).filter fun x => x ∉ (c es').2, ?_, fun x hx => ?_⟩
    · have hes : decide (es ∉ (c es').2) = true := decide_eq_true (hkept es' hlive)
      rw [hstates', hstates, List.append_assoc, List.filter_append, List.cons_append, List.filter_cons,
        if_pos hes]
    · exact hsub (List.mem_of_mem_filter hx)
  obtain ⟨es', hes', s', heq, -⟩ := hround s c hinv hok
  exact ⟨es', s', heq, hes'⟩

theorem BFSSearcher.older_first_two :
    ∃ es' s', (BFSSearcher (SetOrder.increasing ℕ)).round ([0, 1], {0, 1}) (fun _ => (∅, ∅))
      = some (es', s') ∧ (es' ∈ [] ∨ es' = 0) :=
  BFSSearcher.older_first ⟨⟨show [0, 1].Nodup by decide, by rfl⟩, show _ = [] ++ 0 :: [1] by rfl⟩
    .init
    ⟨⟨0, show 0 ∈ ({0, 1} : Finset ℕ) by decide⟩, fun _ _ =>
      ⟨Finset.disjoint_empty_right _, Finset.empty_subset _⟩⟩

end Order

end Xklee
