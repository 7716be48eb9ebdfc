/-
What `getSummaryStatistics` computes.

The pass is that of `Forest`: its values are the summaries, its table has the statistics and
the counts of each pair of call site and function. So after the pass a summary is the sum over
the tree of its node, as long as the pass begins with the node's own statistics. The first loop
sees to that for the nodes of `paths`. For the root it is left to what the root's summary was.
-/
import Xklee.Core.CallPathManager

set_option autoImplicit false

namespace Xklee

namespace CallPathManager

variable {Inst Fn : Type} {numStatistics : ℕ}

/-! ## Summaries as a function -/

def withSummaries (m : CallPathManager Inst Fn numStatistics)
    (value : ℕ → StatisticRecord numStatistics) : CallPathManager Inst Fn numStatistics :=
  { m with node := fun x => { m.node x with summaryStatistics := value x } }

/-- What the pass begins with. -/
def ownStatistics (m : CallPathManager Inst Fn numStatistics) (x : ℕ) :
    StatisticRecord numStatistics :=
  if x ∈ m.paths then (m.node x).statistics else (m.node x).summaryStatistics

section Pass

variable {m : CallPathManager Inst Fn numStatistics} {value : ℕ → StatisticRecord numStatistics}
  {p x : ℕ}

theorem modify_withSummaries (m : CallPathManager Inst Fn numStatistics)
    (value : ℕ → StatisticRecord numStatistics) (p : ℕ)
    (g : CallPathNode Inst Fn numStatistics → StatisticRecord numStatistics) :
    (m.withSummaries value).modify p (fun n => { n with summaryStatistics := g n })
      = m.withSummaries (Function.update value p (g ((m.withSummaries value).node p))) := by
  have hnode : ((m.withSummaries value).modify p
        (fun n => { n with summaryStatistics := g n })).node
      = (m.withSummaries
          (Function.update value p (g ((m.withSummaries value).node p)))).node := by
    funext x
    by_cases hx : x = p
    · subst hx
      simp only [modify, withSummaries, Function.update_self]
    · simp only [modify, withSummaries, Function.update_of_ne hx]
  exact congrArg (fun node => (⟨node, m.paths⟩ : CallPathManager Inst Fn numStatistics)) hnode

theorem resetLoop_eq (l : List ℕ) (value : ℕ → StatisticRecord numStatistics) :
    l.foldl (fun m cp => m.modify cp fun n => { n with summaryStatistics := n.statistics })
        (m.withSummaries value)
      = m.withSummaries fun x => if x ∈ l then (m.node x).statistics else value x := by
  induction l generalizing value with
  | nil => simp
  | cons y l ih =>
    rw [List.foldl_cons, modify_withSummaries m value y fun n => n.statistics, ih]
    congr 1
    funext x
    by_cases hx : x = y
    · subst hx
      rw [Function.update_self, if_pos List.mem_cons_self]
      exact ite_self _
    · rw [Function.update_of_ne hx]
      simp only [List.mem_cons, hx, false_or]

/-- The first loop. -/
theorem resetSummaries_eq (m : CallPathManager Inst Fn numStatistics) :
    m.resetSummaries = m.withSummaries m.ownStatistics :=
  resetLoop_eq m.paths fun x => (m.node x).summaryStatistics

theorem sameTree_withSummaries (m : CallPathManager Inst Fn numStatistics)
    (value : ℕ → StatisticRecord numStatistics) : SameTree m (m.withSummaries value) :=
  ⟨rfl, rfl, rfl⟩

/-- Where the root's summary was its statistics, the pass begins with the statistics of every
node. -/
theorem ownStatistics_eq (hx : x ∈ m.nodes)
    (hroot : (m.node root).summaryStatistics = (m.node root).statistics) :
    m.ownStatistics x = (m.node x).statistics := by
  unfold ownStatistics
  split
  next => rfl
  next hpaths =>
    rw [(List.mem_cons.mp hx).resolve_right hpaths]
    exact hroot

/-- The root has no node of `paths` above it. -/
theorem not_calls_root (hm : m.WellFormed) (hx : x ∈ m.paths) : ¬m.Calls x root := by
  intro hcalls
  have heq := (Forest.below_of_parent_none hm.root_parent).mp hcalls
  rw [← heq] at hx
  exact (List.nodup_cons.mp hm.listed.nodup).1 hx

open Classical in
/-- The summary of a node of `paths` does not depend on that of the root. -/
theorem addUp_eq_statistics (hm : m.WellFormed) (hx : x ∈ m.nodes)
    (h : x ∈ m.paths ∨ (m.node root).summaryStatistics = (m.node root).statistics) :
    Forest.addUp m.parentOf m.paths m.ownStatistics x
      = ∑ y ∈ m.nodes.toFinset with m.Calls x y, (m.node y).statistics := by
  rw [hm.listed.addUp_eq_sum hm.root_parent hx]
  refine Finset.sum_congr rfl fun y hy => ?_
  obtain ⟨hmem, hcalls⟩ := Finset.mem_filter.mp hy
  rcases h with hpaths | hroot
  · have hy' : y ∈ m.paths := by
      refine (List.mem_cons.mp (List.mem_toFinset.mp hmem)).resolve_left fun heq => ?_
      exact not_calls_root hm hpaths (heq ▸ hcalls)
    exact if_pos hy'
  · exact ownStatistics_eq (List.mem_toFinset.mp hmem) hroot

open Classical in
/-- A root that begins with something else than its own statistics ends up with a wrong sum. -/
theorem root_of_summary (hm : m.WellFormed)
    (h : Forest.addUp m.parentOf m.paths m.ownStatistics root
      = ∑ y ∈ m.nodes.toFinset with m.Calls root y, (m.node y).statistics) :
    (m.node root).summaryStatistics = (m.node root).statistics := by
  have hnew : root ∉ m.paths := (List.nodup_cons.mp hm.listed.nodup).1
  have hmem : root ∈ m.nodes.toFinset.filter (m.Calls root) :=
    Finset.mem_filter.mpr ⟨List.mem_toFinset.mpr m.root_mem, .refl root⟩
  have hothers : ∀ y ∈ (m.nodes.toFinset.filter (m.Calls root)).erase root,
      m.ownStatistics y = (m.node y).statistics := by
    intro y hy
    obtain ⟨hne, hy⟩ := Finset.mem_erase.mp hy
    have hy' := List.mem_toFinset.mp (Finset.mem_filter.mp hy).1
    exact if_pos ((List.mem_cons.mp hy').resolve_left hne)
  rw [hm.listed.addUp_eq_sum hm.root_parent m.root_mem] at h
  change ∑ y ∈ m.nodes.toFinset with m.Calls root y, m.ownStatistics y = _ at h
  rw [← Finset.add_sum_erase _ _ hmem, ← Finset.add_sum_erase _ _ hmem,
    Finset.sum_congr rfl hothers] at h
  have hroot : m.ownStatistics root = (m.node root).summaryStatistics := if_neg hnew
  rw [← hroot]
  exact add_right_cancel h

variable [DecidableEq Inst] [DecidableEq Fn]
  {results : CallSiteSummaryTable Inst Fn numStatistics}

/-- One step of the second loop. -/
theorem addSummary_eq (hp : m.parentOf x = some p) (hne : x ≠ p) :
    addSummary x (m.withSummaries value, results)
      = some (m.withSummaries (Forest.addToParent m.parentOf x value),
          Function.update results (m.keyOf x) (some
            ⟨(results.get (m.keyOf x)).count + (m.node x).count,
              (results.get (m.keyOf x)).statistics + value x⟩)) := by
  have hparent : ((m.withSummaries value).node x).parent = some p := hp
  have hmodify : (m.withSummaries value).modify p (fun n => { n with
      summaryStatistics := n.summaryStatistics
        + ((m.withSummaries value).node x).summaryStatistics })
      = m.withSummaries (Forest.addToParent m.parentOf x value) := by
    refine (modify_withSummaries m value p fun n => n.summaryStatistics + value x).trans ?_
    congr 1
    unfold Forest.addToParent
    rw [hp]
    rfl
  have hvalue : Forest.addToParent m.parentOf x value x = value x := by
    rw [Forest.addToParent_of_parent hp, if_neg hne, add_zero]
  unfold addSummary
  dsimp only
  rw [hparent]
  dsimp only
  rw [hmodify]
  show some (_, Function.update results (m.keyOf x) (some ⟨_ + (m.node x).count,
    _ + Forest.addToParent m.parentOf x value x⟩)) = _
  rw [hvalue]
  rfl

/-- The table, as the pass of the forest adds it up. -/
def Matches (results : CallSiteSummaryTable Inst Fn numStatistics)
    (statistics : Option Inst × Option Fn → StatisticRecord numStatistics)
    (counts : Option Inst × Option Fn → BitVec 32) : Prop :=
  ∀ k, results.get k = ⟨counts k, statistics k⟩

omit [DecidableEq Inst] [DecidableEq Fn] in
theorem get_update [DecidableEq (Option Inst × Option Fn)] (k k' : Option Inst × Option Fn)
    (info : CallSiteInfo numStatistics) :
    CallSiteSummaryTable.get (Function.update results k (some info)) k'
      = if k' = k then info else results.get k' := by
  unfold CallSiteSummaryTable.get
  by_cases hk : k' = k
  · rw [if_pos hk, hk, Function.update_self]
    rfl
  · rw [if_neg hk, Function.update_of_ne hk]

/-- The second loop over nodes that have parents. -/
theorem foldr_addSummary_eq (l : List ℕ) (hl : ∀ x ∈ l, ∃ p, m.parentOf x = some p ∧ x ≠ p)
    (value : ℕ → StatisticRecord numStatistics) :
    ∃ results, l.foldr (fun cp s => s.bind (addSummary cp))
        (some (m.withSummaries value, fun _ => none))
        = some (m.withSummaries (Forest.addUp m.parentOf l value), results)
      ∧ Matches results
        (l.foldr (Forest.addToTable m.keyOf (fun _ v => v) m.parentOf) (value, 0)).2
        (l.foldr (Forest.addToTable m.keyOf (fun x _ => (m.node x).count) m.parentOf)
          (value, 0)).2 := by
  induction l with
  | nil => exact ⟨_, rfl, fun k => rfl⟩
  | cons x l ih =>
    obtain ⟨results, heq, hmatch⟩ := ih fun y hy => hl y (List.mem_cons_of_mem x hy)
    obtain ⟨p, hp, hne⟩ := hl x List.mem_cons_self
    refine ⟨Function.update results (m.keyOf x) (some
      ⟨(CallSiteSummaryTable.get results (m.keyOf x)).count + (m.node x).count,
        (CallSiteSummaryTable.get results (m.keyOf x)).statistics
          + Forest.addUp m.parentOf l value x⟩), ?_, ?_⟩
    · rw [List.foldr_cons, heq]
      exact addSummary_eq hp hne
    · intro k
      rw [get_update, hmatch (m.keyOf x), List.foldr_cons, List.foldr_cons, Forest.addToTable,
        Forest.addToTable]
      dsimp only
      rw [Forest.foldr_addToTable_fst]
      by_cases hk : k = m.keyOf x
      · rw [if_pos hk, hk, Function.update_self, Function.update_self]
      · rw [if_neg hk, Function.update_of_ne hk, Function.update_of_ne hk]
        exact hmatch k

/-! ## The result of the pass -/

theorem getSummaryStatistics_eq (hm : m.WellFormed) :
    ∃ results, m.getSummaryStatistics
        = some (m.withSummaries (Forest.addUp m.parentOf m.paths m.ownStatistics), results)
      ∧ ∀ k, results.get k = ⟨∑ x ∈ m.paths.toFinset with m.keyOf x = k, (m.node x).count,
        ∑ x ∈ m.paths.toFinset with m.keyOf x = k,
          Forest.addUp m.parentOf m.paths m.ownStatistics x⟩ := by
  have hparents : ∀ x ∈ m.paths, ∃ p, m.parentOf x = some p ∧ x ≠ p := by
    intro x hx
    obtain ⟨p, -, hp⟩ := hm.listed.exists_parent hx
    exact ⟨p, hp, (hm.parent_lt x (List.mem_cons_of_mem _ hx) p hp).ne'⟩
  obtain ⟨results, heq, hmatch⟩ := foldr_addSummary_eq m.paths hparents m.ownStatistics
  refine ⟨results, ?_, fun k => ?_⟩
  · unfold getSummaryStatistics
    rw [resetSummaries_eq]
    exact heq
  · rw [hmatch k, hm.listed.foldr_addToTable, hm.listed.foldr_addToTable]
    dsimp only
    rw [Pi.zero_apply, Pi.zero_apply, zero_add, zero_add]

/-! ## What is asked of the summaries -/

end Pass

open Classical in
/-- The answer of `getSummaryStatistics` counts every event once. -/
structure SumsUp [DecidableEq Inst] [DecidableEq Fn]
    (m m' : CallPathManager Inst Fn numStatistics)
    (results : CallSiteSummaryTable Inst Fn numStatistics) : Prop where
  /-- A summary is the sum of the statistics of the node and all its descendants. -/
  summary : ∀ x ∈ m.nodes, (m'.node x).summaryStatistics
    = ∑ y ∈ m.nodes.toFinset with m.Calls x y, (m.node y).statistics
  /-- An entry is the sum over its nodes. -/
  entry : ∀ k, (results.get k).statistics
    = ∑ x ∈ m.paths.toFinset with m.keyOf x = k, (m'.node x).summaryStatistics
  count : ∀ k, (results.get k).count
    = ∑ x ∈ m.paths.toFinset with m.keyOf x = k, (m.node x).count
  /-- The statistics of a node are in an entry at most once. -/
  once : ∀ k, (results.get k).statistics
    = ∑ y ∈ m.nodes.toFinset with ∃ x ∈ m.paths.toFinset, m.keyOf x = k ∧ m.Calls x y,
        (m.node y).statistics

/-- Calls succeed, the nodes are in order, and statistics are summed up right. -/
structure CountsOnce [DecidableEq Inst] [DecidableEq Fn]
    (m : CallPathManager Inst Fn numStatistics) : Prop where
  progress : ∀ c, m.Ok c → (m.step c).isSome
  /-- `paths` has every parent before its children. -/
  parentsFirst : ∀ front cp back, m.paths = front ++ cp :: back →
    ∃ p ∈ root :: front, (m.node cp).parent = some p
  /-- No pair occurs twice on a path from the root. -/
  noRepeat : ∀ z ∈ m.nodes, ∀ x y, m.Calls x z → m.Calls y z → m.keyOf x = m.keyOf y → x = y
  sums : ∀ m' results, m.getSummaryStatistics = some (m', results) → SumsUp m m' results

section Reachable

variable [DecidableEq Inst] [DecidableEq Fn] {m m' : CallPathManager Inst Fn numStatistics}
  {results : CallSiteSummaryTable Inst Fn numStatistics} {x : ℕ}

/-! ## Every run -/

theorem step_keeps (hm : m.WellFormed) (c : Call Inst Fn numStatistics) (hok : m.Ok c) :
    ∃ a m', m.step c = some (a, m') ∧ m'.WellFormed := by
  cases c with
  | getCallPath parent cs f =>
    obtain ⟨cp, m', heq, hm', -⟩ := getCallPath_spec hm hok cs f
    exact ⟨.node cp, m', by rw [step, heq]; rfl, hm'⟩
  | increment p addend =>
    exact ⟨_, _, rfl, hm.modify (fun n => { n with statistics := n.statistics + addend })
      (fun _ => rfl) (fun _ => rfl) (fun _ => rfl) p⟩
  | countCall p =>
    exact ⟨_, _, rfl, hm.modify (fun n => { n with count := n.count + 1 })
      (fun _ => rfl) (fun _ => rfl) (fun _ => rfl) p⟩
  | getSummaryStatistics =>
    obtain ⟨results, heq, -⟩ := getSummaryStatistics_eq hm
    refine ⟨.table results, _, by rw [step, heq]; rfl, ?_⟩
    exact (sameTree_withSummaries m _).wellFormed hm hm.children

theorem Reachable.wellFormed (h : m.Reachable) : m.WellFormed := by
  refine h.invariant wellFormed_new fun s c a s' hs hok heq => ?_
  obtain ⟨a', s'', heq', hs''⟩ := step_keeps hs c hok
  rw [heq] at heq'
  obtain ⟨-, rfl⟩ := Prod.mk.inj (Option.some.inj heq')
  exact hs''

open Classical in
/-- The entries of the table have each node once, since no two nodes of one pair are on the
same path. -/
theorem entry_once (hm : m.WellFormed) (k : Option Inst × Option Fn) :
    ∑ x ∈ m.paths.toFinset with m.keyOf x = k,
        Forest.addUp m.parentOf m.paths m.ownStatistics x
      = ∑ y ∈ m.nodes.toFinset with ∃ x ∈ m.paths.toFinset, m.keyOf x = k ∧ m.Calls x y,
          (m.node y).statistics := by
  have hsum : ∀ x ∈ m.paths.toFinset.filter (fun x => m.keyOf x = k),
      Forest.addUp m.parentOf m.paths m.ownStatistics x
        = ∑ y ∈ m.nodes.toFinset with m.Calls x y, (m.node y).statistics := by
    intro x hx
    have hpaths := List.mem_toFinset.mp (Finset.mem_filter.mp hx).1
    exact addUp_eq_statistics hm (List.mem_cons_of_mem _ hpaths) (.inl hpaths)
  rw [Finset.sum_congr rfl hsum]
  refine Forest.sum_trees m.keyOf m.nodes.toFinset _ k m.paths.toFinset ?_
  intro x _ y _ hx hy z hz hxz hyz
  exact hm.distinct z (List.mem_toFinset.mp hz) x y hxz hyz (hx.trans hy.symm)

/-- Along every run, the statistics are counted once if and only if the summary of the root is
its own statistics when the pass begins. -/
theorem countsOnce_iff (m : CallPathManager Inst Fn numStatistics) (h : m.Reachable) :
    m.CountsOnce ↔ (m.node root).summaryStatistics = (m.node root).statistics := by
  have hm := h.wellFormed
  obtain ⟨results, heq, hentries⟩ := getSummaryStatistics_eq hm
  constructor
  · intro hcounts
    exact root_of_summary hm ((hcounts.sums _ _ heq).summary root m.root_mem)
  · intro hroot
    refine ⟨fun c hok => ?_, hm.listed.parent_before, hm.distinct, fun m' results' heq' => ?_⟩
    · obtain ⟨a, m', hstep, -⟩ := step_keeps hm c hok
      rw [hstep]
      rfl
    · rw [heq] at heq'
      obtain ⟨rfl, rfl⟩ := Prod.mk.inj (Option.some.inj heq')
      refine ⟨fun x hx => ?_, fun k => ?_, fun k => ?_, fun k => ?_⟩
      · exact addUp_eq_statistics hm hx (.inr hroot)
      · rw [hentries k]
        rfl
      · rw [hentries k]
      · rw [hentries k]
        exact entry_once hm k

/-! ## A run with two passes -/

/-- The function `0` is entered, an event happens there, and the summaries are computed. -/
def onePass : CallPathManager ℕ ℕ 1 :=
  ((((new.getCallPath none none (some 0)).get rfl).2.modify 1 fun n =>
    { n with statistics := n.statistics + 1 }).getSummaryStatistics.get rfl).1

theorem reachable_onePass : onePass.Reachable := by
  have hcall : Reachable (((new : CallPathManager ℕ ℕ 1).getCallPath none none (some 0)).get rfl).2 :=
    .step .init (c := .getCallPath none none (some 0)) (fun _ h => nomatch h) rfl
  have hevent : Reachable ((((new : CallPathManager ℕ ℕ 1).getCallPath none none (some 0)).get
      rfl).2.modify 1 fun n => { n with statistics := n.statistics + 1 }) :=
    .step hcall (c := .increment 1 1) (show 1 ∈ [0, 1] by decide) rfl
  exact .step hevent (c := .getSummaryStatistics) trivial rfl

/-- Before any pass, everything is counted once. -/
theorem countsOnce_iff_input :
    (new : CallPathManager ℕ ℕ 1).CountsOnce
      ∧ ((new : CallPathManager ℕ ℕ 1).CountsOnce
        ↔ ((new : CallPathManager ℕ ℕ 1).node root).summaryStatistics
          = ((new : CallPathManager ℕ ℕ 1).node root).statistics) :=
  have hiff := countsOnce_iff (new : CallPathManager ℕ ℕ 1) .init
  ⟨hiff.mpr rfl, hiff⟩

/-- The second pass counts the event of the first one twice at the root. -/
theorem second_pass_counts_twice : onePass.Reachable ∧ ¬onePass.CountsOnce := by
  refine ⟨reachable_onePass, fun h => ?_⟩
  have hroot := (countsOnce_iff onePass reachable_onePass).mp h
  exact absurd (congrFun hroot 0) (by decide)

end Reachable

end CallPathManager

end Xklee
