/-
Call paths and their statistics: `lib/Core/CallPathManager.cpp`.

A node stands for a call site and a function on a path from the root. The parents form a tree.
The children are a cache: a recursive call gets the node of the call further up, which becomes
a child of the node that calls, so that the children can form cycles.

Nodes are numbers, as pointers to them are only compared: the root is 0 and a new node gets the
next number. `none` stands for a null pointer that is followed, and for a loop that does not
end.

The summaries are exact for all nodes of `paths`, however often they are computed. The root is
not in `paths`, so its summary is not set back before the pass and counts the events of earlier
passes again.
-/
import Xklee.Data.ForestSum
import Xklee.Data.Partial
import Xklee.Data.Run
import Mathlib.Data.BitVec

set_option autoImplicit false

namespace Xklee

/-- `StatisticRecord`: one counter for each registered statistic. -/
abbrev StatisticRecord (numStatistics : ℕ) := Fin numStatistics → BitVec 64

structure CallPathNode (Inst Fn : Type) (numStatistics : ℕ) where
  parent : Option ℕ
  callSite : Option Inst
  function : Option Fn
  children : Option Inst × Option Fn → Option ℕ
  statistics : StatisticRecord numStatistics
  summaryStatistics : StatisticRecord numStatistics
  count : BitVec 32

structure CallSiteInfo (numStatistics : ℕ) where
  count : BitVec 32
  statistics : StatisticRecord numStatistics

/-- `CallSiteInfo()`. -/
def CallSiteInfo.new (numStatistics : ℕ) : CallSiteInfo numStatistics := ⟨0, 0⟩

structure CallPathManager (Inst Fn : Type) (numStatistics : ℕ) where
  node : ℕ → CallPathNode Inst Fn numStatistics
  paths : List ℕ

/-- `CallSiteSummaryTable`. -/
abbrev CallSiteSummaryTable (Inst Fn : Type) (numStatistics : ℕ) :=
  Option Inst × Option Fn → Option (CallSiteInfo numStatistics)

section Model

variable {Inst Fn : Type} {numStatistics : ℕ}

/-- The constructor of `CallPathNode`. -/
def CallPathNode.new (parent : Option ℕ) (callSite : Option Inst)
    (function : Option Fn) : CallPathNode Inst Fn numStatistics :=
  ⟨parent, callSite, function, fun _ => none, 0, 0, 0⟩

/-- The pair that a node is looked up by. -/
def CallPathNode.key (n : CallPathNode Inst Fn numStatistics) :
    Option Inst × Option Fn := (n.callSite, n.function)

/-- The entry that `results[callSite][function]` makes or finds. -/
def CallSiteSummaryTable.get (results : CallSiteSummaryTable Inst Fn numStatistics)
    (key : Option Inst × Option Fn) : CallSiteInfo numStatistics :=
  (results key).getD (.new numStatistics)

namespace CallPathManager

/-- `root`. -/
def root : ℕ := 0

/-- The constructor of `CallPathManager`. -/
def new : CallPathManager Inst Fn numStatistics :=
  ⟨fun _ => .new none none none, []⟩

def modify (m : CallPathManager Inst Fn numStatistics) (p : ℕ)
    (f : CallPathNode Inst Fn numStatistics →
      CallPathNode Inst Fn numStatistics) :
    CallPathManager Inst Fn numStatistics :=
  { m with node := Function.update m.node p (f (m.node p)) }

/-- One step of the pass of `getSummaryStatistics`. -/
def addSummary [DecidableEq Inst] [DecidableEq Fn] (cp : ℕ)
    (s : CallPathManager Inst Fn numStatistics
      × CallSiteSummaryTable Inst Fn numStatistics) :
    Option (CallPathManager Inst Fn numStatistics
      × CallSiteSummaryTable Inst Fn numStatistics) :=
  match (s.1.node cp).parent with
  | none => none
  | some p =>
      let m := s.1.modify p fun n =>
        { n with summaryStatistics := n.summaryStatistics + (s.1.node cp).summaryStatistics }
      let csi := s.2.get (m.node cp).key
      some (m, Function.update s.2 (m.node cp).key (some
        ⟨csi.count + (m.node cp).count, csi.statistics + (m.node cp).summaryStatistics⟩))

/-- The first loop of `getSummaryStatistics`. -/
def resetSummaries (m : CallPathManager Inst Fn numStatistics) :
    CallPathManager Inst Fn numStatistics :=
  m.paths.foldl (fun m cp => m.modify cp fun n => { n with summaryStatistics := n.statistics }) m

/-- `getSummaryStatistics`. The second loop goes through `paths` from its end. -/
def getSummaryStatistics [DecidableEq Inst] [DecidableEq Fn]
    (m : CallPathManager Inst Fn numStatistics) :
    Option (CallPathManager Inst Fn numStatistics
      × CallSiteSummaryTable Inst Fn numStatistics) :=
  m.paths.foldr (fun cp s => s.bind (addSummary cp)) (some (m.resetSummaries, fun _ => none))

/-- The loop of `computeCallPath` over the parents, with a bound on the number of rounds. -/
def findOnPath [DecidableEq Inst] [DecidableEq Fn]
    (m : CallPathManager Inst Fn numStatistics) (cs : Option Inst)
    (f : Option Fn) : ℕ → Option ℕ → Option (Option ℕ)
  | _, none => some none
  | 0, some _ => none
  | rounds + 1, some p =>
      if cs = (m.node p).callSite ∧ f = (m.node p).function then some (some p)
      else findOnPath m cs f rounds (m.node p).parent

def computeCallPath [DecidableEq Inst] [DecidableEq Fn]
    (m : CallPathManager Inst Fn numStatistics) (parent : ℕ)
    (cs : Option Inst) (f : Option Fn) :
    Option (ℕ × CallPathManager Inst Fn numStatistics) :=
  (m.findOnPath cs f (m.paths.length + 1) (some parent)).map fun
    -- the node exists already, in recursion
    | some p => (p, m)
    | none =>
        let cp := m.paths.length + 1
        (cp, { node := Function.update m.node cp (.new (some parent) cs f)
               paths := m.paths ++ [cp] })

/-- `getCallPath`. A null parent stands for the root. -/
def getCallPath [DecidableEq Inst] [DecidableEq Fn]
    (m : CallPathManager Inst Fn numStatistics) (parent : Option ℕ)
    (cs : Option Inst) (f : Option Fn) :
    Option (ℕ × CallPathManager Inst Fn numStatistics) :=
  let parent := parent.getD root
  match (m.node parent).children (cs, f) with
  | some cp => some (cp, m)
  | none =>
      (m.computeCallPath parent cs f).map fun (cp, m) =>
        (cp, m.modify parent fun n =>
          { n with children := Function.update n.children (cs, f) (some cp) })

/-! ## Runs -/

/-- What the statistics tracker does with the call paths. -/
inductive Call (Inst Fn : Type) (numStatistics : ℕ)
  | getCallPath (parent : Option ℕ) (cs : Option Inst) (f : Option Fn)
  /-- An event while the node is the context of the statistics. -/
  | increment (p : ℕ) (addend : StatisticRecord numStatistics)
  /-- `cp->count++`. -/
  | countCall (p : ℕ)
  | getSummaryStatistics

/-- What a call returns. -/
inductive Answer (Inst Fn : Type) (numStatistics : ℕ)
  | node (cp : ℕ)
  | done
  | table (results : CallSiteSummaryTable Inst Fn numStatistics)

def step [DecidableEq Inst] [DecidableEq Fn] (m : CallPathManager Inst Fn numStatistics) :
    Call Inst Fn numStatistics →
      Option (Answer Inst Fn numStatistics
        × CallPathManager Inst Fn numStatistics)
  | .getCallPath parent cs f => (m.getCallPath parent cs f).map fun (cp, m) => (.node cp, m)
  | .increment p addend =>
      some (.done, m.modify p fun n => { n with statistics := n.statistics + addend })
  | .countCall p => some (.done, m.modify p fun n => { n with count := n.count + 1 })
  | .getSummaryStatistics => m.getSummaryStatistics.map fun (m, results) => (.table results, m)

/-- The root and the nodes of `paths`. -/
def nodes (m : CallPathManager Inst Fn numStatistics) : List ℕ := root :: m.paths

/-- A call gets nodes of the manager. -/
def Ok (m : CallPathManager Inst Fn numStatistics) :
    Call Inst Fn numStatistics → Prop
  | .getCallPath parent _ _ => ∀ p, parent = some p → p ∈ m.nodes
  | .increment p _ => p ∈ m.nodes
  | .countCall p => p ∈ m.nodes
  | .getSummaryStatistics => True

abbrev Reachable [DecidableEq Inst] [DecidableEq Fn]
    (m : CallPathManager Inst Fn numStatistics) : Prop :=
  Reaches step Ok new m

/-! ## The tree -/

def parentOf (m : CallPathManager Inst Fn numStatistics) (x : ℕ) : Option ℕ := (m.node x).parent

def keyOf (m : CallPathManager Inst Fn numStatistics) (x : ℕ) : Option Inst × Option Fn :=
  (m.node x).key

/-- `x` is `y` or one of the callers of `y`. -/
def Calls (m : CallPathManager Inst Fn numStatistics) (x y : ℕ) : Prop :=
  Forest.Below m.parentOf x y

/-- What `getCallPath` keeps. The numbers of nodes are those up to the length of `paths`, and
no two nodes on a path from the root have the same pair. -/
structure WellFormed (m : CallPathManager Inst Fn numStatistics) : Prop where
  root_parent : m.parentOf root = none
  listed : Forest.Listed m.parentOf root m.paths
  bounded : ∀ x ∈ m.nodes, x ≤ m.paths.length
  parent_lt : ∀ x ∈ m.nodes, ∀ p, m.parentOf x = some p → p < x
  distinct : ∀ z ∈ m.nodes, ∀ x y, m.Calls x z → m.Calls y z → m.keyOf x = m.keyOf y → x = y
  children : ∀ x ∈ m.nodes, ∀ k c, (m.node x).children k = some c → c ∈ m.nodes

/-- Nothing of the tree differs. -/
structure SameTree (m m' : CallPathManager Inst Fn numStatistics) : Prop where
  paths : m'.paths = m.paths
  parent : m'.parentOf = m.parentOf
  key : m'.keyOf = m.keyOf

section Tree

variable {m m' : CallPathManager Inst Fn numStatistics} {p x y : ℕ} {cs : Option Inst}
  {f : Option Fn}

theorem SameTree.nodes (h : SameTree m m') : m'.nodes = m.nodes := by
  unfold CallPathManager.nodes
  rw [h.paths]

theorem SameTree.wellFormed (h : SameTree m m') (hm : m.WellFormed)
    (hchildren : ∀ x ∈ m.nodes, ∀ k c, (m'.node x).children k = some c → c ∈ m.nodes) :
    m'.WellFormed := by
  refine ⟨?_, ?_, ?_, ?_, ?_, ?_⟩
  · rw [h.parent]
    exact hm.root_parent
  · rw [h.parent, h.paths]
    exact hm.listed
  · rw [h.nodes, h.paths]
    exact hm.bounded
  · rw [h.nodes, h.parent]
    exact hm.parent_lt
  · unfold Calls
    rw [h.nodes, h.parent, h.key]
    exact hm.distinct
  · rw [h.nodes]
    exact hchildren

/-- A change of one node that keeps its place in the tree. -/
theorem sameTree_modify
    (g : CallPathNode Inst Fn numStatistics → CallPathNode Inst Fn numStatistics)
    (hparent : ∀ n, (g n).parent = n.parent) (hkey : ∀ n, (g n).key = n.key)
    (m : CallPathManager Inst Fn numStatistics) (p : ℕ) : SameTree m (m.modify p g) := by
  refine ⟨rfl, ?_, ?_⟩
  · funext x
    show (Function.update m.node p (g (m.node p)) x).parent = (m.node x).parent
    by_cases hx : x = p
    · rw [hx, Function.update_self, hparent]
    · rw [Function.update_of_ne hx]
  · funext x
    show (Function.update m.node p (g (m.node p)) x).key = (m.node x).key
    by_cases hx : x = p
    · rw [hx, Function.update_self, hkey]
    · rw [Function.update_of_ne hx]

/-- A change of the counters of one node. -/
theorem WellFormed.modify (hm : m.WellFormed)
    (g : CallPathNode Inst Fn numStatistics → CallPathNode Inst Fn numStatistics)
    (hparent : ∀ n, (g n).parent = n.parent) (hkey : ∀ n, (g n).key = n.key)
    (hchildren : ∀ n, (g n).children = n.children) (p : ℕ) : (m.modify p g).WellFormed := by
  refine (sameTree_modify g hparent hkey m p).wellFormed hm ?_
  intro x hx k c hc
  have hsame : ((m.modify p g).node x).children = (m.node x).children := by
    show (Function.update m.node p (g (m.node p)) x).children = (m.node x).children
    by_cases hxp : x = p
    · rw [hxp, Function.update_self, hchildren]
    · rw [Function.update_of_ne hxp]
  rw [hsame] at hc
  exact hm.children x hx k c hc

theorem root_mem (m : CallPathManager Inst Fn numStatistics) : root ∈ m.nodes := List.mem_cons_self

theorem WellFormed.parent_mem (hm : m.WellFormed) (hx : x ∈ m.nodes)
    (hp : m.parentOf x = some p) : p ∈ m.nodes :=
  hm.listed.mem_of_below hm.root_parent hx (.step hp (.refl p))

theorem wellFormed_new : (new : CallPathManager Inst Fn numStatistics).WellFormed := by
  have hbelow : ∀ x y, (new : CallPathManager Inst Fn numStatistics).Calls x y → y = x :=
    fun x y h => (Forest.below_of_parent_none rfl).mp h
  refine ⟨rfl, .nil, ?_, ?_, ?_, ?_⟩
  · intro x hx
    rw [List.mem_singleton.mp hx]
    exact Nat.zero_le _
  · intro x _ p hp
    cases hp
  · intro z _ x y hx hy _
    rw [← hbelow x z hx, ← hbelow y z hy]
  · intro x _ k c hc
    cases hc

/-! ## The search for a call further up -/

/-- The search ends. It finds a node of the path with the pair if there is one. -/
theorem findOnPath_spec [DecidableEq Inst] [DecidableEq Fn]
    (hm : m.WellFormed) (cs : Option Inst) (f : Option Fn) {rounds : ℕ}
    (hx : x ∈ m.nodes) (hrounds : x < rounds) :
    ∃ r, m.findOnPath cs f rounds (some x) = some r
      ∧ (∀ p, r = some p → m.Calls p x ∧ m.keyOf p = (cs, f))
      ∧ (r = none → ∀ p, m.Calls p x → m.keyOf p ≠ (cs, f)) := by
  induction rounds generalizing x with
  | zero => exact absurd hrounds (Nat.not_lt_zero x)
  | succ rounds ih =>
    by_cases hkey : cs = (m.node x).callSite ∧ f = (m.node x).function
    · refine ⟨some x, if_pos hkey, ?_, fun h => nomatch h⟩
      intro p hp
      obtain rfl := Option.some.inj hp
      exact ⟨.refl x, Prod.ext hkey.1.symm hkey.2.symm⟩
    · have hne : m.keyOf x ≠ (cs, f) := fun h =>
        hkey ⟨(congrArg Prod.fst h).symm, (congrArg Prod.snd h).symm⟩
      have hnext : m.findOnPath cs f (rounds + 1) (some x)
          = m.findOnPath cs f rounds (m.parentOf x) := if_neg hkey
      rw [hnext]
      cases hp : m.parentOf x with
      | none =>
        refine ⟨none, by rw [findOnPath], (fun p h => nomatch h), fun _ p hcalls => ?_⟩
        rw [← (Forest.below_of_parent_none hp).mp hcalls]
        exact hne
      | some q =>
        have hlt := hm.parent_lt x hx q hp
        obtain ⟨r, heq, hfound, hnone⟩ := ih (hm.parent_mem hx hp) (by omega)
        refine ⟨r, heq, fun p hr => ?_, fun hr p hcalls => ?_⟩
        · exact ⟨.step hp (hfound p hr).1, (hfound p hr).2⟩
        · obtain rfl | hcalls := (Forest.below_of_parent hp).mp hcalls
          · exact hne
          · exact hnone hr p hcalls

/-! ## The answers of `getCallPath` -/

/-- A new node below a node whose path does not have the pair. -/
def addNode (m : CallPathManager Inst Fn numStatistics) (parent : ℕ) (cs : Option Inst)
    (f : Option Fn) : CallPathManager Inst Fn numStatistics :=
  { node := Function.update m.node (m.paths.length + 1) (.new (some parent) cs f)
    paths := m.paths ++ [m.paths.length + 1] }

theorem mem_nodes_addNode {parent : ℕ} :
    x ∈ (m.addNode parent cs f).nodes ↔ x ∈ m.nodes ∨ x = m.paths.length + 1 := by
  show x ∈ root :: (m.paths ++ [m.paths.length + 1]) ↔ _
  rw [← List.cons_append, List.mem_append, List.mem_singleton]
  rfl

theorem WellFormed.addNode (hm : m.WellFormed) (hp : p ∈ m.nodes)
    (hnone : ∀ q, m.Calls q p → m.keyOf q ≠ (cs, f)) : (m.addNode p cs f).WellFormed := by
  have hfresh : m.paths.length + 1 ∉ m.nodes := fun h => by
    have := hm.bounded _ h
    omega
  have hnode : ∀ x ∈ m.nodes, (m.addNode p cs f).node x = m.node x := fun x hx =>
    Function.update_of_ne (fun h : x = m.paths.length + 1 => hfresh (h ▸ hx)) ..
  have hnew : (m.addNode p cs f).node (m.paths.length + 1) = .new (some p) cs f :=
    Function.update_self ..
  have hparent : ∀ x ∈ m.nodes, (m.addNode p cs f).parentOf x = m.parentOf x := fun x hx => by
    unfold parentOf
    rw [hnode x hx]
  have hparent_new : (m.addNode p cs f).parentOf (m.paths.length + 1) = some p := by
    unfold parentOf
    rw [hnew]
    rfl
  have hkey : ∀ x ∈ m.nodes, (m.addNode p cs f).keyOf x = m.keyOf x := fun x hx => by
    unfold keyOf
    rw [hnode x hx]
  have hkey_new : (m.addNode p cs f).keyOf (m.paths.length + 1) = (cs, f) := by
    unfold keyOf
    rw [hnew]
    rfl
  have hcalls : ∀ x, ∀ y ∈ m.nodes, (m.addNode p cs f).Calls x y ↔ m.Calls x y := fun x y hy =>
    hm.listed.below_congr hm.root_parent hparent hy
  have hmem : ∀ x, ∀ y ∈ m.nodes, m.Calls x y → x ∈ m.nodes := fun x y hy h =>
    hm.listed.mem_of_below hm.root_parent hy h
  have hcalls_new : ∀ x, (m.addNode p cs f).Calls x (m.paths.length + 1) →
      x = m.paths.length + 1 ∨ m.Calls x p := fun x h => by
    obtain heq | h := (Forest.below_of_parent hparent_new).mp h
    · exact .inl heq.symm
    · exact .inr ((hcalls x p hp).mp h)
  refine ⟨?_, ?_, ?_, ?_, ?_, ?_⟩
  · rw [hparent root m.root_mem]
    exact hm.root_parent
  · refine .snoc (hm.listed.congr fun x hx => hparent x (List.mem_cons_of_mem _ hx)) hparent_new
      hp hfresh
  · intro x hx
    show x ≤ (m.paths ++ [m.paths.length + 1]).length
    rw [List.length_append, List.length_singleton]
    obtain hx | rfl := mem_nodes_addNode.mp hx
    · have := hm.bounded x hx
      omega
    · exact le_rfl
  · intro x hx q hq
    obtain hx | rfl := mem_nodes_addNode.mp hx
    · rw [hparent x hx] at hq
      exact hm.parent_lt x hx q hq
    · rw [hparent_new] at hq
      have := hm.bounded p hp
      rw [← Option.some.inj hq]
      omega
  · intro z hz x y hx hy heq
    obtain hz | rfl := mem_nodes_addNode.mp hz
    · rw [hcalls x z hz] at hx
      rw [hcalls y z hz] at hy
      rw [hkey x (hmem x z hz hx), hkey y (hmem y z hz hy)] at heq
      exact hm.distinct z hz x y hx hy heq
    · -- the pair of the new node is not on the path of its parent
      obtain rfl | hx := hcalls_new x hx
      · obtain rfl | hy := hcalls_new y hy
        · rfl
        · rw [hkey_new, hkey y (hmem y p hp hy)] at heq
          exact absurd heq.symm (hnone y hy)
      · obtain rfl | hy := hcalls_new y hy
        · rw [hkey_new, hkey x (hmem x p hp hx)] at heq
          exact absurd heq (hnone x hx)
        · rw [hkey x (hmem x p hp hx), hkey y (hmem y p hp hy)] at heq
          exact hm.distinct p hp x y hx hy heq
  · intro x hx k c hc
    obtain hx | rfl := mem_nodes_addNode.mp hx
    · rw [hnode x hx] at hc
      exact mem_nodes_addNode.mpr (.inl (hm.children x hx k c hc))
    · rw [hnew] at hc
      cases hc

/-- A new entry of the cache of children. -/
theorem WellFormed.cacheChild [DecidableEq (Option Inst × Option Fn)] (hm : m.WellFormed) {c : ℕ}
    (hc : c ∈ m.nodes) (p : ℕ) (k : Option Inst × Option Fn) :
    (m.modify p fun n => { n with children := Function.update n.children k (some c) }).WellFormed := by
  have hsame : SameTree m
      (m.modify p fun n => { n with children := Function.update n.children k (some c) }) :=
    sameTree_modify (fun n => { n with children := Function.update n.children k (some c) })
      (fun _ => rfl) (fun _ => rfl) m p
  apply hsame.wellFormed hm
  intro x hx k' c' hc'
  change (Function.update m.node p _ x).children k' = some c' at hc'
  by_cases hxp : x = p
  · subst hxp
    rw [Function.update_self] at hc'
    change Function.update (m.node x).children k (some c) k' = some c' at hc'
    by_cases hk : k' = k
    · rw [hk, Function.update_self] at hc'
      exact Option.some.inj hc' ▸ hc
    · rw [Function.update_of_ne hk] at hc'
      exact hm.children x hx k' c' hc'
  · rw [Function.update_of_ne hxp] at hc'
    exact hm.children x hx k' c' hc'

/-- `getCallPath` returns a node, and keeps the tree in order. -/
theorem getCallPath_spec [DecidableEq Inst] [DecidableEq Fn]
    (hm : m.WellFormed) {parent : Option ℕ}
    (hparent : ∀ p, parent = some p → p ∈ m.nodes) (cs : Option Inst) (f : Option Fn) :
    ∃ cp m', m.getCallPath parent cs f = some (cp, m') ∧ m'.WellFormed ∧ cp ∈ m'.nodes := by
  have hp : parent.getD root ∈ m.nodes := by
    cases parent with
    | none => exact m.root_mem
    | some p => exact hparent p rfl
  unfold getCallPath
  dsimp only
  cases hchild : (m.node (parent.getD root)).children (cs, f) with
  | some cp => exact ⟨cp, m, rfl, hm, hm.children _ hp _ cp hchild⟩
  | none =>
    have hlt : parent.getD root < m.paths.length + 1 := Nat.lt_succ_of_le (hm.bounded _ hp)
    obtain ⟨r, heq, hfound, hnone⟩ := findOnPath_spec hm cs f hp hlt
    unfold computeCallPath
    rw [heq]
    cases r with
    | some q =>
      have hq : q ∈ m.nodes := hm.listed.mem_of_below hm.root_parent hp (hfound q rfl).1
      exact ⟨q, _, rfl, hm.cacheChild hq _ _, hq⟩
    | none =>
      have hadd : (m.addNode (parent.getD root) cs f).WellFormed := hm.addNode hp (hnone rfl)
      have hnew : m.paths.length + 1 ∈ (m.addNode (parent.getD root) cs f).nodes :=
        mem_nodes_addNode.mpr (.inr rfl)
      exact ⟨_, _, rfl, hadd.cacheChild hnew _ _, hnew⟩

end Tree

end CallPathManager

end Model

end Xklee
