/-
The process tree: `lib/Core/PTree.cpp`, and the searcher that walks down it.

The nodes live in a heap. Of a node's fields the model leaves out the condition, which
only `dump` prints. `delete n` frees the cell; `root` is not changed by it, as in the
source, and dangles once the last node is gone.
-/
import Xklee.Data.Heap

set_option autoImplicit false

namespace Xklee

/-- A node with its parent, children and state. -/
structure PTreeNode where
  parent : Option ℕ
  left : Option ℕ
  right : Option ℕ
  data : Option ℕ
deriving DecidableEq

structure PTree where
  heap : Heap PTreeNode
  root : ℕ
deriving DecidableEq

namespace PTree

/-- `PTree(root)` -/
def new (data : ℕ) : PTree where
  heap := Heap.empty.alloc ⟨none, none, none, some data⟩
  root := 0

def node (t : PTree) (n : ℕ) : Option PTreeNode := t.heap.read n

/-- `n->data = 0` -/
def clearData (t : PTree) (n : ℕ) : Option PTree :=
  (t.node n).map fun node => { t with heap := t.heap.write n { node with data := none } }

/-- `split(n, leftData, rightData)`, with `none` for the failing assertion. -/
def split (t : PTree) (n leftData rightData : ℕ) : Option ((ℕ × ℕ) × PTree) :=
  match t.node n with
  | none => none
  | some node =>
      if node.left = none ∧ node.right = none then
        let left := t.heap.next
        let heap := t.heap.alloc ⟨some n, none, none, some leftData⟩
        let right := heap.next
        let heap := heap.alloc ⟨some n, none, none, some rightData⟩
        let heap := heap.write n { node with left := some left, right := some right }
        some ((left, right), { t with heap := heap })
      else none

/-- `if (n == p->left) p->left = 0; else { assert(n == p->right); p->right = 0; }` -/
def PTreeNode.unlink (p : PTreeNode) (n : ℕ) : Option PTreeNode :=
  if p.left = some n then some { p with left := none }
  else if p.right = some n then some { p with right := none }
  else none

/-- The loop of `remove`. -/
def removeLoop : ℕ → Heap PTreeNode → ℕ → Option (Heap PTreeNode)
  | 0, _, _ => none
  | fuel + 1, heap, n =>
      match heap.read n with
      | none => none
      | some node =>
          let heap := heap.free n
          match node.parent with
          | none => some heap
          | some p => do
              let parent ← heap.read p
              let parent ← PTreeNode.unlink parent n
              let heap := heap.write p parent
              if parent.left = none ∧ parent.right = none then removeLoop fuel heap p
              else some heap

/-- `remove(n)`. A run up the parents that is longer than the heap never ends. -/
def remove (t : PTree) (n : ℕ) : Option PTree :=
  match t.node n with
  | none => none
  | some node =>
      if node.left = none ∧ node.right = none then
        (removeLoop t.heap.next t.heap n).map fun heap => { t with heap := heap }
      else none

/-- The loop of `RandomPathSearcher::selectState`, from the pointer `n`: `rng` are the
numbers that `theRNG.getInt32()` is going to give. There is no result if a pointer is
null or dangling, or if the loop does not end. -/
def selectLoop (t : PTree) : ℕ → Option ℕ → BitVec 32 → ℕ → (ℕ → BitVec 32) → Option ℕ
  | 0, _, _, _, _ => none
  | fuel + 1, n, flips, bits, rng =>
      match n.bind t.node with
      | none => none
      | some node =>
          match node.data with
          | some data => some data
          | none =>
              if node.left = none then selectLoop t fuel node.right flips bits rng
              else if node.right = none then selectLoop t fuel node.left flips bits rng
              else
                let (flips, bits, rng) :=
                  if bits = 0 then (rng 0, 32, fun i => rng (i + 1)) else (flips, bits, rng)
                let bits := bits - 1
                selectLoop t fuel (if flips.getLsbD bits then node.left else node.right) flips bits
                  rng

def selectState (t : PTree) (rng : ℕ → BitVec 32) : Option ℕ :=
  t.selectLoop t.heap.next (some t.root) 0 0 rng

/-! ## The invariant -/

/-- `c` is one of the children of the node. -/
def PTreeNode.IsChild (node : PTreeNode) (c : ℕ) : Prop :=
  node.left = some c ∨ node.right = some c

/-- The pointers between the nodes agree. A child is younger than its parent. -/
structure Linked (t : PTree) : Prop where
  child : ∀ n node c, t.node n = some node → PTreeNode.IsChild node c →
    n < c ∧ ∃ cn, t.node c = some cn ∧ cn.parent = some n
  parent : ∀ c cn p, t.node c = some cn → cn.parent = some p →
    ∃ pn, t.node p = some pn ∧ PTreeNode.IsChild pn c
  distinct : ∀ n node c, t.node n = some node → node.left = some c → node.right ≠ some c
  root : ∀ n node, t.node n = some node → node.parent = none → n = t.root

/-- The leaves and the states point to each other, where `place` tells the node of each
state. One leaf, the hole, may be without a state. -/
structure Labelled (t : PTree) (place : ℕ → Option ℕ) (hole : Option ℕ) : Prop where
  leaf : ∀ n node, t.node n = some node → (∀ c, ¬PTreeNode.IsChild node c) → hole ≠ some n →
    ∃ d, node.data = some d ∧ place d = some n
  inner : ∀ n node c, t.node n = some node → PTreeNode.IsChild node c → node.data = none
  place : ∀ d n, place d = some n → hole ≠ some n
    ∧ ∃ node, t.node n = some node ∧ node.data = some d ∧ ∀ c, ¬PTreeNode.IsChild node c

variable {node : PTreeNode} {n d : ℕ} {t : PTree} {place : ℕ → Option ℕ}

theorem not_isChild_iff :
    (∀ c, ¬PTreeNode.IsChild node c) ↔ node.left = none ∧ node.right = none := by
  simp only [PTreeNode.IsChild, not_or, forall_and, Option.eq_none_iff_forall_ne_some]

/-- The tree mirrors the states. -/
structure Mirrors (t : PTree) (place : ℕ → Option ℕ) : Prop where
  linked : t.Linked
  labelled : t.Labelled place none

/-! ## Removing -/

theorem unlink_spec {p : PTreeNode} (hchild : PTreeNode.IsChild p n)
    (hdistinct : ∀ c, p.left = some c → p.right ≠ some c) :
    ∃ p', PTreeNode.unlink p n = some p' ∧ p'.parent = p.parent ∧ p'.data = p.data
      ∧ (∀ c, PTreeNode.IsChild p' c ↔ PTreeNode.IsChild p c ∧ c ≠ n)
      ∧ ∀ c, p'.left = some c → p'.right ≠ some c := by
  rw [PTreeNode.unlink]
  by_cases hleft : p.left = some n
  · rw [if_pos hleft]
    refine ⟨_, rfl, rfl, rfl, fun c => ?_, fun c h => absurd h (by simp)⟩
    have hright := hdistinct n hleft
    simp only [PTreeNode.IsChild, hleft, Option.some.injEq]
    constructor
    · rintro (h | h)
      · exact absurd h (by simp)
      · exact ⟨.inr h, fun heq => hright (heq ▸ h)⟩
    · rintro ⟨h | h, hne⟩
      · exact absurd h.symm hne
      · exact .inr h
  · have hright : p.right = some n := hchild.resolve_left hleft
    rw [if_neg hleft, if_pos hright]
    refine ⟨_, rfl, rfl, rfl, fun c => ?_, fun c _ => by simp⟩
    simp only [PTreeNode.IsChild, hright, Option.some.injEq]
    constructor
    · rintro (h | h)
      · exact ⟨.inl h, fun heq => hleft (heq ▸ h)⟩
      · exact absurd h (by simp)
    · rintro ⟨h | h, hne⟩
      · exact .inl h
      · exact absurd h.symm hne

section Remove

variable {t : PTree} {place : ℕ → Option ℕ} {n : ℕ} {node : PTreeNode}

/-- A leaf without a parent is all there is. -/
theorem mirrors_free_root (t' : PTree) (hlinked : t.Linked) (hlabelled : t.Labelled place (some n))
    (hnode : t.node n = some node) (hleaf : ∀ c, ¬PTreeNode.IsChild node c)
    (hparent : node.parent = none) (hroot : t'.root = t.root)
    (hread : t'.node = Function.update t.node n none) : t'.Mirrors place := by
  have hold : ∀ m mn, t'.node m = some mn → m ≠ n ∧ t.node m = some mn := by
    intro m mn hm
    rw [hread] at hm
    by_cases heq : m = n
    · rw [heq, Function.update_self] at hm
      exact absurd hm (by simp)
    · rw [Function.update_of_ne heq] at hm
      exact ⟨heq, hm⟩
  have hkept : ∀ m mn, t.node m = some mn → m ≠ n → t'.node m = some mn := by
    intro m mn hm hne
    rw [hread, Function.update_of_ne hne, hm]
  refine ⟨⟨?_, ?_, ?_, ?_⟩, ?_, ?_, ?_⟩
  · intro m mn c hm hc
    obtain ⟨hlt, cn, hcn, hcp⟩ := hlinked.child m mn c (hold m mn hm).2 hc
    refine ⟨hlt, cn, hkept c cn hcn ?_, hcp⟩
    rintro rfl
    rw [Option.some.inj (hnode.symm.trans hcn)] at hparent
    exact absurd (hparent.symm.trans hcp) (by simp)
  · intro c cn q hc hq
    obtain ⟨pn, hpn, hpc⟩ := hlinked.parent c cn q (hold c cn hc).2 hq
    refine ⟨pn, hkept q pn hpn ?_, hpc⟩
    rintro rfl
    rw [Option.some.inj (hnode.symm.trans hpn)] at hleaf
    exact hleaf c hpc
  · exact fun m mn c hm => hlinked.distinct m mn c (hold m mn hm).2
  · exact fun m mn hm hp => (hlinked.root m mn (hold m mn hm).2 hp).trans hroot.symm
  · intro m mn hm hc _
    exact hlabelled.leaf m mn (hold m mn hm).2 hc
      fun heq => (hold m mn hm).1 (Option.some.inj heq).symm
  · exact fun m mn c hm => hlabelled.inner m mn c (hold m mn hm).2
  · intro d m hd
    obtain ⟨hhole, mn, hm, hdata, hc⟩ := hlabelled.place d m hd
    exact ⟨by simp, mn, hkept m mn hm fun heq => hhole (heq ▸ rfl), hdata, hc⟩

/-- Taking a leaf off its parent keeps the pointers and the labels, and leaves a hole at
the parent if that has no other child. -/
theorem linked_unlink (t' : PTree) {p : ℕ} {pn pn' : PTreeNode} (hlinked : t.Linked)
    (hlabelled : t.Labelled place (some n)) (hnode : t.node n = some node)
    (hleaf : ∀ c, ¬PTreeNode.IsChild node c) (hparent : node.parent = some p)
    (hpn : t.node p = some pn) (hpc : PTreeNode.IsChild pn n)
    (hpp : pn'.parent = pn.parent) (hpd : pn'.data = pn.data)
    (hpch : ∀ c, PTreeNode.IsChild pn' c ↔ PTreeNode.IsChild pn c ∧ c ≠ n)
    (hpdist : ∀ c, pn'.left = some c → pn'.right ≠ some c) (hroot : t'.root = t.root)
    (hread : t'.node = Function.update (Function.update t.node n none) p (some pn')) :
    t'.Linked ∧ ∀ hole, (hole ≠ some p → ∃ c, PTreeNode.IsChild pn' c) →
      (hole = none ∨ hole = some p) → t'.Labelled place hole := by
  have hpn' : t'.node p = some pn' := by rw [hread, Function.update_self]
  have hold : ∀ m mn, t'.node m = some mn → m ≠ p → m ≠ n ∧ t.node m = some mn := by
    intro m mn hm hne
    rw [hread, Function.update_of_ne hne] at hm
    by_cases heq : m = n
    · rw [heq, Function.update_self] at hm
      exact absurd hm (by simp)
    · rw [Function.update_of_ne heq] at hm
      exact ⟨heq, hm⟩
  have hkept : ∀ m mn, t.node m = some mn → m ≠ n → m ≠ p → t'.node m = some mn := by
    intro m mn hm hn hp
    rw [hread, Function.update_of_ne hp, Function.update_of_ne hn, hm]
  have hn : ∀ m mn, t.node m = some mn → PTreeNode.IsChild mn n → m = p := by
    intro m mn hm hc
    obtain ⟨-, cn, hcn, hcp⟩ := hlinked.child m mn n hm hc
    obtain rfl := Option.some.inj (hnode.symm.trans hcn)
    exact Option.some.inj (hcp.symm.trans hparent)
  refine ⟨⟨?_, ?_, ?_, ?_⟩, fun hole hchild hhole => ⟨?_, ?_, ?_⟩⟩
  · intro m mn c hm hc
    by_cases hmp : m = p
    · subst hmp
      obtain rfl := Option.some.inj (hpn'.symm.trans hm)
      obtain ⟨hc', hcn⟩ := (hpch c).mp hc
      obtain ⟨hlt, cn, hcn', hcp⟩ := hlinked.child m pn c hpn hc'
      exact ⟨hlt, cn, hkept c cn hcn' hcn (Nat.ne_of_gt hlt), hcp⟩
    · obtain ⟨hmn, hm⟩ := hold m mn hm hmp
      obtain ⟨hlt, cn, hcn, hcp⟩ := hlinked.child m mn c hm hc
      have hcn' : c ≠ n := fun heq => hmp (hn m mn hm (heq ▸ hc))
      by_cases hcp' : c = p
      · subst hcp'
        obtain rfl := Option.some.inj (hpn.symm.trans hcn)
        exact ⟨hlt, pn', hpn', hpp.trans hcp⟩
      · exact ⟨hlt, cn, hkept c cn hcn hcn' hcp', hcp⟩
  · intro c cn q hc hq
    obtain ⟨cn₀, hcn₀, hq₀, hcn⟩ : ∃ cn₀, t.node c = some cn₀ ∧ cn₀.parent = some q ∧ c ≠ n := by
      by_cases hcp : c = p
      · subst hcp
        obtain rfl := Option.some.inj (hpn'.symm.trans hc)
        exact ⟨pn, hpn, hpp ▸ hq, fun heq => hleaf n (by
          obtain rfl := Option.some.inj (hnode.symm.trans (heq ▸ hpn)); exact hpc)⟩
      · obtain ⟨hcn, hc⟩ := hold c cn hc hcp
        exact ⟨cn, hc, hq, hcn⟩
    obtain ⟨qn, hqn, hqc⟩ := hlinked.parent c cn₀ q hcn₀ hq₀
    by_cases hqp : q = p
    · subst hqp
      obtain rfl := Option.some.inj (hpn.symm.trans hqn)
      exact ⟨pn', hpn', (hpch c).mpr ⟨hqc, hcn⟩⟩
    · refine ⟨qn, hkept q qn hqn ?_ hqp, hqc⟩
      rintro rfl
      obtain rfl := Option.some.inj (hnode.symm.trans hqn)
      exact hleaf c hqc
  · intro m mn c hm hc
    by_cases hmp : m = p
    · subst hmp
      obtain rfl := Option.some.inj (hpn'.symm.trans hm)
      exact hpdist c hc
    · exact hlinked.distinct m mn c (hold m mn hm hmp).2 hc
  · intro m mn hm hp
    rw [hroot]
    by_cases hmp : m = p
    · subst hmp
      obtain rfl := Option.some.inj (hpn'.symm.trans hm)
      exact hlinked.root m pn hpn (hpp ▸ hp)
    · exact hlinked.root m mn (hold m mn hm hmp).2 hp
  · intro m mn hm hc hne
    by_cases hmp : m = p
    · subst hmp
      obtain rfl := Option.some.inj (hpn'.symm.trans hm)
      obtain ⟨c, hc'⟩ := hchild hne
      exact absurd hc' (hc c)
    · obtain ⟨hmn, hm⟩ := hold m mn hm hmp
      exact hlabelled.leaf m mn hm hc fun heq => hmn (Option.some.inj heq).symm
  · intro m mn c hm hc
    by_cases hmp : m = p
    · subst hmp
      obtain rfl := Option.some.inj (hpn'.symm.trans hm)
      exact hpd.trans (hlabelled.inner m pn n hpn hpc)
    · exact hlabelled.inner m mn c (hold m mn hm hmp).2 hc
  · intro d m hd
    obtain ⟨hmn, mn, hm, hdata, hc⟩ := hlabelled.place d m hd
    have hmp : m ≠ p := by
      rintro rfl
      obtain rfl := Option.some.inj (hpn.symm.trans hm)
      exact hc n hpc
    refine ⟨?_, mn, hkept m mn hm (fun heq => hmn (heq ▸ rfl)) hmp, hdata, hc⟩
    rcases hhole with rfl | rfl
    · simp
    · exact fun heq => hmp (Option.some.inj heq).symm

/-- The loop of `remove` on a leaf without a state: it ends, and leaves no childless
inner node. -/
theorem removeLoop_mirrors {fuel : ℕ} (hfuel : n < fuel) (hlinked : t.Linked)
    (hlabelled : t.Labelled place (some n)) (hnode : t.node n = some node)
    (hleaf : ∀ c, ¬PTreeNode.IsChild node c) :
    ∃ heap, removeLoop fuel t.heap n = some heap ∧ Mirrors { t with heap := heap } place := by
  induction fuel generalizing t n node with
  | zero => exact absurd hfuel (Nat.not_lt_zero n)
  | succ fuel ih =>
    have hread : t.heap.read n = some node := hnode
    have hlt : n < t.heap.next := Heap.lt_next hread
    rw [removeLoop, hread]
    cases hparent : node.parent with
    | none =>
      refine ⟨t.heap.free n, by simp only [hparent], ?_⟩
      exact mirrors_free_root _ hlinked hlabelled hnode hleaf hparent rfl (Heap.read_free hlt)
    | some p =>
      obtain ⟨pn, hpn, hpc⟩ := hlinked.parent n node p hnode hparent
      obtain ⟨hpn_lt, -⟩ := hlinked.child p pn n hpn hpc
      obtain ⟨pn', hunlink, hpp, hpd, hpch, hpdist⟩ :=
        unlink_spec hpc (hlinked.distinct p pn · hpn)
      have hpread : (t.heap.free n).read p = some pn := by
        rw [Heap.read_free hlt, Function.update_of_ne (Nat.ne_of_lt hpn_lt)]
        exact hpn
      have hplt : p < (t.heap.free n).next := Heap.lt_next hpread
      have hnodes : (({ t with heap := (t.heap.free n).write p pn' } : PTree)).node
          = Function.update (Function.update t.node n none) p (some pn') := by
        change ((t.heap.free n).write p pn').read = _
        rw [Heap.read_write hplt, Heap.read_free hlt]
        rfl
      obtain ⟨hlinked', hlabelled'⟩ := linked_unlink { t with heap := (t.heap.free n).write p pn' }
        hlinked hlabelled hnode hleaf hparent hpn hpc hpp hpd hpch hpdist rfl hnodes
      simp only [hparent, hpread, hunlink, Option.bind_eq_bind, Option.bind_some]
      by_cases hchildless : pn'.left = none ∧ pn'.right = none
      · -- The parent has become a leaf without a state.
        rw [if_pos hchildless]
        have hleaf' := not_isChild_iff.mpr hchildless
        exact ih (t := { t with heap := (t.heap.free n).write p pn' }) (by omega) hlinked'
          (hlabelled' (some p) (fun h => absurd rfl h) (.inr rfl))
          (by rw [hnodes, Function.update_self]) hleaf'
      · rw [if_neg hchildless]
        refine ⟨_, rfl, hlinked', hlabelled' none (fun _ => ?_) (.inl rfl)⟩
        by_contra hno
        exact hchildless (not_isChild_iff.mp fun c hc => hno ⟨c, hc⟩)

/-- `remove` takes the node of a state out of the tree. -/
theorem Mirrors.remove (h : t.Mirrors place) {d : ℕ} (hd : place d = some n) :
    ∃ t', t.remove n = some t' ∧ t'.Mirrors (Function.update place d none) := by
  obtain ⟨-, node, hnode, hdata, hleaf⟩ := h.labelled.place d n hd
  have hlabelled : t.Labelled (Function.update place d none) (some n) := by
    refine ⟨?_, h.labelled.inner, ?_⟩
    · intro m mn hm hc hne
      obtain ⟨d', hd', hplace⟩ := h.labelled.leaf m mn hm hc (by simp)
      refine ⟨d', hd', ?_⟩
      rw [Function.update_of_ne, hplace]
      rintro rfl
      exact hne (hd.symm.trans hplace)
    · intro d' m hd'
      by_cases hdd : d' = d
      · rw [hdd, Function.update_self] at hd'
        exact absurd hd' (by simp)
      · rw [Function.update_of_ne hdd] at hd'
        obtain ⟨-, mn, hm, hmdata, hc⟩ := h.labelled.place d' m hd'
        refine ⟨fun heq => ?_, mn, hm, hmdata, hc⟩
        obtain rfl := Option.some.inj heq
        obtain rfl := Option.some.inj (hnode.symm.trans hm)
        exact hdd (Option.some.inj (hmdata.symm.trans hdata))
  obtain ⟨heap, hheap, hmirrors⟩ :=
    removeLoop_mirrors (Heap.lt_next hnode) h.linked hlabelled hnode hleaf
  refine ⟨{ t with heap := heap }, ?_, hmirrors⟩
  rw [PTree.remove, hnode]
  simp only [if_pos (not_isChild_iff.mp hleaf), hheap, Option.map_some]

end Remove

/-! ## Splitting -/

theorem mirrors_new (d : ℕ) : (new d).Mirrors (Function.update (fun _ => none) d (some 0)) := by
  have hread : (new d).node
      = Function.update (fun _ => none) 0 (some ⟨none, none, none, some d⟩) :=
    Heap.read_alloc Heap.empty _
  have hnode : ∀ n node, (new d).node n = some node →
      n = 0 ∧ node = ⟨none, none, none, some d⟩ := by
    intro n node h
    rw [hread] at h
    by_cases hn : n = 0
    · rw [hn, Function.update_self] at h
      exact ⟨hn, (Option.some.inj h).symm⟩
    · rw [Function.update_of_ne hn] at h
      exact absurd h (by simp)
  refine ⟨⟨?_, ?_, ?_, ?_⟩, ?_, ?_, ?_⟩
  · intro n node c h hc
    obtain ⟨-, rfl⟩ := hnode n node h
    exact absurd hc (by simp [PTreeNode.IsChild])
  · intro c cn p h hp
    obtain ⟨-, rfl⟩ := hnode c cn h
    exact absurd hp (by simp)
  · intro n node c h hc
    obtain ⟨-, rfl⟩ := hnode n node h
    exact absurd hc (by simp)
  · exact fun n node h _ => (hnode n node h).1
  · intro n node h _ _
    obtain ⟨rfl, rfl⟩ := hnode n node h
    exact ⟨d, rfl, Function.update_self _ _ _⟩
  · intro n node c h hc
    obtain ⟨-, rfl⟩ := hnode n node h
    exact absurd hc (by simp [PTreeNode.IsChild])
  · intro d' n hd'
    by_cases hdd : d' = d
    · rw [hdd, Function.update_self] at hd'
      obtain rfl := Option.some.inj hd'
      exact ⟨by simp, ⟨none, none, none, some d⟩, by rw [hread, Function.update_self],
        congrArg some hdd.symm, by simp [PTreeNode.IsChild]⟩
    · rw [Function.update_of_ne hdd] at hd'
      exact absurd hd' (by simp)

/-- The nodes after the data of a leaf is cleared and the leaf is split. -/
theorem split_spec (hnode : t.node n = some node) (hleaf : node.left = none ∧ node.right = none)
    (a b : ℕ) :
    ∃ t', (t.clearData n).bind (fun t => t.split n a b)
        = some ((t.heap.next, t.heap.next + 1), t') ∧ t'.root = t.root
      ∧ t'.node = Function.update (Function.update (Function.update t.node t.heap.next
          (some ⟨some n, none, none, some a⟩)) (t.heap.next + 1) (some ⟨some n, none, none, some b⟩))
          n (some ⟨node.parent, some t.heap.next, some (t.heap.next + 1), none⟩) := by
  have hlt : n < t.heap.next := Heap.lt_next hnode
  have hclear : (t.heap.write n { node with data := none }).read
      = Function.update t.heap.read n (some { node with data := none }) := Heap.read_write hlt _
  have hread : PTree.node { t with heap := t.heap.write n { node with data := none } } n
      = some { node with data := none } := by
    change (t.heap.write n { node with data := none }).read n = _
    rw [hclear, Function.update_self]
  rw [clearData, hnode, Option.map_some, Option.bind_some, split, hread]
  simp only [if_pos hleaf]
  refine ⟨⟨(((t.heap.write n { node with data := none }).alloc ⟨some n, none, none, some a⟩).alloc
      ⟨some n, none, none, some b⟩).write n
      ⟨node.parent, some t.heap.next, some (t.heap.next + 1), none⟩, t.root⟩, ?_, rfl, ?_⟩
  · rw [Heap.next_alloc, Heap.next_write]
  · have hlt' : n < (((t.heap.write n { node with data := none }).alloc
        ⟨some n, none, none, some a⟩).alloc ⟨some n, none, none, some b⟩).next := by
      rw [Heap.next_alloc, Heap.next_alloc, Heap.next_write]
      omega
    funext m
    change (Heap.write _ n _).read m = _
    rw [Heap.read_write hlt', Heap.read_alloc, Heap.read_alloc, hclear, Heap.next_alloc,
      Heap.next_write]
    by_cases hm : m = n
    · rw [hm, Function.update_self, Function.update_self]
    · rw [Function.update_of_ne hm, Function.update_of_ne hm]
      by_cases hr : m = t.heap.next + 1
      · rw [hr, Function.update_self, Function.update_self]
      · rw [Function.update_of_ne hr, Function.update_of_ne hr]
        by_cases hl : m = t.heap.next
        · rw [hl, Function.update_self, Function.update_self]
        · rw [Function.update_of_ne hl, Function.update_of_ne hl, Function.update_of_ne hm]
          rfl

/-- Splitting the leaf of a state between it and a new state. -/
theorem Mirrors.split (h : t.Mirrors place) {d' : ℕ} (hd : place d = some n) (hd' : place d' = none)
    {a b : ℕ} (hab : a = d ∧ b = d' ∨ a = d' ∧ b = d) :
    ∃ t', (t.clearData n).bind (fun t => t.split n a b)
        = some ((t.heap.next, t.heap.next + 1), t')
      ∧ t'.Mirrors (Function.update (Function.update place a (some t.heap.next)) b
          (some (t.heap.next + 1))) := by
  obtain ⟨-, node, hnode, hdata, hleaf⟩ := h.labelled.place d n hd
  obtain ⟨t', hsplit, hroot, hread⟩ := split_spec hnode (not_isChild_iff.mp hleaf) a b
  refine ⟨t', hsplit, ?_⟩
  have hlt : n < t.heap.next := Heap.lt_next hnode
  have hne : a ≠ b := by
    have hdd : d ≠ d' := fun heq => by simp [heq, hd'] at hd
    rcases hab with ⟨rfl, rfl⟩ | ⟨rfl, rfl⟩
    · exact hdd
    · exact hdd.symm
  -- Four kinds of nodes: the split one, its two children, and those from before.
  have hn : t'.node n = some ⟨node.parent, some t.heap.next, some (t.heap.next + 1), none⟩ := by
    rw [hread, Function.update_self]
  have hr : t'.node (t.heap.next + 1) = some ⟨some n, none, none, some b⟩ := by
    rw [hread, Function.update_of_ne (by omega), Function.update_self]
  have hl : t'.node t.heap.next = some ⟨some n, none, none, some a⟩ := by
    rw [hread, Function.update_of_ne (by omega), Function.update_of_ne (by omega),
      Function.update_self]
  have hkept : ∀ m mn, t.node m = some mn → m ≠ n → t'.node m = some mn := by
    intro m mn hm hmn
    have hmlt : m < t.heap.next := Heap.lt_next hm
    rw [hread, Function.update_of_ne hmn, Function.update_of_ne (by omega),
      Function.update_of_ne (by omega), hm]
  have hcases : ∀ m mn, t'.node m = some mn →
      (m = n ∧ mn = ⟨node.parent, some t.heap.next, some (t.heap.next + 1), none⟩)
        ∨ (m = t.heap.next ∧ mn = ⟨some n, none, none, some a⟩)
        ∨ (m = t.heap.next + 1 ∧ mn = ⟨some n, none, none, some b⟩)
        ∨ (m ≠ n ∧ t.node m = some mn) := by
    intro m mn hm
    by_cases hmn : m = n
    · subst hmn
      exact .inl ⟨rfl, Option.some.inj (hm.symm.trans hn)⟩
    · by_cases hml : m = t.heap.next
      · subst hml
        exact .inr (.inl ⟨rfl, Option.some.inj (hm.symm.trans hl)⟩)
      · by_cases hmr : m = t.heap.next + 1
        · subst hmr
          exact .inr (.inr (.inl ⟨rfl, Option.some.inj (hm.symm.trans hr)⟩))
        · rw [hread, Function.update_of_ne hmn, Function.update_of_ne hmr,
            Function.update_of_ne hml] at hm
          exact .inr (.inr (.inr ⟨hmn, hm⟩))
  have hplaced : ∀ e m, place e = some m → m ≠ n → e ≠ a ∧ e ≠ b := by
    intro e m he hm
    have hed : e ≠ d := fun heq => hm (Option.some.inj ((heq ▸ he).symm.trans hd))
    have hed' : e ≠ d' := fun heq => by simp [heq, hd'] at he
    rcases hab with ⟨rfl, rfl⟩ | ⟨rfl, rfl⟩
    · exact ⟨hed, hed'⟩
    · exact ⟨hed', hed⟩
  refine ⟨⟨?_, ?_, ?_, ?_⟩, ?_, ?_, ?_⟩
  · intro m mn c hm hc
    obtain ⟨rfl, rfl⟩ | ⟨rfl, rfl⟩ | ⟨rfl, rfl⟩ | ⟨hmn, hm⟩ := hcases m mn hm
    · rcases hc with hc | hc
      · obtain rfl := Option.some.inj hc
        exact ⟨hlt, _, hl, rfl⟩
      · obtain rfl := Option.some.inj hc
        exact ⟨by omega, _, hr, rfl⟩
    · exact absurd hc (by simp [PTreeNode.IsChild])
    · exact absurd hc (by simp [PTreeNode.IsChild])
    · obtain ⟨hlt', cn, hcn, hcp⟩ := h.linked.child m mn c hm hc
      by_cases hcn' : c = n
      · subst hcn'
        obtain rfl := Option.some.inj (hnode.symm.trans hcn)
        exact ⟨hlt', _, hn, hcp⟩
      · exact ⟨hlt', cn, hkept c cn hcn hcn', hcp⟩
  · intro c cn q hc hq
    have hold : ∀ cn, t.node c = some cn → cn.parent = some q →
        ∃ qn, t'.node q = some qn ∧ PTreeNode.IsChild qn c := by
      intro cn hcn hcq
      obtain ⟨qn, hqn, hqc⟩ := h.linked.parent c cn q hcn hcq
      refine ⟨qn, hkept q qn hqn ?_, hqc⟩
      rintro rfl
      obtain rfl := Option.some.inj (hnode.symm.trans hqn)
      exact hleaf c hqc
    obtain ⟨rfl, rfl⟩ | ⟨rfl, rfl⟩ | ⟨rfl, rfl⟩ | ⟨hcn, hc⟩ := hcases c cn hc
    · exact hold node hnode hq
    · obtain rfl := Option.some.inj hq
      exact ⟨_, hn, .inl rfl⟩
    · obtain rfl := Option.some.inj hq
      exact ⟨_, hn, .inr rfl⟩
    · exact hold cn hc hq
  · intro m mn c hm hc
    obtain ⟨rfl, rfl⟩ | ⟨rfl, rfl⟩ | ⟨rfl, rfl⟩ | ⟨hmn, hm⟩ := hcases m mn hm
    · obtain rfl := Option.some.inj hc
      simp
    · exact absurd hc (by simp)
    · exact absurd hc (by simp)
    · exact h.linked.distinct m mn c hm hc
  · intro m mn hm hp
    rw [hroot]
    obtain ⟨rfl, rfl⟩ | ⟨rfl, rfl⟩ | ⟨rfl, rfl⟩ | ⟨hmn, hm⟩ := hcases m mn hm
    · exact h.linked.root m node hnode hp
    · exact absurd hp (by simp)
    · exact absurd hp (by simp)
    · exact h.linked.root m mn hm hp
  · intro m mn hm hc _
    obtain ⟨rfl, rfl⟩ | ⟨rfl, rfl⟩ | ⟨rfl, rfl⟩ | ⟨hmn, hm⟩ := hcases m mn hm
    · exact absurd (.inl rfl) (hc t.heap.next)
    · exact ⟨a, rfl, by rw [Function.update_of_ne hne, Function.update_self]⟩
    · exact ⟨b, rfl, by rw [Function.update_self]⟩
    · obtain ⟨e, he, hplace⟩ := h.labelled.leaf m mn hm hc (by simp)
      obtain ⟨hea, heb⟩ := hplaced e m hplace hmn
      exact ⟨e, he, by rw [Function.update_of_ne heb, Function.update_of_ne hea, hplace]⟩
  · intro m mn c hm hc
    obtain ⟨rfl, rfl⟩ | ⟨rfl, rfl⟩ | ⟨rfl, rfl⟩ | ⟨hmn, hm⟩ := hcases m mn hm
    · rfl
    · exact absurd hc (by simp [PTreeNode.IsChild])
    · exact absurd hc (by simp [PTreeNode.IsChild])
    · exact h.labelled.inner m mn c hm hc
  · intro e m he
    by_cases heb : e = b
    · rw [heb, Function.update_self] at he
      obtain rfl := Option.some.inj he
      exact ⟨by simp, _, hr, congrArg some heb.symm, by simp [PTreeNode.IsChild]⟩
    · rw [Function.update_of_ne heb] at he
      by_cases hea : e = a
      · rw [hea, Function.update_self] at he
        obtain rfl := Option.some.inj he
        exact ⟨by simp, _, hl, congrArg some hea.symm, by simp [PTreeNode.IsChild]⟩
      · rw [Function.update_of_ne hea] at he
        obtain ⟨-, mn, hm, hmdata, hc⟩ := h.labelled.place e m he
        refine ⟨by simp, mn, hkept m mn hm ?_, hmdata, hc⟩
        rintro rfl
        obtain rfl := Option.some.inj (hnode.symm.trans hm)
        obtain rfl := Option.some.inj (hdata.symm.trans hmdata)
        rcases hab with ⟨rfl, -⟩ | ⟨-, rfl⟩
        · exact hea rfl
        · exact heb rfl

/-! ## Selecting -/

/-- There is a root as long as there is a node. -/
theorem Linked.root_isSome (h : t.Linked) (hnode : t.node n = some node) :
    ∃ root, t.node t.root = some root := by
  induction n using Nat.strongRecOn generalizing node with
  | ind n ih =>
    cases hparent : node.parent with
    | none => exact ⟨node, h.root n node hnode hparent ▸ hnode⟩
    | some p =>
      obtain ⟨pn, hpn, hpc⟩ := h.parent n node p hnode hparent
      exact ih p (h.child p pn n hpn hpc).1 hpn

/-- The walk down from any node ends at a state. -/
theorem Mirrors.selectLoop (h : t.Mirrors place) {fuel : ℕ} (hnode : t.node n = some node)
    (hfuel : t.heap.next ≤ n + fuel) (flips : BitVec 32) (bits : ℕ) (rng : ℕ → BitVec 32) :
    ∃ d, t.selectLoop fuel (some n) flips bits rng = some d ∧ place d ≠ none := by
  induction fuel generalizing n node flips bits rng with
  | zero => exact absurd (Heap.lt_next hnode) (Nat.not_lt.mpr hfuel)
  | succ fuel ih =>
    have hdown : ∀ c flips bits rng, PTreeNode.IsChild node c →
        ∃ d, t.selectLoop fuel (some c) flips bits rng = some d ∧ place d ≠ none := by
      intro c flips bits rng hc
      obtain ⟨hlt, cn, hcn, -⟩ := h.linked.child n node c hnode hc
      exact ih hcn (by omega) flips bits rng
    simp only [PTree.selectLoop, Option.bind_some, hnode]
    cases hdata : node.data with
    | some d =>
      have hleaf : ∀ c, ¬PTreeNode.IsChild node c := by
        intro c hc
        rw [h.labelled.inner n node c hnode hc] at hdata
        exact absurd hdata (by simp)
      obtain ⟨d', hd', hplace⟩ := h.labelled.leaf n node hnode hleaf (by simp)
      obtain rfl := Option.some.inj (hdata.symm.trans hd')
      exact ⟨d, rfl, by simp [hplace]⟩
    | none =>
      have hinner : ¬(node.left = none ∧ node.right = none) := by
        intro hnone
        obtain ⟨d, hd, -⟩ := h.labelled.leaf n node hnode (not_isChild_iff.mpr hnone) (by simp)
        exact absurd (hdata.symm.trans hd) (by simp)
      cases hl : node.left with
      | none =>
        cases hr : node.right with
        | none => exact absurd ⟨hl, hr⟩ hinner
        | some r =>
          simp only [if_true]
          exact hdown r flips bits rng (.inr hr)
      | some l =>
        cases hr : node.right with
        | none =>
          simp only [reduceCtorEq, if_false, if_true]
          exact hdown l flips bits rng (.inl hl)
        | some r =>
          simp only [reduceCtorEq, if_false]
          split <;> split <;>
            first
              | exact hdown l _ _ _ (.inl hl)
              | exact hdown r _ _ _ (.inr hr)

/-- With a state in the tree, `selectState` gives one, whatever the random numbers. -/
theorem Mirrors.selectState (h : t.Mirrors place) (hd : place d ≠ none) (rng : ℕ → BitVec 32) :
    ∃ d', t.selectState rng = some d' ∧ place d' ≠ none := by
  obtain ⟨n, hn⟩ := Option.ne_none_iff_exists'.mp hd
  obtain ⟨-, node, hnode, -, -⟩ := h.labelled.place d n hn
  obtain ⟨root, hroot⟩ := h.linked.root_isSome hnode
  exact h.selectLoop hroot (Nat.le_add_left _ _) 0 0 rng

end PTree

end Xklee
