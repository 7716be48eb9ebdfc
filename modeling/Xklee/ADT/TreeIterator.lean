/-
Iterators over the search tree: `ImmutableTree::iterator`, `lower_bound` and `upper_bound`.

An iterator holds the nodes on the way from the root to its node, the last of them on top. No
node occurs twice in a tree, so that comparing pointers to its nodes is comparing nodes. The
entries of the tree before the iterator and those from it on are the two sides of its
position; stepping moves one entry from one side to the other.
-/
import Xklee.ADT.ImmutableTree

set_option autoImplicit false

universe u v

namespace Xklee

namespace Node

variable {K : Type u} {V : Type v}

/-- `ImmutableTree::iterator`. -/
structure Iterator (V : Type v) where
  root : Node V
  stack : List (Node V)
deriving DecidableEq

namespace Iterator

/-- The loop that goes to the left as far as it can. -/
def pushLeft : Node V → List (Node V) → List (Node V)
  | terminator, stack => stack
  | node left right value height, stack => pushLeft left (node left right value height :: stack)

/-- The loop that goes to the right. -/
def pushRight : Node V → List (Node V) → List (Node V)
  | terminator, stack => stack
  | node left right value height, stack => pushRight right (node left right value height :: stack)

/-- `ImmutableTree::begin`. -/
def begin' (root : Node V) : Iterator V := ⟨root, pushLeft root []⟩

/-- `ImmutableTree::end`. -/
def end' (root : Node V) : Iterator V := ⟨root, []⟩

/-- `operator*`, of an iterator that is not at the end. -/
def value [Inhabited V] (it : Iterator V) : V :=
  match it.stack with
  | [] => default
  | n :: _ => n.value

variable [DecidableEq V]

/-- The loop of `operator--` that leaves nodes until it comes from the right. -/
def popFromRight (prev : Node V) : List (Node V) → List (Node V)
  | [] => []
  | n :: stack => if prev = n.right then n :: stack else popFromRight n stack

/-- The loop of `operator++` that leaves nodes until it comes from the left. -/
def popFromLeft (prev : Node V) : List (Node V) → List (Node V)
  | [] => []
  | n :: stack => if prev = n.left then n :: stack else popFromLeft n stack

/-- `operator--`. -/
def prev (it : Iterator V) : Iterator V :=
  match it.stack with
  | [] => { it with stack := pushRight it.root [] }
  | n :: stack =>
      if n.left.isTerminator then { it with stack := popFromRight n stack }
      else { it with stack := pushRight n.left.right (n.left :: n :: stack) }

/-- `operator++`, of an iterator that is not at the end. -/
def next (it : Iterator V) : Iterator V :=
  match it.stack with
  | [] => it
  | n :: stack =>
      if n.right.isTerminator then { it with stack := popFromLeft n stack }
      else { it with stack := pushLeft n.right.left (n.right :: n :: stack) }

end Iterator

section Bounds

variable [LinearOrder K] [DecidableEq V] [Inhabited V] (keyOf : V → K)

/-- The loop of `lower_bound`: the stack, and whether the key has been found. -/
def lowerBoundFrom (k : K) : Node V → List (Node V) → List (Node V) × Bool
  | terminator, stack => (stack, false)
  | node left right value height, stack =>
      let stack := node left right value height :: stack
      if k < keyOf value then lowerBoundFrom k left stack
      else if keyOf value < k then lowerBoundFrom k right stack
      else (stack, true)

def lowerBound (k : K) (t : Node V) : Iterator V :=
  match t.lowerBoundFrom keyOf k [] with
  | (stack, true) => ⟨t, stack⟩
  | ([], false) => ⟨t, []⟩
  | (last :: stack, false) =>
      if keyOf last.value < k then Iterator.next ⟨t, last :: stack⟩ else ⟨t, last :: stack⟩

def upperBound (k : K) (t : Node V) : Iterator V :=
  let it := t.lowerBound keyOf k
  if it ≠ Iterator.end' t ∧ ¬k < keyOf it.value then it.next else it

end Bounds

/-! ## Positions -/

/-- A subtree of `root`, with the nodes above it and the entries on both sides of it. -/
inductive Hole (root : Node V) : List (Node V) → Node V → List V → List V → Prop
  | root : Hole root [] root [] []
  | left {stack : List (Node V)} {l r : Node V} {x : V} {h : ℕ} {before after : List V}
      (above : Hole root stack (node l r x h) before after) :
      Hole root (node l r x h :: stack) l before (x :: r.toList ++ after)
  | right {stack : List (Node V)} {l r : Node V} {x : V} {h : ℕ} {before after : List V}
      (above : Hole root stack (node l r x h) before after) :
      Hole root (node l r x h :: stack) r (before ++ l.toList ++ [x]) after

variable {root : Node V} {stack : List (Node V)} {before after : List V}

theorem Hole.toList {n : Node V} (h : Hole root stack n before after) :
    root.toList = before ++ n.toList ++ after := by
  induction h with
  | root => simp
  | left _ ih | right _ ih =>
    rw [ih, Node.toList]
    simp

/-- The stack of an iterator, with the entries before it and those from it on. -/
inductive At (root : Node V) : List (Node V) → List V → List V → Prop
  | atEnd : At root [] root.toList []
  | atNode {stack : List (Node V)} {l r : Node V} {x : V} {h : ℕ} {before after : List V}
      (hole : Hole root stack (node l r x h) before after) :
      At root (node l r x h :: stack) (before ++ l.toList) (x :: r.toList ++ after)

theorem At.toList (h : At root stack before after) : root.toList = before ++ after := by
  cases h with
  | atEnd => exact (List.append_nil _).symm
  | atNode hole =>
    rw [hole.toList, Node.toList]
    simp

section Steps

variable {root : Node V} {stack : List (Node V)} {before after : List V}

variable {n : Node V} {x : V}

theorem at_pushLeft (h : Hole root stack n before after) (hn : n ≠ terminator) :
    At root (Iterator.pushLeft n stack) before (n.toList ++ after) := by
  induction n generalizing stack after with
  | terminator => exact absurd rfl hn
  | node l r x height ihl ihr =>
    rw [Iterator.pushLeft]
    cases l with
    | terminator =>
      have hat := At.atNode h
      rw [Node.toList, List.append_nil] at hat
      exact hat
    | node ll lr lx lh =>
      have hat := ihl h.left (by simp)
      rw [Node.toList, List.append_assoc]
      exact hat

theorem at_pushRight (h : Hole root stack n before after) (hn : n ≠ terminator) :
    ∃ x entries, n.toList = entries ++ [x]
      ∧ At root (Iterator.pushRight n stack) (before ++ entries) (x :: after) := by
  induction n generalizing stack before with
  | terminator => exact absurd rfl hn
  | node l r x height ihl ihr =>
    rw [Iterator.pushRight]
    cases r with
    | terminator => exact ⟨x, l.toList, rfl, At.atNode h⟩
    | node rl rr rx rh =>
      obtain ⟨y, entries, hentries, hat⟩ := ihr h.right (by simp)
      refine ⟨y, l.toList ++ x :: entries, ?_, ?_⟩
      · rw [Node.toList, hentries]
        simp
      · have hshape : before ++ (l.toList ++ x :: entries) = before ++ l.toList ++ [x] ++ entries := by
          simp
        rw [hshape]
        exact hat

variable (hnodup : root.toList.Nodup)

include hnodup

/-- The children of a node in the tree differ, unless there are none. -/
theorem Hole.children_ne {l r : Node V} {h : ℕ} (hole : Hole root stack (node l r x h) before after)
    (hl : l ≠ terminator) : l ≠ r := by
  intro heq
  subst heq
  cases l with
  | terminator => exact hl rfl
  | node ll lr lx lh =>
    rw [hole.toList] at hnodup
    have hsub : ((node ll lr lx lh).toList ++ x :: (node ll lr lx lh).toList).Nodup :=
      hnodup.sublist ((List.sublist_append_right before _).trans (List.sublist_append_left _ after))
    have hmem : lx ∈ (node ll lr lx lh).toList := by simp [Node.toList]
    exact (List.nodup_append.mp hsub).2.2 lx hmem lx (List.mem_cons_of_mem x hmem) rfl

variable [DecidableEq V]

theorem at_popFromLeft (h : Hole root stack n before after) (hn : n ≠ terminator) :
    At root (Iterator.popFromLeft n stack) (before ++ n.toList) after := by
  induction h with
  | root =>
    rw [Iterator.popFromLeft, List.nil_append]
    exact At.atEnd
  | left above _ =>
    rw [Iterator.popFromLeft, left_node, if_pos rfl]
    exact At.atNode above
  | @right stack l r x h before after above ih =>
    have hne : r ≠ (node l r x h).left := fun heq =>
      above.children_ne hnodup (fun hl => hn (heq.trans hl)) heq.symm
    rw [Iterator.popFromLeft, if_neg hne]
    have hat := ih (by simp)
    rw [Node.toList] at hat
    have hshape : before ++ l.toList ++ [x] ++ r.toList = before ++ (l.toList ++ x :: r.toList) := by
      simp
    rw [hshape]
    exact hat

theorem at_popFromRight (h : Hole root stack n before after) (hn : n ≠ terminator)
    (hbefore : before ≠ []) :
    ∃ x entries, before = entries ++ [x]
      ∧ At root (Iterator.popFromRight n stack) entries (x :: n.toList ++ after) := by
  induction h with
  | root => exact absurd rfl hbefore
  | @left stack l r x h before after above ih =>
    have hne : l ≠ (node l r x h).right := above.children_ne hnodup hn
    rw [Iterator.popFromRight, if_neg hne]
    obtain ⟨y, entries, hentries, hat⟩ := ih (by simp) hbefore
    refine ⟨y, entries, hentries, ?_⟩
    rw [Node.toList] at hat
    have hshape : y :: l.toList ++ (x :: r.toList ++ after) = y :: (l.toList ++ x :: r.toList) ++ after := by
      simp
    rw [hshape]
    exact hat
  | @right stack l r x h before after above _ =>
    rw [Iterator.popFromRight, right_node, if_pos rfl]
    exact ⟨x, before ++ l.toList, rfl, At.atNode above⟩

/-- `operator++` goes on to the next entry. -/
theorem at_next (h : At root stack before (x :: after)) :
    At root (Iterator.next ⟨root, stack⟩).stack (before ++ [x]) after := by
  cases h with
  | @atNode stack l r _ height before after hole =>
    rw [Iterator.next]
    dsimp only
    cases r with
    | terminator =>
      have hat := at_popFromLeft hnodup hole (by simp)
      rw [Node.toList, Node.toList, ← List.append_assoc] at hat
      exact hat
    | node rl rr rx rh =>
      have hat := at_pushLeft hole.right (by simp)
      rw [Iterator.pushLeft] at hat
      exact hat

/-- `operator--` goes back to the entry before. -/
theorem at_prev (h : At root stack (before ++ [x]) after) :
    At root (Iterator.prev ⟨root, stack⟩).stack before (x :: after) := by
  obtain ⟨y, entries, hentries, hat⟩ : ∃ y entries, before ++ [x] = entries ++ [y]
      ∧ At root (Iterator.prev ⟨root, stack⟩).stack entries (y :: after) := by
    generalize hseen : before ++ [x] = seen at h
    have hne : seen ≠ [] := by
      rw [← hseen]
      simp
    cases h with
    | atEnd =>
      have hroot : root ≠ terminator := fun heq => hne (by rw [heq]; rfl)
      obtain ⟨y, entries, hentries, hat⟩ := at_pushRight Hole.root hroot
      exact ⟨y, entries, hentries, hat⟩
    | @atNode stack l r z height before after hole =>
      rw [Iterator.prev]
      dsimp only
      cases l with
      | terminator =>
        rw [Node.toList, List.append_nil] at hne ⊢
        obtain ⟨y, entries, hentries, hat⟩ := at_popFromRight hnodup hole (by simp) hne
        exact ⟨y, entries, hentries, hat⟩
      | node ll lr lx lh =>
        obtain ⟨y, entries, hentries, hat⟩ := at_pushRight hole.left (by simp)
        rw [Iterator.pushRight] at hat
        exact ⟨y, before ++ entries, by rw [hentries, List.append_assoc], hat⟩
  obtain ⟨rfl, hlast⟩ := List.append_inj' hentries rfl
  obtain rfl : x = y := List.head_eq_of_cons_eq hlast
  exact hat

end Steps

/-! ## Loops -/

section Loops

variable {root : Node V} {stack : List (Node V)} {before after : List V}

theorem at_begin : At root (Iterator.begin' root).stack [] root.toList := by
  cases root with
  | terminator => exact At.atEnd
  | node l r x h =>
    have hat := at_pushLeft (Hole.root : Hole (node l r x h) [] (node l r x h) [] []) (by simp)
    rw [List.append_nil] at hat
    exact hat

theorem Hole.unique (hnodup : root.toList.Nodup) {n : Node V} {before' after' : List V}
    (h : Hole root stack n before after) (h' : Hole root stack n before' after')
    (hn : n ≠ terminator) : before = before' := by
  induction h generalizing before' after' with
  | root =>
    cases h'
    rfl
  | left above ih =>
    cases h' with
    | left above' => exact ih above' (by simp)
    | right above' => exact absurd rfl (above.children_ne hnodup hn)
  | right above ih =>
    cases h' with
    | left above' => exact absurd rfl (above.children_ne hnodup hn)
    | right above' => rw [ih above' (by simp)]

theorem At.unique (hnodup : root.toList.Nodup) {before' after' : List V}
    (h : At root stack before after) (h' : At root stack before' after') : before = before' := by
  cases h with
  | atEnd =>
    cases h'
    rfl
  | atNode hole =>
    cases h' with
    | atNode hole' => rw [hole.unique hnodup hole' (by simp)]

theorem At.eq_end (h : At root stack before after) : stack = [] ↔ after = [] := by
  cases h with
  | atEnd => exact iff_of_true rfl rfl
  | atNode hole => exact iff_of_false (by simp) (by simp)

theorem At.value_eq [Inhabited V] {x : V} (h : At root stack before (x :: after)) :
    (⟨root, stack⟩ : Iterator V).value = x := by
  cases h
  rfl

variable [DecidableEq V]

theorem Iterator.next_eq (it : Iterator V) : it.next = ⟨it.root, it.next.stack⟩ := by
  rw [Iterator.next]
  split
  · rfl
  · split <;> rfl

theorem Iterator.prev_eq (it : Iterator V) : it.prev = ⟨it.root, it.prev.stack⟩ := by
  rw [Iterator.prev]
  split
  · rfl
  · split <;> rfl

variable [Inhabited V] (hnodup : root.toList.Nodup)

include hnodup

end Loops

/-! ## Bounds -/

section Bounds

theorem nodup_of_sorted [LinearOrder K] {keyOf : V → K} {root : Node V}
    (hsorted : KeyedList.Sorted keyOf root.toList) : root.toList.Nodup :=
  hsorted.imp fun hlt heq => absurd (heq ▸ hlt) (lt_irrefl _)

variable [LinearOrder K] {keyOf : V → K} {root : Node V}

/-- What the loop of `lower_bound` comes to: a node with the key, or the place where there
would be one. -/
inductive Searched (keyOf : V → K) (root : Node V) (k : K) : List (Node V) × Bool → Prop
  | found {stack : List (Node V)} {before after : List V} {x : V} (hx : keyOf x = k)
      (h : At root stack before (x :: after)) : Searched keyOf root k (stack, true)
  | above {stack : List (Node V)} {before after : List V}
      (hbefore : ∀ y ∈ before, keyOf y < k) (hafter : ∀ y ∈ after, k < keyOf y)
      (h : At root stack before after) : Searched keyOf root k (stack, false)
  | below {stack : List (Node V)} {before after : List V} {x : V} (hx : keyOf x < k)
      (hafter : ∀ y ∈ after, k < keyOf y)
      (h : At root stack before (x :: after)) : Searched keyOf root k (stack, false)

theorem lowerBoundFrom_searched (hsorted : KeyedList.Sorted keyOf root.toList) {k : K} {n : Node V}
    {stack : List (Node V)} {before after : List V} (h : Hole root stack n before after)
    (hbefore : ∀ y ∈ before, keyOf y < k) (hafter : ∀ y ∈ after, k < keyOf y)
    (hempty : n = terminator → Searched keyOf root k (stack, false)) :
    Searched keyOf root k (n.lowerBoundFrom keyOf k stack) := by
  induction n generalizing stack before after with
  | terminator => exact hempty rfl
  | node l r x height ihl ihr =>
    have hall := hsorted
    rw [h.toList, Node.toList] at hall
    obtain ⟨hleft, -, -⟩ := KeyedList.sorted_append.mp hall
    obtain ⟨-, hnode, hbn⟩ := KeyedList.sorted_append.mp hleft
    obtain ⟨hl, hxr, hlx⟩ := KeyedList.sorted_append.mp hnode
    rw [lowerBoundFrom]
    split
    next hlt =>
      have hafter' : ∀ y ∈ x :: r.toList ++ after, k < keyOf y := by
        intro y hy
        rcases List.mem_append.mp hy with hy | hy
        · rcases List.mem_cons.mp hy with rfl | hy
          · exact hlt
          · exact hlt.trans ((KeyedList.sorted_cons.mp hxr).1 y hy)
        · exact hafter y hy
      refine ihl h.left hbefore hafter' fun heq => ?_
      subst heq
      have hat := At.atNode h
      rw [Node.toList, List.append_nil] at hat
      exact .above hbefore hafter' hat
    next hnlt =>
      split
      next hgt =>
        have hbefore' : ∀ y ∈ before ++ l.toList ++ [x], keyOf y < k := by
          intro y hy
          rcases List.mem_append.mp hy with hy | hy
          · rcases List.mem_append.mp hy with hy | hy
            · exact hbefore y hy
            · exact (hlx y hy x List.mem_cons_self).trans hgt
          · rw [List.mem_singleton.mp hy]
            exact hgt
        refine ihr h.right hbefore' hafter fun heq => ?_
        subst heq
        exact .below hgt hafter (At.atNode h)
      next hngt => exact .found (le_antisymm (not_lt.mp hnlt) (not_lt.mp hngt)) (At.atNode h)

variable [DecidableEq V] [Inhabited V]

/-- `lower_bound` is at the first entry whose key is not below `k`. -/
theorem lowerBound_at (hsorted : KeyedList.Sorted keyOf root.toList) (k : K) :
    ∃ stack before after, root.lowerBound keyOf k = ⟨root, stack⟩ ∧ At root stack before after
      ∧ (∀ y ∈ before, keyOf y < k) ∧ ∀ y ∈ after, k ≤ keyOf y := by
  have hnodup := nodup_of_sorted hsorted
  have hsearched := lowerBoundFrom_searched (k := k) hsorted Hole.root
    (fun y hy => absurd hy List.not_mem_nil) (fun y hy => absurd hy List.not_mem_nil) fun heq => by
      subst heq
      exact .above (fun y hy => absurd hy List.not_mem_nil) (fun y hy => absurd hy List.not_mem_nil)
        At.atEnd
  rw [lowerBound]
  generalize root.lowerBoundFrom keyOf k [] = res at hsearched
  cases hsearched with
  | @found stack before after x hx h =>
    have hall := hsorted
    rw [h.toList] at hall
    obtain ⟨-, hxafter, hbx⟩ := KeyedList.sorted_append.mp hall
    refine ⟨stack, before, x :: after, rfl, h, fun y hy => ?_, fun y hy => ?_⟩
    · exact hx ▸ hbx y hy x List.mem_cons_self
    · rcases List.mem_cons.mp hy with rfl | hy
      · exact hx.ge
      · exact hx ▸ ((KeyedList.sorted_cons.mp hxafter).1 y hy).le
  | @above stack before after hbefore hafter h =>
    cases stack with
    | nil => exact ⟨[], before, after, rfl, h, hbefore, fun y hy => (hafter y hy).le⟩
    | cons last stack =>
      have hlast : ¬keyOf last.value < k := by
        cases h with
        | atNode hole => exact fun hlt => absurd hlt (not_lt.mpr (hafter _ List.mem_cons_self).le)
      dsimp only
      rw [if_neg hlast]
      exact ⟨_, before, after, rfl, h, hbefore, fun y hy => (hafter y hy).le⟩
  | @below stack before after x hx hafter h =>
    have hall := hsorted
    rw [h.toList] at hall
    obtain ⟨-, -, hbx⟩ := KeyedList.sorted_append.mp hall
    have hat := at_next hnodup h
    cases stack with
    | nil => exact absurd (h.eq_end.mp rfl) (by simp)
    | cons last stack =>
      have hlast : keyOf last.value < k := by
        have hvalue := h.value_eq
        rw [Iterator.value] at hvalue
        dsimp only at hvalue
        rw [hvalue]
        exact hx
      dsimp only
      rw [if_pos hlast]
      refine ⟨_, before ++ [x], after, Iterator.next_eq _, hat, fun y hy => ?_,
        fun y hy => (hafter y hy).le⟩
      rcases List.mem_append.mp hy with hy | hy
      · exact (hbx y hy x List.mem_cons_self).trans hx
      · rw [List.mem_singleton.mp hy]
        exact hx

/-- `upper_bound` is at the first entry whose key is above `k`. -/
theorem upperBound_at (hsorted : KeyedList.Sorted keyOf root.toList) (k : K) :
    ∃ stack before after, root.upperBound keyOf k = ⟨root, stack⟩ ∧ At root stack before after
      ∧ (∀ y ∈ before, keyOf y ≤ k) ∧ ∀ y ∈ after, k < keyOf y := by
  have hnodup := nodup_of_sorted hsorted
  obtain ⟨stack, before, after, heq, hat, hbefore, hafter⟩ := lowerBound_at hsorted k
  rw [upperBound, heq]
  have hend : (⟨root, stack⟩ : Iterator V) ≠ Iterator.end' root ↔ after ≠ [] := by
    rw [Ne, Iterator.end', Iterator.mk.injEq, and_iff_right rfl, hat.eq_end]
  cases after with
  | nil =>
    rw [if_neg fun h => absurd rfl (hend.mp h.1)]
    exact ⟨stack, before, [], rfl, hat, fun y hy => (hbefore y hy).le,
      fun y hy => absurd hy List.not_mem_nil⟩
  | cons x after =>
    have hall := hsorted
    rw [hat.toList] at hall
    obtain ⟨-, hxafter, -⟩ := KeyedList.sorted_append.mp hall
    have hrest := (KeyedList.sorted_cons.mp hxafter).1
    rw [hat.value_eq]
    by_cases hlt : k < keyOf x
    · rw [if_neg fun h => h.2 hlt]
      refine ⟨stack, before, x :: after, rfl, hat, fun y hy => (hbefore y hy).le, fun y hy => ?_⟩
      rcases List.mem_cons.mp hy with rfl | hy
      · exact hlt
      · exact hlt.trans (hrest y hy)
    · have hkey : keyOf x = k := le_antisymm (not_lt.mp hlt) (hafter x List.mem_cons_self)
      rw [if_pos ⟨hend.mpr (by simp), hlt⟩]
      refine ⟨_, before ++ [x], after, Iterator.next_eq _, at_next hnodup hat, fun y hy => ?_,
        fun y hy => hkey ▸ hrest y hy⟩
      rcases List.mem_append.mp hy with hy | hy
      · exact (hbefore y hy).le
      · rw [List.mem_singleton.mp hy]
        exact hkey.le

end Bounds

end Node

end Xklee
