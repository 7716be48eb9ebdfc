/-
The positions of an iterator: `ImmutableTree::iterator` on its `FixedStack`, and
`ImmutableTree::find`.

The stack of an iterator is an array whose size is the height of the root, fixed when the
iterator is built; `push_back` does not look at the size. The operations are those of
`TreeIterator` once more, with every `push_back` checked: a store past the array, and the
assertion of `operator++`, are `none`. They all succeed, since a stack is a path in the tree
and no path is longer than the height (`Hole.length_add_height_le`).

A tree of n entries has n + 1 positions, and `position` gives the stack of each. The
operators move by one position; the searches stop at the position the key belongs to.
-/
import Xklee.ADT.TreeIterator

set_option autoImplicit false

universe u v

namespace Xklee

/-- `FixedStack::push_back`, on a stack of `max` elements. -/
def FixedStack.push_back {T : Type u} (max : ℕ) (stack : List T) (elt : T) : Option (List T) :=
  if stack.length < max then some (elt :: stack) else none

/-- `FixedStack::back`. -/
def FixedStack.back {T : Type u} (stack : List T) : Option T := stack.head?

theorem FixedStack.push_back_of_lt {T : Type u} {max : ℕ} {stack : List T} {elt : T}
    (h : stack.length < max) : FixedStack.push_back max stack elt = some (elt :: stack) :=
  if_pos h

namespace Node

/-! ## The operations -/

namespace FixedIterator

variable {K : Type u} {V : Type v}

/-- The loop that goes to the left as far as it can. -/
def pushLeft (max : ℕ) : Node V → List (Node V) → Option (List (Node V))
  | terminator, stack => some stack
  | node left right value height, stack => do
      let stack ← FixedStack.push_back max stack (node left right value height)
      pushLeft max left stack

/-- The loop that goes to the right. -/
def pushRight (max : ℕ) : Node V → List (Node V) → Option (List (Node V))
  | terminator, stack => some stack
  | node left right value height, stack => do
      let stack ← FixedStack.push_back max stack (node left right value height)
      pushRight max right stack

/-- `ImmutableTree::begin`. -/
def begin' (root : Node V) : Option (Iterator V) := do
  let stack ← pushLeft root.height root []
  return ⟨root, stack⟩

/-- `operator*`. -/
def deref [Inhabited V] (it : Iterator V) : Option V := (FixedStack.back it.stack).map Node.value

variable [DecidableEq V]

/-- `operator--`. -/
def prev (it : Iterator V) : Option (Iterator V) :=
  match it.stack with
  | [] => do
      let stack ← pushRight it.root.height it.root []
      return { it with stack }
  | n :: stack =>
      if n.left.isTerminator then some { it with stack := Iterator.popFromRight n stack }
      else do
        let stack ← FixedStack.push_back it.root.height (n :: stack) n.left
        let stack ← pushRight it.root.height n.left.right stack
        return { it with stack }

/-- `operator++`. -/
def next (it : Iterator V) : Option (Iterator V) :=
  match it.stack with
  | [] => none
  | n :: stack =>
      if n.right.isTerminator then some { it with stack := Iterator.popFromLeft n stack }
      else do
        let stack ← FixedStack.push_back it.root.height (n :: stack) n.right
        let stack ← pushLeft it.root.height n.right.left stack
        return { it with stack }

variable [LinearOrder K] [Inhabited V] (keyOf : V → K)

/-- The loop of `lower_bound`: the stack, and whether the key has been found. -/
def lowerBoundFrom (k : K) (max : ℕ) : Node V → List (Node V) → Option (List (Node V) × Bool)
  | terminator, stack => some (stack, false)
  | node left right value height, stack => do
      let stack ← FixedStack.push_back max stack (node left right value height)
      if k < keyOf value then lowerBoundFrom k max left stack
      else if keyOf value < k then lowerBoundFrom k max right stack
      else return (stack, true)

/-- `ImmutableTree::lower_bound`. -/
def lowerBound (k : K) (t : Node V) : Option (Iterator V) := do
  match ← lowerBoundFrom keyOf k t.height t [] with
  | (stack, true) => return ⟨t, stack⟩
  | ([], false) => return ⟨t, []⟩
  | (last :: stack, false) =>
      if keyOf last.value < k then next ⟨t, last :: stack⟩ else return ⟨t, last :: stack⟩

/-- `ImmutableTree::upper_bound`. -/
def upperBound (k : K) (t : Node V) : Option (Iterator V) := do
  let it ← lowerBound keyOf k t
  if it ≠ Iterator.end' t ∧ ¬k < keyOf it.value then next it else return it

/-- `ImmutableTree::find`. -/
def find (k : K) (t : Node V) : Option (Iterator V) := do
  let it ← lowerBound keyOf k t
  if it = Iterator.end' t ∨ k < keyOf it.value then return Iterator.end' t else return it

end FixedIterator

/-! ## The capacity of the stack -/

section Capacity

variable {K : Type u} {V : Type v} {root : Node V} {stack : List (Node V)} {before after : List V}

variable {n : Node V} {max : ℕ}

/-- A path has room for the nodes below its end. -/
theorem Hole.length_add_height_le (h : Hole root stack n before after) (hroot : root.HeightsCorrect) :
    stack.length + n.height ≤ root.height ∧ n.HeightsCorrect := by
  induction h with
  | root => exact ⟨Nat.le_of_eq (Nat.zero_add _), hroot⟩
  | left above ih =>
    obtain ⟨hlength, hheight, hl, -⟩ := ih
    rw [height_node] at hlength
    refine ⟨?_, hl⟩
    rw [List.length_cons]
    omega
  | right above ih =>
    obtain ⟨hlength, hheight, -, hr⟩ := ih
    rw [height_node] at hlength
    refine ⟨?_, hr⟩
    rw [List.length_cons]
    omega

/-- The stack of an iterator never holds more nodes than the height of the root. -/
theorem At.length_le (h : At root stack before after) (hroot : root.HeightsCorrect) :
    stack.length ≤ root.height := by
  cases h with
  | atEnd => exact Nat.zero_le _
  | atNode hole =>
    obtain ⟨hlength, hheight, -, -⟩ := hole.length_add_height_le hroot
    rw [height_node] at hlength
    rw [List.length_cons]
    omega

theorem pushLeft_eq_some (hn : n.HeightsCorrect) (hmax : stack.length + n.height ≤ max) :
    FixedIterator.pushLeft max n stack = some (Iterator.pushLeft n stack) := by
  induction n generalizing stack with
  | terminator => rfl
  | node l r x height ihl ihr =>
    obtain ⟨hheight, hl, -⟩ := hn
    rw [height_node] at hmax
    have hpush : stack.length < max := by omega
    rw [FixedIterator.pushLeft, FixedStack.push_back_of_lt hpush, Iterator.pushLeft]
    apply ihl hl
    rw [List.length_cons]
    omega

theorem pushRight_eq_some (hn : n.HeightsCorrect) (hmax : stack.length + n.height ≤ max) :
    FixedIterator.pushRight max n stack = some (Iterator.pushRight n stack) := by
  induction n generalizing stack with
  | terminator => rfl
  | node l r x height ihl ihr =>
    obtain ⟨hheight, -, hr⟩ := hn
    rw [height_node] at hmax
    have hpush : stack.length < max := by omega
    rw [FixedIterator.pushRight, FixedStack.push_back_of_lt hpush, Iterator.pushRight]
    apply ihr hr
    rw [List.length_cons]
    omega

theorem begin_eq_some (hroot : root.HeightsCorrect) :
    FixedIterator.begin' root = some (Iterator.begin' root) := by
  have hmax : ([] : List (Node V)).length + root.height ≤ root.height := by simp
  unfold FixedIterator.begin'
  rw [pushLeft_eq_some hroot hmax]
  rfl

variable [DecidableEq V] (hroot : root.HeightsCorrect)

include hroot

/-- `operator++` finds room on the stack. -/
theorem next_eq_some {x : V} (h : At root stack before (x :: after)) :
    FixedIterator.next ⟨root, stack⟩ = some (Iterator.next ⟨root, stack⟩) := by
  cases h with
  | @atNode stack l r _ height before after hole =>
    obtain ⟨hlength, hheight, -, hr⟩ := hole.length_add_height_le hroot
    rw [height_node] at hlength
    unfold FixedIterator.next Iterator.next
    dsimp only
    split
    next => rfl
    next hterm =>
      -- the right child and its left spine are on one path
      cases r with
      | terminator => exact absurd rfl hterm
      | node rl rr rx rh =>
        obtain ⟨hrheight, hrl, -⟩ := hr
        rw [height_node] at hheight
        have hpush : (node l (node rl rr rx rh) x height :: stack).length < root.height := by
          rw [List.length_cons]
          omega
        rw [right_node, left_node, FixedStack.push_back_of_lt hpush]
        have hroom : (node rl rr rx rh :: node l (node rl rr rx rh) x height :: stack).length
            + rl.height ≤ root.height := by
          rw [List.length_cons, List.length_cons]
          omega
        have hloop := pushLeft_eq_some hrl hroom
        show (FixedIterator.pushLeft root.height rl _).bind _ = _
        rw [hloop]
        rfl

/-- `operator--` finds room on the stack. -/
theorem prev_eq_some (h : At root stack before after) :
    FixedIterator.prev ⟨root, stack⟩ = some (Iterator.prev ⟨root, stack⟩) := by
  cases h with
  | atEnd =>
    have hmax : ([] : List (Node V)).length + root.height ≤ root.height := by simp
    unfold FixedIterator.prev Iterator.prev
    dsimp only
    rw [pushRight_eq_some hroot hmax]
    rfl
  | @atNode stack l r x height before after hole =>
    obtain ⟨hlength, hheight, hl, -⟩ := hole.length_add_height_le hroot
    rw [height_node] at hlength
    unfold FixedIterator.prev Iterator.prev
    dsimp only
    split
    next => rfl
    next hterm =>
      cases l with
      | terminator => exact absurd rfl hterm
      | node ll lr lx lh =>
        obtain ⟨hlheight, -, hlr⟩ := hl
        rw [height_node] at hheight
        have hpush : (node (node ll lr lx lh) r x height :: stack).length < root.height := by
          rw [List.length_cons]
          omega
        rw [left_node, right_node, FixedStack.push_back_of_lt hpush]
        have hroom : (node ll lr lx lh :: node (node ll lr lx lh) r x height :: stack).length
            + lr.height ≤ root.height := by
          rw [List.length_cons, List.length_cons]
          omega
        have hloop := pushRight_eq_some hlr hroom
        show (FixedIterator.pushRight root.height lr _).bind _ = _
        rw [hloop]
        rfl

end Capacity

section Searches

variable {K : Type u} {V : Type v} [LinearOrder K] [DecidableEq V] [Inhabited V] {keyOf : V → K}
variable {root : Node V} {stack : List (Node V)}

omit [DecidableEq V] [Inhabited V] in
theorem lowerBoundFrom_eq_some (k : K) {max : ℕ} {n : Node V} (hn : n.HeightsCorrect)
    (hmax : stack.length + n.height ≤ max) :
    FixedIterator.lowerBoundFrom keyOf k max n stack = some (n.lowerBoundFrom keyOf k stack) := by
  induction n generalizing stack with
  | terminator => rfl
  | node l r x height ihl ihr =>
    obtain ⟨hheight, hl, hr⟩ := hn
    rw [height_node] at hmax
    have hpush : stack.length < max := by omega
    have hleft : (node l r x height :: stack).length + l.height ≤ max := by
      rw [List.length_cons]
      omega
    have hright : (node l r x height :: stack).length + r.height ≤ max := by
      rw [List.length_cons]
      omega
    rw [FixedIterator.lowerBoundFrom, FixedStack.push_back_of_lt hpush, Node.lowerBoundFrom]
    show (if _ then _ else _) = _
    rw [ihl hl hleft, ihr hr hright]
    split
    next => rfl
    next =>
      split
      next => rfl
      next => rfl

variable (hsorted : KeyedList.Sorted keyOf root.toList) (hroot : root.HeightsCorrect)

include hsorted hroot

theorem lowerBound_eq_some (k : K) :
    FixedIterator.lowerBound keyOf k root = some (root.lowerBound keyOf k) := by
  have hmax : ([] : List (Node V)).length + root.height ≤ root.height := by simp
  have hsearched : Searched keyOf root k (root.lowerBoundFrom keyOf k []) := by
    refine lowerBoundFrom_searched hsorted Hole.root (fun y hy => absurd hy List.not_mem_nil)
      (fun y hy => absurd hy List.not_mem_nil) fun heq => ?_
    subst heq
    exact .above (fun y hy => absurd hy List.not_mem_nil) (fun y hy => absurd hy List.not_mem_nil)
      At.atEnd
  unfold FixedIterator.lowerBound Node.lowerBound
  rw [lowerBoundFrom_eq_some k hroot hmax]
  generalize root.lowerBoundFrom keyOf k [] = res at hsearched
  show (match res with
    | (stack, true) => _
    | ([], false) => _
    | (last :: stack, false) => _) = _
  cases hsearched with
  | found hx h => rfl
  | @above stack before after hbefore hafter h =>
    cases h with
    | atEnd => rfl
    | @atNode stack l r x height before after hole =>
      have hlast : ¬keyOf (node l r x height).value < k :=
        not_lt.mpr (hafter x List.mem_cons_self).le
      dsimp only
      rw [if_neg hlast, if_neg hlast]
      rfl
  | @below stack before after x hx hafter h =>
    have hnext := next_eq_some hroot h
    cases stack with
    | nil => exact absurd (h.eq_end.mp rfl) (by simp)
    | cons last stack =>
      dsimp only
      split
      next => exact hnext
      next => rfl

theorem upperBound_eq_some (k : K) :
    FixedIterator.upperBound keyOf k root = some (root.upperBound keyOf k) := by
  obtain ⟨stack, before, after, heq, hat, -⟩ := lowerBound_at hsorted k
  unfold FixedIterator.upperBound Node.upperBound
  rw [lowerBound_eq_some hsorted hroot, heq]
  show (if _ then _ else _) = some (if _ then _ else _)
  split
  next hstep =>
    cases after with
    | nil => exact absurd (congrArg (Iterator.mk root) (hat.eq_end.mpr rfl)) hstep.1
    | cons x after => exact next_eq_some hroot hat
  next => rfl

end Searches

/-! ## Positions -/

section Positions

variable {V : Type v}

/-- The stack of the iterator at the entry with number `i` of a subtree, above the stack
that leads to the subtree. -/
def stackAt : Node V → List (Node V) → ℕ → List (Node V)
  | terminator, _, _ => []
  | node l r x h, stack, i =>
      if i < l.size then stackAt l (node l r x h :: stack) i
      else if i = l.size then node l r x h :: stack
      else stackAt r (node l r x h :: stack) (i - l.size - 1)

/-- The iterator at the entry with number `i`; the end, if there are not so many. -/
def position (root : Node V) (i : ℕ) : Iterator V := ⟨root, stackAt root [] i⟩

theorem size_eq_length (n : Node V) : n.size = n.toList.length := by
  induction n with
  | terminator => rfl
  | node l r x h ihl ihr =>
    rw [size, toList, List.length_append, List.length_cons, ihl, ihr]
    omega

theorem stackAt_of_ge {n : Node V} {stack : List (Node V)} {i : ℕ} (h : n.size ≤ i) :
    stackAt n stack i = [] := by
  induction n generalizing stack i with
  | terminator => rfl
  | node l r x height _ ihr =>
    rw [size] at h
    rw [stackAt, if_neg (by omega), if_neg (by omega)]
    apply ihr
    omega

variable {root : Node V} {stack : List (Node V)} {before after : List V}

/-- The entries of a subtree have the numbers after those of the entries before it. -/
theorem Hole.stackAt_eq {n : Node V} (h : Hole root stack n before after) {j : ℕ}
    (hj : j < n.size) : stackAt root [] (before.length + j) = stackAt n stack j := by
  induction h generalizing j with
  | root => rw [List.length_nil, Nat.zero_add]
  | @left stack l r x height before after above ih =>
    have hnode : j < (node l r x height).size := by
      rw [size]
      omega
    rw [ih hnode, stackAt, if_pos hj]
  | @right stack l r x height before after above ih =>
    have hnode : l.size + 1 + j < (node l r x height).size := by
      rw [size]
      omega
    have hstack := ih hnode
    have hindex : l.size + 1 + j - l.size - 1 = j := by omega
    rw [stackAt, if_neg (by omega), if_neg (by omega), hindex] at hstack
    have hlength : (before ++ l.toList ++ [x]).length + j = before.length + (l.size + 1 + j) := by
      rw [List.length_append, List.length_append, List.length_singleton, ← size_eq_length]
      omega
    rw [hlength, hstack]

/-- An iterator is where the number of entries before it says. -/
theorem At.stack_eq (h : At root stack before after) : stack = stackAt root [] before.length := by
  cases h with
  | atEnd =>
    have hend : root.size ≤ root.toList.length := (size_eq_length root).le
    rw [stackAt_of_ge hend]
  | @atNode stack l r x height before after hole =>
    have hnode : l.size < (node l r x height).size := by
      rw [size]
      omega
    have hstack := hole.stackAt_eq hnode
    rw [List.length_append, ← size_eq_length, hstack, stackAt, if_neg (Nat.lt_irrefl _), if_pos rfl]

/-- Each position has the entries with smaller numbers before it. -/
theorem at_position [DecidableEq V] (hnodup : root.toList.Nodup) {i : ℕ}
    (hi : i ≤ root.toList.length) :
    At root (stackAt root [] i) (root.toList.take i) (root.toList.drop i) := by
  induction i with
  | zero =>
    have hbegin : At root (Iterator.begin' root).stack [] root.toList := at_begin
    have hstack := hbegin.stack_eq
    rw [List.length_nil] at hstack
    rw [← hstack]
    exact hbegin
  | succ i ih =>
    have hlt : i < root.toList.length := hi
    have hat := ih (Nat.le_of_succ_le hi)
    rw [List.drop_eq_getElem_cons hlt] at hat
    have hnext := at_next hnodup hat
    rw [List.take_append_getElem hlt] at hnext
    have hstack := hnext.stack_eq
    rw [List.length_take_of_le hi] at hstack
    rw [← hstack]
    exact hnext

end Positions

/-! ## Enumeration -/

section Enumeration

variable {K : Type u} {V : Type v} [LinearOrder K] [DecidableEq V] [Inhabited V] (keyOf : V → K)

/-- What the iterators of a tree do, when the tree stands for a map. The positions have the
numbers from 0 to the number of entries, the last of which is the end. -/
structure Enumerates (t : Node V) (m : K → Option V) : Prop where
  /-- the entries, in increasing order -/
  ordered : t.toList.Pairwise (fun v w => keyOf v < keyOf w)
  entries : ∀ v, v ∈ t.toList ↔ m (keyOf v) = some v
  /-- the positions are distinct iterators, and their stacks fit -/
  distinct : ∀ i ≤ t.toList.length, ∀ j ≤ t.toList.length, position t i = position t j → i = j
  capacity : ∀ i, (position t i).stack.length ≤ t.height
  begins : FixedIterator.begin' t = some (position t 0)
  ends : Iterator.end' t = position t t.toList.length
  deref : ∀ i (hi : i < t.toList.length), FixedIterator.deref (position t i) = some t.toList[i]
  /-- the operators move by one position, and undo each other -/
  next : ∀ i < t.toList.length, FixedIterator.next (position t i) = some (position t (i + 1))
  prev : ∀ i < t.toList.length, FixedIterator.prev (position t (i + 1)) = some (position t i)
  /-- the first entry that is not less than the key -/
  lowerBound : ∀ k, ∃ i ≤ t.toList.length, FixedIterator.lowerBound keyOf k t = some (position t i)
    ∧ ∀ j (hj : j < t.toList.length), j < i ↔ keyOf t.toList[j] < k
  /-- the first entry that is greater than the key -/
  upperBound : ∀ k, ∃ i ≤ t.toList.length, FixedIterator.upperBound keyOf k t = some (position t i)
    ∧ ∀ j (hj : j < t.toList.length), j < i ↔ keyOf t.toList[j] ≤ k
  /-- the entry of the key, or the end -/
  find : ∀ k, ∃ it, FixedIterator.find keyOf k t = some it
    ∧ ((∃ i, ∃ hi : i < t.toList.length, it = position t i ∧ keyOf t.toList[i] = k)
      ∨ (it = Iterator.end' t ∧ m k = none))

variable {keyOf} {root : Node V} (hsorted : KeyedList.Sorted keyOf root.toList)

omit [DecidableEq V] [Inhabited V] in
theorem position_length : position root root.toList.length = Iterator.end' root := by
  have hend : root.size ≤ root.toList.length := (size_eq_length root).le
  unfold position Iterator.end'
  rw [stackAt_of_ge hend]

variable {stack : List (Node V)} {before after : List V}

omit [DecidableEq V] [Inhabited V] in
/-- The sides of a position, by number. -/
theorem getElem_of_at {P : V → Prop} (h : At root stack before after) (hbefore : ∀ y ∈ before, P y)
    (hafter : ∀ y ∈ after, ¬P y) {j : ℕ} (hj : j < root.toList.length) :
    j < before.length ↔ P root.toList[j] := by
  have hlist := h.toList
  constructor
  · intro hlt
    have hget : root.toList[j] = before[j] := by
      simp only [hlist]
      exact List.getElem_append_left hlt
    rw [hget]
    exact hbefore _ (List.getElem_mem hlt)
  · intro hP
    by_contra hnlt
    have hle : before.length ≤ j := Nat.le_of_not_lt hnlt
    have hlt : j - before.length < after.length := by
      rw [hlist, List.length_append] at hj
      omega
    have hget : root.toList[j] = after[j - before.length] := by
      simp only [hlist]
      exact List.getElem_append_right hle
    rw [hget] at hP
    exact hafter _ (List.getElem_mem hlt) hP

omit [DecidableEq V] [Inhabited V] in
/-- An iterator at a place is a position. -/
theorem position_of_at (h : At root stack before after) :
    before.length ≤ root.toList.length ∧ (⟨root, stack⟩ : Iterator V) = position root before.length := by
  constructor
  · rw [h.toList, List.length_append]
    exact Nat.le_add_right _ _
  · exact congrArg (Iterator.mk root) h.stack_eq

omit [DecidableEq V] in
theorem deref_of_at {x : V} (h : At root stack before (x :: after)) :
    FixedIterator.deref ⟨root, stack⟩ = some x := by
  cases h with
  | atNode hole => rfl

include hsorted in
/-- The iterators of a search tree with correct heights enumerate it. -/
theorem enumerates (hroot : root.HeightsCorrect) :
    root.Enumerates keyOf (KeyedList.toMap keyOf root.toList) := by
  have hnodup := nodup_of_sorted hsorted
  have hat : ∀ i ≤ root.toList.length,
      At root (stackAt root [] i) (root.toList.take i) (root.toList.drop i) :=
    fun i hi => at_position hnodup hi
  have hcons : ∀ i (hi : i < root.toList.length),
      At root (stackAt root [] i) (root.toList.take i) (root.toList[i] :: root.toList.drop (i + 1)) := by
    intro i hi
    have h := hat i hi.le
    rw [List.drop_eq_getElem_cons hi] at h
    exact h
  constructor
  case ordered => exact hsorted
  case entries =>
    intro v
    exact (KeyedList.toMap_keyOf hsorted).symm
  case distinct =>
    intro i hi j hj heq
    have hstack : stackAt root [] i = stackAt root [] j := congrArg Iterator.stack heq
    have hj' := hat j hj
    rw [← hstack] at hj'
    have htake := congrArg List.length ((hat i hi).unique hnodup hj')
    rw [List.length_take_of_le hi, List.length_take_of_le hj] at htake
    exact htake
  case capacity =>
    intro i
    rcases Nat.le_total i root.toList.length with hi | hi
    · exact (hat i hi).length_le hroot
    · have hend : root.size ≤ i := by
        rw [size_eq_length]
        exact hi
      show (stackAt root [] i).length ≤ _
      rw [stackAt_of_ge hend]
      exact Nat.zero_le _
  case begins =>
    rw [begin_eq_some hroot]
    exact congrArg some (position_of_at at_begin).2
  case ends => exact position_length.symm
  case deref =>
    intro i hi
    exact deref_of_at (hcons i hi)
  case next =>
    intro i hi
    have hnext := at_next hnodup (hcons i hi)
    have hposition := (position_of_at hnext).2
    rw [List.take_append_getElem hi, List.length_take_of_le hi] at hposition
    rw [← hposition]
    exact (next_eq_some hroot (hcons i hi)).trans (congrArg some (Iterator.next_eq _))
  case prev =>
    intro i hi
    have hsucc := hat (i + 1) hi
    have hprev := prev_eq_some hroot hsucc
    rw [← List.take_append_getElem hi] at hsucc
    have hposition := (position_of_at (at_prev hnodup hsucc)).2
    rw [List.length_take_of_le hi.le] at hposition
    rw [← hposition]
    exact hprev.trans (congrArg some (Iterator.prev_eq _))
  case lowerBound =>
    intro k
    obtain ⟨stack, before, after, heq, hsides, hbefore, hafter⟩ := lowerBound_at hsorted k
    obtain ⟨hlength, hposition⟩ := position_of_at hsides
    refine ⟨before.length, hlength, ?_, fun j hj => ?_⟩
    · rw [lowerBound_eq_some hsorted hroot, heq, hposition]
    · exact getElem_of_at (P := fun y => keyOf y < k) hsides hbefore
        (fun y hy => not_lt.mpr (hafter y hy)) hj
  case upperBound =>
    intro k
    obtain ⟨stack, before, after, heq, hsides, hbefore, hafter⟩ := upperBound_at hsorted k
    obtain ⟨hlength, hposition⟩ := position_of_at hsides
    refine ⟨before.length, hlength, ?_, fun j hj => ?_⟩
    · rw [upperBound_eq_some hsorted hroot, heq, hposition]
    · exact getElem_of_at (P := fun y => keyOf y ≤ k) hsides hbefore
        (fun y hy => not_le.mpr (hafter y hy)) hj
  case find =>
    intro k
    obtain ⟨stack, before, after, heq, hsides, hbefore, hafter⟩ := lowerBound_at hsorted k
    obtain ⟨hlength, hposition⟩ := position_of_at hsides
    have hall := hsorted
    rw [hsides.toList] at hall
    obtain ⟨-, hrest, -⟩ := KeyedList.sorted_append.mp hall
    unfold FixedIterator.find
    rw [lowerBound_eq_some hsorted hroot, heq]
    rw [Option.bind_eq_bind, Option.bind_some]
    cases after with
    | nil =>
      have hend : (⟨root, stack⟩ : Iterator V) = Iterator.end' root :=
        congrArg (Iterator.mk root) (hsides.eq_end.mpr rfl)
      rw [if_pos (Or.inl hend)]
      refine ⟨Iterator.end' root, rfl, Or.inr ⟨rfl, ?_⟩⟩
      apply KeyedList.toMap_eq_none
      intro y hy
      rw [hsides.toList, List.append_nil] at hy
      exact (hbefore y hy).ne
    | cons x after =>
      rw [hsides.value_eq]
      have hx := hafter x List.mem_cons_self
      have hne : (⟨root, stack⟩ : Iterator V) ≠ Iterator.end' root := by
        intro hend
        have hnil : stack = [] := congrArg Iterator.stack hend
        exact absurd (hsides.eq_end.mp hnil) (by simp)
      by_cases hlt : k < keyOf x
      · -- every key from here on is greater
        rw [if_pos (Or.inr hlt)]
        refine ⟨Iterator.end' root, rfl, Or.inr ⟨rfl, ?_⟩⟩
        apply KeyedList.toMap_eq_none
        intro y hy
        rw [hsides.toList] at hy
        rcases List.mem_append.mp hy with hy | hy
        · exact (hbefore y hy).ne
        · rcases List.mem_cons.mp hy with rfl | hy
          · exact hlt.ne'
          · exact (hlt.trans ((KeyedList.sorted_cons.mp hrest).1 y hy)).ne'
      · rw [if_neg (not_or.mpr ⟨hne, hlt⟩)]
        have hlist := hsides.toList
        have hi : before.length < root.toList.length := by
          rw [hlist, List.length_append, List.length_cons]
          omega
        have hget : root.toList[before.length] = x := by
          simp only [hlist]
          rw [List.getElem_append_right (Nat.le_refl _)]
          simp
        refine ⟨_, rfl, Or.inl ⟨before.length, hi, hposition, ?_⟩⟩
        rw [hget]
        exact le_antisymm (not_lt.mp hlt) hx

end Enumeration

end Node

section Versions

variable {K : Type u} {V : Type v} [LinearOrder K] [DecidableEq V] [Inhabited V] (keyOf : V → K)

/-- Whatever operations built them, the iterators of every version of a tree enumerate the
map that the version stands for, with stacks no larger than the height of the root. -/
theorem versions_enumerate (calls : List (ℕ × TreeOp K V)) :
    List.Forall₂ (Node.Enumerates keyOf)
      (run (stepVersion (Node.apply keyOf) .terminator) [] calls).2
      (run (stepVersion (applyMap keyOf) fun _ => none) [] calls).2 := by
  have hstep := stepVersion_simulates Eq (represents_terminator keyOf) represents_apply
  obtain ⟨-, hversions⟩ := run_simulates Eq (fun s t c hrel _ => hstep s t c hrel)
    List.Forall₂.nil (allSteps_of_forall (P := fun _ => True) [] fun c _ => trivial)
  refine hversions.imp fun t m h => ?_
  have hcontents := h.contents
  subst hcontents
  exact Node.enumerates h.ordered h.shaped.heights

end Versions

end Xklee
