/-
The weighted choice of a searcher: `include/klee/Internal/ADT/DiscretePDF.inc`.

A binary search tree of items with parent pointers, where every node has the sum of the
weights below it. The colours of the nodes balance it. The nodes live in a heap; an operation
has no result where the source would follow a null or dangling pointer or fail an assertion,
and where a loop does not end. Weights are exact.
-/
import Mathlib.Algebra.Order.Field.Basic
import Xklee.Data.Heap

set_option autoImplicit false

namespace Xklee

/-- `DiscretePDF<T>::Node`, which is red if it is marked. -/
structure PDFNode (T weight_type : Type) where
  m_mark : Bool
  parent : Option ℕ
  left : Option ℕ
  right : Option ℕ
  key : T
  weight : weight_type
  sumWeights : weight_type

namespace PDFNode

variable {T weight_type : Type}

def markRed (node : PDFNode T weight_type) : PDFNode T weight_type := { node with m_mark := true }

def markBlack (node : PDFNode T weight_type) : PDFNode T weight_type := { node with m_mark := false }

end PDFNode

structure DiscretePDF (T weight_type : Type) where
  heap : Heap (PDFNode T weight_type)
  m_root : Option ℕ

namespace DiscretePDF

variable {T weight_type : Type}

def empty : DiscretePDF T weight_type := ⟨Heap.empty, none⟩

def node (d : DiscretePDF T weight_type) (n : ℕ) : Option (PDFNode T weight_type) := d.heap.read n

/-- An assignment to fields of `*n`. -/
def modify (d : DiscretePDF T weight_type) (n : ℕ)
    (f : PDFNode T weight_type → PDFNode T weight_type) : Option (DiscretePDF T weight_type) :=
  (d.node n).map fun node => { d with heap := d.heap.write n (f node) }

/-- `if (n) ...` -/
def modifyIf (d : DiscretePDF T weight_type) (n : Option ℕ)
    (f : PDFNode T weight_type → PDFNode T weight_type) : Option (DiscretePDF T weight_type) :=
  match n with
  | none => some d
  | some n => d.modify n f

def isBlack (d : DiscretePDF T weight_type) (n : ℕ) : Option Bool :=
  (d.node n).map fun node => !node.m_mark

/-- `!child || child->isBlack()`, of `leftIsBlack` and `rightIsBlack`. -/
def childIsBlack (d : DiscretePDF T weight_type) : Option ℕ → Option Bool
  | none => some true
  | some child => d.isBlack child

def leftIsBlack (d : DiscretePDF T weight_type) (n : ℕ) : Option Bool := do
  let node ← d.node n
  d.childIsBlack node.left

def rightIsBlack (d : DiscretePDF T weight_type) (n : ℕ) : Option Bool := do
  let node ← d.node n
  d.childIsBlack node.right

def sibling (d : DiscretePDF T weight_type) (n : ℕ) : Option (Option ℕ) := do
  let node ← d.node n
  let parent ← d.node (← node.parent)
  some (if parent.left = some n then parent.right else parent.left)

section Weights

variable [Add weight_type] [Zero weight_type]

/-- What a child adds to a sum. -/
def sumOf (d : DiscretePDF T weight_type) : Option ℕ → Option weight_type
  | none => some 0
  | some child => (d.node child).map PDFNode.sumWeights

def setSum (d : DiscretePDF T weight_type) (n : ℕ) : Option (DiscretePDF T weight_type) := do
  let node ← d.node n
  let left ← d.sumOf node.left
  let right ← d.sumOf node.right
  d.modify n fun node => { node with sumWeights := node.weight + left + right }

/-- The loop of `propogateSumsUp`. -/
def propogateLoop (d : DiscretePDF T weight_type) :
    ℕ → Option ℕ → Option (DiscretePDF T weight_type)
  | _, none => some d
  | 0, some _ => none
  | fuel + 1, some n => do
      let d ← d.setSum n
      let node ← d.node n
      d.propogateLoop fuel node.parent

/-- A walk along the nodes that is longer than this never ends. -/
def fuel (d : DiscretePDF T weight_type) : ℕ := 2 * d.heap.next + 2

def propogateSumsUp (d : DiscretePDF T weight_type) (n : Option ℕ) :
    Option (DiscretePDF T weight_type) :=
  d.propogateLoop d.fuel n

/-! ## Balancing -/

/-- The children of `n` and `p` in `rotate`: `n` gets `p`, and `p` the child of `n` on the
other side. -/
def exchange (d : DiscretePDF T weight_type) (n p : ℕ) : Option (DiscretePDF T weight_type) := do
  let node ← d.node n
  let pnode ← d.node p
  if pnode.left = some n then do
    let d ← d.modify p fun pnode => { pnode with left := node.right }
    let d ← d.modify n fun node => { node with right := some p }
    d.modifyIf node.right fun child => { child with parent := some p }
  else do
    let d ← d.modify p fun pnode => { pnode with right := node.left }
    let d ← d.modify n fun node => { node with left := some p }
    d.modifyIf node.left fun child => { child with parent := some p }

/-- The end of `rotate`: `n` stands where `p` was. -/
def replaceChild (d : DiscretePDF T weight_type) (pp : Option ℕ) (p n : ℕ) :
    Option (DiscretePDF T weight_type) :=
  match pp with
  | none => some { d with m_root := some n }
  | some pp => do
      let ppnode ← d.node pp
      if ppnode.left = some p then d.modify pp fun node => { node with left := some n }
      else d.modify pp fun node => { node with right := some n }

def rotate (d : DiscretePDF T weight_type) (n : ℕ) : Option (DiscretePDF T weight_type) := do
  let node ← d.node n
  let p ← node.parent
  let pnode ← d.node p
  let pp := pnode.parent
  let d ← d.modify n fun node => { node with parent := pp }
  let d ← d.modify p fun node => { node with parent := some n }
  let d ← d.exchange n p
  let d ← d.setSum n
  let d ← d.setSum p
  d.replaceChild pp p n

def split (d : DiscretePDF T weight_type) (n : ℕ) : Option (DiscretePDF T weight_type) := do
  let node ← d.node n
  let d ← d.modifyIf node.left PDFNode.markBlack
  let d ← d.modifyIf node.right PDFNode.markBlack
  match node.parent with
  | none => some d
  | some p => do
      let d ← d.modify n PDFNode.markRed
      let pnode ← d.node p
      if pnode.m_mark then do
        let pp ← pnode.parent
        let d ← d.modify pp PDFNode.markRed
        let ppnode ← d.node pp
        if (pnode.left = some n ∧ ppnode.left = some p)
            ∨ (pnode.right = some n ∧ ppnode.right = some p) then do
          let d ← d.rotate p
          d.modify p PDFNode.markBlack
        else do
          let d ← d.rotate n
          let d ← d.rotate n
          d.modify n PDFNode.markBlack
      else some d

/-- `lengthen(n)` once it is clear that `n` is black, has a parent and the sibling is black:
the node to go on with, if there is one. -/
def lengthenBlack (d : DiscretePDF T weight_type) (n p : ℕ) (sibling : Option ℕ) :
    Option (DiscretePDF T weight_type × Option ℕ) :=
  match sibling with
  | none => some (d, some p)
  | some sibling => do
      let left ← d.leftIsBlack sibling
      let right ← d.rightIsBlack sibling
      let pnode ← d.node p
      if left && right then do
        let d ← d.modify sibling PDFNode.markRed
        if pnode.m_mark then do
          let d ← d.modify p PDFNode.markBlack
          some (d, none)
        else some (d, some p)
      else do
        let snode ← d.node sibling
        let (d, sibling) ←
          if pnode.left = some n ∧ right then do
            let child ← snode.left
            let d ← d.rotate child
            let d ← d.modify sibling PDFNode.markRed
            let parent ← (← d.node sibling).parent
            let d ← d.modify parent PDFNode.markBlack
            some (d, parent)
          else if pnode.right = some n ∧ left then do
            let child ← snode.right
            let d ← d.rotate child
            let d ← d.modify sibling PDFNode.markRed
            let parent ← (← d.node sibling).parent
            let d ← d.modify parent PDFNode.markBlack
            some (d, parent)
          else some (d, sibling)
        let d ← d.rotate sibling
        let pnode ← d.node p
        let d ← if pnode.m_mark then d.modify sibling PDFNode.markRed else some d
        let snode ← d.node sibling
        let d ← d.modify (← snode.left) PDFNode.markBlack
        let d ← d.modify (← snode.right) PDFNode.markBlack
        some (d, none)

/-- The body of `lengthen(n)`, up to the call of itself. -/
def lengthenStep (d : DiscretePDF T weight_type) (n : ℕ) :
    Option (DiscretePDF T weight_type × Option ℕ) := do
  let node ← d.node n
  if node.m_mark then do
    let d ← d.modify n PDFNode.markBlack
    some (d, none)
  else
    match node.parent with
    | none => some (d, none)
    | some p => do
        let sibling ← d.sibling n
        match sibling with
        | none => d.lengthenBlack n p none
        | some s => do
            if ← d.isBlack s then d.lengthenBlack n p (some s)
            else do
              let d ← d.modify p PDFNode.markRed
              let d ← d.modify s PDFNode.markBlack
              let d ← d.rotate s
              d.lengthenBlack n p (← d.sibling n)

def lengthen : ℕ → DiscretePDF T weight_type → ℕ → Option (DiscretePDF T weight_type)
  | 0, _, _ => none
  | fuel + 1, d, n => do
      let (d, next) ← d.lengthenStep n
      match next with
      | none => some d
      | some n => lengthen fuel d n

/-! ## The operations -/

variable [LinearOrder T]

/-- A pointer to a pointer: `&m_root`, `&n->left` or `&n->right`. -/
inductive Place
  | root
  | left (n : ℕ)
  | right (n : ℕ)
deriving DecidableEq

/-- `*np` -/
def load (d : DiscretePDF T weight_type) : Place → Option (Option ℕ)
  | .root => some d.m_root
  | .left n => (d.node n).map PDFNode.left
  | .right n => (d.node n).map PDFNode.right

/-- `*np = child` -/
def store (d : DiscretePDF T weight_type) (np : Place) (child : Option ℕ) :
    Option (DiscretePDF T weight_type) :=
  match np with
  | .root => some { d with m_root := child }
  | .left n => d.modify n fun node => { node with left := child }
  | .right n => d.modify n fun node => { node with right := child }

def lookupLoop (d : DiscretePDF T weight_type) (item : T) : ℕ → Place → Option Place
  | 0, _ => none
  | fuel + 1, np => do
      match ← d.load np with
      | none => some np
      | some n => do
          let node ← d.node n
          if node.key = item then some np
          else d.lookupLoop item fuel (if item < node.key then .left n else .right n)

def lookup (d : DiscretePDF T weight_type) (item : T) : Option Place :=
  d.lookupLoop item d.fuel .root

/-- The loop of `insert`: the last node is `p`. -/
def insertLoop (item : T) :
    ℕ → DiscretePDF T weight_type → Option ℕ → Option ℕ →
      Option (DiscretePDF T weight_type × Option ℕ)
  | _, d, p, none => some (d, p)
  | 0, _, _, some _ => none
  | fuel + 1, d, _, some n => do
      let left ← d.leftIsBlack n
      let right ← d.rightIsBlack n
      let d ← if !left && !right then d.split n else some d
      let node ← d.node n
      if node.key = item then none
      else insertLoop item fuel d (some n) (if item < node.key then node.left else node.right)

def insert (d : DiscretePDF T weight_type) (item : T) (weight : weight_type) :
    Option (DiscretePDF T weight_type) := do
  let (d, p) ← insertLoop item d.fuel d none d.m_root
  let n := d.heap.next
  let d := { d with heap := d.heap.alloc ⟨false, p, none, none, item, weight, 0⟩ }
  let d ←
    match p with
    | none => some { d with m_root := some n }
    | some p => do
        let pnode ← d.node p
        let d ←
          if item < pnode.key then d.modify p fun node => { node with left := some n }
          else d.modify p fun node => { node with right := some n }
        d.split n
  d.propogateSumsUp (some n)

/-- The loop of `remove` for the greatest item on the left. -/
def leftMaxLoop (d : DiscretePDF T weight_type) : ℕ → Place → Option Place
  | 0, _ => none
  | fuel + 1, leftMaxp => do
      let n ← (← d.load leftMaxp)
      let node ← d.node n
      if node.right = none then some leftMaxp else d.leftMaxLoop fuel (.right n)

def remove (d : DiscretePDF T weight_type) (item : T) : Option (DiscretePDF T weight_type) := do
  let np ← d.lookup item
  let n ← (← d.load np)
  let node ← d.node n
  let (d, np) ←
    match node.left with
    | none => some (d, np)
    | some _ => do
        let leftMaxp ← d.leftMaxLoop d.fuel (.left n)
        let leftMax ← d.node (← (← d.load leftMaxp))
        let d ← d.modify n fun node => { node with key := leftMax.key, weight := leftMax.weight }
        some (d, leftMaxp)
  let n ← (← d.load np)
  let node ← d.node n
  let child := if node.left = none then node.right else node.left
  let d ← d.store np child
  let d ←
    match child with
    | none => some d
    | some child => do
        let d ← d.modify child fun child => { child with parent := node.parent }
        if node.m_mark then some d else lengthen d.fuel d child
  let d ← d.propogateSumsUp node.parent
  some { d with heap := d.heap.free n }

def update (d : DiscretePDF T weight_type) (item : T) (weight : weight_type) :
    Option (DiscretePDF T weight_type) := do
  let n ← (← d.load (← d.lookup item))
  let d ← d.modify n fun node => { node with weight := weight }
  d.propogateSumsUp (some n)

def inTree (d : DiscretePDF T weight_type) (item : T) : Option Bool := do
  let n ← d.load (← d.lookup item)
  some n.isSome

def getWeight (d : DiscretePDF T weight_type) (item : T) : Option weight_type := do
  let n ← (← d.load (← d.lookup item))
  (d.node n).map PDFNode.weight

variable [Sub weight_type] [Mul weight_type] [One weight_type] [LinearOrder weight_type]

/-- The loop of `choose`. -/
def chooseLoop (d : DiscretePDF T weight_type) : ℕ → ℕ → weight_type → Option T
  | 0, _, _ => none
  | fuel + 1, n, w => do
      let node ← d.node n
      let left ← d.sumOf node.left
      if node.left ≠ none ∧ w < left then d.chooseLoop fuel (← node.left) w
      else
        let w := if node.left = none then w else w - left
        if w < node.weight ∨ node.right = none then some node.key
        else d.chooseLoop fuel (← node.right) (w - node.weight)

def choose (d : DiscretePDF T weight_type) (p : weight_type) : Option T :=
  if p < 0 ∨ 1 ≤ p then none
  else do
    let n ← d.m_root
    let node ← d.node n
    d.chooseLoop d.fuel n (node.sumWeights * p)

end Weights

end DiscretePDF

end Xklee
