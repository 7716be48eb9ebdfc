/-
The persistent search tree: `include/klee/Internal/ADT/ImmutableTree.h`.

The tree is an AVL tree that lets the heights of siblings differ by two. A node is never
written to after it is built, but for its reference count, so a tree is a value here and
the counts are left out. `V` has a default value, that of the terminator. `keyOf` and
`<` are `key_of_value` and `key_compare`; where the comparison takes distinct keys to be
equivalent, `keyOf` gives the class of the key.
-/
import Xklee.Data.KeyedList
import Xklee.Data.Run
import Mathlib.Data.List.Sort

set_option autoImplicit false

universe u v

namespace Xklee

/-- A node with its left and right child, its value and its height. -/
inductive Node (V : Type v)
  | terminator
  | node (left right : Node V) (value : V) (height : ℕ)
deriving DecidableEq

namespace Node

section Operations

variable {K : Type u} {V : Type v}

def isTerminator : Node V → Bool
  | terminator => true
  | node .. => false

def left : Node V → Node V
  | terminator => terminator
  | node left _ _ _ => left

def right : Node V → Node V
  | terminator => terminator
  | node _ right _ _ => right

def value [Inhabited V] : Node V → V
  | terminator => default
  | node _ _ value _ => value

def height : Node V → ℕ
  | terminator => 0
  | node _ _ _ height => height

/-- The constructor. -/
def new (left right : Node V) (value : V) : Node V :=
  node left right value (max left.height right.height + 1)

variable [Inhabited V]

def balance (left : Node V) (value : V) (right : Node V) : Node V :=
  if left.height > right.height + 2 then
    let ll := left.left
    let lr := left.right
    if ll.height ≥ lr.height then
      let nlr := new lr right value
      new ll nlr left.value
    else
      let lrl := lr.left
      let lrr := lr.right
      let nll := new ll lrl left.value
      let nlr := new lrr right value
      new nll nlr lr.value
  else if right.height > left.height + 2 then
    let rl := right.left
    let rr := right.right
    if rr.height ≥ rl.height then
      let nrl := new left rl value
      new nrl rr right.value
    else
      let rll := rl.left
      let rlr := rl.right
      let nrl := new left rll value
      let nrr := new rlr rr right.value
      new nrl nrr rl.value
  else new left right value

/-- `popMin(valueOut)`, with `valueOut` first. -/
def popMin : Node V → V × Node V
  | terminator => (default, terminator)
  | node left right value _ =>
      if left.isTerminator then (value, right)
      else
        let (valueOut, left) := left.popMin
        (valueOut, balance left value right)

def popMax : Node V → V × Node V
  | terminator => (default, terminator)
  | node left right value _ =>
      if right.isTerminator then (value, left)
      else
        let (valueOut, right) := right.popMax
        (valueOut, balance left value right)

variable [LinearOrder K] (keyOf : V → K)

def insert (v : V) : Node V → Node V
  | terminator => new terminator terminator v
  | node left right value height =>
      if keyOf v < keyOf value then balance (left.insert v) value right
      else if keyOf value < keyOf v then balance left value (right.insert v)
      else node left right value height

def replace (v : V) : Node V → Node V
  | terminator => new terminator terminator v
  | node left right value _ =>
      if keyOf v < keyOf value then balance (left.replace v) value right
      else if keyOf value < keyOf v then balance left value (right.replace v)
      else new left right v

def remove (k : K) : Node V → Node V
  | terminator => terminator
  | node left right value _ =>
      if k < keyOf value then balance (left.remove k) value right
      else if keyOf value < k then balance left value (right.remove k)
      else if left.isTerminator then right
      else if right.isTerminator then left
      else
        let (min, nr) := right.popMin
        balance left min nr

end Operations

def size {V : Type v} : Node V → ℕ
  | terminator => 0
  | node left right _ _ => left.size + 1 + right.size

section Lookup

variable {K : Type u} {V : Type v} [LinearOrder K] (keyOf : V → K)

/-- `count(k)`, always 0 or 1. -/
def count (k : K) : Node V → ℕ
  | terminator => 0
  | node left right value _ =>
      if k < keyOf value then left.count k
      else if keyOf value < k then right.count k
      else 1

def lookup (k : K) : Node V → Option V
  | terminator => none
  | node left right value _ =>
      if k < keyOf value then left.lookup k
      else if keyOf value < k then right.lookup k
      else some value

/-- The loop of `lookup_previous(k)`, with its `result`. -/
def lookupPreviousFrom (k : K) : Node V → Option V → Option V
  | terminator, result => result
  | node left right value _, result =>
      if k < keyOf value then left.lookupPreviousFrom k result
      else if keyOf value < k then right.lookupPreviousFrom k (some value)
      else some value

def lookupPrevious (k : K) (t : Node V) : Option V := t.lookupPreviousFrom keyOf k none

/-- `min()`, with `none` for the failing assertion. -/
protected def min : Node V → Option V
  | terminator => none
  | node left _ value _ => if left.isTerminator then some value else left.min

protected def max : Node V → Option V
  | terminator => none
  | node _ right value _ => if right.isTerminator then some value else right.max

end Lookup

/-! ## Heights and balance -/

section Shape

variable {V : Type v}

/-- Every stored height is one more than the larger height of the children. -/
def HeightsCorrect : Node V → Prop
  | terminator => True
  | node left right _ height =>
      height = max left.height right.height + 1 ∧ left.HeightsCorrect ∧ right.HeightsCorrect

/-- The heights of siblings differ by at most two. -/
def Balanced : Node V → Prop
  | terminator => True
  | node left right _ _ =>
      left.height ≤ right.height + 2 ∧ right.height ≤ left.height + 2
        ∧ left.Balanced ∧ right.Balanced

/-- Both. -/
structure Shaped (t : Node V) : Prop where
  heights : t.HeightsCorrect
  balanced : t.Balanced

theorem shaped_terminator : Shaped (terminator : Node V) := ⟨trivial, trivial⟩

theorem height_terminator : (terminator : Node V).height = 0 := rfl

theorem left_node (l r : Node V) (v : V) (h : ℕ) : (node l r v h).left = l := rfl

theorem right_node (l r : Node V) (v : V) (h : ℕ) : (node l r v h).right = r := rfl

theorem height_node (l r : Node V) (v : V) (h : ℕ) : (node l r v h).height = h := rfl

theorem height_new (l r : Node V) (v : V) : (new l r v).height = max l.height r.height + 1 := rfl

theorem shaped_node {l r : Node V} {v : V} {h : ℕ} :
    Shaped (node l r v h) ↔ h = max l.height r.height + 1 ∧ l.height ≤ r.height + 2
      ∧ r.height ≤ l.height + 2 ∧ Shaped l ∧ Shaped r := by
  constructor
  · rintro ⟨⟨hh, hhl, hhr⟩, hlr, hrl, hbl, hbr⟩
    exact ⟨hh, hlr, hrl, ⟨hhl, hbl⟩, hhr, hbr⟩
  · rintro ⟨hh, hlr, hrl, ⟨hhl, hbl⟩, hhr, hbr⟩
    exact ⟨⟨hh, hhl, hhr⟩, hlr, hrl, hbl, hbr⟩

theorem shaped_new {l r : Node V} {v : V} (hl : Shaped l) (hr : Shaped r)
    (hlr : l.height ≤ r.height + 2) (hrl : r.height ≤ l.height + 2) : Shaped (new l r v) :=
  shaped_node.mpr ⟨rfl, hlr, hrl, hl, hr⟩

theorem isTerminator_iff {t : Node V} : t.isTerminator = true ↔ t = terminator := by
  cases t <;> simp [isTerminator]

/-- A tree of some height is not the terminator. -/
theorem exists_node {t : Node V} (h : 0 < t.height) :
    ∃ l r v h, t = node l r v h := by
  cases t with
  | terminator => exact absurd h (Nat.lt_irrefl 0)
  | node l r v height => exact ⟨l, r, v, height, rfl⟩

/-- The ways in which two trees and a value are put together. -/
inductive Joined : Node V → V → Node V → Node V → Prop
  | leftOuter {ll lr r : Node V} {lv v : V} {lh : ℕ} (hleft : lh > r.height + 2)
      (hll : ll.height ≥ lr.height) :
      Joined (node ll lr lv lh) v r (new ll (new lr r v) lv)
  | leftInner {ll lrl lrr r : Node V} {lrv lv v : V} {lrh lh : ℕ} (hleft : lh > r.height + 2)
      (hlr : ll.height < lrh) :
      Joined (node ll (node lrl lrr lrv lrh) lv lh) v r (new (new ll lrl lv) (new lrr r v) lrv)
  | rightOuter {l rl rr : Node V} {rv v : V} {rh : ℕ} (hright : rh > l.height + 2)
      (hrr : rr.height ≥ rl.height) :
      Joined l v (node rl rr rv rh) (new (new l rl v) rr rv)
  | rightInner {l rll rlr rr : Node V} {rlv rv v : V} {rlh rh : ℕ} (hright : rh > l.height + 2)
      (hrl : rr.height < rlh) :
      Joined l v (node (node rll rlr rlv rlh) rr rv rh) (new (new l rll v) (new rlr rr rv) rlv)
  | plain {l r : Node V} {v : V} (hlr : l.height ≤ r.height + 2) (hrl : r.height ≤ l.height + 2) :
      Joined l v r (new l r v)

theorem balance_joined [Inhabited V] (l : Node V) (v : V) (r : Node V) :
    Joined l v r (balance l v r) := by
  rw [balance]
  by_cases hleft : l.height > r.height + 2
  · rw [if_pos hleft]
    by_cases hll : l.left.height ≥ l.right.height
    · rw [if_pos hll]
      obtain ⟨ll, lr, lv, lh, rfl⟩ := exists_node (Nat.zero_lt_of_lt hleft)
      exact .leftOuter hleft hll
    · rw [if_neg hll]
      obtain ⟨ll, lr, lv, lh, rfl⟩ := exists_node (Nat.zero_lt_of_lt hleft)
      obtain ⟨lrl, lrr, lrv, lrh, rfl⟩ := exists_node (Nat.zero_lt_of_lt (not_le.mp hll))
      exact .leftInner hleft (not_le.mp hll)
  · rw [if_neg hleft]
    by_cases hright : r.height > l.height + 2
    · rw [if_pos hright]
      by_cases hrr : r.right.height ≥ r.left.height
      · rw [if_pos hrr]
        obtain ⟨rl, rr, rv, rh, rfl⟩ := exists_node (Nat.zero_lt_of_lt hright)
        exact .rightOuter hright hrr
      · rw [if_neg hrr]
        obtain ⟨rl, rr, rv, rh, rfl⟩ := exists_node (Nat.zero_lt_of_lt hright)
        obtain ⟨rll, rlr, rlv, rlh, rfl⟩ := exists_node (Nat.zero_lt_of_lt (not_le.mp hrr))
        exact .rightInner hright (not_le.mp hrr)
    · rw [if_neg hright]
      exact .plain (not_lt.mp hleft) (not_lt.mp hright)

/-- The height of a tree put together from trees of heights `l` and `r`. -/
def JoinedHeight (l r h : ℕ) : Prop :=
  max l r ≤ h ∧ h ≤ max l r + 1 ∧ (l ≤ r + 2 → r ≤ l + 2 → h = max l r + 1)

/-- A rotation mends a difference of three. -/
theorem Joined.shaped {l r t : Node V} {v : V} (h : Joined l v r t) (hl : Shaped l)
    (hr : Shaped r) (hlr : l.height ≤ r.height + 3) (hrl : r.height ≤ l.height + 3) :
    Shaped t ∧ JoinedHeight l.height r.height t.height := by
  cases h with
  | @leftOuter ll lr _ lv _ lh hleft hll =>
    obtain ⟨hlh, hll', hlr', hsll, hslr⟩ := shaped_node.mp hl
    rw [height_node] at hlr hrl ⊢
    have hheight := height_new lr r v
    have hinner : Shaped (new lr r v) := shaped_new hslr hr (by omega) (by omega)
    refine ⟨shaped_new hsll hinner (by omega) (by omega), ?_⟩
    rw [height_new, JoinedHeight]
    omega
  | @leftInner ll lrl lrr _ lrv lv _ lrh lh hleft hlr' =>
    obtain ⟨hlh, hll', hlr'', hsll, hslr⟩ := shaped_node.mp hl
    obtain ⟨hlrh, hlrl, hlrr, hslrl, hslrr⟩ := shaped_node.mp hslr
    rw [height_node] at hlr hrl hlh hll' hlr'' ⊢
    have hheight := height_new ll lrl lv
    have hheight' := height_new lrr r v
    have hinner : Shaped (new ll lrl lv) := shaped_new hsll hslrl (by omega) (by omega)
    have hinner' : Shaped (new lrr r v) := shaped_new hslrr hr (by omega) (by omega)
    refine ⟨shaped_new hinner hinner' (by omega) (by omega), ?_⟩
    rw [height_new, JoinedHeight]
    omega
  | @rightOuter _ rl rr rv _ rh hright hrr =>
    obtain ⟨hrh, hrl', hrr', hsrl, hsrr⟩ := shaped_node.mp hr
    rw [height_node] at hlr hrl ⊢
    have hheight := height_new l rl v
    have hinner : Shaped (new l rl v) := shaped_new hl hsrl (by omega) (by omega)
    refine ⟨shaped_new hinner hsrr (by omega) (by omega), ?_⟩
    rw [height_new, JoinedHeight]
    omega
  | @rightInner _ rll rlr rr rlv rv _ rlh rh hright hrl' =>
    obtain ⟨hrh, hrl'', hrr', hsrl, hsrr⟩ := shaped_node.mp hr
    obtain ⟨hrlh, hrll, hrlr, hsrll, hsrlr⟩ := shaped_node.mp hsrl
    rw [height_node] at hlr hrl hrh hrl'' hrr' ⊢
    have hheight := height_new l rll v
    have hheight' := height_new rlr rr rv
    have hinner : Shaped (new l rll v) := shaped_new hl hsrll (by omega) (by omega)
    have hinner' : Shaped (new rlr rr rv) := shaped_new hsrlr hsrr (by omega) (by omega)
    refine ⟨shaped_new hinner hinner' (by omega) (by omega), ?_⟩
    rw [height_new, JoinedHeight]
    omega
  | plain hlr' hrl' =>
    refine ⟨shaped_new hl hr hlr' hrl', ?_⟩
    rw [height_new, JoinedHeight]
    omega

/-- Putting a node together again with one child grown by at most one. -/
theorem shaped_grown [Inhabited V] {l l' r r' : Node V} {x : V} {h : ℕ}
    (ht : Shaped (node l r x h)) (hl' : Shaped l') (hr' : Shaped r')
    (hgrown : l.height ≤ l'.height ∧ l'.height ≤ l.height + 1 ∧ r' = r
      ∨ r.height ≤ r'.height ∧ r'.height ≤ r.height + 1 ∧ l' = l) (v : V) :
    Shaped (balance l' v r') ∧ h ≤ (balance l' v r').height ∧ (balance l' v r').height ≤ h + 1 := by
  obtain ⟨hh, hlr, hrl, -, -⟩ := shaped_node.mp ht
  have hheights : l'.height ≤ r'.height + 3 ∧ r'.height ≤ l'.height + 3 := by
    rcases hgrown with ⟨_, _, rfl⟩ | ⟨_, _, rfl⟩ <;> omega
  obtain ⟨hshaped, hjoined⟩ :=
    (balance_joined l' v r').shaped hl' hr' hheights.1 hheights.2
  refine ⟨hshaped, ?_⟩
  rw [JoinedHeight] at hjoined
  rcases hgrown with ⟨_, _, rfl⟩ | ⟨_, _, rfl⟩ <;> omega

/-- Putting a node together again with one child shrunk by at most one. -/
theorem shaped_shrunk [Inhabited V] {l l' r r' : Node V} {x : V} {h : ℕ}
    (ht : Shaped (node l r x h)) (hl' : Shaped l') (hr' : Shaped r')
    (hshrunk : l'.height ≤ l.height ∧ l.height ≤ l'.height + 1 ∧ r' = r
      ∨ r'.height ≤ r.height ∧ r.height ≤ r'.height + 1 ∧ l' = l) (v : V) :
    Shaped (balance l' v r') ∧ (balance l' v r').height ≤ h ∧ h ≤ (balance l' v r').height + 1 := by
  obtain ⟨hh, hlr, hrl, -, -⟩ := shaped_node.mp ht
  have hheights : l'.height ≤ r'.height + 3 ∧ r'.height ≤ l'.height + 3 := by
    rcases hshrunk with ⟨_, _, rfl⟩ | ⟨_, _, rfl⟩ <;> omega
  obtain ⟨hshaped, hjoined⟩ :=
    (balance_joined l' v r').shaped hl' hr' hheights.1 hheights.2
  refine ⟨hshaped, ?_⟩
  rw [JoinedHeight] at hjoined
  rcases hshrunk with ⟨_, _, rfl⟩ | ⟨_, _, rfl⟩ <;> omega

theorem shaped_popMin [Inhabited V] {t : Node V} (h : Shaped t) :
    Shaped t.popMin.2 ∧ t.popMin.2.height ≤ t.height ∧ t.height ≤ t.popMin.2.height + 1 := by
  induction t with
  | terminator => exact ⟨shaped_terminator, le_rfl, Nat.le_succ _⟩
  | node l r x height ihl ihr =>
    obtain ⟨hh, hlr, hrl, hl, hr⟩ := shaped_node.mp h
    rw [popMin]
    by_cases hleaf : l.isTerminator = true
    · obtain rfl := isTerminator_iff.mp hleaf
      rw [if_pos hleaf, height_node]
      rw [height_terminator] at hh hrl
      exact ⟨hr, (by omega : r.height ≤ height), (by omega : height ≤ r.height + 1)⟩
    · obtain ⟨hl', hle, hge⟩ := ihl hl
      rw [if_neg hleaf]
      exact shaped_shrunk h hl' hr (.inl ⟨hle, hge, rfl⟩) x

theorem shaped_popMax [Inhabited V] {t : Node V} (h : Shaped t) :
    Shaped t.popMax.2 ∧ t.popMax.2.height ≤ t.height ∧ t.height ≤ t.popMax.2.height + 1 := by
  induction t with
  | terminator => exact ⟨shaped_terminator, le_rfl, Nat.le_succ _⟩
  | node l r x height ihl ihr =>
    obtain ⟨hh, hlr, hrl, hl, hr⟩ := shaped_node.mp h
    rw [popMax]
    by_cases hleaf : r.isTerminator = true
    · obtain rfl := isTerminator_iff.mp hleaf
      rw [if_pos hleaf, height_node]
      rw [height_terminator] at hh hlr
      exact ⟨hl, (by omega : l.height ≤ height), (by omega : height ≤ l.height + 1)⟩
    · obtain ⟨hr', hle, hge⟩ := ihr hr
      rw [if_neg hleaf]
      exact shaped_shrunk h hl hr' (.inr ⟨hle, hge, rfl⟩) x

section Keyed

variable {K : Type u} [Inhabited V] [LinearOrder K] (keyOf : V → K)

theorem shaped_insert (v : V) {t : Node V} (h : Shaped t) :
    Shaped (t.insert keyOf v) ∧ t.height ≤ (t.insert keyOf v).height
      ∧ (t.insert keyOf v).height ≤ t.height + 1 := by
  induction t with
  | terminator =>
    exact ⟨shaped_new h h (Nat.zero_le _) (Nat.zero_le _), Nat.zero_le _, le_rfl⟩
  | node l r x height ihl ihr =>
    obtain ⟨hh, hlr, hrl, hl, hr⟩ := shaped_node.mp h
    rw [insert]
    split
    next =>
      obtain ⟨hl', hle, hge⟩ := ihl hl
      exact shaped_grown h hl' hr (.inl ⟨hle, hge, rfl⟩) x
    next =>
      split
      next =>
        obtain ⟨hr', hle, hge⟩ := ihr hr
        exact shaped_grown h hl hr' (.inr ⟨hle, hge, rfl⟩) x
      next => exact ⟨h, le_rfl, Nat.le_succ _⟩

theorem shaped_replace (v : V) {t : Node V} (h : Shaped t) :
    Shaped (t.replace keyOf v) ∧ t.height ≤ (t.replace keyOf v).height
      ∧ (t.replace keyOf v).height ≤ t.height + 1 := by
  induction t with
  | terminator =>
    exact ⟨shaped_new h h (Nat.zero_le _) (Nat.zero_le _), Nat.zero_le _, le_rfl⟩
  | node l r x height ihl ihr =>
    obtain ⟨hh, hlr, hrl, hl, hr⟩ := shaped_node.mp h
    rw [replace]
    split
    next =>
      obtain ⟨hl', hle, hge⟩ := ihl hl
      exact shaped_grown h hl' hr (.inl ⟨hle, hge, rfl⟩) x
    next =>
      split
      next =>
        obtain ⟨hr', hle, hge⟩ := ihr hr
        exact shaped_grown h hl hr' (.inr ⟨hle, hge, rfl⟩) x
      next =>
        rw [height_new, height_node, ← hh]
        exact ⟨shaped_new hl hr hlr hrl, le_rfl, Nat.le_succ _⟩

theorem shaped_remove (k : K) {t : Node V} (h : Shaped t) :
    Shaped (t.remove keyOf k) ∧ (t.remove keyOf k).height ≤ t.height
      ∧ t.height ≤ (t.remove keyOf k).height + 1 := by
  induction t with
  | terminator => exact ⟨h, le_rfl, Nat.le_succ _⟩
  | node l r x height ihl ihr =>
    obtain ⟨hh, hlr, hrl, hl, hr⟩ := shaped_node.mp h
    rw [remove]
    split
    next =>
      obtain ⟨hl', hle, hge⟩ := ihl hl
      exact shaped_shrunk h hl' hr (.inl ⟨hle, hge, rfl⟩) x
    next =>
      split
      next =>
        obtain ⟨hr', hle, hge⟩ := ihr hr
        exact shaped_shrunk h hl hr' (.inr ⟨hle, hge, rfl⟩) x
      next =>
        split
        next hleaf =>
          obtain rfl := isTerminator_iff.mp hleaf
          rw [height_node]
          rw [height_terminator] at hh hrl
          exact ⟨hr, by omega, by omega⟩
        next =>
          split
          next hleaf =>
            obtain rfl := isTerminator_iff.mp hleaf
            rw [height_node]
            rw [height_terminator] at hh hlr
            exact ⟨hl, by omega, by omega⟩
          next =>
            obtain ⟨hr', hle, hge⟩ := shaped_popMin hr
            exact shaped_shrunk h hl hr' (.inr ⟨hle, hge, rfl⟩) _

end Keyed

end Shape

/-! ## Contents -/

section Contents

variable {V : Type v}

/-- The entries from left to right. -/
def toList : Node V → List V
  | terminator => []
  | node left right value _ => left.toList ++ value :: right.toList

theorem toList_new (l r : Node V) (v : V) : (new l r v).toList = l.toList ++ v :: r.toList := rfl

/-- A rotation keeps the entries in order. -/
theorem Joined.toList {l r t : Node V} {v : V} (h : Joined l v r t) :
    t.toList = l.toList ++ v :: r.toList := by
  cases h <;> simp only [toList_new, Node.toList, List.append_assoc, List.cons_append]

variable [Inhabited V]

theorem toList_balance (l : Node V) (v : V) (r : Node V) :
    (balance l v r).toList = l.toList ++ v :: r.toList :=
  (balance_joined l v r).toList

/-- `popMin` takes the first entry. -/
theorem toList_popMin {t : Node V} (h : t ≠ terminator) :
    t.toList = t.popMin.1 :: t.popMin.2.toList := by
  induction t with
  | terminator => exact absurd rfl h
  | node l r x height ihl ihr =>
    rw [popMin, toList]
    by_cases hleaf : l.isTerminator = true
    · obtain rfl := isTerminator_iff.mp hleaf
      rw [if_pos hleaf]
      rfl
    · have hl : l ≠ terminator := fun heq => hleaf (isTerminator_iff.mpr heq)
      rw [if_neg hleaf, toList_balance, ihl hl, List.cons_append]

/-- `popMax` takes the last entry. -/
theorem toList_popMax {t : Node V} (h : t ≠ terminator) :
    t.toList = t.popMax.2.toList ++ [t.popMax.1] := by
  induction t with
  | terminator => exact absurd rfl h
  | node l r x height ihl ihr =>
    rw [popMax, toList]
    by_cases hleaf : r.isTerminator = true
    · obtain rfl := isTerminator_iff.mp hleaf
      rw [if_pos hleaf]
      rfl
    · have hr : r ≠ terminator := fun heq => hleaf (isTerminator_iff.mpr heq)
      rw [if_neg hleaf, toList_balance, List.append_assoc, List.cons_append, ← ihr hr]

section Keyed

open KeyedList

variable {K : Type u} [LinearOrder K] {keyOf : V → K}

theorem toList_insert (v : V) {t : Node V} (h : Sorted keyOf t.toList) :
    (t.insert keyOf v).toList = alter keyOf (keyOf v) (fun o => o.or (some v)) t.toList := by
  induction t with
  | terminator => rfl
  | node l r x height ihl ihr =>
    obtain ⟨hl, hxr, hlxr⟩ := sorted_append.mp h
    obtain ⟨hx, hr⟩ := sorted_cons.mp hxr
    have hlx : ∀ y ∈ l.toList, keyOf y < keyOf x := fun y hy => hlxr y hy x List.mem_cons_self
    rw [insert, toList]
    split
    next hlt => rw [toList_balance, ihl hl, alter_append_lt _ hlt]
    next hlt =>
      split
      next hgt => rw [toList_balance, ihr hr, alter_append_gt _ hlx hgt]
      next hgt =>
        have hkey : keyOf x = keyOf v := le_antisymm (not_lt.mp hlt) (not_lt.mp hgt)
        rw [alter_append_eq _ hlx hkey]
        rfl

theorem toList_replace (v : V) {t : Node V} (h : Sorted keyOf t.toList) :
    (t.replace keyOf v).toList = alter keyOf (keyOf v) (fun _ => some v) t.toList := by
  induction t with
  | terminator => rfl
  | node l r x height ihl ihr =>
    obtain ⟨hl, hxr, hlxr⟩ := sorted_append.mp h
    obtain ⟨hx, hr⟩ := sorted_cons.mp hxr
    have hlx : ∀ y ∈ l.toList, keyOf y < keyOf x := fun y hy => hlxr y hy x List.mem_cons_self
    rw [replace, toList]
    split
    next hlt => rw [toList_balance, ihl hl, alter_append_lt _ hlt]
    next hlt =>
      split
      next hgt => rw [toList_balance, ihr hr, alter_append_gt _ hlx hgt]
      next hgt =>
        have hkey : keyOf x = keyOf v := le_antisymm (not_lt.mp hlt) (not_lt.mp hgt)
        rw [alter_append_eq _ hlx hkey]
        rfl

theorem toList_remove (k : K) {t : Node V} (h : Sorted keyOf t.toList) :
    (t.remove keyOf k).toList = alter keyOf k (fun _ => none) t.toList := by
  induction t with
  | terminator => rfl
  | node l r x height ihl ihr =>
    obtain ⟨hl, hxr, hlxr⟩ := sorted_append.mp h
    obtain ⟨hx, hr⟩ := sorted_cons.mp hxr
    have hlx : ∀ y ∈ l.toList, keyOf y < keyOf x := fun y hy => hlxr y hy x List.mem_cons_self
    rw [remove, toList]
    split
    next hlt => rw [toList_balance, ihl hl, alter_append_lt _ hlt]
    next hlt =>
      split
      next hgt => rw [toList_balance, ihr hr, alter_append_gt _ hlx hgt]
      next hgt =>
        have hkey : keyOf x = k := le_antisymm (not_lt.mp hlt) (not_lt.mp hgt)
        rw [alter_append_eq _ hlx hkey, Option.toList_none, List.nil_append]
        split
        next hleaf =>
          obtain rfl := isTerminator_iff.mp hleaf
          rfl
        next =>
          split
          next hleaf =>
            obtain rfl := isTerminator_iff.mp hleaf
            rw [toList, List.append_nil]
          next hleaf =>
            have hr' : r ≠ terminator := fun heq => hleaf (isTerminator_iff.mpr heq)
            rw [toList_balance, ← toList_popMin hr']

end Keyed

end Contents

/-! ## Lookups -/

section Lookups

open KeyedList

variable {K : Type u} {V : Type v} [LinearOrder K] {keyOf : V → K}

theorem lookup_eq (k : K) {t : Node V} (h : Sorted keyOf t.toList) :
    t.lookup keyOf k = toMap keyOf t.toList k := by
  induction t with
  | terminator => rfl
  | node l r x height ihl ihr =>
    obtain ⟨hl, hxr, hlxr⟩ := sorted_append.mp h
    obtain ⟨hx, hr⟩ := sorted_cons.mp hxr
    have hlx : ∀ y ∈ l.toList, keyOf y < keyOf x := fun y hy => hlxr y hy x List.mem_cons_self
    rw [lookup, toList, toMap_append, toMap_cons]
    split
    next hlt =>
      have hnone : toMap keyOf r.toList k = none :=
        toMap_eq_none_of_lt fun y hy => hlt.trans (hx y hy)
      rw [ihl hl, if_neg hlt.ne', hnone, Option.or_none]
    next hlt =>
      have hnone : toMap keyOf l.toList k = none :=
        toMap_eq_none fun y hy => ((hlx y hy).trans_le (not_lt.mp hlt)).ne
      rw [hnone, Option.none_or]
      split
      next hgt => rw [ihr hr, if_neg hgt.ne]
      next hgt => rw [if_pos (le_antisymm (not_lt.mp hlt) (not_lt.mp hgt))]

theorem lookupPreviousFrom_eq (k : K) {t : Node V} (h : Sorted keyOf t.toList)
    (result : Option V) :
    t.lookupPreviousFrom keyOf k result = (previous keyOf k t.toList).or result := by
  induction t generalizing result with
  | terminator => rfl
  | node l r x height ihl ihr =>
    obtain ⟨hl, hxr, hlxr⟩ := sorted_append.mp h
    obtain ⟨hx, hr⟩ := sorted_cons.mp hxr
    rw [lookupPreviousFrom, toList]
    split
    next hlt => rw [ihl hl, previous_append_lt hlt fun y hy => hlt.trans (hx y hy)]
    next hlt =>
      split
      next hgt => rw [ihr hr, previous_append_ge hgt.le, Option.or_assoc, Option.some_or]
      next hgt =>
        have hkey : keyOf x = k := le_antisymm (not_lt.mp hlt) (not_lt.mp hgt)
        have hnone : previous keyOf k r.toList = none :=
          previous_eq_none.mpr fun y hy => hkey ▸ hx y hy
        rw [previous_append_ge hkey.le, hnone, Option.none_or, Option.some_or]

theorem lookupPrevious_eq (k : K) {t : Node V} (h : Sorted keyOf t.toList) :
    t.lookupPrevious keyOf k = previous keyOf k t.toList := by
  rw [lookupPrevious, lookupPreviousFrom_eq k h, Option.or_none]

theorem min_eq (t : Node V) : t.min = t.toList.head? := by
  induction t with
  | terminator => rfl
  | node l r x height ihl ihr =>
    rw [Node.min, toList, ihl, List.head?_append]
    cases l with
    | terminator => rfl
    | node ll lr lv lh =>
      rw [if_neg (by simp [isTerminator]), toList]
      cases ll.toList <;> rfl

theorem max_eq (t : Node V) : t.max = t.toList.getLast? := by
  induction t with
  | terminator => rfl
  | node l r x height ihl ihr =>
    rw [Node.max, toList, ihr, List.getLast?_append, List.getLast?_cons]
    cases r with
    | terminator => rfl
    | node rl rr rv rh =>
      rw [if_neg (by simp [isTerminator]), toList]
      cases h : (rl.toList ++ rv :: rr.toList).getLast? with
      | none => simp at h
      | some y => rfl

end Lookups

end Node

/-! ## Versions -/

/-- The operations that build a new tree. -/
inductive TreeOp (K : Type u) (V : Type v)
  | insert (value : V)
  | replace (value : V)
  | remove (key : K)
  | popMin
  | popMax
deriving DecidableEq

section Versions

open KeyedList

variable {K : Type u} {V : Type v} [LinearOrder K] (keyOf : V → K)

/-- The tree is a balanced search tree that stands for the map. -/
structure Node.Represents (t : Node V) (m : K → Option V) : Prop where
  ordered : Sorted keyOf t.toList
  shaped : t.Shaped
  contents : toMap keyOf t.toList = m

theorem represents_terminator : Node.Represents keyOf (.terminator : Node V) fun _ => none where
  ordered := .nil
  shaped := Node.shaped_terminator
  contents := rfl

theorem Node.Represents.alter {keyOf : V → K} {t t' : Node V} {m : K → Option V} (h : t.Represents keyOf m)
    {k : K} {f : Option V → Option V} (hf : KeepsKey keyOf k f) (hshaped : t'.Shaped)
    (hlist : t'.toList = KeyedList.alter keyOf k f t.toList) :
    t'.Represents keyOf (Function.update m k (f (m k))) where
  ordered := hlist ▸ sorted_alter hf h.ordered
  shaped := hshaped
  contents := by rw [hlist, toMap_alter hf h.ordered, h.contents]

/-- What is observed of a tree that stands for a map. -/
structure Node.Observed (t : Node V) (m : K → Option V) : Prop where
  ordered : Sorted keyOf t.toList
  heights : t.HeightsCorrect
  balanced : t.Balanced
  entries : ∀ v, v ∈ t.toList ↔ m (keyOf v) = some v
  lookup : ∀ k, t.lookup keyOf k = m k
  previous : ∀ k v, t.lookupPrevious keyOf k = some v
    ↔ m (keyOf v) = some v ∧ keyOf v ≤ k ∧ ∀ k' ≤ k, m k' ≠ none → k' ≤ keyOf v
  noPrevious : ∀ k, t.lookupPrevious keyOf k = none ↔ ∀ k' ≤ k, m k' = none
  min : t.min = extreme keyOf (· ≤ ·) m
  max : t.max = extreme keyOf (· ≥ ·) m

theorem Node.Represents.observed {keyOf : V → K} {t : Node V} {m : K → Option V} (h : t.Represents keyOf m) :
    t.Observed keyOf m := by
  obtain ⟨hordered, hshaped, rfl⟩ := h
  have hkeys : ∀ P : K → Prop, (∀ k, toMap keyOf t.toList k ≠ none → P k)
      ↔ ∀ y ∈ t.toList, P (keyOf y) := by
    intro P
    simp only [toMap_ne_none]
    exact ⟨fun h y hy => h _ ⟨y, hy, rfl⟩, fun h k ⟨y, hy, heq⟩ => heq ▸ h y hy⟩
  constructor
  · exact hordered
  · exact hshaped.heights
  · exact hshaped.balanced
  · exact fun v => (toMap_keyOf hordered).symm
  · exact fun k => lookup_eq k hordered
  · intro k v
    have hbelow := hkeys fun k' => k' ≤ k → k' ≤ keyOf v
    rw [lookupPrevious_eq k hordered, previous_eq_some hordered, toMap_keyOf hordered, ← hbelow]
    exact and_congr_right fun _ => and_congr_right fun _ =>
      forall_congr' fun k' => ⟨fun h hle hne => h hne hle, fun h hne hle => h hle hne⟩
  · intro k
    have hbelow := hkeys fun k' => ¬k' ≤ k
    simp only [not_le] at hbelow
    rw [lookupPrevious_eq k hordered, previous_eq_none, ← hbelow]
    refine forall_congr' fun k' => ?_
    rw [← not_le, ← not_imp_not, not_not, not_not]
  · rw [min_eq, head?_eq_extreme hordered]
  · rw [max_eq, getLast?_eq_extreme hordered]

variable [Inhabited V]

namespace Node

/-- One operation on a tree: what it puts into `valueOut`, and the new tree. -/
def apply (t : Node V) : TreeOp K V → Option V × Node V
  | .insert value => (none, t.insert keyOf value)
  | .replace value => (none, t.replace keyOf value)
  | .remove key => (none, t.remove keyOf key)
  | .popMin => let (valueOut, t) := t.popMin; (some valueOut, t)
  | .popMax => let (valueOut, t) := t.popMax; (some valueOut, t)

end Node

/-- Take the entry whose key comes first for `r` out of a map. -/
noncomputable def popExtreme (r : K → K → Prop) (m : K → Option V) : Option V × (K → Option V) :=
  match extreme keyOf r m with
  | some v => (some v, Function.update m (keyOf v) none)
  | none => (some default, m)

/-- The operations on finite maps. Insertion does not overwrite. -/
noncomputable def applyMap (m : K → Option V) : TreeOp K V → Option V × (K → Option V)
  | .insert value =>
      (none, Function.update m (keyOf value) ((m (keyOf value)).or (some value)))
  | .replace value => (none, Function.update m (keyOf value) (some value))
  | .remove key => (none, Function.update m key none)
  | .popMin => popExtreme keyOf (· ≤ ·) m
  | .popMax => popExtreme keyOf (· ≥ ·) m

variable {keyOf}

/-- A pop of the entry whose key comes first takes it out of the map. -/
theorem Node.Represents.pop {t : Node V} {m : K → Option V} (h : t.Represents keyOf m)
    {popped : V × Node V} {r : K → K → Prop} (hempty : t = terminator → popped = (default, t))
    (hshaped : popped.2.Shaped)
    (hpop : t ≠ terminator → Sorted keyOf popped.2.toList
      ∧ extreme keyOf r (toMap keyOf t.toList) = some popped.1
      ∧ toMap keyOf popped.2.toList
        = Function.update (toMap keyOf t.toList) (keyOf popped.1) none) :
    some popped.1 = (popExtreme keyOf r m).1
      ∧ popped.2.Represents keyOf (popExtreme keyOf r m).2 := by
  rw [popExtreme]
  by_cases ht : t = terminator
  · have hm : m = fun _ => none := by
      rw [← h.contents, ht]
      rfl
    rw [hempty ht, hm, extreme_empty]
    exact ⟨rfl, hm ▸ h⟩
  · obtain ⟨hordered, hextreme, hmap⟩ := hpop ht
    rw [h.contents] at hextreme hmap
    rw [hextreme]
    exact ⟨rfl, hordered, hshaped, hmap⟩

/-- One operation on a tree is the operation on its map. -/
theorem represents_apply (t : Node V) (m : K → Option V) (op : TreeOp K V)
    (h : t.Represents keyOf m) :
    (t.apply keyOf op).1 = (applyMap keyOf m op).1
      ∧ (t.apply keyOf op).2.Represents keyOf (applyMap keyOf m op).2 := by
  cases op with
  | insert v =>
    refine ⟨rfl, h.alter (f := fun o => o.or (some v)) ?_ (Node.shaped_insert keyOf v h.shaped).1
      (Node.toList_insert v h.ordered)⟩
    intro o ho w hw
    cases o with
    | none => rw [← Option.some.inj hw]
    | some y => exact ho w hw
  | replace v =>
    refine ⟨rfl, h.alter (f := fun _ => some v) ?_ (Node.shaped_replace keyOf v h.shaped).1
      (Node.toList_replace v h.ordered)⟩
    intro o ho w hw
    rw [← Option.some.inj hw]
  | remove k =>
    refine ⟨rfl, h.alter (f := fun _ => none) ?_ (Node.shaped_remove keyOf k h.shaped).1
      (Node.toList_remove k h.ordered)⟩
    exact fun o ho w hw => absurd hw (by simp)
  | popMin =>
    refine h.pop (fun ht => ht ▸ rfl) (Node.shaped_popMin h.shaped).1 fun ht => ?_
    have hlist := Node.toList_popMin ht
    have hsorted := h.ordered
    rw [hlist] at hsorted ⊢
    exact ⟨(sorted_cons.mp hsorted).2, extreme_cons hsorted, toMap_tail hsorted⟩
  | popMax =>
    refine h.pop (fun ht => ht ▸ rfl) (Node.shaped_popMax h.shaped).1 fun ht => ?_
    have hlist := Node.toList_popMax ht
    have hsorted := h.ordered
    rw [hlist] at hsorted ⊢
    exact ⟨(sorted_append.mp hsorted).1, extreme_snoc hsorted, toMap_init hsorted⟩

variable (keyOf)

/-- `ImmutableTree` under any operations on any versions: every version is a balanced
search tree with correct heights that stands for its map, the pops return what they
should, and later operations change no version. -/
theorem versions_observed (calls more : List (ℕ × TreeOp K V)) :
    List.Forall₂ (Node.Observed keyOf)
        (run (stepVersion (Node.apply keyOf) .terminator) [] calls).2
        (run (stepVersion (applyMap keyOf) fun _ => none) [] calls).2
      ∧ (run (stepVersion (Node.apply keyOf) .terminator) [] calls).1
        = (run (stepVersion (applyMap keyOf) fun _ => none) [] calls).1
      ∧ (run (stepVersion (Node.apply keyOf) .terminator) [] calls).2
        <+: (run (stepVersion (Node.apply keyOf) .terminator) [] (calls ++ more)).2 := by
  have hstep := stepVersion_simulates Eq (represents_terminator keyOf) represents_apply
  obtain ⟨hanswers, hversions⟩ := run_simulates Eq (fun s t c hrel _ => hstep s t c hrel)
    List.Forall₂.nil (allSteps_of_forall (P := fun _ => True) [] fun _ _ => trivial)
  refine ⟨hversions.imp fun _ _ h => h.observed, List.forall₂_eq_eq_eq ▸ hanswers, ?_⟩
  rw [run_append]
  exact run_stepVersion_prefix _ _ _ _

end Versions

end Xklee
