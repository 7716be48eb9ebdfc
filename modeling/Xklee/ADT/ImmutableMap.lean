/-
Persistent maps: `include/klee/Internal/ADT/ImmutableMap.h`.

A map is a tree of pairs that are ordered by their first component. The order and the
balance of the tree are part of the type.
-/
import Xklee.ADT.ImmutableTree

set_option autoImplicit false

universe u v

namespace Xklee

open KeyedList

/-- `ImmutableMap<K, D>`. -/
structure ImmutableMap (K : Type u) (D : Type v) [LinearOrder K] where
  elts : Node (K × D)
  ordered : Sorted Prod.fst elts.toList
  shaped : elts.Shaped

namespace ImmutableMap

variable {K : Type u} {D : Type v} [LinearOrder K]

def empty : ImmutableMap K D where
  elts := .terminator
  ordered := .nil
  shaped := Node.shaped_terminator

/-- The second component of what `lookup(key)` points to. -/
def lookup (m : ImmutableMap K D) (key : K) : Option D :=
  (m.elts.lookup Prod.fst key).map Prod.snd

variable [Inhabited K] [Inhabited D]

/-- An operation on the tree that stands for an operation on its map. -/
def apply (m : ImmutableMap K D) (op : TreeOp K (K × D)) : ImmutableMap K D where
  elts := (m.elts.apply Prod.fst op).2
  ordered := (represents_apply m.elts _ op ⟨m.ordered, m.shaped, rfl⟩).2.ordered
  shaped := (represents_apply m.elts _ op ⟨m.ordered, m.shaped, rfl⟩).2.shaped

def replace (m : ImmutableMap K D) (value : K × D) : ImmutableMap K D := m.apply (.replace value)

def remove (m : ImmutableMap K D) (key : K) : ImmutableMap K D := m.apply (.remove key)

omit [Inhabited K] [Inhabited D] in
theorem lookup_empty (key : K) : (empty : ImmutableMap K D).lookup key = none := rfl

/-- Lookups after an operation are lookups in the changed map. -/
theorem lookup_apply (m : ImmutableMap K D) (op : TreeOp K (K × D)) (key : K) :
    (m.apply op).lookup key
      = ((applyMap Prod.fst (toMap Prod.fst m.elts.toList) op).2 key).map Prod.snd := by
  have h := (represents_apply m.elts _ op ⟨m.ordered, m.shaped, rfl⟩).2
  rw [lookup, Node.lookup_eq key (m.apply op).ordered]
  exact congrArg (fun map => (map key).map Prod.snd) h.contents

theorem lookup_replace (m : ImmutableMap K D) (key : K) (d : D) :
    (m.replace (key, d)).lookup = Function.update m.lookup key (some d) := by
  funext key'
  rw [replace, lookup_apply]
  change (Function.update (toMap Prod.fst m.elts.toList) key (some (key, d)) key').map Prod.snd = _
  by_cases h : key' = key
  · subst h
    rw [Function.update_self, Function.update_self]
    rfl
  · rw [Function.update_of_ne h, Function.update_of_ne h, lookup, Node.lookup_eq key' m.ordered]

theorem lookup_remove (m : ImmutableMap K D) (key : K) :
    (m.remove key).lookup = Function.update m.lookup key none := by
  funext key'
  rw [remove, lookup_apply]
  change (Function.update (toMap Prod.fst m.elts.toList) key none key').map Prod.snd = _
  by_cases h : key' = key
  · subst h
    rw [Function.update_self, Function.update_self]
    rfl
  · rw [Function.update_of_ne h, Function.update_of_ne h, lookup, Node.lookup_eq key' m.ordered]

end ImmutableMap

end Xklee
