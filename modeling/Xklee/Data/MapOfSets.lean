/-
Maps from sets to values with subset and superset queries.

The structure is a UBTree: a set is the path of its elements in ascending order,
and a node carries a value when a set ends there. Children are kept in ascending
order of their keys. A query walks the tree and the sorted elements of the given
set together; it skips branches, so that it may miss a set, but whatever it
returns is stored under a subset, or a superset, of the given set.
-/
import Mathlib.Order.Lattice
import Mathlib.Order.Defs.LinearOrder
import Mathlib.Data.List.Basic

set_option autoImplicit false

universe u v

mutual

/-- A node: the value of the set that ends here, if one does, and the children. -/
inductive MapOfSets (K : Type u) (V : Type v) where
  | node (value : Option V) (children : MapOfSets.Children K V)

/-- Children in ascending order of their keys. -/
inductive MapOfSets.Children (K : Type u) (V : Type v) where
  | nil
  | cons (key : K) (node : MapOfSets K V) (rest : MapOfSets.Children K V)

end

namespace MapOfSets

variable {K : Type u} {V : Type v}

/-- The map with no set in it. -/
def empty : MapOfSets K V := .node none .nil

/-- Induction over a list of children. -/
@[elab_as_elim]
theorem Children.restInduction {motive : Children K V → Prop} (nil : motive .nil)
    (cons : ∀ k n rest, motive rest → motive (.cons k n rest)) (children : Children K V) :
    motive children :=
  @Children.rec K V (fun _ => True) motive (fun _ _ _ => trivial) nil
    (fun k n rest _ ih => cons k n rest ih) children

/-- Induction over the nodes and the children of a tree. -/
theorem treeInduction {motive : MapOfSets K V → Prop} {motive' : Children K V → Prop}
    (node : ∀ value children, motive' children → motive (.node value children))
    (nil : motive' .nil)
    (cons : ∀ k n rest, motive n → motive' rest → motive' (.cons k n rest)) :
    (∀ n, motive n) ∧ ∀ children, motive' children :=
  ⟨fun n => @MapOfSets.rec K V motive motive' node nil cons n,
    fun children => @Children.rec K V motive motive' node nil cons children⟩

mutual

/-- A value is stored at the end of a path. -/
def Stored : MapOfSets K V → List K → V → Prop
  | .node value _, [], v => value = some v
  | .node _ children, k :: path, v => children.Stored k path v

def Children.Stored : Children K V → K → List K → V → Prop
  | .nil, _, _, _ => False
  | .cons k' n rest, k, path, v => (k' = k ∧ n.Stored path v) ∨ rest.Stored k path v

end

theorem not_stored_empty (path : List K) (v : V) : ¬(empty : MapOfSets K V).Stored path v := by
  cases path with
  | nil => exact fun h : (none : Option V) = some v => absurd h (by simp)
  | cons k path => exact fun h => h

variable [LinearOrder K]

/-! ## Operations -/

/-- Change the child of a key, made empty first when there is none. -/
def Children.modify (k : K) (f : MapOfSets K V → MapOfSets K V) : Children K V → Children K V
  | .nil => .cons k (f empty) .nil
  | .cons k' n rest =>
      if k < k' then .cons k (f empty) (.cons k' n rest)
      else if k' = k then .cons k' (f n) rest
      else .cons k' n (rest.modify k f)

/-- Store a value under the set with the given elements in ascending order. -/
def insert : MapOfSets K V → List K → V → MapOfSets K V
  | .node _ children, [], v => .node (some v) children
  | .node value children, k :: set, v =>
      .node value (children.modify k (fun n => n.insert set v))

/-- The child of a key. -/
def Children.find : Children K V → K → Option (MapOfSets K V)
  | .nil, _ => none
  | .cons k' n rest, k => if k' = k then some n else rest.find k

/-- The value stored under exactly this set. -/
def lookup : MapOfSets K V → List K → Option V
  | .node value _, [] => value
  | .node _ children, k :: set =>
      match children.find k with
      | some n => n.lookup set
      | none => none

mutual

/-- A value with the property `p` under a superset of the set. -/
def findSuperset (p : V → Bool) : MapOfSets K V → List K → Option V
  | .node value children, [] =>
      match value.filter p with
      | some v => some v
      | none => children.findSupersetAll p []
  | .node _ children, k :: set =>
      match children.findSupersetAll p (k :: set) with
      | some v => some v
      | none => children.findSupersetAt p k set

/-- The loop over all children. -/
def Children.findSupersetAll (p : V → Bool) : Children K V → List K → Option V
  | .nil, _ => none
  | .cons _ n rest, set =>
      match n.findSuperset p set with
      | some v => some v
      | none => rest.findSupersetAll p set

/-- The child at `lower_bound(k)`, if it has the key `k`. -/
def Children.findSupersetAt (p : V → Bool) : Children K V → K → List K → Option V
  | .nil, _, _ => none
  | .cons k' n rest, k, set =>
      if k' < k then rest.findSupersetAt p k set
      else if k' = k then n.findSuperset p set
      else none

end

mutual

/-- A value with the property `p` under a subset of the set. -/
def findSubset (p : V → Bool) : MapOfSets K V → List K → Option V
  | .node value children, set =>
      match value.filter p with
      | some v => some v
      | none => if set = [] then none else children.findSubset p set

/-- The loop that advances through the children and the set. -/
def Children.findSubset (p : V → Bool) : Children K V → List K → Option V
  | .nil, _ => none
  | .cons k n rest, set =>
      match set.dropWhile (· < k) with
      | [] => none
      | x :: set' =>
          if x = k then
            match n.findSubset p set' with
            | some v => some v
            | none => if set' = [] then none else rest.findSubset p set'
          else rest.findSubset p (x :: set')

end

/-! ## What the operations return is stored -/

variable {children : Children K V} {path set : List K} {v : V} {k : K} {m : MapOfSets K V}
  {p : V → Bool}

/-- Changing the child of `k` leaves the other children alone. -/
theorem Children.stored_modify {f : MapOfSets K V → MapOfSets K V} {k' : K}
    (h : (children.modify k f).Stored k' path v) :
    children.Stored k' path v
      ∨ k' = k ∧ ∃ n, (n = empty ∨ ∀ path v, n.Stored path v → children.Stored k path v)
        ∧ (f n).Stored path v := by
  induction children using Children.restInduction with
  | nil =>
    rcases h with ⟨rfl, h⟩ | h
    · exact .inr ⟨rfl, empty, .inl rfl, h⟩
    · exact .inl h
  | cons k'' n rest ih =>
    rw [Children.modify] at h
    split at h
    next =>
      rcases h with ⟨rfl, h⟩ | h
      · exact .inr ⟨rfl, empty, .inl rfl, h⟩
      · exact .inl h
    next =>
      split at h
      next heq =>
        subst heq
        rcases h with ⟨rfl, h⟩ | h
        · exact .inr ⟨rfl, n, .inr (fun path v hn => .inl ⟨rfl, hn⟩), h⟩
        · exact .inl (.inr h)
      next =>
        rcases h with h | h
        · exact .inl (.inl h)
        · rcases ih h with h | ⟨hk, n', hn', h⟩
          · exact .inl (.inr h)
          · exact .inr ⟨hk, n', hn'.imp_right (fun hn' path v hs => .inr (hn' path v hs)), h⟩

/-- `insert` adds one set. -/
theorem stored_insert {v' : V} (h : (m.insert set v).Stored path v') :
    (path = set ∧ v' = v) ∨ m.Stored path v' := by
  induction set generalizing m path with
  | nil =>
    obtain ⟨value, children⟩ := m
    cases path with
    | nil => exact .inl ⟨rfl, (Option.some.inj h).symm⟩
    | cons k path => exact .inr h
  | cons k set ih =>
    obtain ⟨value, children⟩ := m
    cases path with
    | nil => exact .inr h
    | cons k' path =>
      rcases Children.stored_modify h with h | ⟨rfl, n, hn, h⟩
      · exact .inr h
      · rcases ih h with ⟨rfl, rfl⟩ | h
        · exact .inl ⟨rfl, rfl⟩
        · rcases hn with rfl | hn
          · exact absurd h (not_stored_empty _ _)
          · exact .inr (hn _ _ h)

theorem Children.stored_of_find {n : MapOfSets K V} (h : children.find k = some n)
    (hn : n.Stored path v) :
    children.Stored k path v := by
  induction children using Children.restInduction with
  | nil => exact absurd h (by simp [Children.find])
  | cons k' n' rest ih =>
    rw [Children.find] at h
    split at h
    next heq =>
      obtain rfl := Option.some.inj h
      exact .inl ⟨heq, hn⟩
    next => exact .inr (ih h)

theorem stored_of_lookup (h : m.lookup set = some v) :
    m.Stored set v := by
  induction set generalizing m with
  | nil =>
    obtain ⟨value, children⟩ := m
    exact h
  | cons k set ih =>
    obtain ⟨value, children⟩ := m
    rw [lookup] at h
    split at h
    next n hn => exact Children.stored_of_find hn (ih h)
    next => exact absurd h (by simp)

theorem eq_some_of_filter {value : Option V} (h : value.filter p = some v) :
    value = some v ∧ p v = true :=
  Option.filter_eq_some_iff.mp h

/-- `findSuperset` finds a superset. -/
theorem stored_of_findSuperset (h : m.findSuperset p set = some v) :
    p v = true ∧ ∃ path, m.Stored path v ∧ set ⊆ path := by
  have htree := @treeInduction K V
    (fun m : MapOfSets K V => ∀ set v, m.findSuperset p set = some v →
      p v = true ∧ ∃ path, m.Stored path v ∧ set ⊆ path)
    (fun children : Children K V =>
      (∀ set v, children.findSupersetAll p set = some v →
        p v = true ∧ ∃ k path, children.Stored k path v ∧ set ⊆ path)
      ∧ ∀ k set v, children.findSupersetAt p k set = some v →
        p v = true ∧ ∃ path, children.Stored k path v ∧ set ⊆ path)
    ?_ ?_ ?_
  · exact htree.1 m set v h
  · rintro value children ⟨hall, hat⟩ set v h
    cases set with
    | nil =>
      rw [findSuperset] at h
      split at h
      next hv =>
        obtain rfl := Option.some.inj h
        obtain ⟨rfl, hp⟩ := eq_some_of_filter hv
        exact ⟨hp, [], rfl, List.Subset.refl _⟩
      next =>
        obtain ⟨hp, k, path, hs, -⟩ := hall _ _ h
        exact ⟨hp, k :: path, hs, List.nil_subset _⟩
    | cons k set =>
      rw [findSuperset] at h
      split at h
      next hv =>
        obtain rfl := Option.some.inj h
        obtain ⟨hp, k', path, hs, hsub⟩ := hall _ _ hv
        exact ⟨hp, k' :: path, hs, fun x hx => List.mem_cons_of_mem _ (hsub hx)⟩
      next =>
        obtain ⟨hp, path, hs, hsub⟩ := hat _ _ _ h
        exact ⟨hp, k :: path, hs, List.cons_subset_cons k hsub⟩
  · exact ⟨fun set v h => absurd h (by simp [Children.findSupersetAll]),
      fun k set v h => absurd h (by simp [Children.findSupersetAt])⟩
  · rintro k n rest ihn ⟨ihall, ihat⟩
    constructor
    · intro set v h
      rw [Children.findSupersetAll] at h
      split at h
      next hv =>
        obtain rfl := Option.some.inj h
        obtain ⟨hp, path, hs, hsub⟩ := ihn _ _ hv
        exact ⟨hp, k, path, .inl ⟨rfl, hs⟩, hsub⟩
      next =>
        obtain ⟨hp, k', path, hs, hsub⟩ := ihall _ _ h
        exact ⟨hp, k', path, .inr hs, hsub⟩
    · intro k' set v h
      rw [Children.findSupersetAt] at h
      split at h
      next =>
        obtain ⟨hp, path, hs, hsub⟩ := ihat _ _ _ h
        exact ⟨hp, path, .inr hs, hsub⟩
      next =>
        split at h
        next heq =>
          obtain ⟨hp, path, hs, hsub⟩ := ihn _ _ h
          exact ⟨hp, path, .inl ⟨heq, hs⟩, hsub⟩
        next => exact absurd h (by simp)

/-- `findSubset` finds a subset. -/
theorem stored_of_findSubset (h : m.findSubset p set = some v) :
    p v = true ∧ ∃ path, m.Stored path v ∧ path ⊆ set := by
  have htree := @treeInduction K V
    (fun m : MapOfSets K V => ∀ set v, m.findSubset p set = some v →
      p v = true ∧ ∃ path, m.Stored path v ∧ path ⊆ set)
    (fun children : Children K V => ∀ set v, children.findSubset p set = some v →
        p v = true ∧ ∃ k path, children.Stored k path v ∧ k :: path ⊆ set)
    ?_ ?_ ?_
  · exact htree.1 m set v h
  · intro value children ih set v h
    rw [findSubset] at h
    split at h
    next hv =>
      obtain rfl := Option.some.inj h
      obtain ⟨rfl, hp⟩ := eq_some_of_filter hv
      exact ⟨hp, [], rfl, List.nil_subset _⟩
    next =>
      split at h
      next => exact absurd h (by simp)
      next =>
        obtain ⟨hp, k, path, hs, hsub⟩ := ih _ _ h
        exact ⟨hp, k :: path, hs, hsub⟩
  · exact fun set v h => absurd h (by simp [Children.findSubset])
  · intro k n rest ihn ihrest set v h
    rw [Children.findSubset] at h
    split at h
    next => exact absurd h (by simp)
    next x set' hdrop =>
      have hsub : x :: set' ⊆ set := by
        rw [← hdrop]
        exact (List.dropWhile_sublist _).subset
      split at h
      next heq =>
        subst heq
        split at h
        next hv =>
          obtain rfl := Option.some.inj h
          obtain ⟨hp, path, hs, hpath⟩ := ihn _ _ hv
          exact ⟨hp, x, path, .inl ⟨rfl, hs⟩,
            fun y hy => hsub (List.cons_subset_cons x hpath hy)⟩
        next =>
          split at h
          next => exact absurd h (by simp)
          next =>
            obtain ⟨hp, k', path, hs, hpath⟩ := ihrest _ _ h
            exact ⟨hp, k', path, .inr hs,
              fun y hy => hsub (List.mem_cons_of_mem _ (hpath hy))⟩
      next =>
        obtain ⟨hp, k', path, hs, hpath⟩ := ihrest _ _ h
        exact ⟨hp, k', path, .inr hs, fun y hy => hsub (hpath hy)⟩

end MapOfSets
