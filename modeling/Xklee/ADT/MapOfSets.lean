/-
Maps from sets to values: `include/klee/Internal/ADT/MapOfSets.h`.

A set is the path of its elements in ascending order, as in `Data.MapOfSets`, where `insert`, `lookup`
and the searches `findSubset` and `findSuperset` are. Here are the functions that collect all subsets
or all supersets, and the iterator with its stack.

All of them go through the tree in one order, in which a set comes before the sets that extend it.
`entries` lists what is stored in that order. A function that collects, collects the entries that it
is asked for, and the iterator stands before the entries that are still to come.
-/
import Mathlib.Data.Finset.Sort
import Mathlib.Data.List.TakeWhile
import Xklee.Data.MapOfSets

set_option autoImplicit false

universe u v

namespace MapOfSets

variable {K : Type u} {V : Type v}

/-! ## The code -/

def isEndOfSet : MapOfSets K V → Bool
  | .node value _ => value.isSome

def children : MapOfSets K V → Children K V
  | .node _ children => children

section Collect

variable [LinearOrder K]

/-- What is pushed for a node at which a set ends. -/
def pushed (accum : Finset K) : MapOfSets K V → List (Finset K × V)
  | .node value _ => (value.map (Prod.mk accum)).toList

/-- The loop of `findSubsets` over the elements of the set. -/
def findSubsetsLoop : List K → MapOfSets K V → Finset K → List (Finset K × V)
  | [], _, _ => []
  | elt :: set, n, accum =>
      (match n.children.find elt with
        | some kit => pushed (Insert.insert elt accum) kit ++ findSubsetsLoop set kit (Insert.insert elt accum)
        | none => []) ++ findSubsetsLoop set n accum

def findSubsets (n : MapOfSets K V) (accum : Finset K) (set : List K) : List (Finset K × V) :=
  pushed accum n ++ findSubsetsLoop set n accum

def subsets (m : MapOfSets K V) (set : Finset K) : List (Finset K × V) := m.findSubsets ∅ set.sort

mutual

def findSupersets : MapOfSets K V → Finset K → List K → List (Finset K × V)
  | .node value children, accum, [] =>
      pushed accum (.node value children) ++ children.findSupersetsAll accum
  | .node _ children, accum, elt :: next => children.findSupersetsOf accum elt next

/-- The loop of `findSupersets` when no element is left. -/
def Children.findSupersetsAll : Children K V → Finset K → List (Finset K × V)
  | .nil, _ => []
  | .cons k n rest, accum => n.findSupersets (Insert.insert k accum) [] ++ rest.findSupersetsAll accum

/-- The loop of `findSupersets` up to the next element. -/
def Children.findSupersetsOf : Children K V → Finset K → K → List K → List (Finset K × V)
  | .nil, _, _, _ => []
  | .cons k n rest, accum, elt, next =>
      if elt = k then
        n.findSupersets (Insert.insert k accum) next ++ rest.findSupersetsOf accum elt next
      else if k < elt then
        n.findSupersets (Insert.insert k accum) (elt :: next) ++ rest.findSupersetsOf accum elt next
      else []

end

def supersets (m : MapOfSets K V) (set : Finset K) : List (Finset K × V) :=
  m.findSupersets ∅ set.sort

end Collect

/-- A position in the children of a node, with the ones after it. -/
structure Position (K : Type u) (V : Type v) where
  key : K
  node : MapOfSets K V
  rest : Children K V

/-- `iterator`. The top of the stack is the head of the list. -/
structure Iterator (K : Type u) (V : Type v) where
  root : MapOfSets K V
  onEntry : Bool
  stack : List (Position K V)

/-- The loop of `step` from an entry down the first children, to the next entry. -/
def enter : MapOfSets K V → List (Position K V) → Bool × List (Position K V)
  | .node _ .nil, stack => (false, stack)
  | .node _ (.cons k n rest), stack =>
      if n.isEndOfSet then (true, ⟨k, n, rest⟩ :: stack) else enter n (⟨k, n, rest⟩ :: stack)

/-- The loop of `step` from a sibling down the first children. It asserts that there are some. -/
def settle : MapOfSets K V → List (Position K V) → Option (List (Position K V))
  | .node (some _) _, stack => some stack
  | .node none .nil, _ => none
  | .node none (.cons k n rest), stack => settle n (⟨k, n, rest⟩ :: stack)

/-- The loop of `step` to the next sibling of the top, or of what is below it. -/
def advance : List (Position K V) → Option (Bool × List (Position K V))
  | [] => some (false, [])
  | ⟨_, _, .nil⟩ :: stack => advance stack
  | ⟨_, _, .cons k n rest⟩ :: stack => (settle n (⟨k, n, rest⟩ :: stack)).map (Prod.mk true)

namespace Iterator

/-- `stack.empty() ? root : &stack.back()->second`. -/
def node (it : Iterator K V) : MapOfSets K V :=
  match it.stack with
  | [] => it.root
  | top :: _ => top.node

def step (it : Iterator K V) : Option (Iterator K V) := do
  let (onEntry, stack) ←
    if it.onEntry then
      match enter it.node it.stack with
      | (true, stack) => some (true, stack)
      | (false, stack) => advance stack
    else advance it.stack
  return { it with onEntry, stack }

/-- `begin()`. -/
def first (root : MapOfSets K V) : Option (Iterator K V) :=
  if root.isEndOfSet then some ⟨root, true, []⟩ else step ⟨root, true, []⟩

/-- Whether the iterator is equal to `end()`. -/
def isEnd (it : Iterator K V) : Bool := !it.onEntry && it.stack.isEmpty

/-- `operator*`, with its assertion. -/
def deref [DecidableEq K] (it : Iterator K V) : Option (Finset K × V) :=
  if it.onEntry || !it.stack.isEmpty then
    match it.node with
    | .node value _ => value.map (Prod.mk (it.stack.map Position.key).toFinset)
  else none

/-- What a loop with `++` from the iterator to `end()` goes through. The first argument bounds the
rounds. -/
def collect [DecidableEq K] : ℕ → Iterator K V → Option (List (Finset K × V))
  | 0, _ => none
  | n + 1, it =>
      if it.isEnd then some []
      else do
        let entry ← it.deref
        let it ← it.step
        let entries ← collect n it
        return entry :: entries

end Iterator

/-! ## The entries of a tree -/

mutual

/-- What is stored, with its paths. -/
def entries : MapOfSets K V → List (List K × V)
  | .node value children => (value.map (Prod.mk [])).toList ++ children.entries

def Children.entries : Children K V → List (List K × V)
  | .nil => []
  | .cons k n rest => n.entries.map (fun e => (k :: e.1, e.2)) ++ rest.entries

end

def Children.keys : Children K V → List K
  | .nil => []
  | .cons k _ rest => k :: rest.keys

theorem Children.mem_entries_cons {k k' : K} {n : MapOfSets K V} {rest : Children K V} {path : List K}
    {v : V} : (k' :: path, v) ∈ (Children.cons k n rest).entries
      ↔ (k = k' ∧ (path, v) ∈ n.entries) ∨ (k' :: path, v) ∈ rest.entries := by
  rw [Children.entries, List.mem_append, List.mem_map]
  apply or_congr_left
  constructor
  · rintro ⟨e, he, heq⟩
    injection heq with hpath hv
    injection hpath with hk hp
    subst hk hp hv
    exact ⟨rfl, he⟩
  · rintro ⟨rfl, he⟩
    exact ⟨_, he, rfl⟩

/-- A path of the children begins with one of their keys. -/
theorem Children.exists_cons_of_mem {children : Children K V} {path : List K} {v : V}
    (h : (path, v) ∈ children.entries) : ∃ k ∈ children.keys, ∃ p, path = k :: p := by
  induction children using Children.restInduction with
  | nil => exact absurd h List.not_mem_nil
  | cons k n rest ih =>
    rw [Children.entries, List.mem_append, List.mem_map] at h
    rcases h with ⟨e, -, heq⟩ | h
    · exact ⟨k, List.mem_cons_self, e.1, (congrArg Prod.fst heq).symm⟩
    · obtain ⟨k', hk', hp⟩ := ih h
      exact ⟨k', List.mem_cons_of_mem _ hk', hp⟩

theorem Children.nil_not_mem {children : Children K V} {v : V} : ([], v) ∉ children.entries := by
  intro h
  obtain ⟨k, -, p, hp⟩ := Children.exists_cons_of_mem h
  exact absurd hp (List.cons_ne_nil k p).symm

theorem nil_mem_entries {value : Option V} {children : Children K V} {v : V} :
    ([], v) ∈ (node value children).entries ↔ value = some v := by
  rw [entries, List.mem_append, or_iff_left Children.nil_not_mem, Option.mem_toList,
    Option.map_eq_some_iff]
  simp

theorem cons_mem_entries {value : Option V} {children : Children K V} {k : K} {path : List K} {v : V} :
    (k :: path, v) ∈ (node value children).entries ↔ (k :: path, v) ∈ children.entries := by
  have hnot : (k :: path, v) ∉ (value.map (Prod.mk [])).toList := by simp
  rw [entries, List.mem_append, or_iff_right hnot]

/-- The entries are what is stored. -/
theorem mem_entries {m : MapOfSets K V} {path : List K} {v : V} :
    (path, v) ∈ m.entries ↔ m.Stored path v := by
  have htree := @treeInduction K V
    (fun m : MapOfSets K V => ∀ path v, (path, v) ∈ m.entries ↔ m.Stored path v)
    (fun children : Children K V => ∀ k path v,
      (k :: path, v) ∈ children.entries ↔ children.Stored k path v) ?_ ?_ ?_
  · exact htree.1 m path v
  · intro value children ih path v
    cases path with
    | nil => exact nil_mem_entries
    | cons k path => exact cons_mem_entries.trans (ih k path v)
  · intro k path v
    exact iff_of_false List.not_mem_nil id
  · intro k n rest ihn ihrest k' path v
    rw [Children.mem_entries_cons, ihn, ihrest]
    rfl

theorem Children.mem_keys_of_stored {children : Children K V} {k : K} {path : List K} {v : V}
    (h : children.Stored k path v) : k ∈ children.keys := by
  have hmem : (k :: path, v) ∈ (node none children).entries := mem_entries.mpr h
  obtain ⟨k', hk', p, heq⟩ := Children.exists_cons_of_mem (cons_mem_entries.mp hmem)
  obtain rfl : k = k' := (List.cons.inj heq).1
  exact hk'

mutual

/-- The keys of the children ascend, and on every path as well. No child is empty. -/
def Ordered [LT K] : MapOfSets K V → Prop
  | .node _ children => children.Ordered

def Children.Ordered [LT K] : Children K V → Prop
  | .nil => True
  | .cons k n rest => n.Ordered ∧ rest.Ordered ∧ (∀ k' ∈ rest.keys, k < k')
      ∧ (∀ e ∈ n.entries, ∀ x ∈ e.1, k < x) ∧ n.entries ≠ []

end

theorem ordered_empty [LT K] : (empty : MapOfSets K V).Ordered := trivial

section Order

variable [LinearOrder K] {children rest : Children K V} {m n : MapOfSets K V} {k : K}

/-- The paths of an ordered tree ascend. -/
theorem Ordered.pairwise (h : m.Ordered) {path : List K} {v : V} (hmem : (path, v) ∈ m.entries) :
    path.Pairwise (· < ·) := by
  induction path generalizing m with
  | nil => exact .nil
  | cons k path ih =>
    obtain ⟨value, children⟩ := m
    have hmem' := cons_mem_entries.mp hmem
    have hchildren : children.Ordered := h
    clear hmem h
    induction children using Children.restInduction with
    | nil => exact absurd hmem' List.not_mem_nil
    | cons k' n rest ihrest =>
      obtain ⟨hn, hrest, -, habove, -⟩ := hchildren
      rcases Children.mem_entries_cons.mp hmem' with ⟨rfl, hin⟩ | hin
      · exact .cons (habove _ hin) (ih hn hin)
      · exact ihrest hin hrest

/-! ## Insertions -/

theorem Children.find_cons {k' : K} :
    (Children.cons k' n rest).find k = if k' = k then some n else rest.find k := rfl

theorem Children.find_eq_none {children : Children K V} (h : k ∉ children.keys) :
    children.find k = none := by
  induction children using Children.restInduction with
  | nil => rfl
  | cons k' n rest ih =>
    obtain ⟨hne, hrest⟩ := not_or.mp fun hor => h (List.mem_cons.mpr hor)
    rw [find_cons, if_neg fun heq => hne heq.symm]
    exact ih hrest

theorem Children.Ordered.find {children : Children K V} (h : children.Ordered)
    (heq : children.find k = some n) : n.Ordered := by
  induction children using Children.restInduction with
  | nil => exact absurd heq (by simp [Children.find])
  | cons k' n' rest ih =>
    rw [Children.find] at heq
    split at heq
    next =>
      obtain rfl := Option.some.inj heq
      exact h.1
    next => exact ih h.2.1 heq

/-- Among children in ascending order, the one of a key is found when it was changed. -/
theorem Children.find_modify {children : Children K V} (h : children.Ordered)
    (f : MapOfSets K V → MapOfSets K V) (k' : K) :
    (children.modify k f).find k'
      = if k' = k then some (f ((children.find k).getD empty)) else children.find k' := by
  -- what a key is found as, at the head of the children
  have hhead : ∀ (n : MapOfSets K V) (rest : Children K V), (cons k n rest).find k'
      = if k' = k then some n else rest.find k' := by
    intro n rest
    rw [find_cons]
    by_cases heq : k' = k
    · rw [if_pos heq.symm, if_pos heq]
    · rw [if_neg fun h => heq h.symm, if_neg heq]
  induction children using Children.restInduction with
  | nil => exact hhead _ _
  | cons k₁ n rest ih =>
    obtain ⟨-, hrest, hlt, -⟩ := h
    rw [modify]
    rcases lt_trichotomy k k₁ with hk | rfl | hk
    · have hnone : (Children.cons k₁ n rest).find k = none := by
        apply find_eq_none
        rintro hmem
        rcases List.mem_cons.mp hmem with rfl | hmem
        · exact lt_irrefl k hk
        · exact lt_asymm hk (hlt k hmem)
      rw [if_pos hk, hnone, hhead]
      rfl
    · rw [if_neg (lt_irrefl k), if_pos rfl, hhead, find_cons, if_pos rfl, hhead]
      by_cases heq : k' = k
      · rw [if_pos heq, if_pos heq]
        rfl
      · rw [if_neg heq, if_neg heq, if_neg heq]
    · rw [if_neg hk.not_gt, if_neg hk.ne, find_cons, find_cons, find_cons, if_neg hk.ne, ih hrest]
      by_cases heq : k₁ = k'
      · rw [if_pos heq, if_pos heq, if_neg fun h => hk.ne (heq.trans h)]
      · rw [if_neg heq, if_neg heq]

theorem lookup_empty (path : List K) : (empty : MapOfSets K V).lookup path = none := by
  cases path with
  | nil => rfl
  | cons k path => rfl

/-- `lookup` finds the set that was inserted last, and the others as before. -/
theorem lookup_insert (h : m.Ordered) (set path : List K) (v : V) :
    (m.insert set v).lookup path = if path = set then some v else m.lookup path := by
  induction set generalizing m path with
  | nil =>
    obtain ⟨value, children⟩ := m
    cases path with
    | nil => rfl
    | cons k path => rfl
  | cons k set ih =>
    obtain ⟨value, children⟩ := m
    have hchildren : children.Ordered := h
    cases path with
    | nil => rfl
    | cons k' path =>
      have hsome : ∀ children' : Children K V, (node value children').lookup (k' :: path)
          = (children'.find k').bind fun n => n.lookup path := by
        intro children'
        rw [lookup]
        cases children'.find k' with
        | none => rfl
        | some n => rfl
      rw [insert, hsome, hsome, Children.find_modify hchildren]
      by_cases hk : k' = k
      · subst hk
        rw [if_pos rfl, Option.bind_some]
        cases hfind : children.find k' with
        | none =>
          rw [Option.getD_none, ih ordered_empty, lookup_empty, Option.bind_none]
          simp
        | some n =>
          rw [Option.getD_some, ih (hchildren.find hfind), Option.bind_some]
          simp
      · have hne : k' :: path ≠ k :: set := fun heq => hk (List.cons.inj heq).1
        rw [if_neg hk, if_neg hne]

/-- What is stored is found. -/
theorem lookup_eq_some_iff (h : m.Ordered) {path : List K} {v : V} :
    m.lookup path = some v ↔ m.Stored path v := by
  refine ⟨stored_of_lookup, fun hs => ?_⟩
  induction path generalizing m with
  | nil =>
    obtain ⟨value, children⟩ := m
    exact hs
  | cons k path ih =>
    obtain ⟨value, children⟩ := m
    have hfind : ∃ n, children.find k = some n ∧ n.Stored path v := by
      have hchildren : children.Ordered := h
      have hs' : children.Stored k path v := hs
      clear h hs
      induction children using Children.restInduction with
      | nil => exact absurd hs' id
      | cons k' n rest ihrest =>
        obtain ⟨-, hrest, hlt, -⟩ := hchildren
        rcases hs' with ⟨rfl, hn⟩ | hin
        · exact ⟨n, by rw [Children.find, if_pos rfl], hn⟩
        · rw [Children.find, if_neg (hlt k (Children.mem_keys_of_stored hin)).ne]
          exact ihrest hrest hin
    obtain ⟨n, heq, hn⟩ := hfind
    rw [lookup, heq]
    have hchildren : children.Ordered := h
    exact ih (hchildren.find heq) hn

/-- What is inserted is stored. -/
theorem stored_insert_self (set : List K) (v : V) : (m.insert set v).Stored set v := by
  induction set generalizing m with
  | nil =>
    obtain ⟨value, children⟩ := m
    rfl
  | cons k set ih =>
    obtain ⟨value, children⟩ := m
    show (children.modify k fun n => n.insert set v).Stored k set v
    induction children using Children.restInduction with
    | nil => exact .inl ⟨rfl, ih⟩
    | cons k' n rest ihrest =>
      rw [Children.modify]
      split_ifs with hlt heq
      · exact .inl ⟨rfl, ih⟩
      · exact .inl ⟨heq, ih⟩
      · exact .inr ihrest

theorem Children.keys_modify {children : Children K V} {f : MapOfSets K V → MapOfSets K V} {k' : K}
    (h : k' ∈ (children.modify k f).keys) : k' = k ∨ k' ∈ children.keys := by
  induction children using Children.restInduction with
  | nil => exact .inl (List.mem_singleton.mp h)
  | cons k₁ n rest ih =>
    rw [modify] at h
    split_ifs at h with hlt heq
    · rcases List.mem_cons.mp h with rfl | h
      · exact .inl rfl
      · exact .inr h
    · exact .inr h
    · rcases List.mem_cons.mp h with rfl | h
      · exact .inr List.mem_cons_self
      · exact (ih h).imp_right fun h => List.mem_cons_of_mem _ h

/-- The changed child has its place among the others. -/
theorem Children.Ordered.modify {children : Children K V} (h : children.Ordered)
    {f : MapOfSets K V → MapOfSets K V} (hf : ∀ n, n.Ordered → (f n).Ordered)
    (habove : ∀ n, (∀ e ∈ n.entries, ∀ x ∈ e.1, k < x) → ∀ e ∈ (f n).entries, ∀ x ∈ e.1, k < x)
    (hne : ∀ n, (f n).entries ≠ []) : (children.modify k f).Ordered := by
  have hnew := habove empty fun e he => absurd he List.not_mem_nil
  induction children using Children.restInduction with
  | nil =>
    exact ⟨hf _ ordered_empty, trivial, fun k' hk' => absurd hk' List.not_mem_nil, hnew, hne _⟩
  | cons k₁ n rest ih =>
    obtain ⟨hn, hrest, hlt, hentries, hnonempty⟩ := h
    rw [Children.modify]
    split_ifs with hk heq
    · refine ⟨hf _ ordered_empty, ⟨hn, hrest, hlt, hentries, hnonempty⟩, ?_, hnew, hne _⟩
      intro k' hk'
      rcases List.mem_cons.mp hk' with rfl | hk'
      · exact hk
      · exact hk.trans (hlt k' hk')
    · subst heq
      exact ⟨hf n hn, hrest, hlt, habove n hentries, hne n⟩
    · refine ⟨hn, ih hrest, ?_, hentries, hnonempty⟩
      intro k' hk'
      rcases Children.keys_modify hk' with rfl | hk'
      · exact lt_of_le_of_ne (not_lt.mp hk) heq
      · exact hlt k' hk'

/-- Inserting a set by its elements in ascending order keeps the order. -/
theorem Ordered.insert (h : m.Ordered) {set : List K} (hset : set.Pairwise (· < ·)) (v : V) :
    (m.insert set v).Ordered := by
  induction set generalizing m with
  | nil =>
    obtain ⟨value, children⟩ := m
    exact h
  | cons k set ih =>
    obtain ⟨value, children⟩ := m
    obtain ⟨hk, hset'⟩ := List.pairwise_cons.mp hset
    have hchildren : children.Ordered := h
    refine Children.Ordered.modify hchildren (fun n hn => ih hn hset') ?_ ?_
    · rintro n hn ⟨path, v'⟩ he x hx
      rcases stored_insert (mem_entries.mp he) with ⟨rfl, -⟩ | hs
      · exact hk x hx
      · exact hn _ (mem_entries.mpr hs) x hx
    · intro n
      exact List.ne_nil_of_mem (mem_entries.mpr (stored_insert_self set v))

end Order

/-! ## Searches -/

section Searches

variable [LinearOrder K] {p : V → Bool}

theorem exists_of_filter {value : Option V} {v : V} (h : value = some v) (hv : p v = true) :
    value.filter p = some v := by
  rw [h, Option.filter_some, if_pos hv]

/-- A set whose elements ascend from `k` on lies in the rest of a path that passes `k`. -/
theorem subset_tail {k k' : K} {set path : List K} (hset : (k :: set).Pairwise (· < ·)) (hk : k' < k)
    (hsub : k :: set ⊆ k' :: path) : k :: set ⊆ path := by
  intro x hx
  have hlt : k' < x := by
    rcases List.mem_cons.mp hx with rfl | hx
    · exact hk
    · exact hk.trans ((List.pairwise_cons.mp hset).1 x hx)
  exact (List.mem_cons.mp (hsub hx)).resolve_left hlt.ne'

theorem subset_tails {k : K} {set path : List K} (hset : (k :: set).Pairwise (· < ·))
    (hsub : k :: set ⊆ k :: path) : set ⊆ path := by
  intro x hx
  have hlt := (List.pairwise_cons.mp hset).1 x hx
  exact (List.mem_cons.mp (hsub (List.mem_cons_of_mem _ hx))).resolve_left hlt.ne'

/-- `findSuperset` misses no superset. -/
theorem exists_findSuperset {m : MapOfSets K V} (h : m.Ordered) {set path : List K} {v : V}
    (hset : set.Pairwise (· < ·)) (hs : m.Stored path v) (hv : p v = true) (hsub : set ⊆ path) :
    ∃ v', m.findSuperset p set = some v' := by
  have htree := @treeInduction K V
    (fun m : MapOfSets K V => m.Ordered → ∀ set path v, set.Pairwise (· < ·) → m.Stored path v →
      p v = true → set ⊆ path → ∃ v', m.findSuperset p set = some v')
    (fun children : Children K V => children.Ordered →
      (∀ set k path v, set.Pairwise (· < ·) → children.Stored k path v → p v = true →
        set ⊆ path → ∃ v', children.findSupersetAll p set = some v')
      ∧ ∀ set k path v, (k :: set).Pairwise (· < ·) → children.Stored k path v → p v = true →
        set ⊆ path → ∃ v', children.findSupersetAt p k set = some v')
    ?_ ?_ ?_
  · exact htree.1 m h set path v hset hs hv hsub
  · intro value children ih hordered set path v hset hs hv hsub
    obtain ⟨ihall, ihat⟩ := ih hordered
    cases set with
    | nil =>
      rw [findSuperset]
      cases hfilter : value.filter p with
      | some v' => exact ⟨v', rfl⟩
      | none =>
        cases path with
        | nil =>
          rw [exists_of_filter hs hv] at hfilter
          exact absurd hfilter (Option.some_ne_none v)
        | cons k path => exact ihall [] k path v .nil hs hv (List.nil_subset path)
    | cons k set =>
      rw [findSuperset]
      cases hall : children.findSupersetAll p (k :: set) with
      | some v' => exact ⟨v', rfl⟩
      | none =>
        cases path with
        | nil => exact absurd (hsub List.mem_cons_self) List.not_mem_nil
        | cons k' path =>
          -- the path begins before the set, or with it
          have hpath := Ordered.pairwise (m := node value children) hordered (mem_entries.mpr hs)
          have hle : k' ≤ k := by
            rcases List.mem_cons.mp (hsub List.mem_cons_self) with rfl | hin
            · exact le_rfl
            · exact ((List.pairwise_cons.mp hpath).1 k hin).le
          rcases hle.lt_or_eq with hlt | rfl
          · obtain ⟨v', hv'⟩ := ihall (k :: set) k' path v hset hs hv (subset_tail hset hlt hsub)
            rw [hv'] at hall
            exact absurd hall (Option.some_ne_none v')
          · exact ihat set k' path v hset hs hv (subset_tails hset hsub)
  · intro _
    exact ⟨fun set k path v _ hs => absurd hs id, fun set k path v _ hs => absurd hs id⟩
  · rintro k n rest ihn ihrest ⟨hn, hrest, hlt, habove, -⟩
    obtain ⟨ihall, ihat⟩ := ihrest hrest
    constructor
    · intro set k' path v hset hs hv hsub
      rw [Children.findSupersetAll]
      cases hfind : n.findSuperset p set with
      | some v' => exact ⟨v', rfl⟩
      | none =>
        rcases hs with ⟨rfl, hs⟩ | hs
        · obtain ⟨v', hv'⟩ := ihn hn set path v hset hs hv hsub
          rw [hv'] at hfind
          exact absurd hfind (Option.some_ne_none v')
        · exact ihall set k' path v hset hs hv hsub
    · intro set k' path v hset hs hv hsub
      rw [Children.findSupersetAt]
      rcases hs with ⟨rfl, hs⟩ | hs
      · rw [if_neg (lt_irrefl k), if_pos rfl]
        exact ihn hn set path v (List.pairwise_cons.mp hset).2 hs hv hsub
      · rw [if_pos (hlt k' (Children.mem_keys_of_stored hs))]
        exact ihat set k' path v hset hs hv hsub

/-- `findSubset` misses no subset. -/
theorem exists_findSubset {m : MapOfSets K V} (h : m.Ordered) {set path : List K} {v : V}
    (hset : set.Pairwise (· < ·)) (hs : m.Stored path v) (hv : p v = true) (hsub : path ⊆ set) :
    ∃ v', m.findSubset p set = some v' := by
  have htree := @treeInduction K V
    (fun m : MapOfSets K V => m.Ordered → ∀ set path v, set.Pairwise (· < ·) → m.Stored path v →
      p v = true → path ⊆ set → ∃ v', m.findSubset p set = some v')
    (fun children : Children K V => children.Ordered → ∀ set k path v, set.Pairwise (· < ·) →
      (k :: path).Pairwise (· < ·) → children.Stored k path v → p v = true → k :: path ⊆ set →
      ∃ v', children.findSubset p set = some v') ?_ ?_ ?_
  · exact htree.1 m h set path v hset hs hv hsub
  · intro value children ih hordered set path v hset hs hv hsub
    rw [findSubset]
    cases hfilter : value.filter p with
    | some v' => exact ⟨v', rfl⟩
    | none =>
      cases path with
      | nil =>
        rw [exists_of_filter hs hv] at hfilter
        exact absurd hfilter (Option.some_ne_none v)
      | cons k path =>
        have hpath := Ordered.pairwise (m := node value children) hordered (mem_entries.mpr hs)
        rw [if_neg (List.ne_nil_of_mem (hsub List.mem_cons_self))]
        exact ih hordered set k path v hset hpath hs hv hsub
  · intro _ set k path v _ _ hs
    exact absurd hs id
  · rintro k n rest ihn ihrest ⟨hn, hrest, hlt, habove, -⟩ set k' path v hset hpath hs hv hsub
    have hle : k ≤ k' := by
      rcases hs with ⟨rfl, -⟩ | hs
      · exact le_rfl
      · exact (hlt k' (Children.mem_keys_of_stored hs)).le
    -- nothing of the path is dropped
    have hdrop : k' :: path ⊆ set.dropWhile (· < k) := by
      intro x hx
      have hge : k ≤ x := by
        rcases List.mem_cons.mp hx with rfl | hx
        · exact hle
        · exact hle.trans ((List.pairwise_cons.mp hpath).1 x hx).le
      have hin : x ∈ set.takeWhile (· < k) ++ set.dropWhile (· < k) := by
        rw [List.takeWhile_append_dropWhile]
        exact hsub hx
      rcases List.mem_append.mp hin with hin | hin
      · have hlt' := List.mem_takeWhile_imp hin
        rw [decide_eq_true_eq] at hlt'
        exact absurd hlt' hge.not_gt
      · exact hin
    have hset' : (set.dropWhile (· < k)).Pairwise (· < ·) := hset.sublist (List.dropWhile_sublist _)
    rw [Children.findSubset]
    cases hcase : set.dropWhile (· < k) with
    | nil =>
      rw [hcase] at hdrop
      exact absurd (hdrop List.mem_cons_self) List.not_mem_nil
    | cons x set' =>
      rw [hcase] at hdrop hset'
      by_cases hx : x = k
      · subst hx
        rcases hs with ⟨rfl, hs⟩ | hs
        · obtain ⟨v', hv'⟩ := ihn hn set' path v (List.pairwise_cons.mp hset').2 hs hv
            (subset_tails hpath hdrop)
          refine ⟨v', ?_⟩
          dsimp only
          rw [if_pos rfl, hv']
        · have hrestsub := subset_tail hpath (hlt k' (Children.mem_keys_of_stored hs)) hdrop
          have hne : set' ≠ [] := List.ne_nil_of_mem (hrestsub List.mem_cons_self)
          obtain ⟨v', hv'⟩ := ihrest hrest set' k' path v (List.pairwise_cons.mp hset').2 hpath hs hv
            hrestsub
          dsimp only
          rw [if_pos rfl]
          cases n.findSubset p set' with
          | some v₁ => exact ⟨v₁, rfl⟩
          | none => exact ⟨v', (if_neg hne).trans hv'⟩
      · rcases hs with ⟨rfl, hs⟩ | hs
        · -- the first element that is left would be the key
          have hhead : ¬x < k := by
            have hnot := List.dropWhile_get_zero_not (fun y => decide (y < k)) set
              (by rw [hcase]; exact Nat.zero_lt_succ _)
            simpa [hcase] using hnot
          rcases List.mem_cons.mp (hdrop List.mem_cons_self) with heq | hin
          · exact absurd heq.symm hx
          · exact absurd ((List.pairwise_cons.mp hset').1 k hin) hhead
        · obtain ⟨v', hv'⟩ := ihrest hrest (x :: set') k' path v hset' hpath hs hv hdrop
          exact ⟨v', (if_neg hx).trans hv'⟩

end Searches

/-! ## Collecting -/

section Collected

variable [LinearOrder K] {children rest : Children K V} {m n : MapOfSets K V} {k elt : K}
  {set next path : List K} {v : V}

/-- What is pushed for entries below the elements that were passed. -/
def accumulated (accum : Finset K) (l : List (List K × V)) : List (Finset K × V) :=
  l.map fun e => (accum ∪ e.1.toFinset, e.2)

theorem accumulated_append (accum : Finset K) (l l' : List (List K × V)) :
    accumulated accum (l ++ l') = accumulated accum l ++ accumulated accum l' := List.map_append

/-- One more element was passed. -/
theorem accumulated_cons (accum : Finset K) (k : K) (l : List (List K × V)) :
    accumulated accum (l.map fun e => (k :: e.1, e.2)) = accumulated (Insert.insert k accum) l := by
  rw [accumulated, List.map_map]
  apply List.map_congr_left
  intro e _
  show (accum ∪ (k :: e.1).toFinset, e.2) = _
  rw [List.toFinset_cons, Finset.union_insert, Finset.insert_union]

theorem pushed_eq (accum : Finset K) (value : Option V) (children : Children K V) :
    pushed accum (node value children) = accumulated accum (value.map (Prod.mk [])).toList := by
  cases value with
  | none => rfl
  | some v =>
    show [(accum, v)] = [(accum ∪ [].toFinset, v)]
    rw [List.toFinset_nil, Finset.union_empty]

/-- The path of the entry has all elements of the set. -/
def covers (set : List K) (e : List K × V) : Bool := set.all fun x => decide (x ∈ e.1)

/-- The path of the entry has elements of the set only. -/
def within (set : List K) (e : List K × V) : Bool := e.1.all fun x => decide (x ∈ set)

theorem covers_iff {e : List K × V} : covers set e = true ↔ set ⊆ e.1 := by
  rw [covers, List.all_eq_true]
  simp only [decide_eq_true_eq]
  rfl

theorem within_iff {e : List K × V} : within set e = true ↔ e.1 ⊆ set := by
  rw [within, List.all_eq_true]
  simp only [decide_eq_true_eq]
  rfl

/-- What is before all keys is on no path. -/
theorem Children.Ordered.not_mem (h : children.Ordered) (hlt : ∀ k ∈ children.keys, elt < k)
    {e : List K × V} (he : e ∈ children.entries) : elt ∉ e.1 := by
  obtain ⟨path, v⟩ := e
  obtain ⟨k, hk, p, rfl⟩ := Children.exists_cons_of_mem he
  have hpath := Ordered.pairwise (m := node none children) h (cons_mem_entries.mpr he)
  intro hmem
  rcases List.mem_cons.mp hmem with rfl | hmem
  · exact lt_irrefl elt (hlt elt hk)
  · exact lt_asymm (hlt k hk) ((List.pairwise_cons.mp hpath).1 elt hmem)

omit [LinearOrder K] in
/-- The entries of a child that are asked for, by their paths below the child. -/
theorem filter_map_cons {q q' : List K × V → Bool} {l : List (List K × V)}
    (h : ∀ e ∈ l, q (k :: e.1, e.2) = q' e) :
    (l.map fun e => (k :: e.1, e.2)).filter q = (l.filter q').map fun e => (k :: e.1, e.2) := by
  rw [List.filter_map]
  congr 1
  exact List.filter_congr h

omit [LinearOrder K] in
theorem filter_map_cons_eq_nil {q : List K × V → Bool} {l : List (List K × V)}
    (h : ∀ e ∈ l, q (k :: e.1, e.2) = false) :
    (l.map fun e => (k :: e.1, e.2)).filter q = [] := by
  rw [List.filter_eq_nil_iff]
  intro e he
  obtain ⟨e', he', rfl⟩ := List.mem_map.mp he
  rw [h e' he']
  exact Bool.false_ne_true

/-- `findSupersets` collects the entries whose paths have all that is left of the set. -/
theorem findSupersets_eq (h : m.Ordered) (accum : Finset K) (hset : set.Pairwise (· < ·)) :
    m.findSupersets accum set = accumulated accum (m.entries.filter (covers set)) := by
  have htree := @treeInduction K V
    (fun m : MapOfSets K V => m.Ordered → ∀ accum set, set.Pairwise (· < ·) →
      m.findSupersets accum set = accumulated accum (m.entries.filter (covers set)))
    (fun children : Children K V => children.Ordered →
      (∀ accum, children.findSupersetsAll accum = accumulated accum children.entries)
      ∧ ∀ accum elt next, (elt :: next).Pairwise (· < ·) →
        children.findSupersetsOf accum elt next
          = accumulated accum (children.entries.filter (covers (elt :: next)))) ?_ ?_ ?_
  · exact htree.1 m h accum set hset
  · intro value children ih hordered accum set hset
    obtain ⟨ihall, ihof⟩ := ih hordered
    cases set with
    | nil =>
      have hall : (node value children).entries.filter (covers []) = (node value children).entries :=
        List.filter_eq_self.mpr fun e _ => rfl
      rw [findSupersets, hall, entries, accumulated_append, pushed_eq, ihall]
    | cons elt next =>
      have hown : (value.map (Prod.mk [])).toList.filter (covers (elt :: next)) = [] := by
        rw [List.filter_eq_nil_iff]
        intro e he
        obtain ⟨v, -, rfl⟩ := Option.map_eq_some_iff.mp (Option.mem_toList.mp he)
        rw [covers_iff]
        exact fun hsub => absurd (hsub List.mem_cons_self) List.not_mem_nil
      rw [findSupersets, entries, List.filter_append, hown, List.nil_append]
      exact ihof accum elt next hset
  · intro _
    exact ⟨fun accum => rfl, fun accum elt next _ => rfl⟩
  · rintro k n rest ihn ihrest ⟨hn, hrest, hlt, habove, -⟩
    obtain ⟨ihall, ihof⟩ := ihrest hrest
    constructor
    · intro accum
      have hall : n.entries.filter (covers []) = n.entries := List.filter_eq_self.mpr fun e _ => rfl
      rw [Children.findSupersetsAll, Children.entries, accumulated_append, accumulated_cons,
        ihn hn _ _ .nil, hall, ihall]
    · intro accum elt next hset
      rw [Children.findSupersetsOf, Children.entries, List.filter_append, accumulated_append]
      rcases lt_trichotomy k elt with hk | rfl | hk
      · -- the child is before the next element
        have hfilter := @filter_map_cons K V k (covers (elt :: next)) (covers (elt :: next)) n.entries
          fun e _ => by
            rw [Bool.eq_iff_iff, covers_iff, covers_iff]
            exact ⟨fun hsub => subset_tail hset hk hsub, fun hsub x hx =>
              List.mem_cons_of_mem k (hsub hx)⟩
        rw [if_neg hk.ne', if_pos hk, hfilter, accumulated_cons, ihn hn _ _ hset, ihof _ _ _ hset]
      · have hfilter := @filter_map_cons K V k (covers (k :: next)) (covers next) n.entries
          fun e _ => by
            rw [Bool.eq_iff_iff, covers_iff, covers_iff]
            exact ⟨fun hsub => subset_tails hset hsub, List.cons_subset_cons k⟩
        rw [if_pos rfl, hfilter, accumulated_cons, ihn hn _ _ (List.pairwise_cons.mp hset).2,
          ihof _ _ _ hset]
      · -- the element is past
        have hchild := @filter_map_cons_eq_nil K V k (covers (elt :: next)) n.entries fun e he => by
          rw [← Bool.not_eq_true, covers_iff]
          intro hsub
          rcases List.mem_cons.mp (hsub List.mem_cons_self) with heq | hin
          · exact hk.ne heq
          · exact lt_asymm hk (habove e he elt hin)
        have hothers : rest.entries.filter (covers (elt :: next)) = [] := by
          rw [List.filter_eq_nil_iff]
          intro e he
          rw [covers_iff]
          intro hsub
          exact hrest.not_mem (fun k' hk' => hk.trans (hlt k' hk')) he (hsub List.mem_cons_self)
        rw [if_neg hk.ne, if_neg hk.not_gt, hchild, hothers]
        rfl

/-- The entries within a set are those that begin with its first element, and the ones within the
rest of the set. -/
theorem filter_within_cons (h : children.Ordered) (hset : (elt :: set).Pairwise (· < ·)) :
    children.entries.filter (within (elt :: set))
      = (match children.find elt with
          | some kit => (kit.entries.filter (within set)).map fun e => (elt :: e.1, e.2)
          | none => []) ++ children.entries.filter (within set) := by
  have hnot : elt ∉ set := fun hin => lt_irrefl elt ((List.pairwise_cons.mp hset).1 elt hin)
  -- where the element is on no path, it makes no difference
  have hsame : ∀ l : List (List K × V), (∀ e ∈ l, elt ∉ e.1) →
      l.filter (within (elt :: set)) = l.filter (within set) := by
    intro l hl
    apply List.filter_congr
    intro e he
    rw [Bool.eq_iff_iff, within_iff, within_iff]
    constructor
    · intro hsub x hx
      rcases List.mem_cons.mp (hsub hx) with rfl | hin
      · exact absurd hx (hl e he)
      · exact hin
    · exact fun hsub => List.subset_cons_of_subset elt hsub
  induction children using Children.restInduction with
  | nil => rfl
  | cons k n rest ih =>
    obtain ⟨hn, hrest, hlt, habove, -⟩ := h
    rw [Children.entries, List.filter_append, List.filter_append, Children.find_cons]
    rcases lt_trichotomy k elt with hk | rfl | hk
    · -- a key before the set
      have hout : ∀ set' : List K, (∀ x ∈ set', elt ≤ x) →
          (n.entries.map fun e => (k :: e.1, e.2)).filter (within set') = [] := by
        intro set' hge
        apply filter_map_cons_eq_nil
        intro e _
        rw [← Bool.not_eq_true, within_iff]
        intro hsub
        exact hk.not_ge (hge k (hsub List.mem_cons_self))
      have hge : ∀ x ∈ set, elt ≤ x := fun x hx => ((List.pairwise_cons.mp hset).1 x hx).le
      rw [if_neg hk.ne, hout _ (List.forall_mem_cons.mpr ⟨le_rfl, hge⟩), hout _ hge, ih hrest,
        List.nil_append, List.nil_append]
    · have hchild := @filter_map_cons K V k (within (k :: set)) (within set) n.entries fun e he => by
        rw [Bool.eq_iff_iff, within_iff, within_iff]
        constructor
        · intro hsub x hx
          exact (List.mem_cons.mp (hsub (List.mem_cons_of_mem _ hx))).resolve_left
            (habove e he x hx).ne'
        · exact fun hsub => List.cons_subset_cons k hsub
      have hout : (n.entries.map fun e => (k :: e.1, e.2)).filter (within set) = [] := by
        apply filter_map_cons_eq_nil
        intro e _
        rw [← Bool.not_eq_true, within_iff]
        exact fun hsub => hnot (hsub List.mem_cons_self)
      rw [if_pos rfl, hchild, hout, List.nil_append, hsame _ fun e he => hrest.not_mem hlt he]
    · have hnone : rest.find elt = none := by
        apply Children.find_eq_none
        exact fun hin => lt_asymm hk (hlt elt hin)
      have hpath : ∀ e ∈ n.entries.map (fun e => (k :: e.1, e.2)), elt ∉ e.1 := by
        intro e he hin
        obtain ⟨e', he', rfl⟩ := List.mem_map.mp he
        rcases List.mem_cons.mp hin with rfl | hin
        · exact lt_irrefl elt hk
        · exact lt_asymm hk (habove e' he' elt hin)
      rw [if_neg hk.ne', hnone, hsame _ hpath,
        hsame _ fun e he => hrest.not_mem (fun k' hk' => hk.trans (hlt k' hk')) he]
      rfl

/-- `findSubsets` collects the entries whose paths have elements of the set only. -/
theorem findSubsetsLoop_eq (h : m.Ordered) (accum : Finset K) (hset : set.Pairwise (· < ·)) :
    findSubsetsLoop set m accum = accumulated accum (m.children.entries.filter (within set)) := by
  induction set generalizing m accum with
  | nil =>
    have hnone : m.children.entries.filter (within []) = [] := by
      rw [List.filter_eq_nil_iff]
      rintro ⟨path, v⟩ he
      obtain ⟨k, -, p, rfl⟩ := Children.exists_cons_of_mem he
      rw [within_iff]
      exact fun hsub => absurd (hsub List.mem_cons_self) List.not_mem_nil
    rw [hnone]
    rfl
  | cons elt set ih =>
    obtain ⟨value, children⟩ := m
    have hchildren : children.Ordered := h
    have hset' := (List.pairwise_cons.mp hset).2
    rw [findSubsetsLoop, ih h accum hset']
    show _ = accumulated accum (children.entries.filter (within (elt :: set)))
    rw [filter_within_cons hchildren hset, accumulated_append]
    congr 1
    show (match children.find elt with
      | some kit => _
      | none => []) = _
    cases hfind : children.find elt with
    | none => rfl
    | some kit =>
      obtain ⟨value', children'⟩ := kit
      have hown : (value'.map (Prod.mk [])).toList.filter (within set)
          = (value'.map (Prod.mk [])).toList := by
        rw [List.filter_eq_self]
        intro e he
        obtain ⟨v, -, rfl⟩ := Option.map_eq_some_iff.mp (Option.mem_toList.mp he)
        rfl
      show pushed (Insert.insert elt accum) (node value' children') ++ _ = _
      rw [accumulated_cons, entries, List.filter_append, accumulated_append, hown, pushed_eq,
        ih (hchildren.find hfind) _ hset']
      rfl

theorem findSubsets_eq (h : m.Ordered) (accum : Finset K) (hset : set.Pairwise (· < ·)) :
    m.findSubsets accum set = accumulated accum (m.entries.filter (within set)) := by
  obtain ⟨value, children⟩ := m
  have hown : (value.map (Prod.mk [])).toList.filter (within set)
      = (value.map (Prod.mk [])).toList := by
    rw [List.filter_eq_self]
    intro e he
    obtain ⟨v, -, rfl⟩ := Option.map_eq_some_iff.mp (Option.mem_toList.mp he)
    rfl
  rw [findSubsets, pushed_eq, findSubsetsLoop_eq h accum hset, entries, List.filter_append, hown,
    accumulated_append]
  rfl

end Collected

/-! ## Iteration -/

/-- The path of the node at the top of the stack. -/
def pathOf (stack : List (Position K V)) : List K := (stack.map Position.key).reverse

def prefixed (path : List K) (l : List (List K × V)) : List (List K × V) :=
  l.map fun e => (path ++ e.1, e.2)

/-- The entries of the siblings that are still to come. -/
def pending : List (Position K V) → List (List K × V)
  | [] => []
  | top :: stack => prefixed (pathOf stack) top.rest.entries ++ pending stack

/-- The node at the top of the stack. -/
def nodeAt (root : MapOfSets K V) (stack : List (Position K V)) : MapOfSets K V :=
  Iterator.node ⟨root, true, stack⟩

/-- The entries from the node at the top of the stack on. -/
def remaining (root : MapOfSets K V) (stack : List (Position K V)) : List (List K × V) :=
  prefixed (pathOf stack) (nodeAt root stack).entries ++ pending stack

/-- The entries of a first child and of its siblings. -/
theorem prefixed_entries_cons (path : List K) (k : K) (n : MapOfSets K V) (rest : Children K V) :
    prefixed path (Children.cons k n rest).entries
      = prefixed (path ++ [k]) n.entries ++ prefixed path rest.entries := by
  rw [Children.entries, prefixed, List.map_append, List.map_map]
  congr 1
  apply List.map_congr_left
  intro e _
  show (path ++ k :: e.1, e.2) = (path ++ [k] ++ e.1, e.2)
  rw [List.append_assoc, List.singleton_append]

/-- One step down. -/
theorem remaining_cons (root : MapOfSets K V) (k : K) (n : MapOfSets K V) (rest : Children K V)
    (stack : List (Position K V)) :
    remaining root (⟨k, n, rest⟩ :: stack)
      = prefixed (pathOf stack) (Children.cons k n rest).entries ++ pending stack := by
  have hpath : pathOf (⟨k, n, rest⟩ :: stack) = pathOf stack ++ [k] := by
    rw [pathOf, List.map_cons, List.reverse_cons]
    rfl
  rw [prefixed_entries_cons, List.append_assoc, ← hpath]
  rfl

section Iteration

variable [LT K] {root n : MapOfSets K V} {stack : List (Position K V)}

/-- The position is among ordered children. -/
def Position.Ok (p : Position K V) : Prop := (Children.cons p.key p.node p.rest).Ordered

/-- A stack that stands on an entry, before these entries. -/
def OnEntry (root : MapOfSets K V) (stack : List (Position K V)) (l : List (List K × V)) : Prop :=
  (∀ p ∈ stack, p.Ok) ∧ (nodeAt root stack).isEndOfSet = true ∧ remaining root stack = l

omit [LT K] in
theorem exists_children (hne : n.entries ≠ []) (hend : n.isEndOfSet = false) :
    ∃ k c rest, n = node none (.cons k c rest) := by
  obtain ⟨value, children⟩ := n
  cases value with
  | some v => exact absurd hend (by simp [isEndOfSet])
  | none =>
    cases children with
    | nil => exact absurd rfl hne
    | cons k c rest => exact ⟨k, c, rest, rfl⟩

omit [LT K] in
/-- Induction down the first children. -/
theorem firstInduction {motive : MapOfSets K V → Prop} (leaf : ∀ value, motive (node value .nil))
    (down : ∀ value k n rest, motive n → motive (node value (.cons k n rest))) (n : MapOfSets K V) :
    motive n := by
  have htree := @treeInduction K V motive
    (fun children => ∀ value, motive (node value children))
    (fun value children h => h value) leaf (fun k n rest hn _ value => down value k n rest hn)
  exact htree.1 n

/-- Going down from a node that is not empty ends at an entry, and skips none. -/
theorem settle_spec (hn : n.Ordered) (hne : n.entries ≠ []) (hstack : ∀ p ∈ stack, p.Ok)
    (hat : nodeAt root stack = n) :
    ∃ stack', settle n stack = some stack' ∧ OnEntry root stack' (remaining root stack) := by
  induction n using firstInduction generalizing stack with
  | leaf value =>
    cases value with
    | some v => exact ⟨stack, rfl, hstack, by rw [hat]; rfl, rfl⟩
    | none => exact absurd rfl hne
  | down value k c rest ih =>
    cases value with
    | some v => exact ⟨stack, rfl, hstack, by rw [hat]; rfl, rfl⟩
    | none =>
      have hchildren : (Children.cons k c rest).Ordered := hn
      obtain ⟨stack', hrun, hentry⟩ := @ih (⟨k, c, rest⟩ :: stack) hchildren.1 hchildren.2.2.2.2
        (List.forall_mem_cons.mpr ⟨hchildren, hstack⟩) rfl
      refine ⟨stack', hrun, ?_⟩
      have hremaining : remaining root (⟨k, c, rest⟩ :: stack) = remaining root stack := by
        rw [remaining_cons, remaining, hat]
        rfl
      rwa [hremaining] at hentry

/-- Going to the next sibling passes what is below it only. -/
theorem advance_spec (root : MapOfSets K V) (hstack : ∀ p ∈ stack, p.Ok) :
    (pending stack = [] ∧ advance stack = some (false, []))
      ∨ ∃ stack', advance stack = some (true, stack') ∧ OnEntry root stack' (pending stack) := by
  induction stack with
  | nil => exact .inl ⟨rfl, rfl⟩
  | cons top stack ih =>
    obtain ⟨k, n, rest⟩ := top
    obtain ⟨htop, hbelow⟩ := List.forall_mem_cons.mp hstack
    cases rest with
    | nil => exact ih hbelow
    | cons k' n' rest' =>
      have hrest : (Children.cons k' n' rest').Ordered := htop.2.1
      obtain ⟨stack', hrun, hentry⟩ := @settle_spec K V _ root n' (⟨k', n', rest'⟩ :: stack)
        hrest.1 hrest.2.2.2.2 (List.forall_mem_cons.mpr ⟨hrest, hbelow⟩) rfl
      refine .inr ⟨stack', ?_, ?_⟩
      · rw [advance, hrun]
        rfl
      · rw [remaining_cons] at hentry
        exact hentry

/-- Going down from an entry ends at the first entry of the children. -/
theorem enter_spec (root : MapOfSets K V) (hn : n.Ordered) (hchildren : n.children ≠ .nil)
    (hstack : ∀ p ∈ stack, p.Ok) :
    ∃ stack', enter n stack = (true, stack')
      ∧ OnEntry root stack' (prefixed (pathOf stack) n.children.entries ++ pending stack) := by
  induction n using firstInduction generalizing stack with
  | leaf value => exact absurd rfl hchildren
  | down value k c rest ih =>
    have hordered : (Children.cons k c rest).Ordered := hn
    have hstack' : ∀ p ∈ (⟨k, c, rest⟩ : Position K V) :: stack, p.Ok :=
      List.forall_mem_cons.mpr ⟨hordered, hstack⟩
    rw [enter]
    by_cases hend : c.isEndOfSet = true
    · rw [if_pos hend]
      exact ⟨_, rfl, hstack', hend, remaining_cons root k c rest stack⟩
    · rw [if_neg hend]
      obtain ⟨k', c', rest', rfl⟩ := exists_children hordered.2.2.2.2 (Bool.not_eq_true _ ▸ hend)
      obtain ⟨stack', hrun, hentry⟩ := ih hordered.1 (by simp [children]) hstack'
      refine ⟨stack', hrun, ?_⟩
      have hremaining := remaining_cons root k (node none (.cons k' c' rest')) rest stack
      show OnEntry root stack' (prefixed (pathOf stack)
        (Children.cons k (node none (.cons k' c' rest')) rest).entries ++ pending stack)
      rw [← hremaining]
      exact hentry

/-- The iterator stands before these entries. -/
def Iterator.Before (it : Iterator K V) (l : List (List K × V)) : Prop :=
  (l = [] ∧ it.onEntry = false ∧ it.stack = [])
    ∨ (it.onEntry = true ∧ it.root.Ordered ∧ OnEntry it.root it.stack l)

omit [LT K] in
theorem Iterator.step_eq : Iterator.step ⟨root, true, stack⟩
    = (match enter (nodeAt root stack) stack with
        | (true, stack) => some (true, stack)
        | (false, stack) => advance stack).map
      fun r : Bool × List (Position K V) => ⟨root, r.1, r.2⟩ := by
  unfold Iterator.step
  dsimp only
  rw [if_pos rfl]
  show (match enter (nodeAt root stack) stack with
    | (true, stack) => _
    | (false, stack) => _) = _
  rcases enter (nodeAt root stack) stack with ⟨_ | _, stack'⟩
  · dsimp only
    cases advance stack' with
    | none => rfl
    | some r => rfl
  · rfl

/-- A step from a node goes to the first entry after it. -/
theorem Iterator.step_of_onEntry (hroot : root.Ordered) (hstack : ∀ p ∈ stack, p.Ok) :
    ∃ it', Iterator.step ⟨root, true, stack⟩ = some it' ∧ it'.Before
      (prefixed (pathOf stack) (nodeAt root stack).children.entries ++ pending stack) := by
  have hn : (nodeAt root stack).Ordered := by
    cases stack with
    | nil => exact hroot
    | cons top stack => exact (hstack top List.mem_cons_self).1
  rw [Iterator.step_eq]
  by_cases hchildren : (nodeAt root stack).children = .nil
  · have henter : enter (nodeAt root stack) stack = (false, stack) := by
      cases hnode : nodeAt root stack with
      | node value children =>
        rw [hnode] at hchildren
        obtain rfl : children = .nil := hchildren
        rfl
    rw [henter, hchildren]
    rcases advance_spec root hstack with ⟨hpending, hrun⟩ | ⟨stack', hrun, hentry⟩
    · refine ⟨⟨root, false, []⟩, ?_, .inl ⟨?_, rfl, rfl⟩⟩
      · dsimp only
        rw [hrun]
        rfl
      · rw [hpending]
        rfl
    · refine ⟨⟨root, true, stack'⟩, ?_, .inr ⟨rfl, hroot, hentry⟩⟩
      dsimp only
      rw [hrun]
      rfl
  · obtain ⟨stack', henter, hentry⟩ := enter_spec root hn hchildren hstack
    rw [henter]
    exact ⟨⟨root, true, stack'⟩, rfl, .inr ⟨rfl, hroot, hentry⟩⟩

end Iteration

section Walk

variable [LinearOrder K] {m : MapOfSets K V}

/-- No path occurs twice. -/
theorem nodup_entries (h : m.Ordered) : (m.entries.map Prod.fst).Nodup := by
  have htree := @treeInduction K V
    (fun m : MapOfSets K V => m.Ordered → (m.entries.map Prod.fst).Nodup)
    (fun children : Children K V => children.Ordered → (children.entries.map Prod.fst).Nodup)
    ?_ ?_ ?_
  · exact htree.1 m h
  · intro value children ih hordered
    cases value with
    | none => exact ih hordered
    | some v =>
      show ([] :: children.entries.map Prod.fst).Nodup
      refine List.nodup_cons.mpr ⟨?_, ih hordered⟩
      intro hmem
      obtain ⟨⟨path, v'⟩, he, heq⟩ := List.mem_map.mp hmem
      obtain rfl : path = [] := heq
      exact Children.nil_not_mem he
  · exact fun _ => List.nodup_nil
  · rintro k n rest ihn ihrest ⟨hn, hrest, hlt, -⟩
    rw [Children.entries, List.map_append, List.map_map]
    have hmap : n.entries.map (Prod.fst ∘ fun e : List K × V => (k :: e.1, e.2))
        = (n.entries.map Prod.fst).map (List.cons k) := by
      rw [List.map_map]
      rfl
    rw [hmap]
    refine List.Nodup.append ((ihn hn).map (List.cons_injective)) (ihrest hrest) ?_
    intro path hpath hpath'
    obtain ⟨p, -, rfl⟩ := List.mem_map.mp hpath
    obtain ⟨⟨path', v⟩, he, heq⟩ := List.mem_map.mp hpath'
    obtain ⟨k', hk', p', hp'⟩ := Children.exists_cons_of_mem he
    obtain rfl : k' = k := (List.cons.inj (hp'.symm.trans heq)).1
    exact lt_irrefl k' (hlt k' hk')

/-- The iterator gives the entry it stands before, and goes on to the next one. -/
theorem Iterator.step_spec {it : Iterator K V} {e : List K × V} {l : List (List K × V)}
    (h : it.Before (e :: l)) :
    it.isEnd = false ∧ it.deref = some (e.1.toFinset, e.2)
      ∧ ∃ it', it.step = some it' ∧ it'.Before l := by
  rcases h with ⟨hnil, -⟩ | ⟨honEntry, hroot, hstack, hend, hremaining⟩
  · exact absurd hnil (List.cons_ne_nil e l)
  obtain ⟨root, onEntry, stack⟩ := it
  obtain rfl : onEntry = true := honEntry
  obtain ⟨it', hrun, hbefore⟩ := Iterator.step_of_onEntry hroot hstack
  cases hnode : nodeAt root stack with
  | node value children =>
    have hend' : (nodeAt root stack).isEndOfSet = true := hend
    rw [hnode] at hend' hbefore
    obtain ⟨v, rfl⟩ := Option.isSome_iff_exists.mp hend'
    have hlist : e :: l = (pathOf stack ++ [], v)
        :: (prefixed (pathOf stack) children.entries ++ pending stack) := by
      rw [← hremaining]
      show prefixed (pathOf stack) (nodeAt root stack).entries ++ pending stack = _
      rw [hnode]
      rfl
    obtain ⟨rfl, rfl⟩ := List.cons.inj hlist
    refine ⟨rfl, ?_, it', hrun, hbefore⟩
    have hkeys : (stack.map Position.key).toFinset = (pathOf stack ++ []).toFinset := by
      rw [List.append_nil, pathOf, List.toFinset_reverse]
    show (match nodeAt root stack with
      | .node value _ => value.map (Prod.mk (stack.map Position.key).toFinset)) = _
    rw [hnode, ← hkeys]
    rfl

/-- A loop goes through all entries that are to come, and ends. -/
theorem Iterator.collect_eq {it : Iterator K V} {l : List (List K × V)} (h : it.Before l) {n : ℕ}
    (hn : l.length < n) : it.collect n = some (accumulated ∅ l) := by
  induction l generalizing it n with
  | nil =>
    obtain ⟨n, rfl⟩ := Nat.exists_eq_add_of_lt hn
    rcases h with ⟨-, honEntry, hstack⟩ | ⟨-, -, -, hend, hremaining⟩
    · have hend : it.isEnd = true := by
        rw [isEnd, honEntry, hstack]
        rfl
      rw [collect, if_pos hend]
      rfl
    · -- an entry is not past all entries
      cases hnode : nodeAt it.root it.stack with
      | node value children =>
        rw [hnode] at hend
        obtain ⟨v, rfl⟩ := Option.isSome_iff_exists.mp hend
        rw [remaining, hnode] at hremaining
        exact absurd hremaining (List.cons_ne_nil _ _)
  | cons e l ih =>
    obtain ⟨n, rfl⟩ := Nat.exists_eq_add_of_lt hn
    obtain ⟨hend, hderef, it', hrun, hbefore⟩ := Iterator.step_spec h
    rw [collect, hend, if_neg Bool.false_ne_true, hderef]
    show (it.step >>= fun it => collect _ it >>= fun entries => some (_ :: entries)) = _
    rw [hrun]
    show (collect _ it' >>= fun entries => some (_ :: entries)) = _
    rw [ih hbefore (by simp only [List.length_cons]; omega)]
    show some (_ :: accumulated ∅ l) = some (accumulated ∅ (e :: l))
    rw [accumulated, accumulated, List.map_cons, Finset.empty_union]

/-- `begin()` stands before all entries. -/
theorem Iterator.first_before (h : m.Ordered) :
    ∃ it, Iterator.first m = some it ∧ it.Before m.entries := by
  have hprefixed : ∀ l : List (List K × V), prefixed [] l = l := fun l => List.map_id l
  have hnil : ∀ p ∈ ([] : List (Position K V)), p.Ok := fun p hp => absurd hp List.not_mem_nil
  by_cases hend : m.isEndOfSet = true
  · refine ⟨⟨m, true, []⟩, if_pos hend, .inr ⟨rfl, h, hnil, hend, ?_⟩⟩
    show prefixed [] m.entries ++ [] = m.entries
    rw [List.append_nil, hprefixed]
  · obtain ⟨it', hrun, hbefore⟩ := Iterator.step_of_onEntry h hnil
    refine ⟨it', (if_neg hend).trans hrun, ?_⟩
    obtain ⟨value, children⟩ := m
    have hvalue : value = none := Option.not_isSome_iff_eq_none.mp hend
    have hentries : (MapOfSets.node value children).entries = children.entries := by
      rw [hvalue]
      rfl
    have hremaining : prefixed [] children.entries ++ [] = children.entries := by
      rw [List.append_nil, hprefixed]
    rw [hentries, ← hremaining]
    exact hbefore

end Walk

/-! ## Sequences of insertions -/

section Answers

variable [LinearOrder K]

/-- A sequence of calls of `insert`. -/
def insertAll (calls : List (Finset K × V)) : MapOfSets K V :=
  calls.foldl (fun m call => m.insert call.1.sort call.2) empty

/-- The value that was last inserted for a set. -/
def lastInserted (calls : List (Finset K × V)) (set : Finset K) : Option V :=
  (calls.reverse.find? fun call => decide (call.1 = set)).map Prod.snd

theorem pairwise_sort (set : Finset K) : set.sort.Pairwise (· < ·) :=
  (Finset.sortedLT_sort set).pairwise

theorem sort_subset_iff {set set' : Finset K} : set.sort ⊆ set'.sort ↔ set ⊆ set' := by
  constructor
  · intro h x hx
    exact (Finset.mem_sort _).mp (h ((Finset.mem_sort _).mpr hx))
  · intro h x hx
    exact (Finset.mem_sort _).mpr (h ((Finset.mem_sort _).mp hx))

/-- A path that ascends is the one of its elements. -/
theorem sort_toFinset {path : List K} (h : path.Pairwise (· < ·)) : path.toFinset.sort = path :=
  (List.toFinset_sort _ (h.imp ne_of_lt)).mpr (h.imp le_of_lt)

variable {calls : List (Finset K × V)}

/-- The map keeps its order, and finds what was inserted last. -/
theorem insertAll_spec (calls : List (Finset K × V)) : (insertAll calls).Ordered
    ∧ ∀ set, (insertAll calls).lookup set.sort = lastInserted calls set := by
  induction calls using List.reverseRecOn with
  | nil => exact ⟨ordered_empty, fun set => lookup_empty _⟩
  | append_singleton calls call ih =>
    obtain ⟨hordered, hlookup⟩ := ih
    have hinsert : insertAll (calls ++ [call]) = (insertAll calls).insert call.1.sort call.2 :=
      List.foldl_append
    rw [hinsert]
    refine ⟨hordered.insert (pairwise_sort _) _, fun set => ?_⟩
    rw [lookup_insert hordered, hlookup]
    have hlast : lastInserted (calls ++ [call]) set
        = if call.1 = set then some call.2 else lastInserted calls set := by
      rw [lastInserted, List.reverse_append, List.reverse_singleton, List.singleton_append,
        List.find?_cons]
      by_cases heq : call.1 = set
      · rw [decide_eq_true heq, if_pos heq]
        rfl
      · rw [decide_eq_false heq, if_neg heq]
        rfl
    have hsort : set.sort = call.1.sort ↔ call.1 = set := by
      constructor
      · intro h
        rw [← Finset.sort_toFinset call.1 (fun a b => a ≤ b), ← h, Finset.sort_toFinset]
      · rintro rfl
        rfl
    rw [hlast]
    simp only [hsort]

theorem stored_iff {path : List K} {v : V} : (insertAll calls).Stored path v
    ↔ ∃ set : Finset K, set.sort = path ∧ lastInserted calls set = some v := by
  obtain ⟨hordered, hlookup⟩ := insertAll_spec calls
  constructor
  · intro h
    have hsort := sort_toFinset (hordered.pairwise (mem_entries.mpr h))
    refine ⟨path.toFinset, hsort, ?_⟩
    rw [← hlookup, hsort]
    exact (lookup_eq_some_iff hordered).mpr h
  · rintro ⟨set, rfl, h⟩
    rw [← lookup_eq_some_iff hordered, hlookup, h]

/-- The entries for which a question is answered with yes are collected, each once. -/
theorem collected_spec {q : List K × V → Bool} {Q : Finset K → Prop}
    (hq : ∀ set v, q (Finset.sort set, v) = true ↔ Q set) :
    ((accumulated ∅ ((insertAll calls).entries.filter q)).map Prod.fst).Nodup
      ∧ ∀ set v, (set, v) ∈ accumulated ∅ ((insertAll calls).entries.filter q)
        ↔ Q set ∧ lastInserted calls set = some v := by
  obtain ⟨hordered, hlookup⟩ := insertAll_spec calls
  constructor
  · have hnodup : ((insertAll calls).entries.map Prod.fst).Nodup := nodup_entries hordered
    have hsub := hnodup.sublist (List.Sublist.map Prod.fst (List.filter_sublist (p := q)))
    rw [accumulated, List.map_map]
    have heq : (Prod.fst ∘ fun e : List K × V => (∅ ∪ e.1.toFinset, e.2))
        = List.toFinset ∘ Prod.fst := by
      funext e
      exact Finset.empty_union _
    rw [heq, ← List.map_map]
    apply hsub.map_on
    intro path hpath path' hpath' hset
    obtain ⟨⟨_, v⟩, he, rfl⟩ := List.mem_map.mp hpath
    obtain ⟨⟨_, v'⟩, he', rfl⟩ := List.mem_map.mp hpath'
    have hsort := sort_toFinset (hordered.pairwise (List.mem_of_mem_filter he))
    have hsort' := sort_toFinset (hordered.pairwise (List.mem_of_mem_filter he'))
    rw [← hsort, ← hsort', hset]
  · intro set v
    constructor
    · intro h
      obtain ⟨⟨path, v'⟩, he, heq⟩ := List.mem_map.mp h
      obtain ⟨he, hqe⟩ := List.mem_filter.mp he
      obtain ⟨set', rfl, hlast⟩ := stored_iff.mp (mem_entries.mp he)
      injection heq with hset hv
      have hset' : set' = set := by
        rw [← hset, Finset.empty_union, Finset.sort_toFinset]
      subst hset' hv
      exact ⟨(hq _ _).mp hqe, hlast⟩
    · rintro ⟨hQ, hlast⟩
      refine List.mem_map.mpr ⟨(set.sort, v), List.mem_filter.mpr ⟨?_, (hq _ _).mpr hQ⟩, ?_⟩
      · exact mem_entries.mpr (stored_iff.mpr ⟨set, rfl, hlast⟩)
      · show (∅ ∪ set.sort.toFinset, v) = (set, v)
        rw [Finset.empty_union, Finset.sort_toFinset]

/-- After every sequence of insertions the queries are answered exactly, and the iterator goes
through every stored set once. -/
theorem insertAll_answers (calls : List (Finset K × V)) :
    (∀ set, (insertAll calls).lookup set.sort = lastInserted calls set)
    ∧ (∀ set p, (∀ v, (insertAll calls).findSubset p set.sort = some v →
          ∃ set' ⊆ set, lastInserted calls set' = some v ∧ p v = true)
        ∧ ((∃ v, (insertAll calls).findSubset p set.sort = some v)
          ↔ ∃ set' ⊆ set, ∃ v, lastInserted calls set' = some v ∧ p v = true))
    ∧ (∀ set p, (∀ v, (insertAll calls).findSuperset p set.sort = some v →
          ∃ set', set ⊆ set' ∧ lastInserted calls set' = some v ∧ p v = true)
        ∧ ((∃ v, (insertAll calls).findSuperset p set.sort = some v)
          ↔ ∃ set', set ⊆ set' ∧ ∃ v, lastInserted calls set' = some v ∧ p v = true))
    ∧ (∀ set, (((insertAll calls).subsets set).map Prod.fst).Nodup
        ∧ ∀ set' v, (set', v) ∈ (insertAll calls).subsets set
          ↔ set' ⊆ set ∧ lastInserted calls set' = some v)
    ∧ (∀ set, (((insertAll calls).supersets set).map Prod.fst).Nodup
        ∧ ∀ set' v, (set', v) ∈ (insertAll calls).supersets set
          ↔ set ⊆ set' ∧ lastInserted calls set' = some v)
    ∧ ∃ it l, Iterator.first (insertAll calls) = some it ∧ (l.map Prod.fst).Nodup
        ∧ (∀ set v, (set, v) ∈ l ↔ lastInserted calls set = some v)
        ∧ ∀ n, l.length < n → it.collect n = some l := by
  obtain ⟨hordered, hlookup⟩ := insertAll_spec calls
  have hsubset : ∀ set p v, (insertAll calls).findSubset p set.sort = some v →
      ∃ set' ⊆ set, lastInserted calls set' = some v ∧ p v = true := by
    intro set p v h
    obtain ⟨hp, path, hs, hsub⟩ := stored_of_findSubset h
    obtain ⟨set', rfl, hlast⟩ := stored_iff.mp hs
    exact ⟨set', sort_subset_iff.mp hsub, hlast, hp⟩
  have hsuperset : ∀ set p v, (insertAll calls).findSuperset p set.sort = some v →
      ∃ set', set ⊆ set' ∧ lastInserted calls set' = some v ∧ p v = true := by
    intro set p v h
    obtain ⟨hp, path, hs, hsub⟩ := stored_of_findSuperset h
    obtain ⟨set', rfl, hlast⟩ := stored_iff.mp hs
    exact ⟨set', sort_subset_iff.mp hsub, hlast, hp⟩
  refine ⟨hlookup, fun set p => ⟨hsubset set p, ?_, ?_⟩, fun set p => ⟨hsuperset set p, ?_, ?_⟩,
    fun set => ?_, fun set => ?_, ?_⟩
  · rintro ⟨v, h⟩
    obtain ⟨set', hsub, hlast, hp⟩ := hsubset set p v h
    exact ⟨set', hsub, v, hlast, hp⟩
  · rintro ⟨set', hsub, v, hlast, hp⟩
    exact exists_findSubset hordered (pairwise_sort set) (stored_iff.mpr ⟨set', rfl, hlast⟩) hp
      (sort_subset_iff.mpr hsub)
  · rintro ⟨v, h⟩
    obtain ⟨set', hsub, hlast, hp⟩ := hsuperset set p v h
    exact ⟨set', hsub, v, hlast, hp⟩
  · rintro ⟨set', hsub, v, hlast, hp⟩
    exact exists_findSuperset hordered (pairwise_sort set) (stored_iff.mpr ⟨set', rfl, hlast⟩) hp
      (sort_subset_iff.mpr hsub)
  · rw [subsets, findSubsets_eq hordered ∅ (pairwise_sort set)]
    exact collected_spec fun set' v => within_iff.trans sort_subset_iff
  · rw [supersets, findSupersets_eq hordered ∅ (pairwise_sort set)]
    exact collected_spec fun set' v => covers_iff.trans sort_subset_iff
  · obtain ⟨it, hfirst, hbefore⟩ := Iterator.first_before hordered
    obtain ⟨hnodup, hmem⟩ := @collected_spec K V _ calls (fun _ => true) (fun _ => True)
      fun _ _ => iff_of_true rfl trivial
    rw [List.filter_true] at hnodup hmem
    refine ⟨it, _, hfirst, hnodup, fun set v => (hmem set v).trans (and_iff_right trivial), ?_⟩
    intro n hn
    rw [accumulated, List.length_map] at hn
    exact it.collect_eq hbefore hn

end Answers

end MapOfSets
