/-
Sums over the trees of a list of nodes.

Every node but the root has a parent, and the list has every node after its parent. One pass
over the list from its end adds the value of each node to the value of its parent. When a node
is reached, everything below it has been added already, so each node ends up with the sum over
its tree. The table that the same pass adds up for a key is the sum over the nodes with this
key, and a sum over all trees of the key when no tree has another one inside it.
-/
import Mathlib.Algebra.BigOperators.Group.Finset.Piecewise
import Mathlib.Algebra.BigOperators.Group.Finset.Sigma
import Mathlib.Logic.Relation

set_option autoImplicit false

namespace Xklee

namespace Forest

variable {N : Type*} {parent : N → Option N} {root x y z : N} {l : List N}

/-! ## Nodes after their parents -/

/-- The list has each node once and after its parent. The root is not in it. -/
inductive Listed (parent : N → Option N) (root : N) : List N → Prop
  | nil : Listed parent root []
  | snoc {l : List N} {x p : N} (hl : Listed parent root l) (hp : parent x = some p)
      (hmem : p ∈ root :: l) (hnew : x ∉ root :: l) : Listed parent root (l ++ [x])

theorem Listed.nodup (h : Listed parent root l) : (root :: l).Nodup := by
  induction h with
  | nil => exact List.nodup_singleton root
  | @snoc l x p hl hp hmem hnew ih =>
    rw [← List.cons_append, List.nodup_append]
    refine ⟨ih, List.nodup_singleton x, ?_⟩
    intro a ha b hb
    rw [List.mem_singleton.mp hb]
    exact fun heq => hnew (heq ▸ ha)

/-- The parent of a node is the root or comes before the node. -/
theorem Listed.parent_before (h : Listed parent root l) :
    ∀ front x back, l = front ++ x :: back → ∃ p ∈ root :: front, parent x = some p := by
  induction h with
  | nil =>
    intro front x back heq
    exact absurd heq.symm (List.append_ne_nil_of_right_ne_nil front (List.cons_ne_nil x back))
  | @snoc l z p hl hp hmem hnew ih =>
    intro front x back heq
    -- the node is the new one, or its place is in the old list
    rcases List.eq_nil_or_concat back with rfl | ⟨back', w, rfl⟩
    · obtain ⟨rfl, hlast⟩ := List.append_inj' heq rfl
      obtain rfl : z = x := List.head_eq_of_cons_eq hlast
      exact ⟨p, hmem, hp⟩
    · have hassoc : front ++ x :: (back' ++ [w]) = (front ++ x :: back') ++ [w] := by
        rw [List.append_assoc, List.cons_append]
      rw [List.concat_eq_append, hassoc] at heq
      obtain ⟨rfl, -⟩ := List.append_inj' heq rfl
      exact ih front x back' rfl

theorem Listed.exists_parent (h : Listed parent root l) (hx : x ∈ l) :
    ∃ p ∈ root :: l, parent x = some p := by
  obtain ⟨front, back, rfl⟩ := List.append_of_mem hx
  obtain ⟨p, hp, heq⟩ := h.parent_before front x back rfl
  refine ⟨p, ?_, heq⟩
  rw [← List.cons_append]
  exact List.mem_append_left _ hp

variable {parent' : N → Option N} {p : N}

/-- A list stays one when only nodes outside of it change their parent. -/
theorem Listed.congr (h : Listed parent root l) (heq : ∀ x ∈ l, parent' x = parent x) :
    Listed parent' root l := by
  induction h with
  | nil => exact .nil
  | @snoc l x p hl hp hmem hnew ih =>
    refine .snoc (ih fun y hy => heq y (List.mem_append_left _ hy)) ?_ hmem hnew
    rw [heq x (List.mem_append_right _ (List.mem_singleton_self x))]
    exact hp

/-! ## Trees -/

/-- `m` lies in the tree of `x`: going from a node to its parent leads from `m` to `x`. -/
def Below (parent : N → Option N) (x m : N) : Prop :=
  Relation.ReflTransGen (fun a b => parent a = some b) m x

theorem Below.refl (x : N) : Below parent x x := Relation.ReflTransGen.refl

theorem Below.step (hp : parent y = some p) (h : Below parent x p) : Below parent x y :=
  .head hp h

theorem below_iff : Below parent x y ↔ y = x ∨ ∃ p, parent y = some p ∧ Below parent x p :=
  Relation.ReflTransGen.cases_head_iff

theorem below_of_parent_none (hy : parent y = none) : Below parent x y ↔ y = x := by
  rw [below_iff]
  constructor
  · rintro (rfl | ⟨p, hp, -⟩)
    · rfl
    · rw [hy] at hp
      cases hp
  · exact .inl

theorem below_of_parent (hp : parent y = some p) :
    Below parent x y ↔ y = x ∨ Below parent x p := by
  rw [below_iff]
  constructor
  · rintro (rfl | ⟨q, hq, hbelow⟩)
    · exact .inl rfl
    · rw [hp] at hq
      exact .inr (Option.some.inj hq ▸ hbelow)
  · rintro (rfl | hbelow)
    · exact .inl rfl
    · exact .inr ⟨p, hp, hbelow⟩

/-- The nodes above a node of the list are nodes of the list or the root. -/
theorem Listed.mem_of_below (h : Listed parent root l) (hroot : parent root = none)
    (hy : y ∈ root :: l) (hbelow : Below parent x y) : x ∈ root :: l := by
  induction hbelow using Relation.ReflTransGen.head_induction_on with
  | refl => exact hy
  | head hp _ ih =>
    apply ih
    rcases List.mem_cons.mp hy with rfl | hmem
    · rw [hroot] at hp
      cases hp
    · obtain ⟨p, hp', heq⟩ := h.exists_parent hmem
      rw [hp] at heq
      exact Option.some.inj heq ▸ hp'

/-- Nodes whose chains of parents are the same have the same nodes above them. -/
theorem Listed.below_congr (h : Listed parent root l) (hroot : parent root = none)
    (heq : ∀ x ∈ root :: l, parent' x = parent x) (hy : y ∈ root :: l) :
    Below parent' x y ↔ Below parent x y := by
  constructor
  · intro hbelow
    induction hbelow using Relation.ReflTransGen.head_induction_on with
    | refl => exact .refl x
    | @head a c hp _ ih =>
      rw [heq a hy] at hp
      exact .step hp (ih (h.mem_of_below hroot hy (.step hp (.refl c))))
  · intro hbelow
    induction hbelow using Relation.ReflTransGen.head_induction_on with
    | refl => exact .refl x
    | @head a c hp _ ih =>
      have hc := h.mem_of_below hroot hy (.step hp (.refl c))
      rw [← heq a hy] at hp
      exact .step hp (ih hc)

/-! ## The pass -/

section Pass

variable [DecidableEq N] {M : Type*} [AddCommMonoid M] {value : N → M}

/-- The value of a node is added to that of its parent. -/
def addToParent (parent : N → Option N) (x : N) (value : N → M) : N → M :=
  match parent x with
  | none => value
  | some p => Function.update value p (value p + value x)

/-- The pass from the end of the list. -/
def addUp (parent : N → Option N) (l : List N) (value : N → M) : N → M :=
  l.foldr (addToParent parent) value

theorem addToParent_of_parent {p : N} (hp : parent x = some p) (m : N) :
    addToParent parent x value m = value m + if m = p then value x else 0 := by
  unfold addToParent
  rw [hp]
  show Function.update value p (value p + value x) m = _
  by_cases h : m = p
  · subst h
    rw [Function.update_self, if_pos rfl]
  · rw [Function.update_of_ne h, if_neg h, add_zero]

theorem addUp_snoc (l : List N) (x : N) (value : N → M) :
    addUp parent (l ++ [x]) value = addUp parent l (addToParent parent x value) := by
  rw [addUp, List.foldr_append]
  rfl

/-- A node that is nobody's parent keeps its value. -/
theorem addUp_of_not_parent (h : ∀ y ∈ l, parent y ≠ some x) : addUp parent l value x = value x := by
  induction l with
  | nil => rfl
  | cons y l ih =>
    have hrest := ih fun z hz => h z (List.mem_cons_of_mem y hz)
    rw [addUp, List.foldr_cons]
    show addToParent parent y (addUp parent l value) x = value x
    unfold addToParent
    cases hp : parent y with
    | none => exact hrest
    | some p =>
      have hne : x ≠ p := fun heq => h y List.mem_cons_self (heq ▸ hp)
      show Function.update (addUp parent l value) p _ x = value x
      rw [Function.update_of_ne hne, hrest]

theorem Listed.addUp_new (h : Listed parent root l) (hnew : x ∉ root :: l) :
    addUp parent l value x = value x := by
  apply addUp_of_not_parent
  intro y hy hp
  obtain ⟨p, hmem, heq⟩ := h.exists_parent hy
  rw [hp] at heq
  exact hnew (Option.some.inj heq ▸ hmem)

open Classical in
/-- Each node ends up with the sum over its tree. -/
theorem Listed.addUp_eq_sum (h : Listed parent root l) (hroot : parent root = none)
    (hx : x ∈ root :: l) (value : N → M) :
    addUp parent l value x = ∑ m ∈ (root :: l).toFinset with Below parent x m, value m := by
  induction h generalizing value with
  | nil =>
    obtain rfl := List.mem_singleton.mp hx
    rw [List.toFinset_cons, List.toFinset_nil, insert_empty_eq,
      Finset.filter_singleton, if_pos (Below.refl x), Finset.sum_singleton]
    rfl
  | @snoc l z p hl hp hmem hnew ih =>
    -- the last node is added to its parent, which counts once for the nodes above it
    have hset : (root :: (l ++ [z])).toFinset = insert z (root :: l).toFinset := by
      ext m
      simp only [List.mem_toFinset, List.mem_cons, List.mem_append, List.not_mem_nil, or_false,
        Finset.mem_insert]
      tauto
    have hz : z ∉ (root :: l).toFinset := by rwa [List.mem_toFinset]
    rw [addUp_snoc, hset, Finset.filter_insert]
    by_cases hxz : x = z
    · -- nothing else is below the last node
      subst hxz
      have hnone : ∀ m ∈ (root :: l).toFinset, ¬Below parent x m := fun m hm hbelow =>
        hnew (hl.mem_of_below hroot (List.mem_toFinset.mp hm) hbelow)
      have hpx : x ≠ p := fun heq => hnew (heq ▸ hmem)
      rw [hl.addUp_new hnew, addToParent_of_parent hp, if_neg hpx, if_pos (Below.refl x),
        Finset.filter_false_of_mem hnone, insert_empty_eq, Finset.sum_singleton, add_zero]
    · have hx' : x ∈ root :: l := by
        rw [← List.cons_append, List.mem_append, List.mem_singleton] at hx
        exact hx.resolve_right hxz
      have hbelow : Below parent x z ↔ Below parent x p := by
        rw [below_of_parent hp]
        exact or_iff_right (Ne.symm hxz)
      rw [ih hx']
      simp only [addToParent_of_parent hp]
      rw [Finset.sum_add_distrib, Finset.sum_ite_eq']
      simp only [Finset.mem_filter, List.mem_toFinset, hmem, true_and, hbelow]
      split
      next hb =>
        have hz' : z ∉ (root :: l).toFinset.filter (Below parent x) :=
          fun h => hz (Finset.mem_filter.mp h).1
        rw [Finset.sum_insert hz', add_comm]
      next hb => rw [add_zero]

/-! ## The table of a pass -/

variable {K : Type*} [DecidableEq K] {T : Type*} [AddCommMonoid T] (key : N → K)
  (entry : N → M → T)

/-- One step of the pass that also adds something to the entry of the node's key. -/
def addToTable (parent : N → Option N) (x : N) (s : (N → M) × (K → T)) : (N → M) × (K → T) :=
  (addToParent parent x s.1, Function.update s.2 (key x) (s.2 (key x) + entry x (s.1 x)))

theorem foldr_addToTable_fst (l : List N) (s : (N → M) × (K → T)) :
    (l.foldr (addToTable key entry parent) s).1 = addUp parent l s.1 := by
  induction l with
  | nil => rfl
  | cons x l ih =>
    rw [List.foldr_cons, addToTable, ih]
    rfl

/-- What is added to an entry comes from the final values of the nodes with its key. -/
theorem Listed.foldr_addToTable (h : Listed parent root l) (s : (N → M) × (K → T)) (k : K) :
    (l.foldr (addToTable key entry parent) s).2 k
      = s.2 k + ∑ x ∈ l.toFinset with key x = k, entry x (addUp parent l s.1 x) := by
  induction h generalizing s with
  | nil => rw [List.toFinset_nil, Finset.filter_empty, Finset.sum_empty, add_zero]; rfl
  | @snoc l z p hl hp hmem hnew ih =>
    have hz : z ∉ l.toFinset := fun h => hnew (List.mem_cons_of_mem _ (List.mem_toFinset.mp h))
    have hpz : z ≠ p := fun heq => hnew (heq ▸ hmem)
    -- the last node is final from the beginning
    have hlast : addUp parent (l ++ [z]) s.1 z = s.1 z := by
      rw [addUp_snoc, hl.addUp_new hnew, addToParent_of_parent hp, if_neg hpz, add_zero]
    have hset : (l ++ [z]).toFinset = insert z l.toFinset := by
      ext m
      simp only [List.mem_toFinset, List.mem_append, List.mem_singleton, Finset.mem_insert]
      tauto
    rw [List.foldr_append, hset, Finset.filter_insert]
    show (l.foldr (addToTable key entry parent) (addToTable key entry parent z s)).2 k = _
    rw [ih]
    simp only [addToTable, ← addUp_snoc]
    by_cases hk : key z = k
    · subst hk
      have hz' : z ∉ l.toFinset.filter (fun x => key x = key z) :=
        fun h => hz (Finset.mem_filter.mp h).1
      rw [if_pos rfl, Finset.sum_insert hz', Function.update_self, hlast, add_assoc]
    · rw [if_neg hk, Function.update_of_ne (Ne.symm hk)]

omit [DecidableEq N] in
open Classical in
/-- Where no tree of a key lies inside another one, the sum of the trees of the key has each
node of one of them once. -/
theorem sum_trees (nodes : Finset N) (value : N → M) (k : K) (s : Finset N)
    (hone : ∀ x ∈ s, ∀ y ∈ s, key x = k → key y = k →
      ∀ m ∈ nodes, Below parent x m → Below parent y m → x = y) :
    ∑ x ∈ s with key x = k, ∑ m ∈ nodes with Below parent x m, value m
      = ∑ m ∈ nodes with ∃ x ∈ s, key x = k ∧ Below parent x m, value m := by
  rw [Finset.sum_filter (fun m => ∃ x ∈ s, key x = k ∧ Below parent x m)]
  have hite : ∀ x, ∑ m ∈ nodes with Below parent x m, value m
      = ∑ m ∈ nodes, if Below parent x m then value m else 0 := fun x => Finset.sum_filter _ _
  rw [Finset.sum_congr rfl fun x _ => hite x, Finset.sum_comm]
  refine Finset.sum_congr rfl fun m hm => ?_
  by_cases hex : ∃ x ∈ s, key x = k ∧ Below parent x m
  · obtain ⟨x, hx, hk, hbelow⟩ := hex
    rw [if_pos ⟨x, hx, hk, hbelow⟩, Finset.sum_eq_single_of_mem x (Finset.mem_filter.mpr ⟨hx, hk⟩),
      if_pos hbelow]
    intro y hy hne
    obtain ⟨hy, hk'⟩ := Finset.mem_filter.mp hy
    exact if_neg fun hbelow' => hne (hone y hy x hx hk' hk m hm hbelow' hbelow)
  · rw [if_neg hex]
    apply Finset.sum_eq_zero
    intro x hx
    obtain ⟨hx, hk⟩ := Finset.mem_filter.mp hx
    exact if_neg fun hbelow => hex ⟨x, hx, hk, hbelow⟩

end Pass

end Forest

end Xklee
