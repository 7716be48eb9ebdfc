/-
Lists of entries in increasing order of their keys, as finite maps.

An entry carries its key. `alter` changes what is stored under one key and covers
insertion, replacement and removal; `toMap` is the map that a list stands for. The
lemmas about a list that is split at an entry serve the search trees whose inorder
traversal the list is.
-/
import Mathlib.Order.Lattice
import Mathlib.Data.List.Basic
import Mathlib.Logic.Function.Basic
import Mathlib.Order.Defs.LinearOrder
import Mathlib.Order.Basic

set_option autoImplicit false

universe u v

namespace KeyedList

variable {K : Type u} {V : Type v}

/-! ## Maps -/

open Classical in
/-- The entry of a map whose key comes first for `r`. -/
noncomputable def extreme (keyOf : V → K) (r : K → K → Prop) (m : K → Option V) : Option V :=
  if h : ∃ v, m (keyOf v) = some v ∧ ∀ k, m k ≠ none → r (keyOf v) k then some h.choose else none

theorem extreme_eq_some {keyOf : V → K} {v : V} {r : K → K → Prop}
    (hr : ∀ a b, r a b → r b a → a = b) {m : K → Option V} (hv : m (keyOf v) = some v)
    (hfirst : ∀ k, m k ≠ none → r (keyOf v) k) :
    extreme keyOf r m = some v := by
  have h : ∃ v, m (keyOf v) = some v ∧ ∀ k, m k ≠ none → r (keyOf v) k := ⟨v, hv, hfirst⟩
  rw [extreme, dif_pos h]
  obtain ⟨hchoose, hchoose'⟩ := h.choose_spec
  have hkey : keyOf h.choose = keyOf v :=
    hr _ _ (hchoose' _ (by rw [hv]; simp)) (hfirst _ (by rw [hchoose]; simp))
  rw [← hchoose, hkey, hv]

theorem extreme_empty (keyOf : V → K) (r : K → K → Prop) :
    extreme keyOf r (fun _ => none) = none := by
  rw [extreme, dif_neg]
  rintro ⟨v, hv, -⟩
  exact absurd hv (by simp)

/-! ## Lists -/

variable [LinearOrder K] (keyOf : V → K)

/-- The keys increase. -/
def Sorted (es : List V) : Prop := es.Pairwise fun a b => keyOf a < keyOf b

/-- Change what is stored under `k`. -/
def alter (k : K) (f : Option V → Option V) : List V → List V
  | [] => (f none).toList
  | x :: xs =>
      if k < keyOf x then (f none).toList ++ x :: xs
      else if keyOf x < k then x :: alter k f xs
      else (f (some x)).toList ++ xs

/-- The entry under each key. -/
def toMap (es : List V) (k : K) : Option V := es.find? fun v => keyOf v = k

/-- The entry with the largest key that is at most `k`. -/
def previous (k : K) (es : List V) : Option V := (es.filter fun v => keyOf v ≤ k).getLast?

variable {keyOf}

theorem sorted_append {es es' : List V} :
    Sorted keyOf (es ++ es') ↔ Sorted keyOf es ∧ Sorted keyOf es'
      ∧ ∀ a ∈ es, ∀ b ∈ es', keyOf a < keyOf b :=
  List.pairwise_append

theorem sorted_cons {x : V} {es : List V} :
    Sorted keyOf (x :: es) ↔ (∀ b ∈ es, keyOf x < keyOf b) ∧ Sorted keyOf es :=
  List.pairwise_cons

/-! ## Lists split at an entry -/

section Split

variable {k : K} (f : Option V → Option V) {x : V} {es es' : List V}

theorem alter_append_lt (h : k < keyOf x) :
    alter keyOf k f (es ++ x :: es') = alter keyOf k f es ++ x :: es' := by
  induction es with
  | nil => rw [List.nil_append, alter, alter, if_pos h]
  | cons y es ih =>
    rw [List.cons_append, alter, alter, ih]
    split
    next => rw [List.append_assoc, List.cons_append]
    next =>
      split
      next => rfl
      next => rw [List.append_assoc]

theorem alter_append_of_lt (hes : ∀ y ∈ es, keyOf y < k) (rest : List V) :
    alter keyOf k f (es ++ rest) = es ++ alter keyOf k f rest := by
  induction es with
  | nil => rfl
  | cons y es ih =>
    obtain ⟨hy, hes⟩ := List.forall_mem_cons.mp hes
    rw [List.cons_append, alter, if_neg (lt_asymm hy), if_pos hy, ih hes, List.cons_append]

theorem alter_append_gt (hes : ∀ y ∈ es, keyOf y < keyOf x) (h : keyOf x < k) :
    alter keyOf k f (es ++ x :: es') = es ++ x :: alter keyOf k f es' := by
  rw [alter_append_of_lt f (fun y hy => (hes y hy).trans h), alter, if_neg (lt_asymm h), if_pos h]

theorem alter_append_eq (hes : ∀ y ∈ es, keyOf y < keyOf x) (h : keyOf x = k) :
    alter keyOf k f (es ++ x :: es') = es ++ ((f (some x)).toList ++ es') := by
  subst h
  rw [alter_append_of_lt f hes, alter, if_neg (lt_irrefl _), if_neg (lt_irrefl _)]

end Split

/-! ## The map of a list -/

section Map

variable {k : K} {f : Option V → Option V} {x : V} {es : List V}

theorem toMap_nil (k : K) : toMap keyOf [] k = none := rfl

theorem toMap_cons (x : V) (es : List V) (k : K) :
    toMap keyOf (x :: es) k = if keyOf x = k then some x else toMap keyOf es k := by
  rw [toMap, List.find?_cons]
  by_cases h : keyOf x = k
  · simp [h]
  · simp [h, toMap]

variable {v : V} {o : Option V}

theorem keyOf_of_toMap (h : toMap keyOf es k = some v) : keyOf v = k := by
  simpa using List.find?_some h

theorem toMap_eq_none (h : ∀ y ∈ es, keyOf y ≠ k) : toMap keyOf es k = none := by
  rw [toMap, List.find?_eq_none]
  intro y hy
  simpa using h y hy

theorem toMap_eq_none_of_lt (h : ∀ y ∈ es, k < keyOf y) : toMap keyOf es k = none :=
  toMap_eq_none fun y hy => (h y hy).ne'

/-- The map holds exactly the entries of the list. -/
theorem toMap_keyOf (h : Sorted keyOf es) : toMap keyOf es (keyOf v) = some v ↔ v ∈ es := by
  induction es with
  | nil => simp [toMap]
  | cons x es ih =>
    obtain ⟨hx, hes⟩ := sorted_cons.mp h
    rw [toMap_cons, List.mem_cons]
    by_cases hkey : keyOf x = keyOf v
    · have hnot : v ∉ es := fun hmem => (hx v hmem).ne hkey
      rw [if_pos hkey, Option.some.injEq, or_iff_left hnot]
      exact eq_comm
    · rw [if_neg hkey, ih hes]
      exact ⟨.inr, fun hmem => hmem.resolve_left fun heq => hkey (heq ▸ rfl)⟩

theorem toMap_ne_none : toMap keyOf es k ≠ none ↔ ∃ v ∈ es, keyOf v = k := by
  rw [ne_eq, toMap, List.find?_eq_none]
  simp

theorem toMap_append (es es' : List V) (k : K) :
    toMap keyOf (es ++ es') k = (toMap keyOf es k).or (toMap keyOf es' k) := by
  rw [toMap, List.find?_append]
  rfl

theorem toMap_toList (ho : ∀ v, o = some v → keyOf v = k) :
    toMap keyOf o.toList = Function.update (fun _ => none) k o := by
  funext k'
  cases o with
  | none =>
    rw [Option.toList_none, toMap_nil]
    by_cases hk : k' = k
    · rw [hk, Function.update_self]
    · rw [Function.update_of_ne hk]
  | some v =>
    obtain rfl := ho v rfl
    rw [Option.toList_some, toMap_cons, toMap_nil]
    by_cases hk : k' = keyOf v
    · rw [hk, if_pos rfl, Function.update_self]
    · rw [if_neg (Ne.symm hk), Function.update_of_ne hk]

/-- A function on what is stored under `k` that stores only entries with this key. -/
def KeepsKey (keyOf : V → K) (k : K) (f : Option V → Option V) : Prop :=
  ∀ o, (∀ v, o = some v → keyOf v = k) → ∀ v, f o = some v → keyOf v = k

theorem mem_alter (hf : KeepsKey keyOf k f) (h : v ∈ alter keyOf k f es) :
    v ∈ es ∨ keyOf v = k := by
  induction es with
  | nil =>
    rw [alter, Option.mem_toList] at h
    exact .inr (hf none (by simp) v h)
  | cons x es ih =>
    rw [alter] at h
    split at h
    next =>
      rw [List.mem_append, Option.mem_toList] at h
      exact h.symm.imp_right (hf none (by simp) v)
    next =>
      split at h
      next =>
        rw [List.mem_cons] at h ⊢
        rcases h with rfl | h
        · exact .inl (.inl rfl)
        · exact (ih h).imp_left .inr
      next hlt hgt =>
        have hkey : keyOf x = k := le_antisymm (not_lt.mp hlt) (not_lt.mp hgt)
        rw [List.mem_append, Option.mem_toList] at h
        rcases h with h | h
        · refine .inr (hf (some x) (fun y hy => ?_) v h)
          rwa [← Option.some.inj hy]
        · exact .inl (List.mem_cons_of_mem _ h)

/-- An entry that is stored is there. -/
theorem mem_alter_self (v : V) (k : K) (es : List V) : v ∈ alter keyOf k (fun _ => some v) es := by
  induction es with
  | nil => exact List.mem_singleton_self v
  | cons x es ih =>
    rw [alter]
    split
    · exact List.mem_cons_self
    · split
      · exact List.mem_cons_of_mem _ ih
      · exact List.mem_cons_self

/-- The entries under other keys stay. -/
theorem mem_alter_of_ne (hv : v ∈ es) (hne : keyOf v ≠ k) : v ∈ alter keyOf k f es := by
  induction es with
  | nil => exact absurd hv List.not_mem_nil
  | cons x es ih =>
    rw [alter]
    split
    next => exact List.mem_append_right _ hv
    next hlt =>
      split
      next =>
        rcases List.mem_cons.mp hv with rfl | hv
        · exact List.mem_cons_self
        · exact List.mem_cons_of_mem _ (ih hv)
      next hgt =>
        have hkey : keyOf x = k := le_antisymm (not_lt.mp hlt) (not_lt.mp hgt)
        rcases List.mem_cons.mp hv with rfl | hv
        · exact absurd hkey hne
        · exact List.mem_append_right _ hv

/-- Storing under the key of an entry replaces it. -/
theorem alter_replace (h : Sorted keyOf es) (hv : v ∈ es) (v' : V) :
    alter keyOf (keyOf v) (fun _ => some v') es
      = es.map fun y => if keyOf y = keyOf v then v' else y := by
  induction es with
  | nil => exact absurd hv List.not_mem_nil
  | cons x es ih =>
    obtain ⟨hx, hes⟩ := sorted_cons.mp h
    rw [alter, List.map_cons]
    rcases List.mem_cons.mp hv with rfl | hv
    · rw [if_neg (lt_irrefl _), if_neg (lt_irrefl _), if_pos rfl]
      have hrest : es.map (fun y => if keyOf y = keyOf v then v' else y) = es :=
        (List.map_congr_left fun y hy => if_neg (hx y hy).ne').trans (List.map_id' es)
      rw [hrest]
      rfl
    · rw [if_neg (lt_asymm (hx v hv)), if_pos (hx v hv), if_neg (hx v hv).ne, ih hes hv]

/-- What is stored whatever was there is the only new entry. -/
theorem mem_alter_const (h : v ∈ alter keyOf k (fun _ => o) es) :
    v ∈ es ∨ o = some v := by
  induction es with
  | nil => exact .inr (Option.mem_toList.mp h)
  | cons x es ih =>
    rw [alter] at h
    split at h
    next =>
      rw [List.mem_append, Option.mem_toList] at h
      exact h.symm
    next =>
      split at h
      next =>
        rcases List.mem_cons.mp h with rfl | h
        · exact .inl List.mem_cons_self
        · exact (ih h).imp_left (List.mem_cons_of_mem _)
      next =>
        rw [List.mem_append, Option.mem_toList] at h
        exact h.symm.imp_left (List.mem_cons_of_mem _)

theorem sorted_toList_append (ho : ∀ v, o = some v → keyOf v = k) (hes : Sorted keyOf es)
    (hk : ∀ y ∈ es, k < keyOf y) : Sorted keyOf (o.toList ++ es) := by
  refine sorted_append.mpr ⟨?_, hes, ?_⟩
  · cases o with
    | none => exact .nil
    | some v => exact List.pairwise_singleton _ _
  · intro a ha b hb
    rw [ho a (Option.mem_toList.mp ha)]
    exact hk b hb

/-- Changing an entry keeps the order. -/
theorem sorted_alter (hf : KeepsKey keyOf k f) (h : Sorted keyOf es) :
    Sorted keyOf (alter keyOf k f es) := by
  induction es with
  | nil =>
    have hone := sorted_toList_append (hf none (by simp)) .nil (by simp)
    rwa [List.append_nil] at hone
  | cons x es ih =>
    obtain ⟨hx, hes⟩ := sorted_cons.mp h
    rw [alter]
    split
    next hlt =>
      refine sorted_toList_append (hf none (by simp)) h ?_
      exact List.forall_mem_cons.mpr ⟨hlt, fun y hy => hlt.trans (hx y hy)⟩
    next hlt =>
      split
      next hgt =>
        refine sorted_cons.mpr ⟨fun y hy => ?_, ih hes⟩
        rcases mem_alter hf hy with hy | hy
        · exact hx y hy
        · exact hy ▸ hgt
      next hgt =>
        have hkey : keyOf x = k := le_antisymm (not_lt.mp hlt) (not_lt.mp hgt)
        refine sorted_toList_append (hf (some x) fun y hy => ?_) hes (hkey ▸ hx)
        rwa [← Option.some.inj hy]

/-- Changing an entry changes the map at its key. -/
theorem toMap_alter (hf : KeepsKey keyOf k f) (h : Sorted keyOf es) :
    toMap keyOf (alter keyOf k f es)
      = Function.update (toMap keyOf es) k (f (toMap keyOf es k)) := by
  induction es with
  | nil => exact toMap_toList (hf none (by simp))
  | cons x es ih =>
    obtain ⟨hx, hes⟩ := sorted_cons.mp h
    rw [alter]
    funext k'
    split
    next hlt =>
      have hnone : toMap keyOf (x :: es) k = none := toMap_eq_none_of_lt
        (List.forall_mem_cons.mpr ⟨hlt, fun y hy => hlt.trans (hx y hy)⟩)
      rw [toMap_append, toMap_toList (hf none (by simp)), hnone]
      by_cases hk : k' = k
      · rw [hk, Function.update_self, Function.update_self, hnone, Option.or_none]
      · rw [Function.update_of_ne hk, Function.update_of_ne hk, Option.none_or]
    next hlt =>
      split
      next hgt =>
        have hxk : toMap keyOf (x :: es) k = toMap keyOf es k := by
          rw [toMap_cons, if_neg hgt.ne]
        rw [toMap_cons, ih hes, hxk]
        by_cases hk : k' = k
        · rw [hk, if_neg hgt.ne, Function.update_self, Function.update_self]
        · rw [Function.update_of_ne hk, Function.update_of_ne hk, toMap_cons]
      next hgt =>
        have hkey : keyOf x = k := le_antisymm (not_lt.mp hlt) (not_lt.mp hgt)
        have hsome : toMap keyOf (x :: es) k = some x := by rw [toMap_cons, if_pos hkey]
        have hout : ∀ v, f (some x) = some v → keyOf v = k := hf (some x) fun y hy => by
          rwa [← Option.some.inj hy]
        rw [toMap_append, toMap_toList hout, hsome]
        by_cases hk : k' = k
        · have hnone : toMap keyOf es k = none := toMap_eq_none_of_lt (hkey ▸ hx)
          rw [hk, Function.update_self, Function.update_self, hnone, Option.or_none]
        · have hne : keyOf x ≠ k' := fun heq => hk (heq ▸ hkey)
          rw [Function.update_of_ne hk, Function.update_of_ne hk, toMap_cons, if_neg hne,
            Option.none_or]

/-- What is stored whatever was there takes the place of the entry with its key. -/
theorem mem_alter_const_iff (h : Sorted keyOf es) (ho : ∀ v, o = some v → keyOf v = k) :
    v ∈ alter keyOf k (fun _ => o) es ↔ o = some v ∨ v ∈ es ∧ keyOf v ≠ k := by
  have hkeeps : KeepsKey keyOf k fun _ => o := fun _ _ => ho
  rw [← toMap_keyOf (sorted_alter hkeeps h), toMap_alter hkeeps h]
  by_cases hk : keyOf v = k
  · rw [hk, Function.update_self]
    exact ⟨.inl, fun hv => hv.resolve_right fun hv => hv.2 rfl⟩
  · rw [Function.update_of_ne hk, toMap_keyOf h]
    exact ⟨fun hv => .inr ⟨hv, hk⟩, fun hv => (hv.resolve_left fun hov => hk (ho v hov)).1⟩

end Map

/-! ## The ends -/

section Ends

variable {v : V} {es : List V}

/-- The first entry has the least key. -/
theorem extreme_cons (h : Sorted keyOf (v :: es)) :
    extreme keyOf (· ≤ ·) (toMap keyOf (v :: es)) = some v := by
  refine extreme_eq_some (fun a b => le_antisymm) ((toMap_keyOf h).mpr List.mem_cons_self) ?_
  intro k hk
  obtain ⟨y, hy, rfl⟩ := toMap_ne_none.mp hk
  rcases List.mem_cons.mp hy with rfl | hy
  · exact le_rfl
  · exact ((sorted_cons.mp h).1 y hy).le

/-- The last entry has the greatest key. -/
theorem extreme_snoc (h : Sorted keyOf (es ++ [v])) :
    extreme keyOf (· ≥ ·) (toMap keyOf (es ++ [v])) = some v := by
  refine extreme_eq_some (fun a b hab hba => le_antisymm hba hab)
    ((toMap_keyOf h).mpr (by simp)) ?_
  intro k hk
  obtain ⟨y, hy, rfl⟩ := toMap_ne_none.mp hk
  rcases List.mem_append.mp hy with hy | hy
  · exact ((sorted_append.mp h).2.2 y hy v (by simp)).le
  · rw [List.mem_singleton.mp hy]

theorem head?_eq_extreme (h : Sorted keyOf es) :
    es.head? = extreme keyOf (· ≤ ·) (toMap keyOf es) := by
  cases es with
  | nil => exact (extreme_empty keyOf _).symm
  | cons v es => rw [extreme_cons h, List.head?_cons]

theorem getLast?_eq_extreme (h : Sorted keyOf es) :
    es.getLast? = extreme keyOf (· ≥ ·) (toMap keyOf es) := by
  cases hlast : es.getLast? with
  | none =>
    rw [List.getLast?_eq_none_iff.mp hlast]
    exact (extreme_empty keyOf _).symm
  | some v =>
    obtain ⟨init, rfl⟩ := List.getLast?_eq_some_iff.mp hlast
    exact (extreme_snoc h).symm

/-- Dropping an end removes its key. -/
theorem toMap_tail (h : Sorted keyOf (v :: es)) :
    toMap keyOf es = Function.update (toMap keyOf (v :: es)) (keyOf v) none := by
  funext k
  by_cases hk : k = keyOf v
  · rw [hk, Function.update_self]
    exact toMap_eq_none_of_lt (sorted_cons.mp h).1
  · rw [Function.update_of_ne hk, toMap_cons, if_neg (Ne.symm hk)]

theorem toMap_init (h : Sorted keyOf (es ++ [v])) :
    toMap keyOf es = Function.update (toMap keyOf (es ++ [v])) (keyOf v) none := by
  funext k
  by_cases hk : k = keyOf v
  · rw [hk, Function.update_self]
    exact toMap_eq_none fun y hy => ((sorted_append.mp h).2.2 y hy v (by simp)).ne
  · rw [Function.update_of_ne hk, toMap_append, toMap_cons, if_neg (Ne.symm hk), toMap_nil,
      Option.or_none]

theorem getLast?_eq_some (h : Sorted keyOf es) :
    es.getLast? = some v ↔ v ∈ es ∧ ∀ y ∈ es, keyOf y ≤ keyOf v := by
  have hlast : ∀ w, es.getLast? = some w → w ∈ es ∧ ∀ y ∈ es, keyOf y ≤ keyOf w := by
    intro w hw
    obtain ⟨init, rfl⟩ := List.getLast?_eq_some_iff.mp hw
    refine ⟨by simp, fun y hy => ?_⟩
    rcases List.mem_append.mp hy with hy | hy
    · exact ((sorted_append.mp h).2.2 y hy w (by simp)).le
    · rw [List.mem_singleton.mp hy]
  constructor
  · exact hlast v
  · rintro ⟨hmem, hmax⟩
    cases hw : es.getLast? with
    | none =>
      rw [List.getLast?_eq_none_iff.mp hw] at hmem
      exact absurd hmem List.not_mem_nil
    | some w =>
      obtain ⟨hwmem, hwmax⟩ := hlast w hw
      have hkey : keyOf w = keyOf v := le_antisymm (hmax w hwmem) (hwmax v hmem)
      rw [← (toMap_keyOf h).mpr hwmem, hkey, (toMap_keyOf h).mpr hmem]

variable {k : K} {x : V} {es es' : List V}

/-- The last entry up to a key has the greatest key up to it. -/
theorem previous_eq_some (h : Sorted keyOf es) :
    previous keyOf k es = some v
      ↔ v ∈ es ∧ keyOf v ≤ k ∧ ∀ y ∈ es, keyOf y ≤ k → keyOf y ≤ keyOf v := by
  have hfilter : Sorted keyOf (es.filter fun v => keyOf v ≤ k) := List.Pairwise.filter _ h
  rw [previous, getLast?_eq_some hfilter]
  simp only [List.mem_filter, decide_eq_true_eq, and_assoc, and_imp]

theorem previous_eq_none : previous keyOf k es = none ↔ ∀ y ∈ es, k < keyOf y := by
  rw [previous, List.getLast?_eq_none_iff, List.filter_eq_nil_iff]
  simp

theorem previous_append_lt (h : k < keyOf x) (hes' : ∀ y ∈ es', k < keyOf y) :
    previous keyOf k (es ++ x :: es') = previous keyOf k es := by
  have hnone : (x :: es').filter (fun v => keyOf v ≤ k) = [] := by
    rw [List.filter_eq_nil_iff]
    intro y hy
    have hy' : k < keyOf y := by
      rcases List.mem_cons.mp hy with rfl | hy
      · exact h
      · exact hes' y hy
    simpa using hy'
  rw [previous, List.filter_append, hnone, List.append_nil, previous]

theorem previous_append_ge (h : keyOf x ≤ k) :
    previous keyOf k (es ++ x :: es') = (previous keyOf k es').or (some x) := by
  rw [previous, List.filter_append, List.filter_cons_of_pos (by simpa using h),
    List.getLast?_append, List.getLast?_cons, previous]
  cases (es'.filter fun v => keyOf v ≤ k).getLast? <;> rfl

end Ends

end KeyedList
