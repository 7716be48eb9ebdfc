/-
The lexicographic order of trees.

A tree is compared with another by its root first and then child by child. What is compared at a
root is a comparison `cmp` of its own, and `children` takes a tree apart; both are parameters, so
that the trees may be of any type. The comparison recurses on a bound for the depth, and below a
bound that is large enough the bound does not matter.

The comparison is a total order when the comparison of the roots is oriented and transitive. It is
zero on equal trees only, when roots that compare equal and equal children determine the tree.
-/
import Mathlib.Data.Nat.Notation

set_option autoImplicit false

universe u

namespace TreeOrder

variable {T : Type u} (cmp : T → T → Ordering) (children : T → List T)

/-- The comparison of trees to a bounded depth. -/
def compareTo : ℕ → T → T → Ordering
  | 0, _, _ => .eq
  | n + 1, s, t => (cmp s t).then ((children s).compareLex (compareTo n) (children t))

variable {cmp children}

theorem compareTo_succ (n : ℕ) : compareTo cmp children (n + 1) =
    compareLex cmp fun s t => (children s).compareLex (compareTo cmp children n) (children t) := rfl

section Laws

variable (cmp children)

/-- Comparisons of what a function gives inherit orientation. -/
theorem oriented_on {α β : Type u} (f : α → β) (c : β → β → Ordering) [Std.OrientedCmp c] :
    Std.OrientedCmp fun a b => c (f a) (f b) where
  eq_swap := Std.OrientedCmp.eq_swap

/-- Comparisons of what a function gives inherit transitivity. -/
theorem trans_on {α β : Type u} (f : α → β) (c : β → β → Ordering) [Std.TransCmp c] :
    Std.TransCmp fun a b => c (f a) (f b) where
  eq_swap := Std.OrientedCmp.eq_swap
  isLE_trans := Std.TransCmp.isLE_trans

instance oriented_compareTo [Std.OrientedCmp cmp] (n : ℕ) :
    Std.OrientedCmp (compareTo cmp children n) := by
  induction n with
  | zero => exact ⟨rfl⟩
  | succ n ih =>
    have := oriented_on children (List.compareLex (compareTo cmp children n))
    rw [compareTo_succ]
    infer_instance

instance trans_compareTo [Std.TransCmp cmp] (n : ℕ) : Std.TransCmp (compareTo cmp children n) := by
  induction n with
  | zero => exact { eq_swap := rfl, isLE_trans := fun _ _ => rfl }
  | succ n ih =>
    have := trans_on children (List.compareLex (compareTo cmp children n))
    rw [compareTo_succ]
    infer_instance

end Laws

/-- Comparisons that agree on the elements of a list agree on the list. -/
theorem compareLex_congr {c d : T → T → Ordering} {xs : List T} (ys : List T)
    (h : ∀ x ∈ xs, ∀ y, c x y = d x y) : xs.compareLex c ys = xs.compareLex d ys := by
  induction xs generalizing ys with
  | nil => cases ys <;> rfl
  | cons x xs ih =>
    cases ys with
    | nil => rfl
    | cons y ys =>
      rw [List.compareLex_cons_cons, List.compareLex_cons_cons, h x List.mem_cons_self,
        ih ys fun z hz => h z (List.mem_cons_of_mem _ hz)]

/-- Lists that compare equal are equal when their elements are. -/
theorem eq_of_compareLex {c : T → T → Ordering} {xs ys : List T}
    (h : ∀ x ∈ xs, ∀ y, c x y = .eq → x = y) (hlex : xs.compareLex c ys = .eq) : xs = ys := by
  induction xs generalizing ys with
  | nil => exact (List.compareLex_nil_left_eq_eq.mp hlex).symm
  | cons x xs ih =>
    cases ys with
    | nil => exact absurd (hlex.symm.trans List.compareLex_cons_nil) (by decide)
    | cons y ys =>
      rw [List.compareLex_cons_cons, Ordering.then_eq_eq] at hlex
      rw [h x List.mem_cons_self y hlex.1,
        ih (fun z hz => h z (List.mem_cons_of_mem _ hz)) hlex.2]

section Size

variable {size : T → ℕ} (hsize : ∀ t, ∀ c ∈ children t, size c < size t)
include hsize

/-- Below the size of the left tree the bound does not show. -/
theorem compareTo_eq {n m : ℕ} {s : T} (t : T) (hn : size s < n) (hm : size s < m) :
    compareTo cmp children n s t = compareTo cmp children m s t := by
  induction n generalizing m s t with
  | zero => omega
  | succ n ih =>
    cases m with
    | zero => omega
    | succ m =>
      have hkids : (children s).compareLex (compareTo cmp children n) (children t) =
          (children s).compareLex (compareTo cmp children m) (children t) := by
        apply compareLex_congr
        intro c hc y
        have hlt := hsize s c hc
        exact ih y (by omega) (by omega)
      show (cmp s t).then _ = (cmp s t).then _
      rw [hkids]

/-- Trees that compare equal are equal. -/
theorem eq_of_compareTo (hext : ∀ s t, cmp s t = .eq → children s = children t → s = t) {n : ℕ}
    {s t : T} (hn : size s < n) (h : compareTo cmp children n s t = .eq) : s = t := by
  induction n generalizing s t with
  | zero => omega
  | succ n ih =>
    have hparts : cmp s t = .eq ∧
        (children s).compareLex (compareTo cmp children n) (children t) = .eq :=
      Ordering.then_eq_eq.mp h
    apply hext s t hparts.1
    apply eq_of_compareLex _ hparts.2
    intro c hc y hy
    have hlt := hsize s c hc
    exact ih (by omega) hy

end Size

end TreeOrder
