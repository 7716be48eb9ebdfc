/-
Search with a stack and a set of visited elements.

An element is pushed when it is seen for the first time. The search takes an
element from the stack, updates a result and pushes what the visit asks for. The
number of rounds is bounded by a parameter; when the elements that can be seen
lie in a finite list, the length of that list is enough rounds, and every
visited element has been dealt with at the end.
-/
import Mathlib.Data.List.Perm.Subperm

set_option autoImplicit false

universe u v

/-- The elements to visit, and all that were ever pushed. -/
structure Worklist (α : Type u) where
  stack : List α
  visited : List α

namespace Worklist

variable {α : Type u} {R : Type v} [DecidableEq α]

/-- `if (visited.insert(k).second) stack.push_back(k)`. -/
def push (wl : Worklist α) (k : α) : Worklist α :=
  if k ∈ wl.visited then wl else ⟨k :: wl.stack, k :: wl.visited⟩

def pushAll (wl : Worklist α) (ks : List α) : Worklist α := ks.foldl push wl

/-- At most `n` rounds of the search. -/
def search (visit : R → α → List α × R) : ℕ → Worklist α → R → Worklist α × R
  | 0, wl, r => (wl, r)
  | n + 1, wl, r =>
      match wl.stack with
      | [] => (wl, r)
      | top :: rest =>
          let (ks, r') := visit r top
          search visit n (pushAll ⟨rest, wl.visited⟩ ks) r'

/-! ## Pushing -/

theorem mem_visited_push (wl : Worklist α) (k x : α) :
    x ∈ (wl.push k).visited ↔ x ∈ wl.visited ∨ x = k := by
  rw [push]
  split
  next h =>
    constructor
    · exact Or.inl
    · rintro (hx | rfl)
      · exact hx
      · exact h
  next h => rw [List.mem_cons, or_comm]

theorem mem_stack_push (wl : Worklist α) (k x : α) :
    x ∈ (wl.push k).stack ↔ x ∈ wl.stack ∨ (x = k ∧ k ∉ wl.visited) := by
  rw [push]
  split
  next h => simp [h]
  next h =>
    rw [List.mem_cons, or_comm]
    simp [h]

theorem mem_visited_pushAll (ks : List α) (wl : Worklist α) (x : α) :
    x ∈ (wl.pushAll ks).visited ↔ x ∈ wl.visited ∨ x ∈ ks := by
  induction ks generalizing wl with
  | nil => simp [pushAll]
  | cons k ks ih =>
    change x ∈ ((wl.push k).pushAll ks).visited ↔ _
    rw [ih, mem_visited_push, List.mem_cons, or_assoc]

theorem mem_stack_pushAll_of_mem (ks : List α) (wl : Worklist α) {x : α} (hx : x ∈ wl.stack) :
    x ∈ (wl.pushAll ks).stack := by
  induction ks generalizing wl with
  | nil => exact hx
  | cons k ks ih => exact ih _ ((mem_stack_push wl k x).mpr (.inl hx))

/-- Whatever is pushed for the first time is on the stack. -/
theorem mem_stack_pushAll (ks : List α) (wl : Worklist α) {x : α}
    (hx : x ∈ (wl.pushAll ks).visited) (hnew : x ∉ wl.visited) : x ∈ (wl.pushAll ks).stack := by
  induction ks generalizing wl with
  | nil => exact absurd hx hnew
  | cons k ks ih =>
    by_cases hk : x = k
    · exact mem_stack_pushAll_of_mem ks _ ((mem_stack_push wl k x).mpr (.inr ⟨hk, hk ▸ hnew⟩))
    · refine ih _ hx (fun h => ?_)
      rcases (mem_visited_push wl k x).mp h with h | h
      · exact hnew h
      · exact hk h

theorem stack_subset_pushAll (ks : List α) (wl : Worklist α)
    (h : ∀ x ∈ wl.stack, x ∈ wl.visited) :
    ∀ x ∈ (wl.pushAll ks).stack, x ∈ (wl.pushAll ks).visited := by
  induction ks generalizing wl with
  | nil => exact h
  | cons k ks ih =>
    refine ih _ (fun x hx => ?_)
    rw [mem_visited_push]
    rcases (mem_stack_push wl k x).mp hx with hx | hx
    · exact .inl (h x hx)
    · exact .inr hx.1

/-- Pushing keeps apart what was visited and what is still on the stack. -/
theorem pushAll_count (ks : List α) (wl : Worklist α) :
    (wl.pushAll ks).visited.length + wl.stack.length
      = (wl.pushAll ks).stack.length + wl.visited.length := by
  induction ks generalizing wl with
  | nil => exact Nat.add_comm _ _
  | cons k ks ih =>
    have h := ih (wl.push k)
    change ((wl.push k).pushAll ks).visited.length + _ = ((wl.push k).pushAll ks).stack.length + _
    have hpush : (wl.push k).stack.length + wl.visited.length
        = (wl.push k).visited.length + wl.stack.length := by
      rw [push]
      split
      · exact Nat.add_comm _ _
      · simp only [List.length_cons]
        omega
    omega

theorem pushAll_nodup (ks : List α) (wl : Worklist α) (h : wl.visited.Nodup) :
    (wl.pushAll ks).visited.Nodup := by
  induction ks generalizing wl with
  | nil => exact h
  | cons k ks ih =>
    refine ih _ ?_
    rw [push]
    split
    · exact h
    next hk => exact List.nodup_cons.mpr ⟨hk, h⟩

/-! ## The rule for searches -/

/-- What a visit has to establish: `Inv` relates the visited elements and the
result, `Done x` says that `x` has been dealt with. -/
structure VisitRule (visit : R → α → List α × R) (U : List α) (Inv : List α → R → Prop)
    (Done : α → List α → R → Prop) : Prop where
  subset : ∀ r x, x ∈ U → ∀ k ∈ (visit r x).1, k ∈ U
  inv : ∀ r x v v', Inv v r → (∀ y, y ∈ v' ↔ y ∈ v ∨ y ∈ (visit r x).1) → Inv v' (visit r x).2
  done : ∀ r x v v', Inv v r → (∀ y, y ∈ v' ↔ y ∈ v ∨ y ∈ (visit r x).1) →
    Done x v' (visit r x).2
  mono : ∀ r x v v' y, Done y v r → (∀ y, y ∈ v' ↔ y ∈ v ∨ y ∈ (visit r x).1) →
    Done y v' (visit r x).2

/-- With as many rounds as there are elements to see, the stack is empty at the
end and every visited element is dealt with. -/
theorem search_spec {visit : R → α → List α × R} {U : List α} {Inv : List α → R → Prop}
    {Done : α → List α → R → Prop} (rule : VisitRule visit U Inv Done) (n : ℕ) (wl : Worklist α)
    (r : R) (hU : ∀ x ∈ wl.visited, x ∈ U) (hsv : ∀ x ∈ wl.stack, x ∈ wl.visited)
    (hnodup : wl.visited.Nodup) (hinv : Inv wl.visited r)
    (hdone : ∀ x ∈ wl.visited, x ∈ wl.stack ∨ Done x wl.visited r)
    (hn : U.length + wl.stack.length ≤ n + wl.visited.length) :
    (search visit n wl r).1.stack = []
      ∧ (∀ x ∈ wl.visited, x ∈ (search visit n wl r).1.visited)
      ∧ Inv (search visit n wl r).1.visited (search visit n wl r).2
      ∧ ∀ x ∈ (search visit n wl r).1.visited,
          Done x (search visit n wl r).1.visited (search visit n wl r).2 := by
  induction n generalizing wl r with
  | zero =>
    -- all rounds are used up: everything in the universe was taken from the stack
    have hle : wl.visited.length ≤ U.length := (hnodup.subperm hU).length_le
    have hs : wl.stack = [] := List.eq_nil_of_length_eq_zero (by omega)
    exact ⟨hs, fun _ h => h, hinv, fun x hx => (hdone x hx).resolve_left (by simp [hs])⟩
  | succ n ih =>
    rw [search]
    split
    next hs => exact ⟨hs, fun _ h => h, hinv, fun x hx => (hdone x hx).resolve_left (by simp [hs])⟩
    next top rest hs =>
      have htop : top ∈ wl.visited := hsv top (hs ▸ List.mem_cons_self)
      have hrest : ∀ x ∈ rest, x ∈ wl.visited := fun x hx => hsv x (hs ▸ List.mem_cons_of_mem _ hx)
      have hmem := mem_visited_pushAll (visit r top).1 ⟨rest, wl.visited⟩
      have hcount := pushAll_count (visit r top).1 ⟨rest, wl.visited⟩
      have hlen : wl.stack.length = rest.length + 1 := by rw [hs, List.length_cons]
      have hU' : ∀ x ∈ (pushAll ⟨rest, wl.visited⟩ (visit r top).1).visited, x ∈ U := by
        intro x hx
        rcases (hmem x).mp hx with h | h
        · exact hU x h
        · exact rule.subset r top (hU top htop) x h
      have hdone' : ∀ x ∈ (pushAll ⟨rest, wl.visited⟩ (visit r top).1).visited,
          x ∈ (pushAll ⟨rest, wl.visited⟩ (visit r top).1).stack
            ∨ Done x (pushAll ⟨rest, wl.visited⟩ (visit r top).1).visited (visit r top).2 := by
        intro x hx
        by_cases hv : x ∈ wl.visited
        · rcases hdone x hv with h | h
          · rw [hs] at h
            rcases List.mem_cons.mp h with rfl | h
            · exact .inr (rule.done r x _ _ hinv hmem)
            · exact .inl (mem_stack_pushAll_of_mem _ _ h)
          · exact .inr (rule.mono r top _ _ x h hmem)
        · exact .inl (mem_stack_pushAll _ _ hx hv)
      have hnext := ih _ (visit r top).2 hU' (stack_subset_pushAll _ _ hrest)
        (pushAll_nodup _ _ hnodup) (rule.inv r top _ _ hinv hmem) hdone'
        (by simp only at hcount; omega)
      exact ⟨hnext.1, fun x hx => hnext.2.1 x ((hmem x).mpr (.inl hx)), hnext.2.2⟩

end Worklist
