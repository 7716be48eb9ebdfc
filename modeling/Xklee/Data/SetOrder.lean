/-
Orders in which the elements of a finite set are gone through.

A container of pointers iterates in the order of the addresses. What holds for every
order is stated with `SetOrder`; the order of a linear order is one of them, and one that
can be computed.
-/
import Mathlib.Data.Finset.Basic
import Mathlib.Data.Finset.Dedup
import Mathlib.Data.List.Sort

set_option autoImplicit false

namespace Xklee

/-- The order in which a `std::set` is gone through. For expressions it goes by kinds and
hash values first, for memory objects by their addresses. -/
structure SetOrder (α : Type) where
  toList : Finset α → List α
  mem_toList : ∀ s x, x ∈ toList s ↔ x ∈ s
  nodup : ∀ s, (toList s).Nodup

namespace SetOrder

variable {α : Type}

theorem toFinset_toList [DecidableEq α] (order : SetOrder α) (s : Finset α) :
    (order.toList s).toFinset = s := by
  ext x
  rw [List.mem_toFinset, order.mem_toList]

/-- Some order: every type has one. -/
noncomputable def some (α : Type) : SetOrder α where
  toList := Finset.toList
  mem_toList _ _ := Finset.mem_toList
  nodup := Finset.nodup_toList

/-- The increasing order. -/
def increasing (α : Type) [LinearOrder α] : SetOrder α where
  toList s := Quotient.liftOn s.val (fun l => l.insertionSort (· ≤ ·)) fun l l' h =>
    (((l.perm_insertionSort _).trans h).trans (l'.perm_insertionSort _).symm).eq_of_pairwise
      (fun _ _ _ _ h h' => le_antisymm h h') (l.pairwise_insertionSort _)
      (l'.pairwise_insertionSort _)
  mem_toList s x := by
    obtain ⟨⟨l⟩, hl⟩ := s
    exact (l.perm_insertionSort _).mem_iff
  nodup s := by
    obtain ⟨⟨l⟩, hl⟩ := s
    exact (l.perm_insertionSort _).nodup_iff.mpr hl

example : (increasing ℕ).toList {3, 1, 2} = [1, 2, 3] := by decide

end SetOrder

end Xklee
