/-
Heaps that hold a multiset of cells.

A data structure on the heap is the multiset of its cells, and a larger structure is the sum
of its parts, so that no two parts have a cell in common. An operation that changes one cell
changes it in the multiset, wherever it is, and leaves the rest.
-/
import Mathlib.Data.Multiset.MapFold
import Mathlib.Data.Multiset.UnionInter
import Mathlib.Data.Finset.Card
import Xklee.Data.Heap

set_option autoImplicit false

universe u

namespace Heap

variable {α : Type u} {h : Heap α} {p : ℕ} {x : α} {s : Multiset (ℕ × α)}

/-- The heap has every cell of the multiset, and no two of these are at one place. -/
structure Holds (h : Heap α) (s : Multiset (ℕ × α)) : Prop where
  nodup : (s.map Prod.fst).Nodup
  read : ∀ c ∈ s, h.read c.1 = some c.2

theorem Holds.congr {s' : Multiset (ℕ × α)} (hs : h.Holds s) (heq : s = s') : h.Holds s' :=
  heq ▸ hs

theorem Holds.head (hs : h.Holds ((p, x) ::ₘ s)) : h.read p = some x :=
  hs.read (p, x) (Multiset.mem_cons_self _ _)

theorem Holds.tail (hs : h.Holds ((p, x) ::ₘ s)) : h.Holds s := by
  have hnodup := hs.nodup
  rw [Multiset.map_cons, Multiset.nodup_cons] at hnodup
  exact ⟨hnodup.2, fun c hc => hs.read c (Multiset.mem_cons_of_mem hc)⟩

/-- The rest of the cells are at other places. -/
theorem Holds.ne (hs : h.Holds ((p, x) ::ₘ s)) {c : ℕ × α} (hc : c ∈ s) : c.1 ≠ p := by
  have hnodup := hs.nodup
  rw [Multiset.map_cons, Multiset.nodup_cons] at hnodup
  intro heq
  subst heq
  exact hnodup.1 (Multiset.mem_map.mpr ⟨c, hc, rfl⟩)

/-- A heap that differs from the old one at the place of the first cell. -/
theorem Holds.update (hs : h.Holds ((p, x) ::ₘ s)) {h' : Heap α} {y : Option α}
    (hread : h'.read = Function.update h.read p y) : h'.Holds s := by
  refine ⟨hs.tail.nodup, fun c hc => ?_⟩
  rw [hread, Function.update_of_ne (hs.ne hc)]
  exact hs.tail.read c hc

theorem Holds.write (hs : h.Holds ((p, x) ::ₘ s)) (y : α) :
    (h.write p y).Holds ((p, y) ::ₘ s) := by
  have hread : (h.write p y).read = Function.update h.read p (some y) :=
    read_write (lt_next hs.head) y
  refine ⟨?_, fun c hc => ?_⟩
  · have hnodup := hs.nodup
    rwa [Multiset.map_cons] at hnodup ⊢
  · rcases Multiset.mem_cons.mp hc with rfl | hc
    · rw [hread, Function.update_self]
    · exact (hs.update hread).read c hc

theorem Holds.free (hs : h.Holds ((p, x) ::ₘ s)) : (h.free p).Holds s :=
  hs.update (read_free (lt_next hs.head))

theorem Holds.alloc (hs : h.Holds s) (y : α) : (h.alloc y).Holds ((h.next, y) ::ₘ s) := by
  have hnew : ∀ c ∈ s, c.1 ≠ h.next := fun c hc => Nat.ne_of_lt (lt_next (hs.read c hc))
  refine ⟨?_, fun c hc => ?_⟩
  · rw [Multiset.map_cons, Multiset.nodup_cons]
    refine ⟨fun hmem => ?_, hs.nodup⟩
    obtain ⟨c, hc, heq⟩ := Multiset.mem_map.mp hmem
    exact hnew c hc heq
  · rw [read_alloc]
    rcases Multiset.mem_cons.mp hc with rfl | hc
    · exact Function.update_self _ _ _
    · rw [Function.update_of_ne (hnew c hc)]
      exact hs.read c hc

/-- There are not more cells than there were allocations. -/
theorem Holds.card_le (hs : h.Holds s) : Multiset.card s ≤ h.next := by
  have hsub : (⟨s.map Prod.fst, hs.nodup⟩ : Finset ℕ) ⊆ Finset.range h.next := by
    intro q hq
    obtain ⟨c, hc, rfl⟩ := Multiset.mem_map.mp hq
    exact Finset.mem_range.mpr (lt_next (hs.read c hc))
  have hcard := Finset.card_le_card hsub
  rwa [Finset.card_mk, Multiset.card_map, Finset.card_range] at hcard

theorem holds_empty : (empty : Heap α).Holds 0 := ⟨Multiset.nodup_zero, by simp⟩

end Heap
