/-
A heap of cells of one type, with pointers into it.

A pointer is the place of a cell in the order of allocation, so it is never given out
twice; a freed cell is `none`. What is read after an operation is what was read before,
updated at one pointer.
-/
import Mathlib.Data.List.Basic
import Mathlib.Logic.Function.Basic

set_option autoImplicit false

universe u

/-- The cells in the order of their allocation. -/
structure Heap (α : Type u) where
  cells : List (Option α)
deriving DecidableEq

namespace Heap

variable {α : Type u}

def empty : Heap α := ⟨[]⟩

/-- The pointer that the next allocation gives. -/
def next (h : Heap α) : ℕ := h.cells.length

/-- What a pointer points to, if it is not dangling. -/
def read (h : Heap α) (p : ℕ) : Option α := h.cells[p]?.join

def write (h : Heap α) (p : ℕ) (x : α) : Heap α := ⟨h.cells.set p (some x)⟩

def free (h : Heap α) (p : ℕ) : Heap α := ⟨h.cells.set p none⟩

/-- A new cell is at `next`. -/
def alloc (h : Heap α) (x : α) : Heap α := ⟨h.cells ++ [some x]⟩

variable {h : Heap α} {p : ℕ}

theorem lt_next {x : α} (hp : h.read p = some x) : p < h.next := by
  by_contra hge
  rw [read, List.getElem?_eq_none (Nat.not_lt.mp hge)] at hp
  exact absurd hp (by simp)

theorem read_set (hp : p < h.next) (x : Option α) :
    (⟨h.cells.set p x⟩ : Heap α).read = Function.update h.read p x := by
  funext q
  rw [read, List.getElem?_set]
  by_cases hq : p = q
  · subst hq
    have hlt : p < h.cells.length := hp
    rw [if_pos rfl, if_pos hlt, Function.update_self]
    rfl
  · rw [if_neg hq, Function.update_of_ne (Ne.symm hq)]
    rfl

theorem read_write (hp : p < h.next) (x : α) :
    (h.write p x).read = Function.update h.read p (some x) :=
  read_set hp (some x)

theorem read_free (hp : p < h.next) :
    (h.free p).read = Function.update h.read p none :=
  read_set hp none

theorem read_alloc (h : Heap α) (x : α) :
    (h.alloc x).read = Function.update h.read h.next (some x) := by
  funext q
  rw [read, alloc, List.getElem?_append]
  by_cases hlt : q < h.cells.length
  · rw [if_pos hlt, Function.update_of_ne (show q ≠ h.next from Nat.ne_of_lt hlt)]
    rfl
  · rw [if_neg hlt]
    by_cases hq : q = h.next
    · rw [hq, Function.update_self, next, Nat.sub_self]
      rfl
    · have hgt : 1 ≤ q - h.cells.length := by
        have hne : q ≠ h.cells.length := hq
        omega
      rw [Function.update_of_ne hq, List.getElem?_eq_none (by simpa using hgt), read,
        List.getElem?_eq_none (Nat.not_lt.mp hlt)]

theorem next_write (h : Heap α) (p : ℕ) (x : α) : (h.write p x).next = h.next :=
  List.length_set

theorem next_alloc (h : Heap α) (x : α) : (h.alloc x).next = h.next + 1 :=
  List.length_append

end Heap
