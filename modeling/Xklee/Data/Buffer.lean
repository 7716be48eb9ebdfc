/-
Copies between buffers of a fixed size.

A copy reads some elements of one buffer and writes them to another one. It is undefined when it
would leave either of them.
-/
import Mathlib.Data.List.GetD
import Mathlib.Data.Nat.Notation

set_option autoImplicit false

universe u

namespace Buffer

variable {α : Type u}

/-- Copy `n` elements of `src`, from index `s` on, to `dst`, from index `d` on. -/
def copy (dst : List α) (d : ℕ) (src : List α) (s n : ℕ) : Option (List α) :=
  if s + n ≤ src.length ∧ d + n ≤ dst.length then
    some (dst.mapIdx fun j b => if d ≤ j ∧ j < d + n then src.getD (s + (j - d)) b else b)
  else none

variable {dst src r : List α} {d s n : ℕ}

/-- A copy that stays inside the buffers. -/
theorem exists_copy (dst : List α) (d : ℕ) (src : List α) (s n : ℕ)
    (h : s + n ≤ src.length ∧ d + n ≤ dst.length) : ∃ r, copy dst d src s n = some r :=
  ⟨_, if_pos h⟩

theorem copy_eq_none (h : ¬(s + n ≤ src.length ∧ d + n ≤ dst.length)) :
    copy dst d src s n = none := if_neg h

theorem length_copy (h : copy dst d src s n = some r) : r.length = dst.length := by
  unfold copy at h
  split at h
  next =>
    obtain rfl := Option.some.inj h
    exact List.length_mapIdx
  next => cases h

/-- The elements that are copied, and those that are left. -/
theorem getElem?_copy (h : copy dst d src s n = some r) (j : ℕ) :
    r[j]? = if d ≤ j ∧ j < d + n then src[s + (j - d)]? else dst[j]? := by
  unfold copy at h
  split at h
  next hbound =>
    obtain rfl := Option.some.inj h
    rw [List.getElem?_mapIdx]
    by_cases hj : d ≤ j ∧ j < d + n
    · have hdst : j < dst.length := by omega
      have hsrc : s + (j - d) < src.length := by omega
      rw [if_pos hj, List.getElem?_eq_getElem hdst, List.getElem?_eq_getElem hsrc, Option.map_some,
        if_pos hj, List.getD_eq_getElem _ _ hsrc]
    · rw [if_neg hj]
      cases dst[j]? with
      | none => rfl
      | some b => rw [Option.map_some, if_neg hj]
  next => cases h

/-- A copy over a whole buffer. -/
theorem copy_all (dst : List α) (h : src.length = dst.length) : copy dst 0 src 0 dst.length = some src := by
  obtain ⟨r, hr⟩ := exists_copy dst 0 src 0 dst.length ⟨by omega, by omega⟩
  rw [hr]
  refine congrArg some (List.ext_getElem? fun j => ?_)
  rw [getElem?_copy hr]
  by_cases hj : j < dst.length
  · rw [if_pos (by omega), Nat.zero_add, Nat.sub_zero]
  · rw [if_neg (by omega), List.getElem?_eq_none (by omega), List.getElem?_eq_none (by omega)]

end Buffer
