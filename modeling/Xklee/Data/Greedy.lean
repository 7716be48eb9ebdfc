/-
Greedy choice among wishes, over any type.

A set of candidates is narrowed to one wish after the other. A wish that some
candidate still meets is granted: the candidates that do not meet it are
dropped. A wish that no candidate meets is passed over.
-/
import Mathlib.Data.Set.Basic

set_option autoImplicit false

namespace Greedy

variable {α : Type*}

/-- The candidates after one wish. -/
def narrow (S wish : Set α) : Set α := {a | a ∈ S ∧ ((S ∩ wish).Nonempty → a ∈ wish)}

/-- The candidates after the wishes, in order. -/
def narrowAll (S : Set α) (wishes : List (Set α)) : Set α := wishes.foldl narrow S

variable {S wish : Set α}

theorem narrow_of_nonempty (h : (S ∩ wish).Nonempty) :
    narrow S wish = S ∩ wish := by
  ext a
  simp [narrow, h]

theorem narrow_of_empty (h : ¬(S ∩ wish).Nonempty) : narrow S wish = S := by
  ext a
  simp [narrow, h]

theorem narrow_nonempty (hS : S.Nonempty) (wish : Set α) :
    (narrow S wish).Nonempty := by
  by_cases h : (S ∩ wish).Nonempty
  · rwa [narrow_of_nonempty h]
  · rwa [narrow_of_empty h]

theorem narrowAll_append (S : Set α) (wishes wishes' : List (Set α)) :
    narrowAll S (wishes ++ wishes') = narrowAll (narrowAll S wishes) wishes' := by
  rw [narrowAll, narrowAll, narrowAll, List.foldl_append]

/-- Some candidate is left, whatever the wishes. -/
theorem narrowAll_nonempty (hS : S.Nonempty) (wishes : List (Set α)) :
    (narrowAll S wishes).Nonempty := by
  induction wishes generalizing S with
  | nil => exact hS
  | cons wish wishes ih => exact ih (narrow_nonempty hS wish)

/-- Two candidates that meet the same wishes share their fate. -/
theorem mem_narrowAll_congr {wishes : List (Set α)} {a b : α} (hS : a ∈ S ↔ b ∈ S)
    (h : ∀ wish ∈ wishes, (a ∈ wish ↔ b ∈ wish)) :
    a ∈ narrowAll S wishes ↔ b ∈ narrowAll S wishes := by
  induction wishes generalizing S with
  | nil => exact hS
  | cons wish wishes ih =>
    obtain ⟨hwish, hwishes⟩ := List.forall_mem_cons.mp h
    have hstep : a ∈ narrow S wish ↔ b ∈ narrow S wish :=
      and_congr hS (imp_congr_right (fun _ => hwish))
    exact ih hstep hwishes

end Greedy
