/-
Parallel moves.

A list of moves assigns to registers what is computed from all of them, either at once or one move
after the other. The two agree when no move reads a register that an earlier move has written.
-/
import Mathlib.Logic.Function.Basic
import Mathlib.Data.List.Basic

set_option autoImplicit false

universe u v w

variable {R : Type u} {A : Type v} {V : Type w} [DecidableEq R]

/-- All moves read the registers as they were. -/
def simultaneousMoves (eval : A → (R → V) → V) (moves : List (R × A)) (regs : R → V) : R → V :=
  fun r => match moves.find? fun move => move.1 = r with
    | some move => eval move.2 regs
    | none => regs r

/-- Every move reads what the moves before it wrote. -/
def sequentialMoves (eval : A → (R → V) → V) (moves : List (R × A)) (regs : R → V) : R → V :=
  moves.foldl (fun regs move => Function.update regs move.1 (eval move.2 regs)) regs

/-- The second move writes another register, and does not read the one that the first writes. -/
def MoveApart (eval : A → (R → V) → V) (move move' : R × A) : Prop :=
  move'.1 ≠ move.1 ∧ ∀ regs value, eval move'.2 (Function.update regs move.1 value) = eval move'.2 regs

section

variable {eval : A → (R → V) → V} {moves : List (R × A)} {regs : R → V}

theorem sequentialMoves_of_notMem {r : R} (h : ∀ move ∈ moves, move.1 ≠ r) :
    sequentialMoves eval moves regs r = regs r := by
  induction moves generalizing regs with
  | nil => rfl
  | cons move moves ih =>
    obtain ⟨hmove, hmoves⟩ := List.forall_mem_cons.mp h
    change sequentialMoves eval moves (Function.update regs move.1 _) r = _
    rw [ih hmoves, Function.update_of_ne hmove.symm]

theorem sequentialMoves_of_mem (h : moves.Pairwise (MoveApart eval)) {move : R × A}
    (hmove : move ∈ moves) : sequentialMoves eval moves regs move.1 = eval move.2 regs := by
  induction moves generalizing regs with
  | nil => exact absurd hmove List.not_mem_nil
  | cons first moves ih =>
    obtain ⟨hfirst, hmoves⟩ := List.pairwise_cons.mp h
    change sequentialMoves eval moves (Function.update regs first.1 (eval first.2 regs)) move.1 = _
    obtain rfl | hmove := List.mem_cons.mp hmove
    · rw [sequentialMoves_of_notMem fun move' hmove' => (hfirst move' hmove').1,
        Function.update_self]
    · rw [ih hmoves hmove, (hfirst move hmove).2]

/-- One after the other comes to the same as at once. -/
theorem sequentialMoves_eq (h : moves.Pairwise (MoveApart eval)) :
    sequentialMoves eval moves regs = simultaneousMoves eval moves regs := by
  funext r
  rw [simultaneousMoves]
  cases hfind : moves.find? fun move => move.1 = r with
  | none =>
    exact sequentialMoves_of_notMem fun move hmove =>
      of_decide_eq_false (Bool.eq_false_iff.mpr (List.find?_eq_none.mp hfind move hmove))
  | some move =>
    have hr : move.1 = r := by simpa using List.find?_some hfind
    rw [← hr]
    exact sequentialMoves_of_mem h (List.mem_of_find?_eq_some hfind)

end

/-! ## Two register files -/

/-- Moves of the same registers, whose values agree, keep registers that agree. -/
theorem simultaneousMoves_agree {eval : A → (R → V) → V} {moves moves' : List (R × A)}
    {regs regs' : R → V}
    (hmoves : List.Forall₂ (fun move move' => move'.1 = move.1 ∧ eval move'.2 regs' = eval move.2 regs)
      moves moves') {r : R} (hr : regs' r = regs r) :
    simultaneousMoves eval moves' regs' r = simultaneousMoves eval moves regs r := by
  rw [simultaneousMoves, simultaneousMoves]
  induction hmoves with
  | nil => exact hr
  | @cons move move' moves moves' hmove _ ih =>
    rw [List.find?_cons, List.find?_cons, hmove.1]
    by_cases heq : move.1 = r
    · rw [decide_eq_true heq]
      exact hmove.2
    · rw [decide_eq_false heq]
      exact ih
