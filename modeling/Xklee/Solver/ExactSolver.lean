/-
A solver that answers every query as the meaning of the query says. Nothing computes it; it
shows that what is asked of a solver can be had.
-/
import Xklee.Core.MemoryOperationSound

set_option autoImplicit false

namespace Xklee

open Classical in
/-- Truth, validity and values as they are; and no initial values. -/
noncomputable def exactSolver : SolverImpl where
  computeTruth q := some (decide q.Valid)
  computeValidity q :=
    some (if q.Valid then .True else if q.Contradicted then .False else .Unknown)
  computeValue q :=
    some (.Constant (if h : q.Consistent then q.expr.eval h.choose else q.expr.eval fun _ _ => 0))
  computeInitialValues _ _ := none

open Classical in
theorem exactSolver_correct : exactSolver.Correct where
  truth q b _ h := by
    obtain rfl := Option.some.inj h
    exact decide_eq_true_iff
  validity q v _ h := by
    obtain rfl := Option.some.inj h
    split
    next hvalid => exact hvalid
    next hvalid =>
      split
      next hcontra => exact hcontra
      next hcontra => exact ⟨Query.not_contradicted_iff.mp hcontra, Query.not_valid_iff.mp hvalid⟩
  value q e hq _ h := by
    obtain rfl := Option.some.inj h
    exact ⟨hq.choose, hq.choose_spec, by rw [dif_pos hq]⟩
  initialValues _ _ _ _ h := by simp [exactSolver] at h

theorem exactSolver_answers : exactSolver.Answers where
  truth q _ h := by simp [exactSolver] at h
  validity q _ h := by simp [exactSolver] at h
  value q _ _ h := by simp [exactSolver] at h

theorem exactSolver_widths : Executor.ValueWidths exactSolver := by
  intro q value hq h
  obtain rfl := Expr.Constant.inj (Option.some.inj h)
  split
  · exact hq.eval_width
  · exact hq.eval_width

end Xklee
