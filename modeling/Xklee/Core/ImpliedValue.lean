/-
Implied values: `lib/Core/ImpliedValue.cpp`.

When an expression is known to have a value, so may be the reads in it. The function goes down
as long as a value of the node says what the value of a kid is. An `Or` that is 0 has two kids
that are 0, and there the source passes the null reference `0` for the constant, so that reads
are given no value, and most other kids use it.

`TrueCE != FalseCE` compares two constants by their addresses. `SelectExpr::create` makes no
node of two equal ones, and on others comparing them as values is the same.
-/
import Xklee.Expr.Canonical
import Xklee.Expr.RebuildSound
import Mathlib.Logic.Relation

set_option autoImplicit false

namespace Xklee

namespace ImpliedValue

/-- `ImpliedValueList`: reads with a constant, `none` for a null reference. -/
abbrev ImpliedValueList : Type := List (Expr × Option APInt)

/-- `getImpliedValues`. The value is `none` for a null reference. The result is `none` where
an assertion fails or a null reference is used. -/
def getImpliedValues : Expr → Option APInt → Option ImpliedValueList
  | .Constant c, value => do
      let value ← value
      if value = c then some [] else none
  | .NotOptimized _, _ => some []
  | .Read ul i, value => some [(.Read ul i, value)]
  | .Select c t f, value =>
      match t, f with
      | .Constant TrueCE, .Constant FalseCE =>
          if TrueCE = FalseCE then some []
          else do
            let value ← value
            if value = TrueCE then getImpliedValues c (some (.ofBool true))
            else if value = FalseCE then getImpliedValues c (some (.ofBool false))
            else none
      | _, _ => some []
  | .Concat l r, value => do
      let value ← value
      let left ← getImpliedValues l (some (ConstantExpr.Extract value r.width l.width))
      let right ← getImpliedValues r (some (ConstantExpr.Extract value 0 r.width))
      some (left ++ right)
  | .Extract _ _ _, _ => some []
  | .Cast _ src _, value => do
      let value ← value
      getImpliedValues src (some (ConstantExpr.Extract value 0 src.width))
  | .Not _, _ => some []
  | .Binary .Add l r, value =>
      match l with
      -- C_0 + A = C  =>  A = C - C_0
      | .Constant CE => do
          let value ← value
          getImpliedValues r (some (ConstantExpr.binary .Sub value CE))
      | _ => some []
  | .Binary .Sub l r, value =>
      match l with
      -- C_0 - A = C  =>  A = C_0 - C
      | .Constant CE => do
          let value ← value
          getImpliedValues r (some (ConstantExpr.binary .Sub CE value))
      | _ => some []
  | .Binary .And l r, value =>
      if l.width = Expr.BoolWidth then do
        let value ← value
        if value.isTrue then do
          let left ← getImpliedValues l (some value)
          let right ← getImpliedValues r (some value)
          some (left ++ right)
        else some []
      else some []
  | .Binary .Or l r, value => do
      let value ← value
      if value.isZero then do
        let left ← getImpliedValues l none
        let right ← getImpliedValues r none
        some (left ++ right)
      else some []
  | .Binary .Xor l r, value =>
      match l with
      | .Constant CE => do
          let value ← value
          getImpliedValues r (some (ConstantExpr.binary .Xor value CE))
      | _ => some []
  | .Binary _ _ _, _ => some []
  -- the cast to an EqExpr fails
  | .Cmp .Ne _ _, _ => none
  | .Cmp .Eq l r, value => do
      let value ← value
      match l with
      | .Constant CE =>
          if value.isTrue then getImpliedValues r (some CE)
          else if CE.width = Expr.BoolWidth then getImpliedValues r (some (ConstantExpr.Not CE))
          else some []
      | _ => some []
  | .Cmp _ _ _, _ => some []

/-! ## The calls that the function makes -/

/-- The call for a node and its value makes a call for a kid, with a value that is not null. -/
inductive Calls : Expr × APInt → Expr × APInt → Prop
  | selectTrue {c : Expr} {t f : APInt} (hne : t ≠ f) :
      Calls (.Select c (.Constant t) (.Constant f), t) (c, .ofBool true)
  | selectFalse {c : Expr} {t f : APInt} (hne : t ≠ f) :
      Calls (.Select c (.Constant t) (.Constant f), f) (c, .ofBool false)
  | concatLeft {l r : Expr} {v : APInt} :
      Calls (.Concat l r, v) (l, ConstantExpr.Extract v r.width l.width)
  | concatRight {l r : Expr} {v : APInt} :
      Calls (.Concat l r, v) (r, ConstantExpr.Extract v 0 r.width)
  | cast {k : CastKind} {e : Expr} {w : ℕ} {v : APInt} :
      Calls (.Cast k e w, v) (e, ConstantExpr.Extract v 0 e.width)
  | add {c v : APInt} {r : Expr} :
      Calls (.Binary .Add (.Constant c) r, v) (r, ConstantExpr.binary .Sub v c)
  | sub {c v : APInt} {r : Expr} :
      Calls (.Binary .Sub (.Constant c) r, v) (r, ConstantExpr.binary .Sub c v)
  | xor {c v : APInt} {r : Expr} :
      Calls (.Binary .Xor (.Constant c) r, v) (r, ConstantExpr.binary .Xor v c)
  | andLeft {l r : Expr} {v : APInt} (hw : l.width = Expr.BoolWidth) (hv : v.isTrue = true) :
      Calls (.Binary .And l r, v) (l, v)
  | andRight {l r : Expr} {v : APInt} (hw : l.width = Expr.BoolWidth) (hv : v.isTrue = true) :
      Calls (.Binary .And l r, v) (r, v)
  | eqTrue {c v : APInt} {r : Expr} (hv : v.isTrue = true) :
      Calls (.Cmp .Eq (.Constant c) r, v) (r, c)
  | eqFalse {c v : APInt} {r : Expr} (hv : v.isTrue = false) (hw : c.width = Expr.BoolWidth) :
      Calls (.Cmp .Eq (.Constant c) r, v) (r, ConstantExpr.Not c)

/-- The calls for a node and its value, and the calls that these make. -/
def Reaches (e : Expr) (v : APInt) (e' : Expr) (v' : APInt) : Prop :=
  Relation.ReflTransGen Calls (e, v) (e', v')

/-- The function does nothing with the value of such a node. -/
def ignoresValue : Expr → Bool
  | .NotOptimized _ | .Extract _ _ _ | .Not _ => true
  | .Constant _ | .Read _ _ | .Concat _ _ | .Cast _ _ _ => false
  | .Select _ (.Constant t) (.Constant f) => t = f
  | .Select _ _ _ => true
  | .Binary .Add l _ | .Binary .Sub l _ | .Binary .Xor l _ => !l.isConstant
  | .Binary .And l _ => l.width ≠ Expr.BoolWidth
  | .Binary .Or _ _ => false
  | .Binary _ _ _ => true
  | .Cmp .Ne _ _ | .Cmp .Eq _ _ => false
  | .Cmp _ _ _ => true

/-- Each `Or` that the function comes to with the value 0 has kids of which it ignores the
value, and it comes to no `Ne`. -/
structure Sound (e : Expr) (v : APInt) : Prop where
  or : ∀ l r w, Reaches e v (.Binary .Or l r) w → w.isZero = true →
    ignoresValue l = true ∧ ignoresValue r = true
  ne : ∀ l r w, ¬Reaches e v (.Cmp .Ne l r) w

/-- The pairs that have been pushed are reads with a constant of their width, which they have
under every assignment under which the node has its value. -/
def Consequences (e : Expr) (v : APInt) (results : ImpliedValueList) : Prop :=
  ∀ p ∈ results, ∃ ul i c, p = (.Read ul i, some c) ∧ c.width = (Expr.Read ul i).width
    ∧ ∀ σ, e.eval σ = v → (Expr.Read ul i).eval σ = c

section Inversion

/-- The bits of a concatenation. -/
theorem extract_concat {a b : APInt} :
    ConstantExpr.Extract (a.concat b) b.width a.width = a
      ∧ ConstantExpr.Extract (a.concat b) 0 b.width = b := by
  have hwidth : (a.concat b).width = a.width + b.width := rfl
  constructor
  · rw [ConstantExpr.Extract_eq _ (by omega), APInt.extract_concat_left a b le_rfl, Nat.sub_self,
      APInt.extract_all]
  · rw [ConstantExpr.Extract_eq _ (by omega), APInt.extract_concat_right a b (by omega),
      APInt.extract_all]

/-- The low bits of an extended value. -/
theorem extract_cast (k : CastKind) (a : APInt) {w : ℕ} (h : a.width ≤ w) :
    ConstantExpr.Extract (k.apply a w) 0 a.width = a := by
  obtain ⟨n, x⟩ := a
  have hwidth : (k.apply ⟨n, x⟩ w).width = w := by cases k <;> rfl
  rw [ConstantExpr.Extract_eq _ (by rw [hwidth, Nat.zero_add]; exact h)]
  refine APInt.ext_getLsbD rfl fun i hi => ?_
  have hin : i < n := hi
  have hiw : i < w := Nat.lt_of_lt_of_le hin h
  cases k with
  | ZExt =>
    simpa [APInt.extract, CastKind.apply, ConstantExpr.ZExt, APInt.zextOrTrunc, hin]
      using fun _ => hiw
  | SExt =>
    simp [APInt.extract, CastKind.apply, ConstantExpr.SExt, APInt.sextOrTrunc, hin, hiw,
      BitVec.getElem_signExtend]

variable {a b : APInt}

theorem sub_of_add (h : a.width = b.width) :
    ConstantExpr.binary .Sub (ConstantExpr.binary .Add a b) a = b := by
  obtain ⟨w, x⟩ := a
  obtain ⟨y, rfl⟩ := APInt.eq_mk_of_width h.symm
  rw [ConstantExpr.binary_mk, ConstantExpr.binary_mk, APInt.mk_inj]
  exact add_sub_cancel_left x y

theorem sub_of_sub (h : a.width = b.width) :
    ConstantExpr.binary .Sub a (ConstantExpr.binary .Sub a b) = b := by
  obtain ⟨w, x⟩ := a
  obtain ⟨y, rfl⟩ := APInt.eq_mk_of_width h.symm
  rw [ConstantExpr.binary_mk, ConstantExpr.binary_mk, APInt.mk_inj]
  exact sub_sub_cancel x y

theorem xor_of_xor (h : a.width = b.width) :
    ConstantExpr.binary .Xor (ConstantExpr.binary .Xor a b) a = b := by
  obtain ⟨w, x⟩ := a
  obtain ⟨y, rfl⟩ := APInt.eq_mk_of_width h.symm
  rw [ConstantExpr.binary_mk, ConstantExpr.binary_mk, APInt.mk_inj]
  change x ^^^ y ^^^ x = y
  rw [BitVec.xor_comm x y, BitVec.xor_assoc, BitVec.xor_self, BitVec.xor_zero]

/-- A conjunction is true when both sides are. -/
theorem and_isTrue (ha : a.width = 1) (hb : b.width = 1) {v : APInt} (hv : v.isTrue = true)
    (h : ConstantExpr.binary .And a b = v) : a = v ∧ b = v := by
  obtain ⟨x, rfl⟩ := APInt.eq_mk_of_width ha
  obtain ⟨y, rfl⟩ := APInt.eq_mk_of_width hb
  obtain ⟨p, rfl⟩ := APInt.eq_ofBool_of_width_one x
  obtain ⟨q, rfl⟩ := APInt.eq_ofBool_of_width_one y
  obtain rfl := (APInt.isTrue_iff v).mp hv
  revert h
  cases p <;> cases q <;> decide

/-- What an equality says. -/
theorem eq_isTrue (h : a.width = b.width) {v : APInt} (hv : v.isTrue = true)
    (heq : ConstantExpr.compare .Eq a b = v) : b = a := by
  obtain ⟨w, x⟩ := a
  obtain ⟨y, rfl⟩ := APInt.eq_mk_of_width h.symm
  rw [ConstantExpr.compare_mk] at heq
  obtain rfl := (APInt.isTrue_iff v).mp hv
  have hbool : (x == y) = true := APInt.ofBool_inj.mp heq
  rw [beq_iff_eq.mp hbool]

/-- What the failure of an equality of truth values says. -/
theorem eq_isFalse (ha : a.width = 1) (hb : b.width = 1) {v : APInt} (hv : v.isTrue = false)
    (heq : ConstantExpr.compare .Eq a b = v) : b = ConstantExpr.Not a := by
  obtain ⟨x, rfl⟩ := APInt.eq_mk_of_width ha
  obtain ⟨y, rfl⟩ := APInt.eq_mk_of_width hb
  obtain ⟨p, rfl⟩ := APInt.eq_ofBool_of_width_one x
  obtain ⟨q, rfl⟩ := APInt.eq_ofBool_of_width_one y
  subst heq
  revert hv
  cases p <;> cases q <;> decide

end Inversion

variable {x y : Expr × APInt} {e e' : Expr} {v v' : APInt} {results : ImpliedValueList}

/-- A call for a kid asks for what the node says of it. -/
theorem Calls.implies (h : Calls x y) (htyped : x.1.WellTyped) (hwidth : x.2.width = x.1.width) :
    y.1.WellTyped ∧ y.2.width = y.1.width ∧ ∀ σ, x.1.eval σ = x.2 → y.1.eval σ = y.2 := by
  cases h with
  | @selectTrue c t f hne =>
    obtain ⟨hc, -, -, hcw, -⟩ := htyped
    refine ⟨hc, hcw.symm, fun σ heval => ?_⟩
    change (if (c.eval σ).isTrue then t else f) = t at heval
    by_cases htrue : (c.eval σ).isTrue = true
    · exact (APInt.isTrue_iff _).mp htrue
    · rw [if_neg htrue] at heval
      exact absurd heval.symm hne
  | @selectFalse c t f hne =>
    obtain ⟨hc, -, -, hcw, -⟩ := htyped
    refine ⟨hc, hcw.symm, fun σ heval => ?_⟩
    change (if (c.eval σ).isTrue then t else f) = f at heval
    have hfalse : ¬(c.eval σ).isTrue = true := fun htrue => by
      rw [if_pos htrue] at heval
      exact hne heval
    obtain ⟨x, hx⟩ := hc.denotes (σ := σ) hcw
    obtain ⟨b, rfl⟩ := APInt.eq_ofBool_of_width_one x
    have hb : c.eval σ = .ofBool b := hx.2
    rw [hb] at hfalse ⊢
    cases b with
    | true => exact absurd rfl hfalse
    | false => rfl
  | @concatLeft l r v =>
    obtain ⟨hl, hr⟩ := htyped
    refine ⟨hl, rfl, fun σ heval => ?_⟩
    have hinv := (@extract_concat (l.eval σ) (r.eval σ)).1
    rw [hl.eval_width, hr.eval_width] at hinv
    dsimp only at heval ⊢
    rw [← heval]
    exact hinv.symm
  | @concatRight l r v =>
    obtain ⟨hl, hr⟩ := htyped
    refine ⟨hr, rfl, fun σ heval => ?_⟩
    have hinv := (@extract_concat (l.eval σ) (r.eval σ)).2
    rw [hr.eval_width] at hinv
    dsimp only at heval ⊢
    rw [← heval]
    exact hinv.symm
  | @cast k e w v =>
    obtain ⟨he, hle⟩ := htyped
    refine ⟨he, rfl, fun σ heval => ?_⟩
    have hinv := extract_cast k (e.eval σ) (w := w) (by rw [he.eval_width]; exact hle)
    rw [he.eval_width] at hinv
    dsimp only at heval ⊢
    rw [← heval]
    exact hinv.symm
  | @add c v r =>
    obtain ⟨-, hr, hcr⟩ := htyped
    refine ⟨hr, hwidth.trans hcr, fun σ heval => ?_⟩
    have hinv := @sub_of_add c (r.eval σ) (hcr.trans hr.eval_width.symm)
    dsimp only at heval ⊢
    rw [← heval]
    exact hinv.symm
  | @sub c v r =>
    obtain ⟨-, hr, hcr⟩ := htyped
    refine ⟨hr, hcr, fun σ heval => ?_⟩
    have hinv := @sub_of_sub c (r.eval σ) (hcr.trans hr.eval_width.symm)
    dsimp only at heval ⊢
    rw [← heval]
    exact hinv.symm
  | @xor c v r =>
    obtain ⟨-, hr, hcr⟩ := htyped
    refine ⟨hr, hwidth.trans hcr, fun σ heval => ?_⟩
    have hinv := @xor_of_xor c (r.eval σ) (hcr.trans hr.eval_width.symm)
    dsimp only at heval ⊢
    rw [← heval]
    exact hinv.symm
  | @andLeft l r v hw hv =>
    obtain ⟨hl, hr, hlr⟩ := htyped
    refine ⟨hl, hwidth, fun σ heval => ?_⟩
    exact (and_isTrue (hl.eval_width.trans hw) (hr.eval_width.trans (hlr.symm.trans hw)) hv heval).1
  | @andRight l r v hw hv =>
    obtain ⟨hl, hr, hlr⟩ := htyped
    refine ⟨hr, hwidth.trans hlr, fun σ heval => ?_⟩
    exact (and_isTrue (hl.eval_width.trans hw) (hr.eval_width.trans (hlr.symm.trans hw)) hv heval).2
  | @eqTrue c v r hv =>
    obtain ⟨-, hr, hcr⟩ := htyped
    refine ⟨hr, hcr, fun σ heval => ?_⟩
    exact eq_isTrue (hcr.trans hr.eval_width.symm) hv heval
  | @eqFalse c v r hv hw =>
    obtain ⟨-, hr, hcr⟩ := htyped
    refine ⟨hr, hcr, fun σ heval => ?_⟩
    exact eq_isFalse hw (hr.eval_width.trans (hcr.symm.trans hw)) hv heval

/-! ## What is pushed -/

/-- The node can have the value. -/
structure Possible (e : Expr) (v : APInt) : Prop where
  wellTyped : e.WellTyped
  width : v.width = e.width
  satisfiable : ∃ σ, e.eval σ = v

theorem Calls.possible (h : Calls (e, v) (e', v')) (hpossible : Possible e v) : Possible e' v' := by
  obtain ⟨htyped, hwidth, himplies⟩ := h.implies hpossible.wellTyped hpossible.width
  obtain ⟨σ, hσ⟩ := hpossible.satisfiable
  exact ⟨htyped, hwidth, σ, himplies σ hσ⟩

theorem Calls.sound (h : Calls (e, v) (e', v')) (hsound : Sound e v) :
    Sound e' v' where
  or l r w hreach := hsound.or l r w (.head h hreach)
  ne l r w hreach := hsound.ne l r w (.head h hreach)

theorem Consequences.nil (e : Expr) (v : APInt) : Consequences e v [] := by
  intro p hp
  cases hp

theorem Consequences.append {left right : ImpliedValueList} (hleft : Consequences e v left)
    (hright : Consequences e v right) :
    Consequences e v (left ++ right) := by
  intro p hp
  rcases List.mem_append.mp hp with hp | hp
  · exact hleft p hp
  · exact hright p hp

/-- What follows from the value of the kid follows from that of the node. -/
theorem Calls.consequences (h : Calls (e, v) (e', v')) (hpossible : Possible e v)
    (hresults : Consequences e' v' results) : Consequences e v results := by
  obtain ⟨-, -, himplies⟩ := h.implies hpossible.wellTyped hpossible.width
  intro p hp
  obtain ⟨ul, i, c, rfl, hc, heval⟩ := hresults p hp
  exact ⟨ul, i, c, rfl, hc, fun σ hσ => heval σ (himplies σ hσ)⟩

/-- The function returns, and what it has pushed follows. -/
def Concludes (e : Expr) (v : APInt) : Prop :=
  ∃ results, getImpliedValues e (some v) = some results ∧ Consequences e v results

/-- The call for a kid pushes what follows from the value of the node. -/
theorem Calls.concludes (h : Calls (e, v) (e', v')) (hpossible : Possible e v) (hsound : Sound e v)
    (ih : ∀ v, Possible e' v → Sound e' v → Concludes e' v) :
    ∃ results, getImpliedValues e' (some v') = some results ∧ Consequences e v results := by
  obtain ⟨results, hget, hresults⟩ := ih v' (h.possible hpossible) (h.sound hsound)
  exact ⟨results, hget, h.consequences hpossible hresults⟩

/-- Nothing is pushed for a node whose value is ignored, whatever is passed for it. -/
theorem ignoresValue_spec (h : ignoresValue e = true) (value : Option APInt) :
    getImpliedValues e value = some [] := by
  unfold ignoresValue at h
  split at h <;> simp_all [getImpliedValues]
  all_goals
    rename_i l _
    cases l <;> simp_all [Expr.isConstant]

/-- Where the value is used, a null reference is dereferenced or pushed. -/
theorem getImpliedValues_null (h : ignoresValue e = false) :
    getImpliedValues e none = none
      ∨ ∃ results p, getImpliedValues e none = some results ∧ p ∈ results ∧ p.2 = none := by
  unfold ignoresValue at h
  split at h <;> simp_all [getImpliedValues]
  all_goals
    rename_i l _
    cases l <;> simp_all [Expr.isConstant]

/-! ## Every pair follows -/

/-- A node that the function treats by one call for a kid. -/
theorem concludes_of_call (h : Calls (e, v) (e', v'))
    (heq : getImpliedValues e (some v) = getImpliedValues e' (some v')) (hpossible : Possible e v)
    (hsound : Sound e v) (ih : ∀ v, Possible e' v → Sound e' v → Concludes e' v) :
    Concludes e v := by
  obtain ⟨results, hget, hresults⟩ := h.concludes hpossible hsound ih
  exact ⟨results, heq.trans hget, hresults⟩

/-- A node that the function treats by a call for each of two kids. -/
theorem concludes_of_calls {l r : Expr} {vl vr : APInt} (hl : Calls (e, v) (l, vl))
    (hr : Calls (e, v) (r, vr)) (heq : ∀ left right, getImpliedValues l (some vl) = some left →
      getImpliedValues r (some vr) = some right →
        getImpliedValues e (some v) = some (left ++ right)) (hpossible : Possible e v)
    (hsound : Sound e v) (ihl : ∀ v, Possible l v → Sound l v → Concludes l v)
    (ihr : ∀ v, Possible r v → Sound r v → Concludes r v) : Concludes e v := by
  obtain ⟨left, hleft, hleftc⟩ := hl.concludes hpossible hsound ihl
  obtain ⟨right, hright, hrightc⟩ := hr.concludes hpossible hsound ihr
  exact ⟨left ++ right, heq left right hleft hright, hleftc.append hrightc⟩

theorem concludes_of_nil (h : getImpliedValues e (some v) = some []) :
    Concludes e v :=
  ⟨[], h, Consequences.nil e v⟩

/-- A constant on the left or not. -/
theorem isConstant_cases (l : Expr) : (∃ c, l = .Constant c) ∨ l.isConstant = false := by
  cases l <;> simp [Expr.isConstant]

/-- The value of a select of two constants is one of them. -/
theorem select_value {c : Expr} {t f : APInt}
    (h : ∃ σ, (Expr.Select c (.Constant t) (.Constant f)).eval σ = v) : v = t ∨ v = f := by
  obtain ⟨σ, hσ⟩ := h
  change (if (c.eval σ).isTrue then t else f) = v at hσ
  split at hσ
  · exact .inl hσ.symm
  · exact .inr hσ.symm

theorem concludes (e : Expr) (v : APInt) (hpossible : Possible e v) (hsound : Sound e v) :
    Concludes e v := by
  induction e using Expr.kidsInduction generalizing v with
  | Constant c =>
    obtain ⟨σ, hσ⟩ := hpossible.satisfiable
    have hc : v = c := hσ.symm
    exact concludes_of_nil (by simp [getImpliedValues, hc])
  | NotOptimized e _ => exact concludes_of_nil (ignoresValue_spec rfl _)
  | Read ul i _ =>
    refine ⟨[(.Read ul i, some v)], by simp [getImpliedValues], fun p hp => ?_⟩
    rw [List.mem_singleton.mp hp]
    exact ⟨ul, i, v, rfl, hpossible.width, fun σ hσ => hσ⟩
  | Select c t f ihc _ _ =>
    by_cases hignored : ignoresValue (.Select c t f) = true
    · exact concludes_of_nil (ignoresValue_spec hignored _)
    obtain ⟨t, rfl⟩ | ht := isConstant_cases t
    · obtain ⟨f, rfl⟩ | hf := isConstant_cases f
      · have hne : t ≠ f := by simpa [ignoresValue] using hignored
        rcases select_value hpossible.satisfiable with rfl | rfl
        · exact concludes_of_call (.selectTrue hne) (by simp [getImpliedValues, hne]) hpossible
            hsound ihc
        · exact concludes_of_call (.selectFalse hne)
            (by simp [getImpliedValues, hne, hne.symm]) hpossible hsound ihc
      · cases f <;> simp_all [ignoresValue, Expr.isConstant]
    · cases t <;> simp_all [ignoresValue, Expr.isConstant]
  | Concat l r ihl ihr =>
    exact concludes_of_calls .concatLeft .concatRight
      (fun left right hleft hright => by simp [getImpliedValues, hleft, hright]) hpossible hsound
      ihl ihr
  | Extract e off w _ => exact concludes_of_nil (ignoresValue_spec rfl _)
  | Cast k e w ih => exact concludes_of_call .cast (by simp [getImpliedValues]) hpossible hsound ih
  | Not e _ => exact concludes_of_nil (ignoresValue_spec rfl _)
  | Binary k l r ihl ihr =>
    by_cases hignored : ignoresValue (.Binary k l r) = true
    · exact concludes_of_nil (ignoresValue_spec hignored _)
    cases k with
    | Add =>
      obtain ⟨c, rfl⟩ | hl := isConstant_cases l
      · exact concludes_of_call .add (by simp [getImpliedValues]) hpossible hsound ihr
      · exact absurd (by simp [ignoresValue, hl]) hignored
    | Sub =>
      obtain ⟨c, rfl⟩ | hl := isConstant_cases l
      · exact concludes_of_call .sub (by simp [getImpliedValues]) hpossible hsound ihr
      · exact absurd (by simp [ignoresValue, hl]) hignored
    | Xor =>
      obtain ⟨c, rfl⟩ | hl := isConstant_cases l
      · exact concludes_of_call .xor (by simp [getImpliedValues]) hpossible hsound ihr
      · exact absurd (by simp [ignoresValue, hl]) hignored
    | And =>
      have hw : l.width = Expr.BoolWidth := by simpa [ignoresValue] using hignored
      by_cases hv : v.isTrue = true
      · exact concludes_of_calls (.andLeft hw hv) (.andRight hw hv)
          (fun left right hleft hright => by simp [getImpliedValues, hw, hv, hleft, hright])
          hpossible hsound ihl ihr
      · exact concludes_of_nil (by simp [getImpliedValues, hw, hv])
    | Or =>
      by_cases hv : v.isZero = true
      · obtain ⟨hl, hr⟩ := hsound.or l r v .refl hv
        exact concludes_of_nil (by
          simp [getImpliedValues, ignoresValue_spec hl, ignoresValue_spec hr])
      · exact concludes_of_nil (by simp [getImpliedValues, hv])
    | _ => exact absurd rfl hignored
  | Cmp k l r _ ihr =>
    cases k with
    | Ne => exact absurd .refl (hsound.ne l r v)
    | Eq =>
      obtain ⟨c, rfl⟩ | hl := isConstant_cases l
      · by_cases hv : v.isTrue = true
        · exact concludes_of_call (.eqTrue hv) (by simp [getImpliedValues, hv]) hpossible hsound ihr
        · by_cases hw : c.width = Expr.BoolWidth
          · exact concludes_of_call (.eqFalse (by simpa using hv) hw)
              (by simp [getImpliedValues, hv, hw]) hpossible hsound ihr
          · exact concludes_of_nil (by simp [getImpliedValues, hv, hw])
      · refine concludes_of_nil ?_
        cases l <;> simp_all [getImpliedValues, Expr.isConstant]
    | _ => exact concludes_of_nil (ignoresValue_spec rfl _)

/-! ## No null reference -/

/-- Two calls return what they push together. -/
theorem append_some {left right : Option ImpliedValueList}
    (h : (left.bind fun a => right.bind fun b => some (a ++ b)) = some results) :
    ∃ a b, left = some a ∧ right = some b ∧ results = a ++ b := by
  obtain ⟨a, ha, h⟩ := Option.bind_eq_some_iff.mp h
  obtain ⟨b, hb, h⟩ := Option.bind_eq_some_iff.mp h
  exact ⟨a, b, ha, hb, (Option.some.inj h).symm⟩

/-- What the call for a kid pushes is pushed for the node. -/
theorem Calls.pushes (h : Calls (e, v) (e', v')) (hget : getImpliedValues e (some v) = some results) :
    ∃ results', getImpliedValues e' (some v') = some results' ∧ results' ⊆ results := by
  cases h with
  | selectTrue hne => exact ⟨results, by simpa [getImpliedValues, hne] using hget, List.Subset.refl _⟩
  | selectFalse hne =>
    exact ⟨results, by simpa [getImpliedValues, hne, hne.symm] using hget, List.Subset.refl _⟩
  | concatLeft =>
    obtain ⟨a, b, ha, -, rfl⟩ := append_some hget
    exact ⟨a, ha, List.subset_append_left a b⟩
  | concatRight =>
    obtain ⟨a, b, -, hb, rfl⟩ := append_some hget
    exact ⟨b, hb, List.subset_append_right a b⟩
  | cast => exact ⟨results, by simpa [getImpliedValues] using hget, List.Subset.refl _⟩
  | add => exact ⟨results, by simpa [getImpliedValues] using hget, List.Subset.refl _⟩
  | sub => exact ⟨results, by simpa [getImpliedValues] using hget, List.Subset.refl _⟩
  | xor => exact ⟨results, by simpa [getImpliedValues] using hget, List.Subset.refl _⟩
  | andLeft hw hv =>
    simp only [getImpliedValues, hw, Option.bind_eq_bind, Option.bind_some, hv, if_true] at hget
    obtain ⟨a, b, ha, -, rfl⟩ := append_some hget
    exact ⟨a, ha, List.subset_append_left a b⟩
  | andRight hw hv =>
    simp only [getImpliedValues, hw, Option.bind_eq_bind, Option.bind_some, hv, if_true] at hget
    obtain ⟨a, b, -, hb, rfl⟩ := append_some hget
    exact ⟨b, hb, List.subset_append_right a b⟩
  | eqTrue hv => exact ⟨results, by simpa [getImpliedValues, hv] using hget, List.Subset.refl _⟩
  | eqFalse hv hw =>
    exact ⟨results, by simpa [getImpliedValues, hv, hw] using hget, List.Subset.refl _⟩

/-- What a call that the function comes to pushes is pushed. -/
theorem pushes_of_reaches (h : Relation.ReflTransGen Calls x y)
    (hget : getImpliedValues x.1 (some x.2) = some results) :
    ∃ results', getImpliedValues y.1 (some y.2) = some results' ∧ results' ⊆ results := by
  induction h with
  | refl => exact ⟨results, hget, List.Subset.refl _⟩
  | tail _ hcall ih =>
    obtain ⟨mid, hmid, hmidsub⟩ := ih
    obtain ⟨results', hget', hsub⟩ := hcall.pushes hmid
    exact ⟨results', hget', List.Subset.trans hsub hmidsub⟩

/-- Where no null reference is pushed and none is used, the value of each kid of an `Or` that is
0 is ignored. -/
theorem ignoresValue_of_null {pushed : ImpliedValueList}
    (hget : getImpliedValues e none = some results) (hsub : results ⊆ pushed)
    (hpushed : ∀ p ∈ pushed, p.2 ≠ none) : ignoresValue e = true := by
  by_contra hnot
  rcases getImpliedValues_null (Bool.eq_false_iff.mpr hnot) with
    hnone | ⟨results', p, hget', hp, hnull⟩
  · rw [hnone] at hget
    cases hget
  · rw [hget] at hget'
    obtain rfl := Option.some.inj hget'
    exact hpushed p (hsub hp) hnull

theorem sound_of_pushes (hget : getImpliedValues e (some v) = some results)
    (hnull : ∀ p ∈ results, p.2 ≠ none) :
    Sound e v where
  or l r w hreach hzero := by
    obtain ⟨results', hor, hsub⟩ := pushes_of_reaches hreach hget
    simp only [getImpliedValues, Option.bind_eq_bind, Option.bind_some, hzero, if_true] at hor
    obtain ⟨a, b, ha, hb, rfl⟩ := append_some hor
    obtain ⟨hsuba, hsubb⟩ := List.append_subset.mp hsub
    exact ⟨ignoresValue_of_null ha hsuba hnull, ignoresValue_of_null hb hsubb hnull⟩
  ne l r w hreach := by
    obtain ⟨results', hne, -⟩ := pushes_of_reaches hreach hget
    simp [getImpliedValues] at hne

/-- The function returns only consequences, with a constant for each read, just when each `Or`
that it comes to with the value 0 has kids whose value it ignores, and it comes to no `Ne`. -/
theorem getImpliedValues_consequences_iff (e : Expr) (v : APInt) (htyped : e.WellTyped)
    (hwidth : v.width = e.width) (hsat : ∃ σ, e.eval σ = v) :
    (∃ results, getImpliedValues e (some v) = some results ∧ Consequences e v results)
      ↔ Sound e v := by
  constructor
  · rintro ⟨results, hget, hresults⟩
    refine sound_of_pushes hget fun p hp => ?_
    obtain ⟨ul, i, c, rfl, -, -⟩ := hresults p hp
    exact Option.some_ne_none c
  · exact concludes e v ⟨htyped, hwidth, hsat⟩

/-- An array of two bytes. -/
def arrayPair : KArray := ⟨0, "pair", 2, [], .inl rfl⟩

/-- A byte of it. -/
def pairByte (i : BitVec 32) : Expr := .Read (.root arrayPair) (.Constant ⟨32, i⟩)

/-- Three more than the first byte. -/
def firstPlusThree : Expr := .Binary .Add (.Constant ⟨8, 3⟩) (pairByte 0)

/-- When three more than a byte is 10, the byte is 7. -/
theorem firstPlusThree_consequences :
    ∃ results, getImpliedValues firstPlusThree (some ⟨8, 10⟩) = some results
      ∧ Consequences firstPlusThree ⟨8, 10⟩ results := by
  refine (getImpliedValues_consequences_iff firstPlusThree ⟨8, 10⟩ (by decide) rfl
    ⟨fun _ _ => 7, by decide⟩).mpr ?_
  have hreach : ∀ e v, Reaches firstPlusThree ⟨8, 10⟩ e v →
      (e = firstPlusThree) ∨ e = pairByte 0 := by
    intro e v h
    rcases Relation.ReflTransGen.cases_head h with heq | ⟨y, hcall, hrest⟩
    · exact .inl (Prod.mk.inj heq).1.symm
    · cases hcall
      rcases Relation.ReflTransGen.cases_head hrest with heq | ⟨y, hcall, -⟩
      · exact .inr (Prod.mk.inj heq).1.symm
      · cases hcall
  refine ⟨fun l r w h => ?_, fun l r w h => ?_⟩
  · rcases hreach _ _ h with heq | heq <;> cases heq
  · rcases hreach _ _ h with heq | heq <;> cases heq

/-- The disjunction of the two bytes. -/
def firstOrSecond : Expr := .Binary .Or (pairByte 0) (pairByte 1)

/-- When the disjunction of two bytes is 0, the bytes are pushed without a constant. -/
theorem firstOrSecond_null :
    ¬∀ e v, Expr.WellTyped e → v.width = e.width → (∃ σ, e.eval σ = v) →
      ∃ results, getImpliedValues e (some v) = some results ∧ Consequences e v results := by
  intro h
  obtain ⟨results, hget, hresults⟩ := h firstOrSecond ⟨8, 0⟩ (by decide) rfl
    ⟨fun _ _ => 0, by decide⟩
  have hpushed : getImpliedValues firstOrSecond (some ⟨8, 0⟩)
      = some [(pairByte 0, none), (pairByte 1, none)] := by decide
  rw [hget] at hpushed
  obtain rfl := Option.some.inj hpushed
  obtain ⟨ul, i, c, heq, -⟩ := hresults (pairByte 0, none) (List.mem_cons_self ..)
  cases (Prod.mk.inj heq).2

end ImpliedValue

end Xklee
