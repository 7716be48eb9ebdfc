/-
The meaning of the printed SMT-LIB terms.

`printExpression_eval`: what is printed for an expression where a sort is
expected evaluates to the value of the expression as a value of that sort, under
every contents of the arrays. The induction goes over the parts of the
expression and serves both sorts at once: a node is printed at its own sort, and
`eval_printAs` has the casts. An abbreviation has to stand for the value of the
expression at the sort of the expression.
-/
import Xklee.Expr.Canonical
import Xklee.Expr.Contents
import Xklee.Expr.Evaluator
import Xklee.Expr.SMTLIBDeclarations

set_option autoImplicit false

namespace Xklee

open SMTLIB (Term Literal LetTerm Command Script Interp Value Fn₁ Fn₂ Fn₃ BitVecFn)
open SMTLIB_SORT

/-- A value as a value of a sort: a number is true when it is not 0. -/
def valueAs : SMTLIB_SORT → APInt → Value
  | SORT_BITVECTOR, x => .bitVec x
  | SORT_BOOL, x => .bool (decide (x.toNat ≠ 0))

/-- The bytes of an array as a value of SMT-LIB. -/
def arrayValue (f : ℕ → BitVec 8) : Value :=
  .array KArray.domain KArray.range (fun i => f i.toNat)

namespace ExprSMTLIBPrinter

/-! ## Casts -/

variable {e : Expr} {x : APInt} {I : Interp}

theorem width_of_getSort (h : getSort e = SORT_BOOL) : e.width = 1 := by
  unfold getSort at h
  split at h
  · exact absurd h (by simp)
  · split at h
    · assumption
    · exact absurd h (by simp)

theorem getSort_of_width (h : e.width ≠ 1) : getSort e = SORT_BITVECTOR := by
  cases hsort : getSort e with
  | SORT_BITVECTOR => rfl
  | SORT_BOOL => exact absurd (width_of_getSort hsort) h

/-- One bit is 1 or 0. -/
theorem ite_one_bit (h : x.width = 1) :
    (if x.toNat ≠ 0 then APInt.ofNat 1 1 else APInt.ofNat 1 0) = x := by
  obtain ⟨b, rfl⟩ := APInt.eq_mk_of_width h
  obtain ⟨b, rfl⟩ := APInt.eq_ofBool_of_width_one b
  cases b <;> rfl

/-- A cast keeps the value. -/
theorem eval_printCastToSort {t : Term} {s s' : SMTLIB_SORT} (hx : x.width = e.width)
    (hpos : 0 < e.width) (hbool : s = SORT_BOOL → e.width = 1) (hs : s ≠ s')
    (ht : t.eval I = some (valueAs s x)) :
    (printCastToSort e t s').eval I = some (valueAs s' x) := by
  cases s' with
  | SORT_BITVECTOR =>
    obtain rfl : s = SORT_BOOL := by
      cases s with
      | SORT_BOOL => rfl
      | SORT_BITVECTOR => exact absurd rfl hs
    rw [printCastToSort, Term.eval, ht]
    change some (if decide (x.toNat ≠ 0) = true then Value.bitVec (APInt.ofNat 1 1)
      else Value.bitVec (APInt.ofNat 1 0)) = some (Value.bitVec x)
    rw [← apply_ite Value.bitVec]
    simp only [decide_eq_true_eq]
    rw [ite_one_bit (hx.trans (hbool rfl))]
  | SORT_BOOL =>
    obtain rfl : s = SORT_BITVECTOR := by
      cases s with
      | SORT_BOOL => exact absurd rfl hs
      | SORT_BITVECTOR => rfl
    obtain ⟨w, x⟩ := x
    obtain rfl : w = e.width := hx
    have hzero : (Literal.dec 0 e.width).value = some (APInt.ofNat e.width 0) := by
      rw [Literal.value, if_pos ⟨hpos, Nat.two_pow_pos _⟩]
    rw [printCastToSort, Term.eval, ht, Term.eval, hzero]
    change (if e.width = e.width then
        some (Value.bool (BitVec.ult ((0#e.width).setWidth e.width) x)) else none)
      = some (Value.bool (decide (x.toNat ≠ 0)))
    rw [if_pos rfl, BitVec.setWidth_eq, Option.some.injEq, Value.bool.injEq, BitVec.ult,
      BitVec.toNat_zero, decide_eq_decide]
    exact Nat.pos_iff_ne_zero

/-- What is printed around a node keeps its value. -/
theorem eval_printAs {abbreviations : Abbreviations} {node : Printed} (hx : x.width = e.width)
    (hpos : 0 < e.width)
    (habbr : ∀ name, abbreviations e = some name → I name = some (valueAs (getSort e) x))
    (hnode : (node (getSort e)).eval I = some (valueAs (getSort e) x)) (s : SMTLIB_SORT) :
    (printAs abbreviations e node s).eval I = some (valueAs s x) := by
  have hcast : ∀ t : Term, t.eval I = some (valueAs (getSort e) x) →
      (if getSort e ≠ s then printCastToSort e t s else t).eval I = some (valueAs s x) := by
    intro t ht
    by_cases hs : getSort e = s
    · rw [if_neg (not_not.mpr hs), ht, hs]
    · rw [if_pos hs]
      exact eval_printCastToSort hx hpos width_of_getSort hs ht
  unfold printAs
  cases h : abbreviations e with
  | none => exact hcast _ hnode
  | some name => exact hcast _ (habbr name h)

/-! ## The nodes -/

section Nodes

variable {I : Interp}

variable {c x y : APInt} {w : ℕ} {left right src : Printed} {s : SMTLIB_SORT}

theorem eval_printConstant (hc : 0 < c.width) :
    (printConstant .DECIMAL c).eval I = some (valueAs (getSort (.Constant c)) c) := by
  unfold printConstant
  by_cases htrue : c.isTrue = true
  · rw [if_pos htrue]
    obtain rfl := (APInt.isTrue_iff c).mp htrue
    rfl
  · rw [if_neg htrue]
    by_cases hfalse : c.isFalse = true
    · rw [if_pos hfalse]
      obtain rfl := (APInt.isFalse_iff c).mp hfalse
      rfl
    · rw [if_neg hfalse]
      have hwidth : c.width ≠ 1 := by
        intro h
        simp only [APInt.isTrue, APInt.isFalse, h, beq_self_eq_true, Bool.true_and, bne_iff_ne,
          beq_iff_eq] at htrue hfalse
        exact htrue hfalse
      have hsort : getSort (.Constant c) = SORT_BITVECTOR := getSort_of_width hwidth
      rw [hsort, Term.eval, Literal.value_dec hc]
      rfl

/-- The two meanings of the bit-vector keywords are the same. -/
theorem keyword_apply (k : BinaryKind) (hk : w = 1 → k.isBoolean = true) (x y : BitVec w) :
    (keyword k).apply x y = k.apply x y := by
  cases k with
  | UDiv | SDiv | URem | SRem =>
    have hw : w ≠ 1 := fun h => absurd (hk h) (by decide)
    simp [keyword, BitVecFn.apply, BinaryKind.apply, hw]
  | _ => rfl

theorem eval_printBinary {k : BinaryKind} (hl : ∀ s, (left s).eval I = some (valueAs s x))
    (hr : ∀ s, (right s).eval I = some (valueAs s y)) (hxy : x.width = y.width)
    (hk : x.width = 1 → k.isBoolean = true) (hs : s = SORT_BOOL → x.width = 1) :
    (printBinary k left right s).eval I = some (valueAs s (ConstantExpr.binary k x y)) := by
  obtain ⟨w, x⟩ := x
  obtain ⟨y, rfl⟩ := APInt.eq_mk_of_width hxy.symm
  have hbitVec : (Term.app₂ (.bitVec (keyword k)) (left SORT_BITVECTOR)
      (right SORT_BITVECTOR)).eval I = some (.bitVec (ConstantExpr.binary k ⟨w, x⟩ ⟨w, y⟩)) := by
    rw [Term.eval, hl, hr]
    change (if w = w then some (Value.bitVec (APInt.lift₂ (keyword k).apply ⟨w, x⟩ ⟨w, y⟩))
      else none) = _
    rw [if_pos rfl, APInt.lift₂_mk, ConstantExpr.binary_mk, keyword_apply k hk]
  cases s with
  | SORT_BITVECTOR =>
    unfold printBinary
    cases k <;> exact hbitVec
  | SORT_BOOL =>
    obtain rfl : w = 1 := hs rfl
    obtain ⟨a, rfl⟩ := APInt.eq_ofBool_of_width_one x
    obtain ⟨b, rfl⟩ := APInt.eq_ofBool_of_width_one y
    have hbool : ∀ f : SMTLIB.BoolFn, (Term.app₂ (.bool f) (left SORT_BOOL)
        (right SORT_BOOL)).eval I = some (.bool (f.apply a b)) := by
      intro f
      rw [Term.eval, hl, hr]
      cases a <;> cases b <;> rfl
    rw [ConstantExpr.binary_mk]
    cases k with
    | And =>
      change (Term.app₂ (.bool .and) _ _).eval I = _
      rw [hbool]
      cases a <;> cases b <;> rfl
    | Or =>
      change (Term.app₂ (.bool .or) _ _).eval I = _
      rw [hbool]
      cases a <;> cases b <;> rfl
    | Xor =>
      change (Term.app₂ (.bool .xor) _ _).eval I = _
      rw [hbool]
      cases a <;> cases b <;> rfl
    | _ => exact absurd (hk rfl) (by decide)

/-- The kinds that the constructors build. -/
theorem eval_printCmp {k : CmpKind} (hk : k.isCanonical = true)
    (hl : ∀ s, (left s).eval I = some (valueAs s x))
    (hr : ∀ s, (right s).eval I = some (valueAs s y)) (hxy : x.width = y.width)
    (hs : s = SORT_BOOL → x.width = 1) :
    (printCmp k s left right).eval I
      = some (valueAs SORT_BOOL (ConstantExpr.compare k x y)) := by
  obtain ⟨w, x⟩ := x
  obtain ⟨y, rfl⟩ := APInt.eq_mk_of_width hxy.symm
  have hrel : ∀ f : SMTLIB.BitVecRel, (Term.app₂ (.rel f) (left SORT_BITVECTOR)
      (right SORT_BITVECTOR)).eval I = some (.bool (f.apply x y)) := by
    intro f
    rw [Term.eval, hl, hr]
    change (if w = w then some (Value.bool (f.apply x (y.setWidth w))) else none) = _
    rw [if_pos rfl, BitVec.setWidth_eq]
  have hbool : ∀ b : Bool, valueAs SORT_BOOL ⟨1, BitVec.ofBool b⟩ = .bool b := by
    intro b
    cases b <;> rfl
  rw [ConstantExpr.compare_mk, hbool]
  cases k with
  | Eq =>
    cases s with
    | SORT_BITVECTOR =>
      change (Term.app₂ .eq (left SORT_BITVECTOR) (right SORT_BITVECTOR)).eval I = _
      rw [Term.eval, hl, hr]
      change (if w = w then some (Value.bool (x == y.setWidth w)) else none) = _
      rw [if_pos rfl, BitVec.setWidth_eq]
      rfl
    | SORT_BOOL =>
      obtain rfl : w = 1 := hs rfl
      obtain ⟨a, rfl⟩ := APInt.eq_ofBool_of_width_one x
      obtain ⟨b, rfl⟩ := APInt.eq_ofBool_of_width_one y
      change (Term.app₂ .eq (left SORT_BOOL) (right SORT_BOOL)).eval I = _
      rw [Term.eval, hl, hr]
      cases a <;> cases b <;> rfl
  | Ult => exact hrel .bvult
  | Ule => exact hrel .bvule
  | Slt => exact hrel .bvslt
  | Sle => exact hrel .bvsle
  | _ => exact absurd hk (by decide)

theorem eval_printNot (h : ∀ s, (src s).eval I = some (valueAs s x))
    (hs : s = SORT_BOOL → x.width = 1) :
    (printNot src s).eval I = some (valueAs s x.not) := by
  cases s with
  | SORT_BITVECTOR =>
    rw [printNot, Term.eval, h]
    rfl
  | SORT_BOOL =>
    rw [printNot, Term.eval, h]
    obtain ⟨b, rfl⟩ := APInt.eq_mk_of_width (hs rfl)
    obtain ⟨b, rfl⟩ := APInt.eq_ofBool_of_width_one b
    cases b <;> rfl

theorem sort_valueAs (h : x.width = y.width) :
    (valueAs s x).sort = (valueAs s y).sort := by
  cases s with
  | SORT_BITVECTOR =>
    change SMTLIB.Srt.bitVec x.width = .bitVec y.width
    rw [h]
  | SORT_BOOL => rfl

theorem eval_printSelectExpr {cond trueExpr falseExpr : Printed}
    (hc : ∀ s, (cond s).eval I = some (valueAs s c)) (hwidth : c.width = 1)
    (ht : ∀ s, (trueExpr s).eval I = some (valueAs s x))
    (hf : ∀ s, (falseExpr s).eval I = some (valueAs s y)) (hxy : x.width = y.width) :
    (printSelectExpr cond trueExpr falseExpr s).eval I
      = some (valueAs s (if c.isTrue then x else y)) := by
  rw [printSelectExpr, Term.eval, hc, ht, hf]
  change (if (valueAs s x).sort = (valueAs s y).sort then
      some (if decide (c.toNat ≠ 0) = true then valueAs s x else valueAs s y) else none) = _
  rw [if_pos (sort_valueAs hxy), apply_ite (valueAs s)]
  have htrue : c.isTrue = decide (c.toNat ≠ 0) := by
    simp [APInt.isTrue, hwidth, bne, beq_eq_decide]
  rw [htrue]

theorem eval_printExtractExpr {off : ℕ} (h : ∀ s, (src s).eval I = some (valueAs s x)) (hw : 0 < w)
    (hle : off + w ≤ x.width) :
    (printExtractExpr src off w).eval I = some (.bitVec (x.extract off w)) := by
  have hwidth : off + w - 1 - off + 1 = w := by omega
  rw [printExtractExpr, Term.eval, h]
  change (if off ≤ off + w - 1 ∧ off + w - 1 < x.width then
      some (Value.bitVec (x.extract off (off + w - 1 - off + 1))) else none) = _
  rw [if_pos ⟨by omega, by omega⟩, hwidth]

theorem eval_printCastExpr {k : CastKind} (h : ∀ s, (src s).eval I = some (valueAs s x))
    (hle : x.width ≤ w) :
    (printCastExpr k src (w - x.width)).eval I = some (.bitVec (k.apply x w)) := by
  have hwidth : x.width + (w - x.width) = w := by omega
  cases k with
  | ZExt =>
    rw [printCastExpr, Term.eval, h]
    change some (Value.bitVec (x.zextOrTrunc (x.width + (w - x.width)))) = _
    rw [hwidth]
    rfl
  | SExt =>
    rw [printCastExpr, Term.eval, h]
    change some (Value.bitVec (x.sextOrTrunc (x.width + (w - x.width)))) = _
    rw [hwidth]
    rfl

/-- Storing is reading the newest update first. -/
theorem eval_printUpdatesAndArray {C : Contents} (abbreviations : Abbreviations) {ul : UpdateList}
    (hul : ul.WellTyped) (harray : I ul.array.name = some (arrayValue (C ul.array)))
    (hexprs : ∀ k ∈ ul.exprs, (printExpression .DECIMAL abbreviations k SORT_BITVECTOR).eval I
      = some (.bitVec (k.evalOn C))) :
    (printUpdatesAndArray .DECIMAL abbreviations ul).eval I
      = some (arrayValue (ul.readOn C)) := by
  induction ul using UpdateList.nodeInduction with
  | root a => exact harray
  | extend i v next ih =>
    obtain ⟨hi, hiw, hv, hvw, hnext⟩ := hul
    have hiEval := hexprs i (by simp [UpdateList.exprs])
    have hvEval := hexprs v (by simp [UpdateList.exprs])
    have hnextEval := ih hnext harray fun k hk => hexprs k (by simp [UpdateList.exprs, hk])
    obtain ⟨x, hx⟩ := APInt.eq_mk_of_width ((hi.evalOn_width C).trans hiw)
    obtain ⟨y, hy⟩ := APInt.eq_mk_of_width ((hv.evalOn_width C).trans hvw)
    have hread : (UpdateList.extend i v next).readOn C
        = fun n => if x.toNat = n then y else next.readOn C n := by
      funext n
      change (if (i.evalOn C).toNat = n then (v.evalOn C).bits.setWidth 8
        else next.readOn C n) = _
      rw [hx, hy, APInt.toNat_mk, BitVec.setWidth_eq]
    change (Term.app₃ .store (printUpdatesAndArray .DECIMAL abbreviations next) _ _).eval I = _
    rw [Term.eval, hnextEval, hiEval, hvEval, hx, hy, hread]
    change (if KArray.domain = 32 ∧ KArray.range = 8 then
      some (Value.array 32 8 (Function.update (fun j => next.readOn C j.toNat) (x.setWidth 32)
        (y.setWidth 8))) else none) = some (arrayValue _)
    rw [if_pos ⟨rfl, rfl⟩, BitVec.setWidth_eq, BitVec.setWidth_eq, arrayValue]
    congr 2
    funext j
    rw [Function.update_apply]
    simp only [← BitVec.toNat_inj, eq_comm]

end Nodes

end ExprSMTLIBPrinter

/-! ## Parts -/

/-- What holds of an expression and passes to parts holds of all that is in it. -/
theorem Expr.forall_mem_deep {P : Expr → Prop} (hpart : ∀ e k, P e → k ∈ e.parts → P k) {e : Expr}
    (he : P e) : ∀ x ∈ e.deep, P x := by
  induction e using Expr.partsInduction with | _ e ih =>
  intro x hx
  rcases Expr.mem_deep_iff.mp hx with rfl | ⟨k, hk, hx⟩
  · exact he
  · exact ih k hk (hpart e k he hk) x hx

/-! ## Expressions -/

namespace ExprSMTLIBPrinter

/-- The term that is printed for an expression denotes its value, at every sort
that may be expected. -/
theorem printExpression_eval {I : Interp} {C : Contents} {abbreviations : Abbreviations} {e : Expr}
    (hwt : e.WellTyped) (hcan : e.Canonical)
    (harray : ∀ a ∈ e.arrays, I a.name = some (arrayValue (C a)))
    (habbr : ∀ x ∈ e.deep, ∀ name, abbreviations x = some name →
      I name = some (valueAs (getSort x) (x.evalOn C))) (s : SMTLIB_SORT) :
    (printExpression .DECIMAL abbreviations e s).eval I = some (valueAs s (e.evalOn C)) := by
  induction e using Expr.partsInduction generalizing s with | _ e ih =>
  have hk : ∀ k ∈ e.parts, ∀ s, (printExpression .DECIMAL abbreviations k s).eval I
      = some (valueAs s (k.evalOn C)) := by
    intro k hk
    refine ih k hk (hwt.part hk) (hcan.part hk) (fun a ha => ?_) (fun x hx => ?_)
    · exact harray a (Expr.mem_arrays_of_part hk ha)
    · exact habbr x (Expr.deep_trans (Expr.mem_deep_of_part hk) hx)
  have hpos := hwt.width_pos
  have hwidth := hwt.evalOn_width C
  have hprint : ∀ node : Printed,
      (node (getSort e)).eval I = some (valueAs (getSort e) (e.evalOn C)) →
      (printAs abbreviations e node s).eval I = some (valueAs s (e.evalOn C)) :=
    fun node hnode => eval_printAs hwidth hpos (habbr e e.mem_deep_self) hnode s
  have hbool : getSort e = SORT_BOOL → e.width = 1 := width_of_getSort
  cases e with
  | Constant c => exact hprint _ (eval_printConstant hwt)
  | NotOptimized e => exact hprint _ (hk e (by simp [Expr.parts, Expr.kids]) _)
  | Read ul i =>
    refine hprint _ ?_
    have hul := eval_printUpdatesAndArray abbreviations hwt.1
      (harray ul.array (Expr.mem_arrays_iff.mpr (.inl ⟨ul, i, rfl, rfl⟩)))
      (fun k hmem => hk k (List.mem_cons_of_mem i hmem) SORT_BITVECTOR)
    obtain ⟨x, hx⟩ := APInt.eq_mk_of_width ((hwt.2.1.evalOn_width C).trans hwt.2.2)
    have hsort : getSort (.Read ul i) = SORT_BITVECTOR := getSort_of_width (by rw [Expr.width_Read]; decide)
    rw [hsort, Term.eval, hul, hk i List.mem_cons_self SORT_BITVECTOR, hx]
    change (if KArray.domain = 32 then
        some (Value.bitVec ⟨8, ul.readOn C (x.setWidth 32).toNat⟩) else none)
      = some (Value.bitVec ⟨8, ul.readOn C (i.evalOn C).toNat⟩)
    rw [if_pos rfl, BitVec.setWidth_eq, hx]
    rfl
  | Select c t f =>
    obtain ⟨hcw, htw, hfw, hcond, hsame⟩ := hwt
    refine hprint _ (eval_printSelectExpr (hk c (by simp [Expr.parts, Expr.kids]))
      ((hcw.evalOn_width C).trans hcond) (hk t (by simp [Expr.parts, Expr.kids]))
      (hk f (by simp [Expr.parts, Expr.kids])) ?_)
    rw [htw.evalOn_width, hfw.evalOn_width, hsame]
  | Concat l r =>
    refine hprint _ ?_
    have hsort : getSort (.Concat l r) = SORT_BITVECTOR := by
      refine getSort_of_width ?_
      have hl := hwt.1.width_pos
      have hr := hwt.2.width_pos
      rw [Expr.width_Concat]
      omega
    rw [hsort, Term.eval, hk l (by simp [Expr.parts, Expr.kids]),
      hk r (by simp [Expr.parts, Expr.kids])]
    rfl
  | Extract e off w =>
    refine hprint _ (eval_printExtractExpr (hk e (by simp [Expr.parts, Expr.kids])) hwt.2.1 ?_)
    rw [hwt.1.evalOn_width]
    exact hwt.2.2
  | Cast k e w =>
    refine hprint _ ?_
    have hsort : getSort (.Cast k e w) = SORT_BITVECTOR := by
      refine getSort_of_width ?_
      have he := hwt.1.width_pos
      have hle := hwt.2
      have hne := hcan.2
      rw [Expr.width_Cast]
      omega
    have hcast := eval_printCastExpr (k := k) (w := w) (hk e (by simp [Expr.parts, Expr.kids]))
      (by rw [hwt.1.evalOn_width]; exact hwt.2)
    rw [hwt.1.evalOn_width] at hcast
    rw [hsort]
    exact hcast
  | Not e =>
    refine hprint _ (eval_printNot (hk e (by simp [Expr.parts, Expr.kids])) fun h => ?_)
    have heval : (Expr.evalOn C e).width = e.width := Expr.WellTyped.evalOn_width C hwt
    rw [heval]
    exact hbool h
  | Binary k l r =>
    refine hprint _ (eval_printBinary (hk l (by simp [Expr.parts, Expr.kids]))
      (hk r (by simp [Expr.parts, Expr.kids])) ?_ (fun h => ?_) fun h => ?_)
    · rw [hwt.1.evalOn_width, hwt.2.1.evalOn_width, hwt.2.2]
    · rw [hwt.1.evalOn_width] at h
      exact hcan.2.2.2 h
    · rw [hwt.1.evalOn_width]
      exact hbool h
  | Cmp k l r =>
    refine hprint _ (eval_printCmp hcan.2.2.1 (hk l (by simp [Expr.parts, Expr.kids]))
      (hk r (by simp [Expr.parts, Expr.kids])) ?_ fun h => ?_)
    · rw [hwt.1.evalOn_width, hwt.2.1.evalOn_width, hwt.2.2]
    · rw [hwt.1.evalOn_width]
      exact width_of_getSort h

end ExprSMTLIBPrinter

end Xklee
