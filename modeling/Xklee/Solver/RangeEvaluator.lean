/-
Ranges of expressions: `ExprRangeEvaluator` of `include/klee/util/ExprRangeEvaluator.h`, over
the ranges of `CexRangeEvaluator` of `lib/Solver/FastCexSolver.cpp`.

`evaluate` goes through an expression bottom up, and through the update list of a read as
long as an index may be the one that is read. It does not look at the objects that
`CexRangeEvaluator` has. `Evaluates` says which expressions it is called for.

The range is right if none of these calls goes wrong (`RangeOk`): a concatenation is always
shifted by 8 bits, which is right for a last part of 8 bits only; the signed comparisons
shift by the width, which must be less than 64; and values of more than 64 bits do not fit.
-/
import Xklee.Expr.Canonical
import Xklee.Expr.Evaluator
import Xklee.Solver.ValueRange

set_option autoImplicit false

namespace Xklee

namespace CexRangeEvaluator

open ValueRange

/-! ## The code -/

/-- `getInitialReadRange`. -/
def getInitialReadRange (array : KArray) (index : ValueRange) : ValueRange :=
  -- "Check for a concrete read of a constant array."
  if array.isConstantArray ∧ index.isFixed ∧ index.m_min.toNat < array.size then
    ofValue ((array.constantValues.getD index.m_min.toNat 0).setWidth 64)
  else ⟨0, 255⟩

mutual

/-- `evaluate`. The kinds that are not handled have all values of their width. -/
def evaluate : Expr → Option ValueRange
  | .Constant c => some (ofConstant c)
  | .NotOptimized e => full e.width
  | .Read ul i => do
      let index ← evaluate i
      evalRead ul index .empty
  | .Select c t f => do
      let cond ← evaluate c
      if cond.mustEqualValue 1 then evaluate t
      else if cond.mustEqualValue 0 then evaluate f
      else
        let trueRange ← evaluate t
        let falseRange ← evaluate f
        return trueRange.set_union falseRange
  | .Concat l r => do
      let left ← evaluate l
      let res ← (ofValue 0).concat left 8
      let right ← evaluate r
      res.concat right 8
  | .Extract _ _ w => full w
  | .Cast _ _ w => full w
  | .Not e => full e.width
  | .Binary .Shl l _ | .Binary .LShr l _ | .Binary .AShr l _ => full l.width
  | .Binary .And l r => do
      let left ← evaluate l
      let right ← evaluate r
      left.binaryAnd right
  | .Binary .Or l r => do
      let left ← evaluate l
      let right ← evaluate r
      left.binaryOr right
  | .Binary .Xor l r => do
      let left ← evaluate l
      let right ← evaluate r
      left.binaryXor right
  | .Binary _ l r => do
      -- `add`, `sub`, `mul`, `udiv`, `sdiv`, `urem` and `srem` do not use the ranges
      let _ ← evaluate l
      let _ ← evaluate r
      full l.width
  | .Cmp .Eq l r => do
      let left ← evaluate l
      let right ← evaluate r
      if left.mustEqual right then return ofValue 1
      else if !left.mayEqual right then return ofValue 0
      else full 1
  | .Cmp .Ult l r => do
      let left ← evaluate l
      let right ← evaluate r
      if (← left.max?) < (← right.min?) then return ofValue 1
      else if (← right.max?) ≤ (← left.min?) then return ofValue 0
      else full 1
  | .Cmp .Ule l r => do
      let left ← evaluate l
      let right ← evaluate r
      if (← left.max?) ≤ (← right.min?) then return ofValue 1
      else if (← right.max?) < (← left.min?) then return ofValue 0
      else full 1
  | .Cmp .Slt l r => do
      let left ← evaluate l
      let right ← evaluate r
      if (← left.maxSigned l.width).slt (← right.minSigned l.width) then return ofValue 1
      else if (← right.maxSigned l.width).sle (← left.minSigned l.width) then return ofValue 0
      else full 1
  | .Cmp .Sle l r => do
      let left ← evaluate l
      let right ← evaluate r
      if (← left.maxSigned l.width).sle (← right.minSigned l.width) then return ofValue 1
      else if (← right.maxSigned l.width).slt (← left.minSigned l.width) then return ofValue 0
      else full 1
  | .Cmp _ _ _ =>
      -- "invalid expressions (uncanonicalized)"
      none

/-- `evalRead`, with the range found so far. -/
def evalRead : UpdateList → ValueRange → ValueRange → Option ValueRange
  | .root array, index, res => some (res.set_union (getInitialReadRange array index))
  | .extend i v next, index, res => do
      let ui ← evaluate i
      if ui.mustEqual index then
        let value ← evaluate v
        return res.set_union value
      else if ui.mayEqual index then
        let value ← evaluate v
        let res := res.set_union value
        if res.isFullRange 8 then return res else evalRead next index res
      else evalRead next index res

end

/-! ## The calls -/

/-- What `evalRead` calls `evaluate` for. -/
def evalReadCalls : UpdateList → ValueRange → ValueRange → List Expr
  | .root _, _, _ => []
  | .extend i v next, index, res =>
      i :: match evaluate i with
        | none => []
        | some ui =>
            if ui.mustEqual index then [v]
            else if ui.mayEqual index then
              v :: match evaluate v with
                | none => []
                | some value =>
                    if (res.set_union value).isFullRange 8 then []
                    else evalReadCalls next index (res.set_union value)
            else evalReadCalls next index res

/-- What `evaluate` calls itself for. -/
def calls : Expr → List Expr
  | .Read ul i =>
      i :: match evaluate i with
        | none => []
        | some index => evalReadCalls ul index .empty
  | .Select c t f =>
      c :: match evaluate c with
        | none => []
        | some cond =>
            if cond.mustEqualValue 1 then [t] else if cond.mustEqualValue 0 then [f] else [t, f]
  | .Concat l r | .Cmp _ l r => [l, r]
  | .Binary .Shl _ _ | .Binary .LShr _ _ | .Binary .AShr _ _ => []
  | .Binary _ l r => [l, r]
  | _ => []

/-- `evaluate` of the first expression calls `evaluate` of the second one. -/
inductive Evaluates : Expr → Expr → Prop
  | self (e : Expr) : Evaluates e e
  | call {e k x : Expr} (hk : k ∈ calls e) (h : Evaluates k x) : Evaluates e x

/-- Nothing goes wrong in the call for this expression. -/
def RangeOk : Expr → Prop
  | .Constant c => c.toNat < 2 ^ 64
  | .Read _ _ | .Select _ _ _ => True
  | .Concat l r => r.width = 8 ∧ l.width ≤ 56
  | .Binary .And _ _ | .Binary .Or _ _ | .Binary .Xor _ _ => True
  | .Cmp .Slt l _ | .Cmp .Sle l _ => l.width < 64
  | .Cmp _ _ _ => True
  | e => e.width ≤ 64

/-- Nothing goes wrong in any call. -/
def EvaluatesOk (e : Expr) : Prop := ∀ x, Evaluates e x → RangeOk x

/-- The value lies in the range. -/
def Bounds (e : Expr) : Prop :=
  ∃ r, evaluate e = some r ∧ r.Within e.width ∧ ∀ σ, r.Contains (e.eval σ).toNat

variable {e l r c t f i k v : Expr} {σ : Env}

theorem EvaluatesOk.self (h : EvaluatesOk e) : RangeOk e := h e (.self e)

theorem EvaluatesOk.call (h : EvaluatesOk e) (hk : k ∈ calls e) : EvaluatesOk k :=
  fun x hx => h x (.call hk hx)

theorem evalReadCalls_subset (ul : UpdateList) (index res : ValueRange) :
    evalReadCalls ul index res ⊆ ul.exprs := by
  induction ul using UpdateList.nodeInduction generalizing res with
  | root a => exact List.nil_subset _
  | extend i v next ih =>
    unfold evalReadCalls UpdateList.exprs
    apply List.cons_subset_cons
    split
    next => exact List.nil_subset _
    next =>
      split_ifs
      · simp
      · apply List.cons_subset_cons
        split
        next => exact List.nil_subset _
        next =>
          split_ifs
          · exact List.nil_subset _
          · exact ih _
      · exact List.subset_cons_of_subset v (ih res)

theorem calls_subset_parts (e : Expr) : calls e ⊆ e.parts := by
  cases e with
  | Read ul i =>
    apply List.cons_subset_cons
    split
    next => exact List.nil_subset _
    next => exact evalReadCalls_subset ul _ _
  | Select c t f =>
    apply List.cons_subset_cons
    split
    next => exact List.nil_subset _
    next => split_ifs <;> simp
  | Binary kind l r =>
    cases kind with
    | Shl | LShr | AShr => exact List.nil_subset _
    | _ => exact List.Subset.refl _
  | Concat l r | Cmp _ l r => exact List.Subset.refl _
  | _ => exact List.nil_subset _

/-! ## Values -/

theorem toNat_lt (h : e.WellTyped) (σ : Env) : (e.eval σ).toNat < 2 ^ e.width := by
  rw [← h.eval_width (σ := σ)]
  exact (e.eval σ).bits.isLt

/-- All values of a width. -/
theorem bounds_full (h : e.WellTyped) (hwidth : e.width ≤ 64) (heq : evaluate e = full e.width) :
    Bounds e := by
  obtain ⟨s, hs, hwithin, hcontains⟩ := exists_full hwidth
  exact ⟨s, heq.trans hs, hwithin, fun σ => hcontains _ (toNat_lt h σ)⟩

/-- The values of the operands, at the width. -/
theorem exists_operands (hl : l.WellTyped) (hr : r.WellTyped) (hw : l.width = r.width) (σ : Env) :
    ∃ x y : BitVec l.width, l.eval σ = ⟨l.width, x⟩ ∧ r.eval σ = ⟨l.width, y⟩ := by
  obtain ⟨x, hx⟩ := hl.denotes (σ := σ) rfl
  obtain ⟨y, hy⟩ := hr.denotes (σ := σ) hw.symm
  exact ⟨x, y, hx.2, hy.2⟩

/-! ## Bitwise operations -/

variable {ul : UpdateList} {index s : ValueRange} {kind : BinaryKind} {n j : ℕ}

/-- An operation on ranges that bounds an operation on numbers. -/
theorem bounds_bitwise (op : ValueRange → ValueRange → Option ValueRange) {f : ℕ → ℕ → ℕ}
    (h : (Expr.Binary kind l r).WellTyped) (hl : Bounds l) (hr : Bounds r)
    (heval : evaluate (.Binary kind l r)
      = (evaluate l).bind fun rl => (evaluate r).bind fun rr => op rl rr)
    (hop : ∀ (rl rr : ValueRange) (n m w : ℕ), rl.Contains n → rr.Contains m → rl.Within w →
      rr.Within w → ∃ s, op rl rr = some s ∧ s.Contains (f n m) ∧ s.Within w)
    (hf : ∀ {w : ℕ} (x y : BitVec w), (kind.apply x y).toNat = f x.toNat y.toNat) :
    Bounds (.Binary kind l r) := by
  obtain ⟨rl, heql, hwl, hcl⟩ := hl
  obtain ⟨rr, heqr, hwr, hcr⟩ := hr
  have hwr' : rr.Within l.width := h.2.2 ▸ hwr
  obtain ⟨s, heq, -, hs⟩ := hop rl rr _ _ _ (hcl fun _ _ => 0) (hcr fun _ _ => 0) hwl hwr'
  have heval' : evaluate (.Binary kind l r) = some s := by
    rw [heval, heql, Option.bind_some, heqr, Option.bind_some, heq]
  refine ⟨s, heval', hs, fun σ => ?_⟩
  obtain ⟨s', heq', hs', -⟩ := hop rl rr _ _ _ (hcl σ) (hcr σ) hwl hwr'
  obtain rfl := Option.some.inj (heq.symm.trans heq')
  obtain ⟨x, y, hx, hy⟩ := exists_operands h.1 h.2.1 h.2.2 σ
  rw [hx, hy] at hs'
  rw [Expr.eval_Binary, hx, hy, ConstantExpr.binary_mk]
  show s.Contains (kind.apply x y).toNat
  rw [hf]
  exact hs'

theorem bounds_And (h : (Expr.Binary .And l r).WellTyped) (hl : Bounds l) (hr : Bounds r) :
    Bounds (.Binary .And l r) := by
  apply bounds_bitwise binaryAnd h hl hr rfl ?_ (fun x y => BitVec.toNat_and x y)
  intro rl rr n m w hn hm hwl hwr
  obtain ⟨s, heq, hs⟩ := exists_binaryAnd hn hm
  exact ⟨s, heq, hs, hwl.binaryAnd hwr heq⟩

theorem bounds_Or (h : (Expr.Binary .Or l r).WellTyped) (hl : Bounds l) (hr : Bounds r) :
    Bounds (.Binary .Or l r) := by
  apply bounds_bitwise binaryOr h hl hr rfl ?_ (fun x y => BitVec.toNat_or x y)
  intro rl rr n m w hn hm hwl hwr
  obtain ⟨s, heq, hs⟩ := exists_binaryOr hn hm
  exact ⟨s, heq, hs, hwl.binaryOr hwr heq⟩

theorem bounds_Xor (h : (Expr.Binary .Xor l r).WellTyped) (hl : Bounds l) (hr : Bounds r) :
    Bounds (.Binary .Xor l r) := by
  apply bounds_bitwise binaryXor h hl hr rfl ?_ (fun x y => BitVec.toNat_xor x y)
  intro rl rr n m w hn hm hwl hwr
  exact exists_binaryXor hn hm hwl hwr

/-! ## Comparisons -/

/-- A comparison whose range says what it is, or nothing. -/
theorem bounds_Cmp {kind : CmpKind} {res : Option ValueRange}
    (h : (Expr.Cmp kind l r).WellTyped) (heq : evaluate (.Cmp kind l r) = res)
    (hres : (res = some (ofValue 1) ∧ ∀ σ, (Expr.Cmp kind l r).eval σ = .ofBool true)
      ∨ (res = some (ofValue 0) ∧ ∀ σ, (Expr.Cmp kind l r).eval σ = .ofBool false)
      ∨ res = full 1) : Bounds (.Cmp kind l r) := by
  rcases hres with ⟨rfl, hval⟩ | ⟨rfl, hval⟩ | rfl
  · refine ⟨_, heq, show 1 < 2 by decide, fun σ => ?_⟩
    rw [hval]
    exact contains_ofValue 1
  · refine ⟨_, heq, show 0 < 2 by decide, fun σ => ?_⟩
    rw [hval]
    exact contains_ofValue 0
  · exact bounds_full h (show 1 ≤ 64 by decide) heq

/-- A comparison that has one value for all numbers of the ranges. -/
theorem eval_Cmp_ofBool {kind : CmpKind} {b : Bool} {rl rr : ValueRange}
    (h : (Expr.Cmp kind l r).WellTyped) (hl : ∀ σ, rl.Contains (l.eval σ).toNat)
    (hr : ∀ σ, rr.Contains (r.eval σ).toNat)
    (hholds : ∀ x y : BitVec l.width, rl.Contains x.toNat → rr.Contains y.toNat →
      kind.holds x y = b) (σ : Env) : (Expr.Cmp kind l r).eval σ = .ofBool b := by
  obtain ⟨x, y, hx, hy⟩ := exists_operands h.1 h.2.1 h.2.2 σ
  have hn := hl σ
  have hm := hr σ
  rw [hx] at hn
  rw [hy] at hm
  rw [Expr.eval_Cmp, hx, hy, ConstantExpr.compare_mk, hholds x y hn hm]
  rfl

theorem bounds_Eq (h : (Expr.Cmp .Eq l r).WellTyped) (hl : Bounds l) (hr : Bounds r) :
    Bounds (.Cmp .Eq l r) := by
  obtain ⟨rl, heql, -, hcl⟩ := hl
  obtain ⟨rr, heqr, -, hcr⟩ := hr
  have heq : evaluate (.Cmp .Eq l r) = if rl.mustEqual rr then some (ofValue 1)
      else if !rl.mayEqual rr then some (ofValue 0) else full 1 := by
    show (evaluate l).bind _ = _
    rw [heql]
    show (evaluate r).bind _ = _
    rw [heqr]
    rfl
  refine bounds_Cmp h heq ?_
  split_ifs with hmust hmay
  · refine .inl ⟨rfl, eval_Cmp_ofBool h hcl hcr fun x y hn hm => ?_⟩
    show (x == y) = true
    rw [beq_iff_eq]
    exact BitVec.eq_of_toNat_eq (eq_of_mustEqual hmust hn hm)
  · refine .inr (.inl ⟨rfl, eval_Cmp_ofBool h hcl hcr fun x y hn hm => ?_⟩)
    show (x == y) = false
    rw [beq_eq_false_iff_ne]
    rintro rfl
    rw [mayEqual_of_contains hn hm] at hmay
    exact absurd hmay (by decide)
  · exact .inr (.inr rfl)

theorem min?_eq (h : s.Contains n) : s.min? = some s.m_min := by
  unfold min?
  rw [h.not_isEmpty]
  rfl

theorem max?_eq (h : s.Contains n) : s.max? = some s.m_max := by
  unfold max?
  rw [h.not_isEmpty]
  rfl

theorem bounds_Ult (h : (Expr.Cmp .Ult l r).WellTyped) (hl : Bounds l) (hr : Bounds r) :
    Bounds (.Cmp .Ult l r) := by
  obtain ⟨rl, heql, -, hcl⟩ := hl
  obtain ⟨rr, heqr, -, hcr⟩ := hr
  have hl0 := hcl fun _ _ => 0
  have hr0 := hcr fun _ _ => 0
  have heq : evaluate (.Cmp .Ult l r) = if rl.m_max < rr.m_min then some (ofValue 1)
      else if rr.m_max ≤ rl.m_min then some (ofValue 0) else full 1 := by
    simp only [evaluate, heql, heqr, Option.bind_eq_bind, Option.bind_some, min?_eq hl0, min?_eq hr0,
      max?_eq hl0, max?_eq hr0]
    rfl
  refine bounds_Cmp h heq ?_
  split_ifs with hlt hle
  · refine .inl ⟨rfl, eval_Cmp_ofBool h hcl hcr fun x y hn hm => ?_⟩
    show x.ult y = true
    rw [BitVec.lt_def] at hlt
    rw [BitVec.ult_iff_lt, BitVec.lt_def]
    exact (hn.2.trans_lt hlt).trans_le hm.1
  · refine .inr (.inl ⟨rfl, eval_Cmp_ofBool h hcl hcr fun x y hn hm => ?_⟩)
    show x.ult y = false
    rw [BitVec.le_def] at hle
    rw [← Bool.not_eq_true, BitVec.ult_iff_lt, BitVec.lt_def, Nat.not_lt]
    exact (hm.2.trans hle).trans hn.1
  · exact .inr (.inr rfl)

theorem bounds_Ule (h : (Expr.Cmp .Ule l r).WellTyped) (hl : Bounds l) (hr : Bounds r) :
    Bounds (.Cmp .Ule l r) := by
  obtain ⟨rl, heql, -, hcl⟩ := hl
  obtain ⟨rr, heqr, -, hcr⟩ := hr
  have hl0 := hcl fun _ _ => 0
  have hr0 := hcr fun _ _ => 0
  have heq : evaluate (.Cmp .Ule l r) = if rl.m_max ≤ rr.m_min then some (ofValue 1)
      else if rr.m_max < rl.m_min then some (ofValue 0) else full 1 := by
    simp only [evaluate, heql, heqr, Option.bind_eq_bind, Option.bind_some, min?_eq hl0, min?_eq hr0,
      max?_eq hl0, max?_eq hr0]
    rfl
  refine bounds_Cmp h heq ?_
  split_ifs with hle hlt
  · refine .inl ⟨rfl, eval_Cmp_ofBool h hcl hcr fun x y hn hm => ?_⟩
    show x.ule y = true
    rw [BitVec.le_def] at hle
    rw [BitVec.ule_iff_le, BitVec.le_def]
    exact (hn.2.trans hle).trans hm.1
  · refine .inr (.inl ⟨rfl, eval_Cmp_ofBool h hcl hcr fun x y hn hm => ?_⟩)
    show x.ule y = false
    rw [BitVec.lt_def] at hlt
    rw [← Bool.not_eq_true, BitVec.ule_iff_le, BitVec.le_def, Nat.not_le]
    exact (hm.2.trans_lt hlt).trans_le hn.1
  · exact .inr (.inr rfl)

/-- The signed bounds of a range, and the numbers in it. -/
theorem exists_signed {w : ℕ} (hpos : 0 < w) (hw : w < 64) (hs : s.Within w) (hn : s.Contains n) :
    ∃ low high, s.minSigned w = some low ∧ s.maxSigned w = some high
      ∧ ∀ x : BitVec w, s.Contains x.toNat → low.toInt ≤ x.toInt ∧ x.toInt ≤ high.toInt := by
  obtain ⟨low, hlow, -⟩ := exists_minSigned hn hpos hw hs
  obtain ⟨high, hhigh, -⟩ := exists_maxSigned hn hpos hw hs
  refine ⟨low, high, hlow, hhigh, fun x hx => ?_⟩
  obtain ⟨low', hlow', hle⟩ := exists_minSigned hx hpos hw hs
  obtain ⟨high', hhigh', hle'⟩ := exists_maxSigned hx hpos hw hs
  obtain rfl := Option.some.inj (hlow.symm.trans hlow')
  obtain rfl := Option.some.inj (hhigh.symm.trans hhigh')
  rw [toInt_eq_signedValue x]
  exact ⟨hle, hle'⟩

theorem bounds_Slt (h : (Expr.Cmp .Slt l r).WellTyped) (hl : Bounds l) (hr : Bounds r)
    (hw : l.width < 64) : Bounds (.Cmp .Slt l r) := by
  obtain ⟨rl, heql, hwl, hcl⟩ := hl
  obtain ⟨rr, heqr, hwr, hcr⟩ := hr
  have hpos : 0 < l.width := h.1.width_pos
  have hwr' : rr.Within l.width := h.2.2 ▸ hwr
  obtain ⟨lowl, highl, hlowl, hhighl, hsl⟩ := exists_signed hpos hw hwl (hcl fun _ _ => 0)
  obtain ⟨lowr, highr, hlowr, hhighr, hsr⟩ := exists_signed hpos hw hwr' (hcr fun _ _ => 0)
  have heq : evaluate (.Cmp .Slt l r) = if highl.slt lowr then some (ofValue 1)
      else if highr.sle lowl then some (ofValue 0) else full 1 := by
    simp only [evaluate, heql, heqr, Option.bind_eq_bind, Option.bind_some, hlowl, hhighl, hlowr,
      hhighr]
    rfl
  refine bounds_Cmp h heq ?_
  split_ifs with hlt hle
  · refine .inl ⟨rfl, eval_Cmp_ofBool h hcl hcr fun x y hn hm => ?_⟩
    show x.slt y = true
    rw [BitVec.slt_iff_toInt_lt] at hlt ⊢
    exact ((hsl x hn).2.trans_lt hlt).trans_le (hsr y hm).1
  · refine .inr (.inl ⟨rfl, eval_Cmp_ofBool h hcl hcr fun x y hn hm => ?_⟩)
    show x.slt y = false
    rw [BitVec.sle_iff_toInt_le] at hle
    rw [← Bool.not_eq_true, BitVec.slt_iff_toInt_lt, Int.not_lt]
    exact ((hsr y hm).2.trans hle).trans (hsl x hn).1
  · exact .inr (.inr rfl)

theorem bounds_Sle (h : (Expr.Cmp .Sle l r).WellTyped) (hl : Bounds l) (hr : Bounds r)
    (hw : l.width < 64) : Bounds (.Cmp .Sle l r) := by
  obtain ⟨rl, heql, hwl, hcl⟩ := hl
  obtain ⟨rr, heqr, hwr, hcr⟩ := hr
  have hpos : 0 < l.width := h.1.width_pos
  have hwr' : rr.Within l.width := h.2.2 ▸ hwr
  obtain ⟨lowl, highl, hlowl, hhighl, hsl⟩ := exists_signed hpos hw hwl (hcl fun _ _ => 0)
  obtain ⟨lowr, highr, hlowr, hhighr, hsr⟩ := exists_signed hpos hw hwr' (hcr fun _ _ => 0)
  have heq : evaluate (.Cmp .Sle l r) = if highl.sle lowr then some (ofValue 1)
      else if highr.slt lowl then some (ofValue 0) else full 1 := by
    simp only [evaluate, heql, heqr, Option.bind_eq_bind, Option.bind_some, hlowl, hhighl, hlowr,
      hhighr]
    rfl
  refine bounds_Cmp h heq ?_
  split_ifs with hle hlt
  · refine .inl ⟨rfl, eval_Cmp_ofBool h hcl hcr fun x y hn hm => ?_⟩
    show x.sle y = true
    rw [BitVec.sle_iff_toInt_le] at hle ⊢
    exact ((hsl x hn).2.trans hle).trans (hsr y hm).1
  · refine .inr (.inl ⟨rfl, eval_Cmp_ofBool h hcl hcr fun x y hn hm => ?_⟩)
    show x.sle y = false
    rw [BitVec.slt_iff_toInt_lt] at hlt
    rw [← Bool.not_eq_true, BitVec.sle_iff_toInt_le, Int.not_le]
    exact ((hsr y hm).2.trans_lt hlt).trans_le (hsl x hn).1
  · exact .inr (.inr rfl)

/-! ## Concatenations and choices -/

/-- The hard-wired shift is right for a last part of 8 bits. -/
theorem bounds_Concat (h : (Expr.Concat l r).WellTyped) (hok : RangeOk (.Concat l r))
    (hl : Bounds l) (hr : Bounds r) : Bounds (.Concat l r) := by
  obtain ⟨rl, heql, hwl, hcl⟩ := hl
  obtain ⟨rr, heqr, hwr, hcr⟩ := hr
  obtain ⟨hw8, hwidth⟩ := hok
  rw [hw8] at hwr
  -- the first part is put behind nothing, so it stays as it is
  have hzero : (ofValue 0).Contains 0 := contains_ofValue 0
  obtain ⟨first, hfirst, -⟩ := exists_binaryOr hzero (hcl fun _ _ => 0)
  have hwzero : (ofValue 0).Within l.width := Nat.two_pow_pos l.width
  have hwfirst : first.Within l.width := hwzero.binaryOr hwl hfirst
  have hcfirst : ∀ σ, first.Contains (l.eval σ).toNat := by
    intro σ
    obtain ⟨first', hfirst', hc⟩ := exists_binaryOr hzero (hcl σ)
    obtain rfl := Option.some.inj (hfirst.symm.trans hfirst')
    rwa [Nat.zero_or] at hc
  have hwidth' : l.width + 8 ≤ 64 := by omega
  obtain ⟨s, heq, -, hws⟩ := exists_concat (hcfirst fun _ _ => 0) (hcr fun _ _ => 0) (by decide)
    hwfirst hwr hwidth'
  refine ⟨s, ?_, ?_, fun σ => ?_⟩
  · show (evaluate l).bind _ = _
    rw [heql]
    show ((ofValue 0).binaryOr rl).bind _ = _
    rw [hfirst]
    show (evaluate r).bind _ = _
    rw [heqr]
    exact heq
  · show s.Within (l.width + r.width)
    rw [hw8]
    exact hws
  · obtain ⟨s', heq', hs', -⟩ := exists_concat (hcfirst σ) (hcr σ) (by decide) hwfirst hwr hwidth'
    obtain rfl := Option.some.inj (heq.symm.trans heq')
    obtain ⟨y, hy⟩ := h.2.denotes (σ := σ) hw8
    rw [Expr.eval_Concat]
    show s.Contains ((l.eval σ).bits ++ (r.eval σ).bits).toNat
    have hvalue : ((l.eval σ).bits ++ (r.eval σ).bits).toNat
        = (l.eval σ).toNat * 2 ^ 8 + (r.eval σ).toNat := by
      rw [hy.2, BitVec.toNat_append, ← Nat.shiftLeft_add_eq_or_of_lt y.isLt, Nat.shiftLeft_eq]
      rfl
    rw [hvalue]
    exact hs'

theorem bounds_Select (h : (Expr.Select c t f).WellTyped) (hc : Bounds c)
    (ht : t ∈ calls (.Select c t f) → Bounds t) (hf : f ∈ calls (.Select c t f) → Bounds f) :
    Bounds (.Select c t f) := by
  obtain ⟨rc, heqc, -, hcc⟩ := hc
  have hcalls : calls (.Select c t f) = c :: if rc.mustEqualValue 1 then [t]
      else if rc.mustEqualValue 0 then [f] else [t, f] := by
    rw [calls, heqc]
  have heq : evaluate (.Select c t f) = if rc.mustEqualValue 1 then evaluate t
      else if rc.mustEqualValue 0 then evaluate f
      else (evaluate t).bind fun rt => (evaluate f).bind fun rf => some (rt.set_union rf) := by
    show (evaluate c).bind _ = _
    rw [heqc]
    rfl
  have hcond : ∀ σ, (c.eval σ).isTrue = decide ((c.eval σ).toNat = 1) := by
    intro σ
    obtain ⟨x, hx⟩ := h.1.denotes (σ := σ) h.2.2.2.1
    rw [hx.2]
    obtain ⟨b, rfl⟩ := APInt.eq_ofBool_of_width_one x
    cases b <;> decide
  rw [Bounds, heq]
  split_ifs with h1 h0
  · obtain ⟨rt, heqt, hwt, hct⟩ := ht (by rw [hcalls, if_pos h1]; simp)
    refine ⟨rt, heqt, hwt, fun σ => ?_⟩
    have htrue : (c.eval σ).isTrue = true := by
      rw [hcond, decide_eq_true_eq]
      exact eq_of_mustEqualValue h1 (hcc σ)
    rw [Expr.eval_Select, if_pos htrue]
    exact hct σ
  · obtain ⟨rf, heqf, hwf, hcf⟩ := hf (by rw [hcalls, if_neg h1, if_pos h0]; simp)
    refine ⟨rf, heqf, ?_, fun σ => ?_⟩
    · show rf.Within t.width
      rw [h.2.2.2.2]
      exact hwf
    · have hfalse : ¬(c.eval σ).isTrue = true := by
        rw [hcond, decide_eq_true_eq, eq_of_mustEqualValue h0 (hcc σ)]
        decide
      rw [Expr.eval_Select, if_neg hfalse]
      exact hcf σ
  · obtain ⟨rt, heqt, hwt, hct⟩ := ht (by rw [hcalls, if_neg h1, if_neg h0]; simp)
    obtain ⟨rf, heqf, hwf, hcf⟩ := hf (by rw [hcalls, if_neg h1, if_neg h0]; simp)
    refine ⟨rt.set_union rf, by rw [heqt, heqf]; rfl, ?_, fun σ => ?_⟩
    · refine hwt.set_union ?_
      show rf.Within t.width
      rw [h.2.2.2.2]
      exact hwf
    · rw [Expr.eval_Select]
      split
      next => exact (hct σ).set_union_left rf
      next => exact (hcf σ).set_union_right rt

/-! ## Reads -/

theorem within_getInitialReadRange (array : KArray) (index : ValueRange) :
    (getInitialReadRange array index).Within 8 := by
  unfold getInitialReadRange
  split
  next =>
    rw [within_ofValue, BitVec.toNat_setWidth]
    exact (Nat.mod_le _ _).trans_lt (BitVec.isLt _)
  next => exact show 255 < 2 ^ 8 by decide

theorem contains_byte (hmin : s.m_min = 0) (hmax : s.m_max = 255) (x : BitVec 8) :
    s.Contains x.toNat := by
  have hlt := x.isLt
  unfold Contains
  rw [hmin, hmax]
  exact ⟨Nat.zero_le _, show x.toNat ≤ 255 by omega⟩

theorem contains_getInitialReadRange {array : KArray} (hj : index.Contains j) (σ : Env) :
    (getInitialReadRange array index).Contains (array.initial σ j).toNat := by
  unfold getInitialReadRange
  split
  next h =>
    have hj' : j = index.m_min.toNat := hj.eq_of_isFixed h.2.1
    have hvalue : ((array.constantValues.getD j 0).setWidth 64).toNat
        = (array.constantValues.getD j 0).toNat := by
      rw [BitVec.toNat_setWidth]
      exact Nat.mod_eq_of_lt ((BitVec.isLt _).trans (by decide))
    rw [KArray.initial, if_pos h.1, ← hj', ← hvalue]
    exact contains_ofValue _
  next => exact contains_byte rfl rfl _

/-- The range of a read, for what was found so far. -/
theorem evalRead_bounds (hul : ul.WellTyped) (res : ValueRange) (hres : res.Within 8)
    (hcalls : ∀ k ∈ evalReadCalls ul index res, Bounds k) :
    ∃ s, evalRead ul index res = some s ∧ s.Within 8 ∧ (∀ n, res.Contains n → s.Contains n)
      ∧ ∀ σ j, index.Contains j → s.Contains (ul.read σ j).toNat := by
  induction ul using UpdateList.nodeInduction generalizing res with
  | root a =>
    refine ⟨_, rfl, hres.set_union (within_getInitialReadRange a index),
      fun n hn => hn.set_union_left _, fun σ j hj => ?_⟩
    rw [UpdateList.read_root]
    exact (contains_getInitialReadRange hj σ).set_union_right res
  | extend i v next ih =>
    obtain ⟨-, -, hv, hv8, hnext⟩ := hul
    have hbyte : ∀ σ, ((v.eval σ).bits.setWidth 8).toNat = (v.eval σ).toNat := by
      intro σ
      have hlt := toNat_lt hv σ
      rw [hv8] at hlt
      rw [BitVec.toNat_setWidth]
      exact Nat.mod_eq_of_lt hlt
    obtain ⟨ui, hequi, -, hcui⟩ := hcalls i List.mem_cons_self
    have heq : evalRead (.extend i v next) index res = if ui.mustEqual index then
          (evaluate v).bind fun value => some (res.set_union value)
        else if ui.mayEqual index then (evaluate v).bind fun value =>
          if (res.set_union value).isFullRange 8 then some (res.set_union value)
          else evalRead next index (res.set_union value)
        else evalRead next index res := by
      show (evaluate i).bind _ = _
      rw [hequi]
      rfl
    have hlist : evalReadCalls (.extend i v next) index res = i :: if ui.mustEqual index then [v]
        else if ui.mayEqual index then v :: match evaluate v with
          | none => []
          | some value => if (res.set_union value).isFullRange 8 then []
              else evalReadCalls next index (res.set_union value)
        else evalReadCalls next index res := by
      rw [evalReadCalls, hequi]
    rw [hlist] at hcalls
    rw [heq]
    split_ifs with hmust hmay
    · -- the update is the one that is read
      obtain ⟨value, heqv, hwv, hcv⟩ := hcalls v (by rw [if_pos hmust]; simp)
      rw [hv8] at hwv
      refine ⟨res.set_union value, by rw [heqv]; rfl, hres.set_union hwv,
        fun n hn => hn.set_union_left value, fun σ j hj => ?_⟩
      rw [UpdateList.read_extend, if_pos (eq_of_mustEqual hmust (hcui σ) hj), hbyte]
      exact (hcv σ).set_union_right res
    · obtain ⟨value, heqv, hwv, hcv⟩ := hcalls v (by rw [if_neg hmust, if_pos hmay]; simp)
      rw [hv8] at hwv
      rw [heqv, Option.bind_some]
      by_cases hfull : (res.set_union value).isFullRange 8 = true
      · -- all bytes are possible already
        rw [if_pos hfull]
        rw [isFullRange, decide_eq_true_eq] at hfull
        exact ⟨_, rfl, hres.set_union hwv, fun n hn => hn.set_union_left value,
          fun σ j _ => contains_byte hfull.1 hfull.2 _⟩
      · rw [if_neg hfull]
        obtain ⟨s, hs, hws, hkeep, hread⟩ := ih hnext (res.set_union value) (hres.set_union hwv)
          (fun k hk => hcalls k (by
            rw [if_neg hmust, if_pos hmay, heqv]
            simp only [if_neg hfull]
            exact List.mem_cons_of_mem _ (List.mem_cons_of_mem _ hk)))
        refine ⟨s, hs, hws, fun n hn => hkeep n (hn.set_union_left value), fun σ j hj => ?_⟩
        rw [UpdateList.read_extend]
        split
        next =>
          rw [hbyte]
          exact hkeep _ ((hcv σ).set_union_right res)
        next => exact hread σ j hj
    · obtain ⟨s, hs, hws, hkeep, hread⟩ := ih hnext res hres
        (fun k hk => hcalls k (by
          rw [if_neg hmust, if_neg hmay]
          exact List.mem_cons_of_mem _ hk))
      refine ⟨s, hs, hws, hkeep, fun σ j hj => ?_⟩
      have hne : (i.eval σ).toNat ≠ j := by
        rintro rfl
        exact hmay (mayEqual_of_contains (hcui σ) hj)
      rw [UpdateList.read_extend, if_neg hne]
      exact hread σ j hj

theorem bounds_Read (h : (Expr.Read ul i).WellTyped) (hcalls : ∀ k ∈ calls (.Read ul i), Bounds k) :
    Bounds (.Read ul i) := by
  obtain ⟨index, heqi, -, hci⟩ := hcalls i List.mem_cons_self
  have hlist : calls (.Read ul i) = i :: evalReadCalls ul index .empty := by
    rw [calls, heqi]
  rw [hlist] at hcalls
  obtain ⟨s, hs, hws, -, hread⟩ := evalRead_bounds h.1 .empty
    (show 0 < 2 ^ 8 by decide) (fun k hk => hcalls k (List.mem_cons_of_mem _ hk))
  refine ⟨s, ?_, hws, fun σ => ?_⟩
  · show (evaluate i).bind _ = _
    rw [heqi]
    exact hs
  · rw [Expr.eval_Read]
    exact hread σ _ (hci σ)

/-! ## Soundness -/

/-- The arithmetic kinds. -/
theorem bounds_arithmetic (h : (Expr.Binary kind l r).WellTyped) (hwidth : l.width ≤ 64)
    (hl : Bounds l) (hr : Bounds r)
    (heq : evaluate (.Binary kind l r) = (evaluate l).bind fun _ => (evaluate r).bind fun _ =>
      full l.width) : Bounds (.Binary kind l r) := by
  obtain ⟨rl, heql, -⟩ := hl
  obtain ⟨rr, heqr, -⟩ := hr
  refine bounds_full h hwidth ?_
  rw [heq, heql, heqr]
  rfl

/-- The range of an expression holds its value, if nothing goes wrong in any call. -/
theorem evaluate_bounds (e : Expr) (hwt : e.WellTyped) (hcanonical : e.Canonical)
    (hok : EvaluatesOk e) : Bounds e := by
  induction e using Expr.partsInduction with | _ e ih =>
  have hcalls : ∀ k ∈ calls e, Bounds k := fun k hk =>
    ih k (calls_subset_parts e hk) (hwt.part (calls_subset_parts e hk))
      (hcanonical.part (calls_subset_parts e hk)) (hok.call hk)
  have hself : RangeOk e := hok.self
  cases e with
  | Constant c => exact ⟨_, rfl, within_ofConstant c, fun σ => contains_ofConstant hself⟩
  | NotOptimized e => exact bounds_full hwt hself rfl
  | Read ul i => exact bounds_Read hwt hcalls
  | Select c t f => exact bounds_Select hwt (hcalls c List.mem_cons_self) (hcalls t) (hcalls f)
  | Concat l r =>
    exact bounds_Concat hwt hself (hcalls l (by simp [calls])) (hcalls r (by simp [calls]))
  | Extract e off w => exact bounds_full hwt hself rfl
  | Cast k e w => exact bounds_full hwt hself rfl
  | Not e => exact bounds_full hwt hself rfl
  | Binary kind l r =>
    cases kind with
    | Shl | LShr | AShr => exact bounds_full hwt hself rfl
    | And => exact bounds_And hwt (hcalls l (by simp [calls])) (hcalls r (by simp [calls]))
    | Or => exact bounds_Or hwt (hcalls l (by simp [calls])) (hcalls r (by simp [calls]))
    | Xor => exact bounds_Xor hwt (hcalls l (by simp [calls])) (hcalls r (by simp [calls]))
    | Add | Sub | Mul | UDiv | SDiv | URem | SRem =>
      exact bounds_arithmetic hwt hself (hcalls l (by simp [calls])) (hcalls r (by simp [calls])) rfl
  | Cmp kind l r =>
    have hl : Bounds l := hcalls l (by simp [calls])
    have hr : Bounds r := hcalls r (by simp [calls])
    cases kind with
    | Eq => exact bounds_Eq hwt hl hr
    | Ult => exact bounds_Ult hwt hl hr
    | Ule => exact bounds_Ule hwt hl hr
    | Slt => exact bounds_Slt hwt hl hr hself
    | Sle => exact bounds_Sle hwt hl hr hself
    | Ne | Ugt | Uge | Sgt | Sge => exact absurd hcanonical.2.2.1 (by decide)

/-- The range that is returned holds the value under every assignment, unless some call goes
wrong. -/
theorem evaluate_contains (e : Expr) (hwt : e.WellTyped) (hcanonical : e.Canonical)
    (hok : EvaluatesOk e) :
    ∃ r, evaluate e = some r ∧ ∀ σ, r.Contains (e.eval σ).toNat := by
  obtain ⟨r, heq, -, hcontains⟩ := evaluate_bounds e hwt hcanonical hok
  exact ⟨r, heq, hcontains⟩

theorem evaluatesOk_of_calls (hself : RangeOk e) (hcalls : ∀ k ∈ calls e, EvaluatesOk k) :
    EvaluatesOk e := by
  rintro x (_ | ⟨hk, hx⟩)
  · exact hself
  · exact hcalls _ hk x hx

/-- Three bytes of an array. -/
def bytes : KArray := ⟨0, "x", 3, [], .inl rfl⟩

/-- A byte of it. -/
def byteAt (j : ℕ) : Expr := .Read (.root bytes) (.Constant ⟨32, BitVec.ofNat 32 j⟩)

theorem evaluatesOk_byteAt (hj : j < 2 ^ 32) : EvaluatesOk (byteAt j) := by
  apply evaluatesOk_of_calls (e := byteAt j) trivial
  intro k hk
  obtain rfl := List.mem_singleton.mp hk
  apply evaluatesOk_of_calls
  · show (BitVec.ofNat 32 j).toNat < 2 ^ 64
    rw [BitVec.toNat_ofNat, Nat.mod_eq_of_lt hj]
    omega
  · exact fun k hk => absurd hk List.not_mem_nil

theorem evaluate_contains_concat :
    ∃ r, evaluate (.Concat (byteAt 0) (byteAt 1)) = some r
      ∧ ∀ σ, r.Contains ((Expr.Concat (byteAt 0) (byteAt 1)).eval σ).toNat := by
  apply evaluate_contains _ (by decide) (by decide)
  apply evaluatesOk_of_calls (e := .Concat (byteAt 0) (byteAt 1)) ⟨by decide, by decide⟩
  intro k hk
  rcases List.mem_pair.mp hk with rfl | rfl
  · exact evaluatesOk_byteAt (by decide)
  · exact evaluatesOk_byteAt (by decide)

theorem safe_byteAt (hj : j < 3) : (byteAt j).Safe σ := by
  refine ⟨trivial, trivial, ?_⟩
  show (BitVec.ofNat 32 j).toNat < 3
  rw [BitVec.toNat_ofNat]
  omega

/-- Two concatenations: the range of the second one is shifted by 8 bits as well, not by 16. -/
theorem evaluate_misses : ∃ (e : Expr) (σ : Env) (r : ValueRange), e.WellTyped ∧ e.Canonical
    ∧ e.width ≤ 64 ∧ e.Safe σ ∧ evaluate e = some r ∧ ¬r.Contains (e.eval σ).toNat := by
  refine ⟨.Concat (byteAt 0) (.Concat (byteAt 1) (byteAt 2)), fun _ _ => 255, ⟨0, 0xffff⟩,
    by decide, by decide, by decide, ?_, by decide +kernel, fun h => ?_⟩
  · exact ⟨safe_byteAt (by decide), safe_byteAt (by decide), safe_byteAt (by decide)⟩
  · exact absurd h.2 (by decide +kernel)

end CexRangeEvaluator

end Xklee
