/-
Seeds: `lib/Core/SeedInfo.cpp`.

A seed is an assignment that leaves the arrays it does not bind free. Evaluating
an expression under it therefore gives an expression. `SeedInfo.Fits` is what
seeding makes sure of, that no array is bound to more bytes than it has; an
evaluated expression then has the value of the expression wherever the seed's
bytes are the bytes of the assignment, `SeedInfo.extend`.

A condition and its negation are evaluated separately when a state forks. The
last part shows that the two results still are negations of each other.
-/
import Xklee.Core.TimingSolver
import Xklee.Solver.Assignment

set_option autoImplicit false

namespace Xklee

/-- `SeedInfo`: the bindings of its assignment in the order of the map, which is
that of the addresses of the arrays. `allowFreeValues` is set. -/
structure SeedInfo where
  bindings : List (KArray × List (BitVec 8))
deriving DecidableEq

namespace SeedInfo

/-- `Assignment::evaluate(array, index)` with `allowFreeValues`. -/
def initialValue (seed : SeedInfo) (array : KArray) (index : ℕ) : Expr :=
  match (seed.bindings.lookup array).bind (·[index]?) with
  | some byte => .Constant ⟨KArray.range, byte⟩
  | none => ReadExpr.create (.root array) (ConstantExpr.alloc index KArray.domain)

/-- `Assignment::evaluate`. -/
def evaluate (seed : SeedInfo) : Expr → Expr := ExprEvaluator.visit seed.initialValue

/-! ## Patching -/

/-- The byte of a binding, `it2->second[i]`. -/
def byte (seed : SeedInfo) (array : KArray) (i : ℕ) : Option (BitVec 8) :=
  (seed.bindings.lookup array).bind (·[i]?)

/-- `it2->second[i] = value`. -/
def setByte (seed : SeedInfo) (array : KArray) (i : ℕ) (value : BitVec 8) : SeedInfo :=
  ⟨seed.bindings.map fun b => if b.1 = array then (b.1, b.2.set i value) else b⟩

/-- The body of the two loops of `patchSeed`: keep a byte when the constraints
allow it, take one from the solver otherwise. It is `none` when an assertion
fails and when the byte is past the end of its vector. -/
def patchByte (solver : TimingSolver) (s : SeedInfo × List Expr) (at' : KArray × ℕ) :
    Option (SeedInfo × List Expr) := do
  let (seed, tmp) := s
  let read := ReadExpr.create (.root at'.1) (ConstantExpr.alloc at'.2 KArray.domain)
  let current ← seed.byte at'.1 at'.2
  let isSeed := EqExpr.create read (.Constant ⟨KArray.range, current⟩)
  let res ← solver.mustBeFalse tmp isSeed
  if res then
    let value ← solver.getValue tmp read
    let byte := (value.zextOrTrunc KArray.range).bits
    let tmp ← ConstraintManager.addConstraint tmp
      (EqExpr.create read (.Constant ⟨KArray.range, byte⟩))
    some (seed.setByte at'.1 at'.2 byte, tmp)
  else
    let tmp ← ConstraintManager.addConstraint tmp isSeed
    some (seed, tmp)

/-- The body of the loop of `findReads` without `visitUpdates`. -/
def visitReads (results : List ReadExpr) : Expr → List Expr × List ReadExpr
  | .Read ul index => ([index].filter (!·.isConstant), results ++ [(ul, index)])
  | top => (top.kids.filter (!·.isConstant), results)

/-- The bytes that the condition reads at constant indices, in the order of
`std::set`. -/
def directReads (condition : Expr) : List (KArray × ℕ) :=
  let start : Worklist Expr := if condition.isConstant then ⟨[], []⟩ else ⟨[condition], [condition]⟩
  let reads := (start.search visitReads condition.size []).2
  let direct := reads.filterMap fun re =>
    match re.2 with
    | .Constant CE => some (re.1.array, CE.toNat % 2 ^ 32)
    | _ => none
  direct.dedup.mergeSort fun p q => p.1.id < q.1.id || (p.1.id == q.1.id && p.2 ≤ q.2)

/-- `SeedInfo::patchSeed`. -/
def patchSeed (solver : TimingSolver) (constraints : List Expr) (condition : Expr)
    (seed : SeedInfo) : Option SeedInfo := do
  let tmp ← ConstraintManager.addConstraint constraints condition
  -- patch direct reads first
  let bound := (directReads condition).filter fun p => (seed.bindings.lookup p.1).isSome
  let (seed, tmp) ← bound.foldlM (patchByte solver) (seed, tmp)
  let res ← solver.mayBeTrue constraints (seed.evaluate condition)
  if res then some seed
  else
    let all := seed.bindings.flatMap fun b => (List.range b.1.size).map fun i => (b.1, i)
    let (seed, _) ← all.foldlM (patchByte solver) (seed, tmp)
    let res ← solver.mayBeTrue constraints (seed.evaluate condition)
    if res then some seed else none

/-! ## Evaluation under a seed -/

/-- No array is bound to more bytes than it has. -/
def Fits (seed : SeedInfo) : Prop :=
  ∀ array bytes, seed.bindings.lookup array = some bytes → bytes.length ≤ array.size

/-- The bytes of the seed where it has some, those of `σ` elsewhere. -/
def extend (seed : SeedInfo) (σ : Env) : Env :=
  fun array i => (seed.byte array i).getD (σ array i)

variable {seed : SeedInfo}

theorem lt_size_of_byte (h : seed.Fits) {array : KArray} {i : ℕ} {b : BitVec 8}
    (hb : seed.byte array i = some b) : i < array.size := by
  obtain ⟨bytes, hbytes, hi⟩ := Option.bind_eq_some_iff.mp hb
  have hlt : i < bytes.length := (List.getElem?_eq_some_iff.mp hi).1
  exact Nat.lt_of_lt_of_le hlt (h array bytes hbytes)

theorem initialSound (h : seed.Fits) (σ : Env) : InitialSound (seed.extend σ) seed.initialValue := by
  intro array n hn hfree
  rw [initialValue]
  split
  next b hb =>
    have hlt := lt_size_of_byte h hb
    have hsym : ¬array.isConstantArray = true := fun hc => hfree ⟨hc, hlt⟩
    have hval : array.initial (seed.extend σ) n = b := by
      rw [KArray.initial, if_neg hsym, if_pos hlt, extend, byte, hb]
      rfl
    rw [hval]
    exact denotes_const (by decide) b
  next =>
    have hindex := denotes_alloc (σ := seed.extend σ) (v := n) (show 0 < 32 by decide)
    have hread : Denotes (seed.extend σ) (ReadExpr.create (.root array) (ConstantExpr.alloc n 32))
        ((UpdateList.root array).read (seed.extend σ) (BitVec.ofNat 32 n).toNat) :=
      ReadExpr.create_denotes trivial hindex
    rwa [BitVec.toNat_ofNat, Nat.mod_eq_of_lt hn] at hread

theorem evaluate_isBool (h : seed.Fits) {e : Expr} (he : e.IsBool) : (seed.evaluate e).IsBool := by
  have hv := ExprEvaluator.visit_hasValue (initialSound h (fun _ _ => 0)) e he.1
  exact ⟨hv.1, (hv.width_of_eval he.1).trans he.2⟩

/-- A constant result is the value wherever the seed's bytes are those of the
assignment. -/
theorem eval_of_evaluate (h : seed.Fits) {e : Expr} (he : e.WellTyped) {c : APInt}
    (hc : seed.evaluate e = .Constant c) (σ : Env) : c = e.eval (seed.extend σ) :=
  ExprEvaluator.eq_eval_of_constant (initialSound h σ) he hc

/-! ## Negation

`createIsZero` pushes a negation through `Or`s and removes double ones. -/

section Negation

variable {g : KArray → ℕ → Expr} {σ : Env}

variable {e l r : Expr}

theorem rebuildIfChanged_eval {e' : Expr} (h : e'.WellTyped) :
    (rebuildIfChanged e e').eval σ = e'.eval σ := by
  rw [rebuildIfChanged]
  split
  next heq => rw [heq]
  next => exact (rebuild_hasValue_self h).2

/-- Where visiting keeps types. -/
def Typed (g : KArray → ℕ → Expr) : Prop :=
  ∀ e, e.WellTyped → (ExprEvaluator.visit g e).WellTyped ∧ (ExprEvaluator.visit g e).width = e.width

theorem typed_initialValue (h : seed.Fits) : Typed seed.initialValue := by
  intro e he
  have hv := ExprEvaluator.visit_hasValue (initialSound h (fun _ _ => 0)) e he
  exact ⟨hv.1, hv.width_of_eval he⟩

variable (hg : Typed g)

include hg

/-- The value of a comparison is that of its visited operands. -/
theorem visit_eval_Cmp {k : CmpKind} (he : (Expr.Cmp k l r).WellTyped) :
    (ExprEvaluator.visit g (.Cmp k l r)).eval σ = ConstantExpr.compare k
      ((ExprEvaluator.visit g l).eval σ) ((ExprEvaluator.visit g r).eval σ) := by
  obtain ⟨hl, hr, hw⟩ := he
  cases hc : l.isConstant && r.isConstant with
  | true =>
    obtain ⟨hlc, hrc⟩ := Bool.and_eq_true_iff.mp hc
    obtain ⟨a, rfl⟩ := Expr.eq_Constant_of_isConstant hlc
    obtain ⟨b, rfl⟩ := Expr.eq_Constant_of_isConstant hrc
    have h := rebuild_hasValue_self (σ := σ) (e := .Cmp k (.Constant a) (.Constant b)) ⟨hl, hr, hw⟩
    exact h.2
  | false =>
    have h : ExprEvaluator.visit g (.Cmp k l r) = rebuildIfChanged (.Cmp k l r)
        (.Cmp k (ExprEvaluator.visit g l) (ExprEvaluator.visit g r)) := if_neg (by simp [hc])
    rw [h, rebuildIfChanged_eval, Expr.eval_Cmp]
    exact ⟨(hg l hl).1, (hg r hr).1, by rw [(hg l hl).2, (hg r hr).2, hw]⟩

/-- The value of a binary node other than a division is that of its visited
operands. -/
theorem visit_eval_Binary {k : BinaryKind} (hk : k.isDiv = false)
    (he : (Expr.Binary k l r).WellTyped) :
    (ExprEvaluator.visit g (.Binary k l r)).eval σ = ConstantExpr.binary k
      ((ExprEvaluator.visit g l).eval σ) ((ExprEvaluator.visit g r).eval σ) := by
  obtain ⟨hl, hr, hw⟩ := he
  cases hc : l.isConstant && r.isConstant with
  | true =>
    obtain ⟨hlc, hrc⟩ := Bool.and_eq_true_iff.mp hc
    obtain ⟨a, rfl⟩ := Expr.eq_Constant_of_isConstant hlc
    obtain ⟨b, rfl⟩ := Expr.eq_Constant_of_isConstant hrc
    have h := rebuild_hasValue_self (σ := σ) (e := .Binary k (.Constant a) (.Constant b)) ⟨hl, hr, hw⟩
    exact h.2
  | false =>
    have h : ExprEvaluator.visit g (.Binary k l r) = rebuildIfChanged (.Binary k l r)
        (.Binary k (ExprEvaluator.visit g l) (ExprEvaluator.visit g r)) :=
      (if_neg (by simp [hc])).trans (if_neg (by simp [hk]))
    rw [h, rebuildIfChanged_eval, Expr.eval_Binary]
    exact ⟨(hg l hl).1, (hg r hr).1, by rw [(hg l hl).2, (hg r hr).2, hw]⟩

theorem visit_isBool (he : e.IsBool) : (ExprEvaluator.visit g e).IsBool :=
  ⟨(hg e he.1).1, (hg e he.1).2.trans he.2⟩

omit hg in
/-- A Bool constant is `true` or `false`. -/
theorem eq_ofBool_of_isBool {c : APInt} (h : (Expr.Constant c).IsBool) :
    ∃ b, c = APInt.ofBool b := by
  obtain ⟨x, rfl⟩ := APInt.eq_mk_of_width (h.2 : c.width = 1)
  obtain ⟨b, rfl⟩ := APInt.eq_ofBool_of_width_one x
  exact ⟨b, rfl⟩

omit hg in
theorem visit_holds_ofBool (b : Bool) :
    (ExprEvaluator.visit g (.Constant (.ofBool b))).Holds σ ↔ b = true := by
  change (APInt.ofBool b).isTrue = true ↔ b = true
  rw [APInt.isTrue_iff, APInt.ofBool_inj]

theorem visit_holds_And (hl : l.IsBool) (hr : r.IsBool) :
    (ExprEvaluator.visit g (AndExpr.create l r)).Holds σ
      ↔ (ExprEvaluator.visit g l).Holds σ ∧ (ExprEvaluator.visit g r).Holds σ := by
  have hpart : ∀ (b : Bool) {e : Expr}, e.IsBool →
      ((ExprEvaluator.visit g (AndExpr_createPartial e (.ofBool b))).Holds σ
        ↔ (ExprEvaluator.visit g e).Holds σ ∧ b = true) := by
    intro b e _
    cases b with
    | true => exact (and_iff_left rfl).symm
    | false =>
      exact (visit_holds_ofBool false).trans ⟨fun h => absurd h (by simp), fun h => h.2⟩
  cases hlc : l.isConstant with
  | true =>
    obtain ⟨cl, rfl⟩ := Expr.eq_Constant_of_isConstant hlc
    obtain ⟨b, rfl⟩ := eq_ofBool_of_isBool hl
    cases hrc : r.isConstant with
    | true =>
      obtain ⟨cr, rfl⟩ := Expr.eq_Constant_of_isConstant hrc
      obtain ⟨c, rfl⟩ := eq_ofBool_of_isBool hr
      have hval : AndExpr.create (.Constant (.ofBool b)) (.Constant (.ofBool c))
          = .Constant (.ofBool (b && c)) := by
        cases b <;> cases c <;> rfl
      rw [hval, visit_holds_ofBool, visit_holds_ofBool, visit_holds_ofBool, Bool.and_eq_true]
    | false =>
      have hval : AndExpr.create (.Constant (.ofBool b)) r = AndExpr_createPartial r (.ofBool b) := by
        cases r with
        | Constant c => exact absurd hrc (by simp [Expr.isConstant])
        | _ => rfl
      rw [hval, hpart b hr, visit_holds_ofBool, and_comm]
  | false =>
    cases hrc : r.isConstant with
    | true =>
      obtain ⟨cr, rfl⟩ := Expr.eq_Constant_of_isConstant hrc
      obtain ⟨c, rfl⟩ := eq_ofBool_of_isBool hr
      have hval : AndExpr.create l (.Constant (.ofBool c)) = AndExpr_createPartial l (.ofBool c) := by
        cases l with
        | Constant c => exact absurd hlc (by simp [Expr.isConstant])
        | _ => rfl
      rw [hval, hpart c hl, visit_holds_ofBool]
    | false =>
      have hval : AndExpr.create l r = .Binary .And l r := by
        cases l with
        | Constant c => exact absurd hlc (by simp [Expr.isConstant])
        | _ =>
          cases r with
          | Constant c => exact absurd hrc (by simp [Expr.isConstant])
          | _ => rfl
      have hwt : (Expr.Binary .And l r).WellTyped := ⟨hl.1, hr.1, hl.2.trans hr.2.symm⟩
      have hvl := visit_isBool hg hl
      have hvr := visit_isBool hg hr
      have hand : (Expr.Binary .And (ExprEvaluator.visit g l) (ExprEvaluator.visit g r)).IsBool :=
        ⟨⟨hvl.1, hvr.1, hvl.2.trans hvr.2.symm⟩, hvl.2⟩
      rw [hval, ← ConstraintManager.holds_And hand σ, Expr.Holds, visit_eval_Binary hg rfl hwt]
      rfl

omit hg in
/-- The shapes `createIsZero` gives to a Bool expression. -/
theorem createIsZero_cases (he : e.IsBool) :
    (∃ b, e = .Constant (.ofBool b) ∧ e.createIsZero = .Constant (.ofBool !b))
      ∨ (∃ l r, e = .Binary .Or l r ∧ e.createIsZero = AndExpr.create l.createIsZero r.createIsZero)
      ∨ (∃ right, e = .Cmp .Eq (.Constant (.ofBool false)) right ∧ e.createIsZero = right)
      ∨ e.createIsZero = .Cmp .Eq (.Constant (.ofBool false)) e := by
  cases hc : e.isConstant with
  | true =>
    obtain ⟨c, rfl⟩ := Expr.eq_Constant_of_isConstant hc
    obtain ⟨b, rfl⟩ := eq_ofBool_of_isBool he
    refine .inl ⟨b, rfl, ?_⟩
    cases b <;> rfl
  | false =>
    have hpart : e.createIsZero = EqExpr_createPartialR (.ofBool false) e := by
      rw [Expr.createIsZero, ConstantExpr.alloc, he.2]
      cases e with
      | Constant c => exact absurd hc (by simp [Expr.isConstant])
      | _ => rfl
    have hgen : EqExpr_create (.Constant (.ofBool false)) e
        = .Cmp .Eq (.Constant (.ofBool false)) e := by
      rw [EqExpr_create, if_neg]
      rintro rfl
      exact absurd hc (by simp [Expr.isConstant])
    rw [hpart, EqExpr_createPartialR_eq,
      if_pos (show (APInt.ofBool false).width = Expr.BoolWidth from rfl), if_neg (by decide)]
    split
    next c right =>
      split
      next hfalse =>
        obtain rfl := (APInt.isFalse_iff c).mp hfalse
        exact .inr (.inr (.inl ⟨right, rfl, rfl⟩))
      next => exact .inr (.inr (.inr hgen))
    next left right => exact .inr (.inl ⟨left, right, rfl, rfl⟩)
    next => exact .inr (.inr (.inr hgen))

/-- An equality with `false` is a negation. -/
theorem visit_holds_isFalse (he : e.IsBool) :
    (ExprEvaluator.visit g (.Cmp .Eq (.Constant (.ofBool false)) e)).Holds σ
      ↔ ¬(ExprEvaluator.visit g e).Holds σ := by
  have hwt : (Expr.Cmp .Eq (.Constant (.ofBool false)) e).WellTyped :=
    ⟨Nat.one_pos, he.1, he.2.symm⟩
  have hd := (visit_isBool hg he).denotes σ
  rw [Expr.Holds, visit_eval_Cmp hg hwt, hd.2]
  change (ConstantExpr.compare .Eq ⟨1, BitVec.ofBool false⟩ _).isTrue = true ↔ _
  rw [ConstantExpr.compare_mk, isTrue_mk_ofBool, CmpKind.holds]
  by_cases hv : (ExprEvaluator.visit g e).Holds σ
  · simp [hv]
  · simp [hv]

/-- The result for a negated condition is the negation of the result. -/
theorem visit_holds_createIsZero (he : e.IsBool) :
    (ExprEvaluator.visit g e.createIsZero).Holds σ ↔ ¬(ExprEvaluator.visit g e).Holds σ := by
  induction hs : e.size using Nat.strong_induction_on generalizing e with | _ n ih =>
  subst hs
  rcases createIsZero_cases he with ⟨b, rfl, hz⟩ | ⟨l, r, rfl, hz⟩ | ⟨right, rfl, hz⟩ | hz
  · rw [hz, visit_holds_ofBool, visit_holds_ofBool]
    cases b <;> simp
  · have hl : l.IsBool := ⟨he.1.1, he.2⟩
    have hr : r.IsBool := ⟨he.1.2.1, he.1.2.2.symm.trans he.2⟩
    have hvl := visit_isBool hg hl
    have hvr := visit_isBool hg hr
    have hor := denotes_binary (k := .Or) (hvl.denotes σ) (hvr.denotes σ)
    rw [BinaryKind.apply, BitVec.ofBool_or_ofBool] at hor
    have hiff : (ExprEvaluator.visit g (.Binary .Or l r)).Holds σ
        ↔ (ExprEvaluator.visit g l).Holds σ ∨ (ExprEvaluator.visit g r).Holds σ := by
      rw [Expr.Holds, visit_eval_Binary hg rfl he.1]
      refine hor.holds_iff.trans ?_
      simp
    rw [hz, visit_holds_And hg hl.createIsZero hr.createIsZero, ih l.size (by simp) hl rfl,
      ih r.size (by simp) hr rfl, hiff, not_or]
  · have hr : right.IsBool := ⟨he.1.2.1, he.1.2.2.symm⟩
    rw [hz, visit_holds_isFalse hg hr, not_not]
  · rw [hz]
    exact visit_holds_isFalse hg he

end Negation

end SeedInfo

end Xklee
