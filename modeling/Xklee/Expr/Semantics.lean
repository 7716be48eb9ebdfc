/-
The meaning of expressions.

An `Env` gives every byte of every symbolic array a value, and `Expr.eval` is
the value an expression has under it. Each node applies the concrete operation
of `ConstantExpr` (`lib/Expr/Expr.cpp`) for its kind to the values of its kids;
these operations are the bit-vector operations at the width of the left
operand. A read takes the value of the newest update whose index has the value
of the read index, and the initial byte of the array when there is none.

Two conventions make the meaning total. `APInt::udiv` and its relatives assert
a non-zero divisor; for a zero divisor the model takes the value SMT-LIB gives
and, at width 1, the value of the Boolean expression the constructors build in
place of a division. A read past the end of an array is 0, which is what
`Assignment::evaluate` returns for a byte nothing binds. `Expr.Safe` says that
neither convention is used.

`Denotes σ e x` says that `e` is well typed and has the bit vector `x` as its
value. It is the relation every statement about the rewriting constructors is
made in: the width is in the type of `x`, so that "the value is right" and "the
width is right" are one statement.
-/
import Xklee.Expr.Syntax

set_option autoImplicit false

namespace Xklee

/-! ## The concrete operations -/

/-- The operation of a binary kind on bit vectors. The conditions in the four
divisions concern a zero divisor only. -/
def BinaryKind.apply {w : ℕ} : BinaryKind → BitVec w → BitVec w → BitVec w
  | .Add, x, y => x + y
  | .Sub, x, y => x - y
  | .Mul, x, y => x * y
  | .UDiv, x, y => if w = 1 ∧ y = 0 then x else x.smtUDiv y
  | .SDiv, x, y => if w = 1 ∧ y = 0 then x else x.smtSDiv y
  | .URem, x, y => if w = 1 ∧ y = 0 then 0 else x.umod y
  | .SRem, x, y => if w = 1 ∧ y = 0 then 0 else x.srem y
  | .And, x, y => x &&& y
  | .Or, x, y => x ||| y
  | .Xor, x, y => x ^^^ y
  | .Shl, x, y => x <<< y
  | .LShr, x, y => x >>> y
  | .AShr, x, y => x.sshiftRight' y

/-- The relation of a comparison kind on bit vectors. -/
def CmpKind.holds {w : ℕ} : CmpKind → BitVec w → BitVec w → Bool
  | .Eq, x, y => x == y
  | .Ne, x, y => x != y
  | .Ult, x, y => x.ult y
  | .Ule, x, y => x.ule y
  | .Ugt, x, y => y.ult x
  | .Uge, x, y => y.ule x
  | .Slt, x, y => x.slt y
  | .Sle, x, y => x.sle y
  | .Sgt, x, y => y.slt x
  | .Sge, x, y => y.sle x

namespace ConstantExpr

/-- `ConstantExpr::Add` to `ConstantExpr::AShr`. -/
def binary (k : BinaryKind) (a b : APInt) : APInt := APInt.lift₂ k.apply a b

/-- `ConstantExpr::Eq` to `ConstantExpr::Sge`. -/
def compare (k : CmpKind) (a b : APInt) : APInt := APInt.lift₂b k.holds a b

/-- `ConstantExpr::Concat`: extend both, shift the left one, take the union. -/
def Concat (a b : APInt) : APInt :=
  ⟨a.width + b.width, (a.bits.setWidth (a.width + b.width) <<< b.width)
    ||| b.bits.setWidth (a.width + b.width)⟩

/-- `ConstantExpr::Extract`: `value.ashr(Offset)` cut to `W` bits. -/
def Extract (a : APInt) (off w : ℕ) : APInt :=
  (⟨a.width, a.bits.sshiftRight off⟩ : APInt).zextOrTrunc w

/-- `ConstantExpr::ZExt`. -/
def ZExt (a : APInt) (w : ℕ) : APInt := a.zextOrTrunc w

/-- `ConstantExpr::SExt`. -/
def SExt (a : APInt) (w : ℕ) : APInt := a.sextOrTrunc w

/-- `ConstantExpr::Not`. -/
def Not (a : APInt) : APInt := a.not

@[simp] theorem binary_mk (k : BinaryKind) {w : ℕ} (x y : BitVec w) :
    binary k ⟨w, x⟩ ⟨w, y⟩ = ⟨w, k.apply x y⟩ := by
  rw [binary, APInt.lift₂_mk]

@[simp] theorem compare_mk (k : CmpKind) {w : ℕ} (x y : BitVec w) :
    compare k ⟨w, x⟩ ⟨w, y⟩ = ⟨1, BitVec.ofBool (k.holds x y)⟩ := by
  rw [compare, APInt.lift₂b_mk]
  rfl

theorem Concat_eq (a b : APInt) : Concat a b = a.concat b := APInt.shl_or_zext a b

theorem Extract_eq (a : APInt) {off w : ℕ} (h : off + w ≤ a.width) :
    Extract a off w = a.extract off w := by
  simp only [Extract, APInt.zextOrTrunc, APInt.extract, APInt.mk_inj]
  exact APInt.setWidth_sshiftRight a.bits h

end ConstantExpr

/-- The operation of a cast kind. -/
def CastKind.apply : CastKind → APInt → ℕ → APInt
  | .ZExt, a, w => ConstantExpr.ZExt a w
  | .SExt, a, w => ConstantExpr.SExt a w

/-! ## Evaluation -/

/-- A value for every byte of every array. -/
abbrev Env := KArray → ℕ → BitVec 8

/-- The byte an array starts with. -/
def KArray.initial (σ : Env) (a : KArray) (i : ℕ) : BitVec 8 :=
  if a.isConstantArray then a.constantValues.getD i 0 else if i < a.size then σ a i else 0

mutual

def Expr.eval (σ : Env) : Expr → APInt
  | .Constant c => c
  | .NotOptimized e => e.eval σ
  | .Read ul i => ⟨KArray.range, ul.read σ (i.eval σ).toNat⟩
  | .Select c t f => if (c.eval σ).isTrue then t.eval σ else f.eval σ
  | .Concat l r => (l.eval σ).concat (r.eval σ)
  | .Extract e off w => (e.eval σ).extract off w
  | .Cast k e w => k.apply (e.eval σ) w
  | .Not e => (e.eval σ).not
  | .Binary k l r => ConstantExpr.binary k (l.eval σ) (r.eval σ)
  | .Cmp k l r => ConstantExpr.compare k (l.eval σ) (r.eval σ)

/-- The byte at index `i` after the updates. -/
def UpdateList.read (σ : Env) : UpdateList → ℕ → BitVec 8
  | .root a, i => a.initial σ i
  | .extend i' v next, i =>
      if (i'.eval σ).toNat = i then (v.eval σ).bits.setWidth 8 else next.read σ i

end

section EvalEquations

variable (σ : Env)

@[simp] theorem Expr.eval_Constant (c : APInt) : (Expr.Constant c).eval σ = c := rfl

theorem Expr.eval_NotOptimized (e : Expr) : (Expr.NotOptimized e).eval σ = e.eval σ := rfl

theorem Expr.eval_Read (ul : UpdateList) (i : Expr) :
    (Expr.Read ul i).eval σ = ⟨8, ul.read σ (i.eval σ).toNat⟩ := rfl

theorem Expr.eval_Select (c t f : Expr) : (Expr.Select c t f).eval σ
    = if (c.eval σ).isTrue then t.eval σ else f.eval σ := rfl

theorem Expr.eval_Concat (l r : Expr) :
    (Expr.Concat l r).eval σ = (l.eval σ).concat (r.eval σ) := rfl

theorem Expr.eval_Extract (e : Expr) (off w : ℕ) :
    (Expr.Extract e off w).eval σ = (e.eval σ).extract off w := rfl

theorem Expr.eval_Cast (k : CastKind) (e : Expr) (w : ℕ) :
    (Expr.Cast k e w).eval σ = k.apply (e.eval σ) w := rfl

theorem Expr.eval_Not (e : Expr) : (Expr.Not e).eval σ = (e.eval σ).not := rfl

theorem Expr.eval_Binary (k : BinaryKind) (l r : Expr) :
    (Expr.Binary k l r).eval σ = ConstantExpr.binary k (l.eval σ) (r.eval σ) := rfl

theorem Expr.eval_Cmp (k : CmpKind) (l r : Expr) :
    (Expr.Cmp k l r).eval σ = ConstantExpr.compare k (l.eval σ) (r.eval σ) := rfl

@[simp] theorem UpdateList.read_root (a : KArray) (i : ℕ) :
    (UpdateList.root a).read σ i = a.initial σ i := rfl

theorem UpdateList.read_extend (i' v : Expr) (next : UpdateList) (i : ℕ) :
    (UpdateList.extend i' v next).read σ i
      = if (i'.eval σ).toNat = i then (v.eval σ).bits.setWidth 8 else next.read σ i := rfl

end EvalEquations

mutual

/-- Every read of the expression is in bounds and no divisor is zero, in the
update lists as well. -/
def Expr.Safe (σ : Env) : Expr → Prop
  | .Constant _ => True
  | .NotOptimized e => e.Safe σ
  | .Read ul i => ul.Safe σ ∧ i.Safe σ ∧ (i.eval σ).toNat < ul.array.size
  | .Select c t f => c.Safe σ ∧ t.Safe σ ∧ f.Safe σ
  | .Concat l r => l.Safe σ ∧ r.Safe σ
  | .Extract e _ _ => e.Safe σ
  | .Cast _ e _ => e.Safe σ
  | .Not e => e.Safe σ
  | .Binary k l r => l.Safe σ ∧ r.Safe σ ∧ (k.isDiv = true → (r.eval σ).toNat ≠ 0)
  | .Cmp _ l r => l.Safe σ ∧ r.Safe σ

def UpdateList.Safe (σ : Env) : UpdateList → Prop
  | .root _ => True
  | .extend i v next => i.Safe σ ∧ v.Safe σ ∧ next.Safe σ

end

/-! ## The denotation relation -/

/-- `e` is well typed and its value is `x`. -/
def Denotes (σ : Env) (e : Expr) {w : ℕ} (x : BitVec w) : Prop :=
  e.WellTyped ∧ e.eval σ = ⟨w, x⟩

section Denotes

variable {σ : Env} {w : ℕ}

variable {e l r : Expr} {x y : BitVec w} {n : ℕ} {k : BinaryKind}

theorem Expr.WellTyped.eval_width (h : e.WellTyped) : (e.eval σ).width = e.width := by
  induction e using Expr.kidsInduction with
  | Constant c => rfl
  | NotOptimized e ih => exact ih h
  | Read ul i _ => rfl
  | Select c t f _ iht ihf =>
    obtain ⟨_, ht, hf, _, hw⟩ := h
    rw [Expr.eval_Select]
    change _ = t.width
    split
    · exact iht ht
    · rw [ihf hf, hw]
  | Concat l r ihl ihr =>
    change (l.eval σ).width + (r.eval σ).width = l.width + r.width
    rw [ihl h.1, ihr h.2]
  | Extract e off w _ => rfl
  | Cast k e w _ => cases k <;> rfl
  | Not e ih =>
    change (e.eval σ).width = e.width
    exact ih h
  | Binary k l r ihl _ =>
    change (l.eval σ).width = l.width
    exact ihl h.1
  | Cmp k l r _ _ => rfl

theorem Denotes.width_eq (h : Denotes σ e x) : e.width = w := by
  rw [← h.1.eval_width (σ := σ), h.2]

theorem Denotes.width_pos (h : Denotes σ e x) : 0 < w :=
  h.width_eq ▸ h.1.width_pos

/-- A well-typed expression denotes its value. -/
theorem Expr.WellTyped.denotes (h : e.WellTyped) (hw : e.width = w) :
    ∃ x : BitVec w, Denotes σ e x := by
  obtain ⟨x, hx⟩ := APInt.eq_mk_of_width (h.eval_width.trans hw : (e.eval σ).width = w)
  exact ⟨x, h, hx⟩

theorem Denotes.unique (hx : Denotes σ e x) (hy : Denotes σ e y) :
    x = y := by
  have h := hx.2.symm.trans hy.2
  simpa using h

/-! ### One rule for each kind of node -/

theorem denotes_Constant {c : APInt} :
    Denotes σ (.Constant c) x ↔ 0 < w ∧ c = ⟨w, x⟩ := by
  constructor
  · rintro ⟨h, he⟩
    obtain rfl : c = ⟨w, x⟩ := he
    exact ⟨h, rfl⟩
  · rintro ⟨h, rfl⟩
    exact ⟨h, rfl⟩

theorem denotes_const (hw : 0 < w) (x : BitVec w) : Denotes σ (.Constant ⟨w, x⟩) x :=
  denotes_Constant.mpr ⟨hw, rfl⟩

theorem denotes_Read {ul : UpdateList} {i : Expr} {x : BitVec 8} :
    Denotes σ (.Read ul i) x ↔
      ∃ j : BitVec 32, ul.WellTyped ∧ Denotes σ i j ∧ ul.read σ j.toNat = x := by
  constructor
  · rintro ⟨⟨hul, hi, hw⟩, he⟩
    obtain ⟨j, hj⟩ := hi.denotes (σ := σ) hw
    refine ⟨j, hul, hj, ?_⟩
    simpa [Expr.eval_Read, hj.2] using he
  · rintro ⟨j, hul, hj, rfl⟩
    exact ⟨⟨hul, hj.1, hj.width_eq⟩, by simp [Expr.eval_Read, hj.2]⟩

theorem denotes_Select {c t f : Expr} :
    Denotes σ (.Select c t f) x ↔
      ∃ (b : Bool) (y z : BitVec w), Denotes σ c (BitVec.ofBool b) ∧ Denotes σ t y
        ∧ Denotes σ f z ∧ x = if b then y else z := by
  constructor
  · intro h
    have hw : t.width = w := h.width_eq
    obtain ⟨⟨hc, ht, hf, hcw, htf⟩, he⟩ := h
    obtain ⟨b', hb⟩ := hc.denotes (σ := σ) hcw
    obtain ⟨b, rfl⟩ := APInt.eq_ofBool_of_width_one b'
    obtain ⟨y, hy⟩ := ht.denotes (σ := σ) hw
    obtain ⟨z, hz⟩ := hf.denotes (σ := σ) (htf ▸ hw)
    refine ⟨b, y, z, hb, hy, hz, ?_⟩
    have hct : (c.eval σ).isTrue = b := by rw [hb.2]; cases b <;> decide
    rw [Expr.eval_Select, hct, hy.2, hz.2] at he
    cases b <;> simpa using he.symm
  · rintro ⟨b, y, z, hb, hy, hz, rfl⟩
    refine ⟨⟨hb.1, hy.1, hz.1, hb.width_eq, hy.width_eq.trans hz.width_eq.symm⟩, ?_⟩
    have hct : (c.eval σ).isTrue = b := by rw [hb.2]; cases b <;> decide
    rw [Expr.eval_Select, hct, hy.2, hz.2]
    cases b <;> rfl

theorem denotes_ZExt (he : Denotes σ e x) (h : w ≤ n) :
    Denotes σ (.Cast .ZExt e n) (x.setWidth n) :=
  ⟨⟨he.1, he.width_eq ▸ h⟩, by rw [Expr.eval_Cast, he.2]; rfl⟩

theorem denotes_SExt (he : Denotes σ e x) (h : w ≤ n) :
    Denotes σ (.Cast .SExt e n) (x.signExtend n) :=
  ⟨⟨he.1, he.width_eq ▸ h⟩, by rw [Expr.eval_Cast, he.2]; rfl⟩

theorem denotes_Binary {z : BitVec w} :
    Denotes σ (.Binary k l r) z ↔
      ∃ x y : BitVec w, Denotes σ l x ∧ Denotes σ r y ∧ z = k.apply x y := by
  constructor
  · intro h
    have hw : l.width = w := h.width_eq
    obtain ⟨⟨hl, hr, hlr⟩, he⟩ := h
    obtain ⟨x, hx⟩ := hl.denotes (σ := σ) hw
    obtain ⟨y, hy⟩ := hr.denotes (σ := σ) (hlr ▸ hw)
    refine ⟨x, y, hx, hy, ?_⟩
    rw [Expr.eval_Binary, hx.2, hy.2, ConstantExpr.binary_mk] at he
    simpa using he.symm
  · rintro ⟨x, y, hx, hy, rfl⟩
    refine ⟨⟨hx.1, hy.1, hx.width_eq.trans hy.width_eq.symm⟩, ?_⟩
    rw [Expr.eval_Binary, hx.2, hy.2, ConstantExpr.binary_mk]

theorem denotes_Cmp {k : CmpKind} {z : BitVec 1} :
    Denotes σ (.Cmp k l r) z ↔
      ∃ (n : ℕ) (x y : BitVec n), Denotes σ l x ∧ Denotes σ r y
        ∧ z = BitVec.ofBool (k.holds x y) := by
  constructor
  · rintro ⟨⟨hl, hr, hlr⟩, he⟩
    obtain ⟨x, hx⟩ := hl.denotes (σ := σ) rfl
    obtain ⟨y, hy⟩ := hr.denotes (σ := σ) hlr.symm
    refine ⟨_, x, y, hx, hy, ?_⟩
    rw [Expr.eval_Cmp, hx.2, hy.2, ConstantExpr.compare_mk] at he
    simpa using he.symm
  · rintro ⟨n, x, y, hx, hy, rfl⟩
    refine ⟨⟨hx.1, hy.1, hx.width_eq.trans hy.width_eq.symm⟩, ?_⟩
    rw [Expr.eval_Cmp, hx.2, hy.2, ConstantExpr.compare_mk]

theorem denotes_binary (hl : Denotes σ l x) (hr : Denotes σ r y) :
    Denotes σ (.Binary k l r) (k.apply x y) :=
  denotes_Binary.mpr ⟨x, y, hl, hr, rfl⟩

theorem denotes_cmp {k : CmpKind} (hl : Denotes σ l x) (hr : Denotes σ r y) :
    Denotes σ (.Cmp k l r) (BitVec.ofBool (k.holds x y)) :=
  denotes_Cmp.mpr ⟨w, x, y, hl, hr, rfl⟩

end Denotes

end Xklee
