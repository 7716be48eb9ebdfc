/-
Expressions: `include/klee/Expr.h`.

`klee::Expr` is a class hierarchy over one `Kind` enumeration. The model has one
constructor for each shape of node. `BinaryExpr`, `CmpExpr` and `CastExpr` are
base classes there, with one subclass a kind generated by a macro
(`ARITHMETIC_EXPR_CLASS`, `COMPARISON_EXPR_CLASS`, `CAST_EXPR_CLASS`), so here
they are one constructor each that carries the kind.

An update list is a chain of `UpdateNode`s, newest first, over a root array.
Expressions and update lists refer to each other, hence the mutual inductive.

Two expressions are equal in the source when `Expr::compare` returns 0, that is
when they have the same kinds, widths, constants and arrays all the way down.
That is equality of the inductive type. Arrays are compared by address, which
is the field `id` here. Hash values, reference counts and the sharing of
sub-expressions have no meaning of their own and are left out.
-/
import Xklee.Data.APInt

set_option autoImplicit false

namespace Xklee

/-! ## Arrays -/

/-- `klee::Array`: a root of memory, symbolic when it has no constant values. -/
structure KArray where
  id : ℕ
  name : String
  size : ℕ
  constantValues : List (BitVec 8)
  /-- `Array::Array` asserts "Invalid size for constant array!" otherwise. -/
  wf : constantValues = [] ∨ constantValues.length = size
deriving DecidableEq, Repr

namespace KArray

/-- An array without values of its own. -/
abbrev symbolic (id : ℕ) (name : String) (size : ℕ) : KArray := ⟨id, name, size, [], .inl rfl⟩

def isSymbolicArray (a : KArray) : Bool := a.constantValues.isEmpty

def isConstantArray (a : KArray) : Bool := !a.isSymbolicArray

/-- `Array::getDomain`, the width of an index. -/
abbrev domain : ℕ := 32

/-- `Array::getRange`, the width of an element. -/
abbrev range : ℕ := 8

end KArray

/-! ## Kinds -/

inductive BinaryKind where
  | Add | Sub | Mul | UDiv | SDiv | URem | SRem
  | And | Or | Xor | Shl | LShr | AShr
deriving DecidableEq, Repr

inductive CmpKind where
  | Eq | Ne | Ult | Ule | Ugt | Uge | Slt | Sle | Sgt | Sge
deriving DecidableEq, Repr

inductive CastKind where
  | ZExt | SExt
deriving DecidableEq, Repr

/-- The kinds whose right operand is a divisor. -/
def BinaryKind.isDiv : BinaryKind → Bool
  | .UDiv | .SDiv | .URem | .SRem => true
  | _ => false

/-! ## Expressions -/

mutual

inductive Expr where
  | Constant (value : APInt)
  | NotOptimized (src : Expr)
  | Read (updates : UpdateList) (index : Expr)
  | Select (cond trueExpr falseExpr : Expr)
  | Concat (left right : Expr)
  | Extract (expr : Expr) (offset width : ℕ)
  | Cast (kind : CastKind) (src : Expr) (width : ℕ)
  | Not (expr : Expr)
  | Binary (kind : BinaryKind) (left right : Expr)
  | Cmp (kind : CmpKind) (left right : Expr)

inductive UpdateList where
  | root (array : KArray)
  | extend (index value : Expr) (next : UpdateList)

end

deriving instance DecidableEq for Expr, UpdateList

namespace UpdateList

/-- The array below all updates. -/
def array : UpdateList → KArray
  | .root a => a
  | .extend _ _ next => next.array

/-- `UpdateList::head` is not null. -/
def hasUpdates : UpdateList → Bool
  | .root _ => false
  | .extend _ _ _ => true

@[simp] theorem array_root (a : KArray) : (UpdateList.root a).array = a := rfl

@[simp] theorem array_extend (i v : Expr) (ul : UpdateList) :
    (UpdateList.extend i v ul).array = ul.array := rfl

end UpdateList

namespace Expr

/-- `Expr::Bool`, the width of truth values. -/
abbrev BoolWidth : ℕ := 1

/-- `Expr::getWidth`. -/
def width : Expr → ℕ
  | .Constant c => c.width
  | .NotOptimized e => e.width
  | .Read _ _ => KArray.range
  | .Select _ t _ => t.width
  | .Concat l r => l.width + r.width
  | .Extract _ _ w => w
  | .Cast _ _ w => w
  | .Not e => e.width
  | .Binary _ l _ => l.width
  | .Cmp _ _ _ => BoolWidth

/-- The number of nodes reached through `getKid`; update lists are no kids. -/
def size : Expr → ℕ
  | .Constant _ => 1
  | .NotOptimized e => e.size + 1
  | .Read _ i => i.size + 1
  | .Select c t f => c.size + t.size + f.size + 1
  | .Concat l r => l.size + r.size + 1
  | .Extract e _ _ => e.size + 1
  | .Cast _ e _ => e.size + 1
  | .Not e => e.size + 1
  | .Binary _ l r => l.size + r.size + 1
  | .Cmp _ l r => l.size + r.size + 1

section Equations

variable (c t f e l r i : Expr) (off w : ℕ)

@[simp] theorem width_Constant (a : APInt) : (Expr.Constant a).width = a.width := rfl
@[simp] theorem width_NotOptimized : (NotOptimized e).width = e.width := rfl
@[simp] theorem width_Read (ul : UpdateList) : (Read ul i).width = 8 := rfl
@[simp] theorem width_Select : (Select c t f).width = t.width := rfl
@[simp] theorem width_Concat : (Concat l r).width = l.width + r.width := rfl
@[simp] theorem width_Extract : (Extract e off w).width = w := rfl
@[simp] theorem width_Cast (k : CastKind) : (Cast k e w).width = w := rfl
@[simp] theorem width_Not : (Not e).width = e.width := rfl
@[simp] theorem width_Binary (k : BinaryKind) : (Binary k l r).width = l.width := rfl
@[simp] theorem width_Cmp (k : CmpKind) : (Cmp k l r).width = 1 := rfl

@[simp] theorem size_Constant (a : APInt) : (Expr.Constant a).size = 1 := rfl
@[simp] theorem size_NotOptimized : (NotOptimized e).size = e.size + 1 := rfl
@[simp] theorem size_Read (ul : UpdateList) : (Read ul i).size = i.size + 1 := rfl
@[simp] theorem size_Select : (Select c t f).size = c.size + t.size + f.size + 1 := rfl
@[simp] theorem size_Concat : (Concat l r).size = l.size + r.size + 1 := rfl
@[simp] theorem size_Extract : (Extract e off w).size = e.size + 1 := rfl
@[simp] theorem size_Cast (k : CastKind) : (Cast k e w).size = e.size + 1 := rfl
@[simp] theorem size_Not : (Not e).size = e.size + 1 := rfl
@[simp] theorem size_Binary (k : BinaryKind) : (Binary k l r).size = l.size + r.size + 1 := rfl
@[simp] theorem size_Cmp (k : CmpKind) : (Cmp k l r).size = l.size + r.size + 1 := rfl

end Equations

theorem size_pos (e : Expr) : 0 < e.size := by
  cases e <;> simp

/-- `isa<ConstantExpr>`. -/
def isConstant : Expr → Bool
  | .Constant _ => true
  | _ => false

theorem eq_Constant_of_isConstant {e : Expr} (h : e.isConstant = true) : ∃ c, e = .Constant c := by
  cases e <;> simp_all [isConstant]

/-- `Expr::isTrue`: the constant 1 of width 1. -/
def isTrue : Expr → Bool
  | .Constant c => c.isTrue
  | _ => false

/-- `Expr::isFalse`: the constant 0 of width 1. -/
def isFalse : Expr → Bool
  | .Constant c => c.isFalse
  | _ => false

end Expr

/-! ## Well-typed expressions

What the constructors assert about the widths of their arguments: "type
mismatch", "invalid extract", the 8-bit update values of `UpdateNode` and the
32-bit indices of an array's domain. A cast node never narrows; a narrowing
`ZExtExpr::create` builds an extract instead. -/

mutual

def Expr.WellTyped : Expr → Prop
  | .Constant c => 0 < c.width
  | .NotOptimized e => e.WellTyped
  | .Read ul i => ul.WellTyped ∧ i.WellTyped ∧ i.width = KArray.domain
  | .Select c t f => c.WellTyped ∧ t.WellTyped ∧ f.WellTyped ∧ c.width = 1 ∧ t.width = f.width
  | .Concat l r => l.WellTyped ∧ r.WellTyped
  | .Extract e off w => e.WellTyped ∧ 0 < w ∧ off + w ≤ e.width
  | .Cast _ e w => e.WellTyped ∧ e.width ≤ w
  | .Not e => e.WellTyped
  | .Binary _ l r => l.WellTyped ∧ r.WellTyped ∧ l.width = r.width
  | .Cmp _ l r => l.WellTyped ∧ r.WellTyped ∧ l.width = r.width

def UpdateList.WellTyped : UpdateList → Prop
  | .root _ => True
  | .extend i v next => i.WellTyped ∧ i.width = KArray.domain
      ∧ v.WellTyped ∧ v.width = KArray.range ∧ next.WellTyped

end

mutual

def Expr.decWellTyped : (e : Expr) → Decidable e.WellTyped
  | .Constant c => inferInstanceAs (Decidable (0 < c.width))
  | .NotOptimized e => e.decWellTyped
  | .Read ul i =>
      have := ul.decWellTyped
      have := i.decWellTyped
      inferInstanceAs (Decidable (ul.WellTyped ∧ i.WellTyped ∧ i.width = KArray.domain))
  | .Select c t f =>
      have := c.decWellTyped
      have := t.decWellTyped
      have := f.decWellTyped
      inferInstanceAs (Decidable (c.WellTyped ∧ t.WellTyped ∧ f.WellTyped ∧ c.width = 1
        ∧ t.width = f.width))
  | .Concat l r =>
      have := l.decWellTyped
      have := r.decWellTyped
      inferInstanceAs (Decidable (l.WellTyped ∧ r.WellTyped))
  | .Extract e off w =>
      have := e.decWellTyped
      inferInstanceAs (Decidable (e.WellTyped ∧ 0 < w ∧ off + w ≤ e.width))
  | .Cast _ e w =>
      have := e.decWellTyped
      inferInstanceAs (Decidable (e.WellTyped ∧ e.width ≤ w))
  | .Not e => e.decWellTyped
  | .Binary _ l r | .Cmp _ l r =>
      have := l.decWellTyped
      have := r.decWellTyped
      inferInstanceAs (Decidable (l.WellTyped ∧ r.WellTyped ∧ l.width = r.width))

def UpdateList.decWellTyped : (ul : UpdateList) → Decidable ul.WellTyped
  | .root _ => isTrue trivial
  | .extend i v next =>
      have := i.decWellTyped
      have := v.decWellTyped
      have := next.decWellTyped
      inferInstanceAs (Decidable (i.WellTyped ∧ i.width = KArray.domain
        ∧ v.WellTyped ∧ v.width = KArray.range ∧ next.WellTyped))

end

instance (e : Expr) : Decidable e.WellTyped := e.decWellTyped

instance (ul : UpdateList) : Decidable ul.WellTyped := ul.decWellTyped

/-- Induction over the kids of an expression, update lists being opaque. -/
@[elab_as_elim]
theorem Expr.kidsInduction {motive : Expr → Prop}
    (Constant : ∀ c, motive (.Constant c))
    (NotOptimized : ∀ e, motive e → motive (.NotOptimized e))
    (Read : ∀ ul i, motive i → motive (.Read ul i))
    (Select : ∀ c t f, motive c → motive t → motive f → motive (.Select c t f))
    (Concat : ∀ l r, motive l → motive r → motive (.Concat l r))
    (Extract : ∀ e off w, motive e → motive (.Extract e off w))
    (Cast : ∀ k e w, motive e → motive (.Cast k e w))
    (Not : ∀ e, motive e → motive (.Not e))
    (Binary : ∀ k l r, motive l → motive r → motive (.Binary k l r))
    (Cmp : ∀ k l r, motive l → motive r → motive (.Cmp k l r)) (e : Expr) : motive e :=
  @Expr.rec motive (fun _ => True) Constant NotOptimized
    (fun ul i _ => Read ul i) Select Concat Extract Cast Not Binary Cmp
    (fun _ => trivial) (fun _ _ _ _ _ _ => trivial) e

/-- Induction over the update nodes of a list. -/
@[elab_as_elim]
theorem UpdateList.nodeInduction {motive : UpdateList → Prop}
    (root : ∀ a, motive (.root a))
    (extend : ∀ i v next, motive next → motive (.extend i v next)) (ul : UpdateList) :
    motive ul :=
  @UpdateList.rec (fun _ => True) motive (fun _ => trivial)
    (fun _ _ => trivial) (fun _ _ _ _ => trivial) (fun _ _ _ _ _ _ => trivial)
    (fun _ _ _ _ => trivial) (fun _ _ _ _ => trivial) (fun _ _ _ _ => trivial)
    (fun _ _ => trivial) (fun _ _ _ _ _ => trivial) (fun _ _ _ _ _ => trivial)
    root (fun i v next _ _ => extend i v next) ul

/-! ## Parts -/

/-- `getKid(0)`, ..., `getKid(getNumKids() - 1)`. -/
def Expr.kids : Expr → List Expr
  | .Constant _ => []
  | .NotOptimized e => [e]
  | .Read _ i => [i]
  | .Select c t f => [c, t, f]
  | .Concat l r => [l, r]
  | .Extract e _ _ => [e]
  | .Cast _ e _ => [e]
  | .Not e => [e]
  | .Binary _ l r => [l, r]
  | .Cmp _ l r => [l, r]

/-- The indices and values of the update nodes, newest first. -/
def UpdateList.exprs : UpdateList → List Expr
  | .root _ => []
  | .extend i v next => i :: v :: next.exprs

/-- The expressions a node is made of: its kids and, for a read, what its update
list holds. -/
def Expr.parts : Expr → List Expr
  | .Read ul i => i :: ul.exprs
  | e => e.kids

theorem Expr.kids_subset_parts (e : Expr) : e.kids ⊆ e.parts := by
  cases e with
  | Read ul i => exact fun x hx => List.mem_singleton.mp hx ▸ List.mem_cons_self
  | _ => exact fun _ hx => hx

/-- Induction over the parts of an expression. -/
@[elab_as_elim]
theorem Expr.partsInduction {motive : Expr → Prop}
    (node : ∀ e, (∀ k ∈ e.parts, motive k) → motive e) (e : Expr) : motive e :=
  @Expr.rec motive (fun ul => ∀ k ∈ ul.exprs, motive k)
    (fun c => node (.Constant c) (by simp [Expr.parts, Expr.kids]))
    (fun e he => node (.NotOptimized e) (by simpa [Expr.parts, Expr.kids] using he))
    (fun ul i hul hi => node (.Read ul i) (by
      simpa [Expr.parts, Expr.kids] using ⟨hi, hul⟩))
    (fun c t f hc ht hf => node (.Select c t f) (by
      simpa [Expr.parts, Expr.kids] using ⟨hc, ht, hf⟩))
    (fun l r hl hr => node (.Concat l r) (by simpa [Expr.parts, Expr.kids] using ⟨hl, hr⟩))
    (fun e off w he => node (.Extract e off w) (by simpa [Expr.parts, Expr.kids] using he))
    (fun k e w he => node (.Cast k e w) (by simpa [Expr.parts, Expr.kids] using he))
    (fun e he => node (.Not e) (by simpa [Expr.parts, Expr.kids] using he))
    (fun k l r hl hr => node (.Binary k l r) (by
      simpa [Expr.parts, Expr.kids] using ⟨hl, hr⟩))
    (fun k l r hl hr => node (.Cmp k l r) (by simpa [Expr.parts, Expr.kids] using ⟨hl, hr⟩))
    (fun a => by simp [UpdateList.exprs])
    (fun i v next hi hv hnext => by simpa [UpdateList.exprs] using ⟨hi, hv, hnext⟩) e

theorem Expr.WellTyped.width_pos {e : Expr} (h : e.WellTyped) : 0 < e.width := by
  induction e using Expr.kidsInduction with
  | Constant c => exact h
  | NotOptimized e ih => exact ih h
  | Read ul i _ => simp [Expr.width, KArray.range]
  | Select c t f _ iht _ => exact iht h.2.1
  | Concat l r ihl _ => exact Nat.add_pos_left (ihl h.1) _
  | Extract e off w _ => exact h.2.1
  | Cast k e w ih => exact Nat.lt_of_lt_of_le (ih h.1) h.2
  | Not e ih => exact ih h
  | Binary k l r ihl _ => exact ihl h.1
  | Cmp k l r _ _ => simp [Expr.width, Expr.BoolWidth]

end Xklee
