/-
The SMT-LIB printers: `lib/Expr/ExprSMTLIBPrinter.cpp` and
`lib/Expr/ExprSMTLIBLetPrinter.cpp`.

The printer goes down an expression with the sort its context expects, and casts
between truth values and bit vectors of width 1 where the expression has the
other one. Before that it has scanned the query for the arrays to declare; the
printer with `let` also looks for the expressions that occur more than once.

The output is a script of abstract syntax (`SMTLIB.Script`): line breaks,
indentation, the comments of the human-readable mode and the `set-option` lines
are left out. A `std::set` of arrays or expressions is gone through in some
order, `SetOrder`.
-/
import Xklee.Data.SMTLIB
import Xklee.Data.SetOrder
import Xklee.Solver.Query

set_option autoImplicit false

namespace Xklee

open SMTLIB (Term Literal LetTerm Command Logic Script BoolFn BitVecFn)

/-- `ExprSMTLIBPrinter::ConstantDisplayMode`. -/
inductive ConstantDisplayMode where
  | BINARY | HEX | DECIMAL
deriving DecidableEq, Repr

/-- `ExprSMTLIBPrinter::SMTLIB_SORT`. -/
inductive SMTLIB_SORT where
  | SORT_BITVECTOR | SORT_BOOL
deriving DecidableEq, Repr

open SMTLIB_SORT

namespace ExprSMTLIBPrinter

/-! ## Expressions -/

/-- `APInt::toString`: the digits, without leading zeros. -/
def digits (radix : ℕ) (c : APInt) : List ℕ :=
  if c.toNat = 0 then [0] else (Nat.digits radix c.toNat).reverse

/-- `printConstant`. The number of zeros is an `unsigned int`. -/
def printConstant (cdm : ConstantDisplayMode) (c : APInt) : Term :=
  if c.isTrue then .bool true
  else if c.isFalse then .bool false
  else
    match cdm with
    | .BINARY =>
        let value := digits 2 c
        let zeroPad := (c.width + 2 ^ 32 - value.length) % 2 ^ 32
        .literal (.bin (List.replicate zeroPad 0 ++ value))
    | .HEX =>
        let value := digits 16 c
        let zeroPad := (c.width / 4 + 2 ^ 32 - value.length) % 2 ^ 32
        .literal (.hex (List.replicate zeroPad 0 ++ value))
    | .DECIMAL => .literal (.dec c.toNat c.width)

/-- `getSort`: an extract is a bit vector, also when it is one bit wide. -/
def getSort : Expr → SMTLIB_SORT
  | .Extract _ _ _ => SORT_BITVECTOR
  | e => if e.width = Expr.BoolWidth then SORT_BOOL else SORT_BITVECTOR

/-- `printCastToSort` of an expression whose own print is `printed`. -/
def printCastToSort (e : Expr) (printed : Term) : SMTLIB_SORT → Term
  | SORT_BITVECTOR =>
      .app₃ .ite printed (.literal (.dec 1 1)) (.literal (.dec 0 1))
  | SORT_BOOL => .app₂ (.rel .bvugt) printed (.literal (.dec 0 e.width))

/-- `getSMTLIBKeyword` of the binary kinds, and the bit-vector keywords of
`printLogicalOrBitVectorExpr`. -/
def keyword : BinaryKind → BitVecFn
  | .Add => .bvadd
  | .Sub => .bvsub
  | .Mul => .bvmul
  | .UDiv => .bvudiv
  | .SDiv => .bvsdiv
  | .URem => .bvurem
  | .SRem => .bvsrem
  | .And => .bvand
  | .Or => .bvor
  | .Xor => .bvxor
  | .Shl => .bvshl
  | .LShr => .bvlshr
  | .AShr => .bvashr

/-- The Boolean keywords of `printLogicalOrBitVectorExpr`, for the kinds that
have one. -/
def boolKeyword : BinaryKind → Option BoolFn
  | .And => some .and
  | .Or => some .or
  | .Xor => some .xor
  | _ => none

/-- A printed operand: what is printed for it where a sort is expected. -/
abbrev Printed := SMTLIB_SORT → Term

/-- `printSortArgsExpr` and `printLogicalOrBitVectorExpr` of a binary kind. -/
def printBinary (kind : BinaryKind) (left right : Printed) (expectedSort : SMTLIB_SORT) : Term :=
  match boolKeyword kind, expectedSort with
  | some f, SORT_BOOL => .app₂ (.bool f) (left SORT_BOOL) (right SORT_BOOL)
  | _, _ => .app₂ (.bitVec (keyword kind)) (left SORT_BITVECTOR) (right SORT_BITVECTOR)

/-- The comparisons: `printNotEqualExpr`, and `printSortArgsExpr` with the sort
of the first operand for an equality. -/
def printCmp (kind : CmpKind) (sort : SMTLIB_SORT) (left right : Printed) : Term :=
  let rel f := .app₂ (.rel f) (left SORT_BITVECTOR) (right SORT_BITVECTOR)
  match kind with
  | .Eq => .app₂ .eq (left sort) (right sort)
  | .Ne => .app₁ .not (.app₂ .eq (left sort) (right sort))
  | .Ult => rel .bvult
  | .Ule => rel .bvule
  | .Ugt => rel .bvugt
  | .Uge => rel .bvuge
  | .Slt => rel .bvslt
  | .Sle => rel .bvsle
  | .Sgt => rel .bvsgt
  | .Sge => rel .bvsge

/-- `printLogicalOrBitVectorExpr` of a `Not`. -/
def printNot (src : Printed) : Printed
  | SORT_BITVECTOR => .app₁ .bvnot (src SORT_BITVECTOR)
  | SORT_BOOL => .app₁ .not (src SORT_BOOL)

/-- `printSelectExpr`. -/
def printSelectExpr (cond trueExpr falseExpr : Printed) (expectedSort : SMTLIB_SORT) : Term :=
  .app₃ .ite (cond SORT_BOOL) (trueExpr expectedSort) (falseExpr expectedSort)

/-- `printExtractExpr`. -/
def printExtractExpr (src : Printed) (offset width : ℕ) : Term :=
  .app₁ (.extract (offset + width - 1) offset) (src SORT_BITVECTOR)

/-- `printCastExpr`: what is printed is the number of bits to add. -/
def printCastExpr (kind : CastKind) (src : Printed) (numExtraBits : ℕ) : Term :=
  match kind with
  | .ZExt => .app₁ (.zero_extend numExtraBits) (src SORT_BITVECTOR)
  | .SExt => .app₁ (.sign_extend numExtraBits) (src SORT_BITVECTOR)

/-- The names that abbreviate expressions: none for `ExprSMTLIBPrinter` and
where abbreviations are disabled. -/
abbrev Abbreviations := Expr → Option String

/-- What `printExpression` does around the print of a node: the abbreviation of
the expression goes before it, and another sort than the expected one is cast. -/
def printAs (abbreviations : Abbreviations) (e : Expr) (node : Printed) : Printed :=
  fun expectedSort =>
    let printed :=
      match abbreviations e with
      | some name => .symbol name
      | none => node (getSort e)
    if getSort e ≠ expectedSort then printCastToSort e printed expectedSort else printed

section Print

variable (cdm : ConstantDisplayMode) (abbreviations : Abbreviations)

mutual

/-- `printExpression`, in both printers. -/
def printExpression : Expr → Printed
  | .Constant c => printAs abbreviations (.Constant c) (fun _ => printConstant cdm c)
  | .NotOptimized e => printAs abbreviations (.NotOptimized e) (printExpression e)
  | .Read ul i => printAs abbreviations (.Read ul i) (fun _ =>
      .app₂ .select (printUpdatesAndArray ul) (printExpression i SORT_BITVECTOR))
  | .Select c t f => printAs abbreviations (.Select c t f)
      (printSelectExpr (printExpression c) (printExpression t) (printExpression f))
  | .Concat l r => printAs abbreviations (.Concat l r) (fun _ =>
      .app₂ .concat (printExpression l SORT_BITVECTOR) (printExpression r SORT_BITVECTOR))
  | .Extract e off w => printAs abbreviations (.Extract e off w) (fun _ =>
      printExtractExpr (printExpression e) off w)
  | .Cast k e w => printAs abbreviations (.Cast k e w) (fun _ =>
      printCastExpr k (printExpression e) (w - e.width))
  | .Not e => printAs abbreviations (.Not e) (printNot (printExpression e))
  | .Binary k l r => printAs abbreviations (.Binary k l r)
      (printBinary k (printExpression l) (printExpression r))
  | .Cmp k l r => printAs abbreviations (.Cmp k l r) (fun _ =>
      printCmp k (getSort l) (printExpression l) (printExpression r))

/-- `printUpdatesAndArray`. -/
def printUpdatesAndArray : UpdateList → Term
  | .root array => .symbol array.name
  | .extend i v next =>
      .app₃ .store (printUpdatesAndArray next) (printExpression i SORT_BITVECTOR)
        (printExpression v SORT_BITVECTOR)

end

end Print

end ExprSMTLIBPrinter

/-! ## The scans -/

/-- What a scan collects for the declarations. -/
structure ArrayScan where
  usedArrays : Finset KArray
  haveConstantArray : Bool
deriving DecidableEq

namespace ArrayScan

def empty : ArrayScan := ⟨∅, false⟩

/-- An array that was not present before. -/
def insert (s : ArrayScan) (array : KArray) : ArrayScan :=
  ⟨Insert.insert array s.usedArrays, s.haveConstantArray || array.isConstantArray⟩

end ArrayScan

namespace ExprSMTLIBPrinter

mutual

/-- `ExprSMTLIBPrinter::scan`. -/
def scan : Expr → ArrayScan → ArrayScan
  | .Constant _, s => s
  | .NotOptimized e, s => scan e s
  | .Read ul i, s =>
      scan i (if ul.array ∈ s.usedArrays then s else scanUpdates ul (s.insert ul.array))
  | .Select c t f, s => scan f (scan t (scan c s))
  | .Concat l r, s => scan r (scan l s)
  | .Extract e _ _, s => scan e s
  | .Cast _ e _, s => scan e s
  | .Not e, s => scan e s
  | .Binary _ l r, s => scan r (scan l s)
  | .Cmp _ l r, s => scan r (scan l s)

/-- `scanUpdates`. -/
def scanUpdates : UpdateList → ArrayScan → ArrayScan
  | .root _, s => s
  | .extend i v next, s => scanUpdates next (scan v (scan i s))

end

end ExprSMTLIBPrinter

/-- What the scan of the printer with `let` collects. -/
structure LetScan where
  arrays : ArrayScan
  firstEO : Finset Expr
  twoOrMoreEO : Finset Expr

namespace LetScan

def empty : LetScan := ⟨.empty, ∅, ∅⟩

def insertArray (s : LetScan) (array : KArray) : LetScan :=
  { s with arrays := s.arrays.insert array }

/-- The test around the scan of a node: an expression that was seen before goes
to `twoOrMoreEO`. -/
def once (e : Expr) (node : LetScan → LetScan) (s : LetScan) : LetScan :=
  if e ∈ s.firstEO then { s with twoOrMoreEO := Insert.insert e s.twoOrMoreEO }
  else node { s with firstEO := Insert.insert e s.firstEO }

end LetScan

namespace ExprSMTLIBLetPrinter

open LetScan

mutual

/-- `ExprSMTLIBLetPrinter::scan`. -/
def scan : Expr → LetScan → LetScan
  | .Constant _ => id
  | .NotOptimized e => once (.NotOptimized e) (scan e)
  | .Read ul i => once (.Read ul i) (fun s =>
      scan i (if ul.array ∈ s.arrays.usedArrays then s
        else scanUpdates ul (s.insertArray ul.array)))
  | .Select c t f => once (.Select c t f) (fun s => scan f (scan t (scan c s)))
  | .Concat l r => once (.Concat l r) (fun s => scan r (scan l s))
  | .Extract e off w => once (.Extract e off w) (scan e)
  | .Cast k e w => once (.Cast k e w) (scan e)
  | .Not e => once (.Not e) (scan e)
  | .Binary k l r => once (.Binary k l r) (fun s => scan r (scan l s))
  | .Cmp k l r => once (.Cmp k l r) (fun s => scan r (scan l s))

/-- `scanUpdates`, which calls the scan of the printer it belongs to. -/
def scanUpdates : UpdateList → LetScan → LetScan
  | .root _ => id
  | .extend i v next => fun s => scanUpdates next (scan v (scan i s))

end

end ExprSMTLIBLetPrinter

/-! ## The script -/

/-- What is set up before `generateOutput`: the options, the query and the
arrays of `setArrayValuesToGet`. -/
structure SMTLIBRequest where
  constantDisplayMode : ConstantDisplayMode
  logicToUse : Logic
  useLetExpressions : Bool
  query : Query
  arraysToCallGetValueOn : List KArray

namespace SMTLIBRequest

variable (arrayOrder : SetOrder KArray) (exprOrder : SetOrder Expr) (r : SMTLIBRequest)

/-- The expressions that `scanAll` scans. -/
def scanned : List Expr := r.query.constraints ++ [r.query.expr]

/-- `scanAll` of the printer with `let`. -/
def letScan : LetScan := r.scanned.foldl (fun s e => ExprSMTLIBLetPrinter.scan e s) .empty

/-- `scanAll`. -/
def arrayScan : ArrayScan :=
  if r.useLetExpressions then r.letScan.arrays
  else r.scanned.foldl (fun s e => ExprSMTLIBPrinter.scan e s) .empty

/-- The arrays that are declared: `setArrayValuesToGet` adds its own. -/
def usedArrays : Finset KArray := r.arrayScan.usedArrays ∪ r.arraysToCallGetValueOn.toFinset

/-- `queryAssert`, which `negateQueryExpression` sets. -/
def queryAssert : Expr := r.query.expr.createIsZero

/-- `(select <name> (_ bv<index> 32))`. -/
def element (array : KArray) (index : ℕ) : Term :=
  .app₂ .select (.symbol array.name) (.literal (.dec index KArray.domain))

/-- The declaration of an array. -/
def declaration (array : KArray) : Command :=
  .declareFun array.name (.array KArray.domain KArray.range)

/-- The equality of an element of a constant array and its value. -/
def definition (array : KArray) (byteIndex : ℕ) (value : BitVec 8) : Command :=
  .assert ⟨[], .app₂ .eq (element array byteIndex)
    (ExprSMTLIBPrinter.printConstant r.constantDisplayMode ⟨KArray.range, value⟩)⟩

/-- The definitions of a constant array. -/
def definitions (array : KArray) : List Command :=
  array.constantValues.zipIdx.map (fun p => r.definition array p.2 p.1)

/-- `printArrayDeclarations`. -/
def printArrayDeclarations : List Command :=
  (arrayOrder.toList r.usedArrays).map declaration
    ++ if r.arrayScan.haveConstantArray then
        (arrayOrder.toList r.usedArrays).flatMap
          (fun array => if array.isConstantArray then r.definitions array else [])
      else []

/-- An expression as an assertion expects it. -/
def printBool (abbreviations : ExprSMTLIBPrinter.Abbreviations) (e : Expr) : Term :=
  ExprSMTLIBPrinter.printExpression r.constantDisplayMode abbreviations e SORT_BOOL

/-- `printConstraints` and `printQuery`. -/
def printConstraintsAndQuery : List Command :=
  (r.query.constraints ++ [r.queryAssert]).map
    (fun e => .assert ⟨[], r.printBool (fun _ => none) e⟩)

/-- `generateBindings`: `BINDING_PREFIX` and a number for each expression. -/
def bindings : List (Expr × String) :=
  (exprOrder.toList r.letScan.twoOrMoreEO).zipIdx.map (fun p => (p.1, "?B" ++ toString p.2))

/-- The abbreviations, where they are not disabled. -/
def abbreviations : ExprSMTLIBPrinter.Abbreviations := fun e => (r.bindings exprOrder).lookup e

/-- `printLetExpression`. -/
def printLetExpression : List Command :=
  [.assert {
    bindings := (r.bindings exprOrder).map (fun p => (p.2,
      ExprSMTLIBPrinter.printExpression r.constantDisplayMode (fun _ => none) p.1
        (ExprSMTLIBPrinter.getSort p.1)))
    body := r.query.constraints.foldr
      (fun e rest => .app₂ (.bool .and) (r.printBool (r.abbreviations exprOrder) e) rest)
      (r.printBool (r.abbreviations exprOrder) r.queryAssert) }]

/-- The assertions of the constraints and the query. -/
def printAssertions : List Command :=
  if r.useLetExpressions then r.printLetExpression exprOrder else r.printConstraintsAndQuery

/-- `printAction`. -/
def printAction : List Command :=
  .checkSat :: r.arraysToCallGetValueOn.flatMap
    (fun array => (List.range array.size).map (fun index => .getValue (element array index)))

/-- `generateOutput`. -/
def generateOutput : Script :=
  .setLogic r.logicToUse :: r.printArrayDeclarations arrayOrder ++ r.printAssertions exprOrder
    ++ r.printAction ++ [.exit]

end SMTLIBRequest

end Xklee
