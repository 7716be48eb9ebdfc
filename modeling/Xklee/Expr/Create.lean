/-
The rewriting constructors: `lib/Expr/Expr.cpp`, lines 499-1152.

Every node is built through `XExpr::create`, which folds constants and rewrites
locally before it allocates a node. The definitions follow the file function by
function and keep its names. `BCREATE_R`, `BCREATE` and `CMPCREATE` are macros
there and higher-order functions here. The option `const-array-opt` is off, its
default, so `EqExpr_createPartialR` has no `TryConstArrayOpt` branch.

Three groups of constructors call each other in cycles. The partial ones (one
operand a constant) recurse on the other operand. `AddExpr_create` and
`SubExpr_create` recurse on smaller pairs of operands, and
`ExtractExpr::create` on smaller expressions, through `ConcatExpr::create`.
These two groups carry a bound on the depth of the recursion; it is set to the
size of the operands, and `AddExpr_create_eq`, `SubExpr_create_eq` and
`ExtractExpr.create_eq` say that with this bound the functions satisfy the
recursive equations of the source.
-/
import Xklee.Expr.Semantics

set_option autoImplicit false

namespace Xklee

/-- `ConstantExpr::alloc(v, w)`. -/
def ConstantExpr.alloc (v w : ℕ) : Expr := .Constant (APInt.ofNat w v)

/-! ## The creation macros -/

/-- `BCREATE_R`: fold two constants, and pass one constant on to the partial
constructor for its side. -/
def BCREATE_R (op : APInt → APInt → APInt) (partialL : Expr → APInt → Expr)
    (partialR : APInt → Expr → Expr) (general : Expr → Expr → Expr) : Expr → Expr → Expr
  | .Constant cl, .Constant cr => .Constant (op cl cr)
  | .Constant cl, r => partialR cl r
  | l, .Constant cr => partialL l cr
  | l, r => general l r

/-- `BCREATE` and `CMPCREATE`: fold two constants. -/
def BCREATE (op : APInt → APInt → APInt) (general : Expr → Expr → Expr) : Expr → Expr → Expr
  | .Constant cl, .Constant cr => .Constant (op cl cr)
  | l, r => general l r

/-! ## And, Or -/

def AndExpr_createPartial (l : Expr) (cr : APInt) : Expr :=
  if cr.isAllOnes then l
  else if cr.isZero then .Constant cr
  else .Binary .And l (.Constant cr)

def AndExpr_createPartialR (cl : APInt) (r : Expr) : Expr := AndExpr_createPartial r cl

def AndExpr_create (l r : Expr) : Expr := .Binary .And l r

def AndExpr.create : Expr → Expr → Expr :=
  BCREATE_R (ConstantExpr.binary .And) AndExpr_createPartial AndExpr_createPartialR AndExpr_create

def OrExpr_createPartial (l : Expr) (cr : APInt) : Expr :=
  if cr.isAllOnes then .Constant cr
  else if cr.isZero then l
  else .Binary .Or l (.Constant cr)

def OrExpr_createPartialR (cl : APInt) (r : Expr) : Expr := OrExpr_createPartial r cl

def OrExpr_create (l r : Expr) : Expr := .Binary .Or l r

def OrExpr.create : Expr → Expr → Expr :=
  BCREATE_R (ConstantExpr.binary .Or) OrExpr_createPartial OrExpr_createPartialR OrExpr_create

/-! ## Equality -/

def EqExpr_create (l r : Expr) : Expr :=
  if l = r then .Constant (.ofBool true) else .Cmp .Eq l r

/-- `EqExpr_createPartialR`: the equality of a constant and `r`. Where the
source calls `EqExpr::create` or `createIsZero` on a kid of `r`, the kid may be
a constant, which is folded; otherwise the call comes back here. -/
def EqExpr_createPartialR (cl : APInt) (r : Expr) : Expr :=
  if cl.width = Expr.BoolWidth then
    if cl.isTrue then r
    else
      match r with
      | .Cmp .Eq (.Constant c) right =>
          -- 0 == (0 == A) => A
          if c.isFalse then right else EqExpr_create (.Constant cl) r
      | .Binary .Or left right =>
          -- transform not(or(a,b)) to and(not a, not b)
          AndExpr.create
            (match left with
              | .Constant c => .Constant (ConstantExpr.compare .Eq c (APInt.ofNat c.width 0))
              | _ => EqExpr_createPartialR (APInt.ofNat left.width 0) left)
            (match right with
              | .Constant c => .Constant (ConstantExpr.compare .Eq c (APInt.ofNat c.width 0))
              | _ => EqExpr_createPartialR (APInt.ofNat right.width 0) right)
      | _ => EqExpr_create (.Constant cl) r
  else
    match r with
    | .Cast .SExt src _ =>
        -- (sext(a,T)==c) == (a==c), if some value sign-extends to c
        let trunc := ConstantExpr.ZExt cl src.width
        if cl = ConstantExpr.SExt trunc cl.width then
          match src with
          | .Constant c => .Constant (ConstantExpr.compare .Eq c trunc)
          | _ => EqExpr_createPartialR trunc src
        else .Constant (.ofBool false)
    | .Cast .ZExt src _ =>
        -- (zext(a,T)==c) == (a==c), if some value zero-extends to c
        let trunc := ConstantExpr.ZExt cl src.width
        if cl = ConstantExpr.ZExt trunc cl.width then
          match src with
          | .Constant c => .Constant (ConstantExpr.compare .Eq c trunc)
          | _ => EqExpr_createPartialR trunc src
        else .Constant (.ofBool false)
    | .Binary .Add (.Constant c) right =>
        -- c0 = c1 + b => c0 - c1 = b
        EqExpr_createPartialR (ConstantExpr.binary .Sub cl c) right
    | .Binary .Sub (.Constant c) right =>
        -- c0 = c1 - b => c1 - c0 = b
        EqExpr_createPartialR (ConstantExpr.binary .Sub c cl) right
    | _ => EqExpr_create (.Constant cl) r

def EqExpr_createPartial (l : Expr) (cr : APInt) : Expr := EqExpr_createPartialR cr l

def EqExpr.create : Expr → Expr → Expr :=
  BCREATE_R (ConstantExpr.compare .Eq) EqExpr_createPartial EqExpr_createPartialR EqExpr_create

/-- `Expr::createIsZero`. -/
def Expr.createIsZero (e : Expr) : Expr := EqExpr.create e (ConstantExpr.alloc 0 e.width)

def NeExpr.create (l r : Expr) : Expr :=
  EqExpr.create (ConstantExpr.alloc 0 Expr.BoolWidth) (EqExpr.create l r)

/-! ## Xor -/

def XorExpr_createPartialR (cl : APInt) (r : Expr) : Expr :=
  if cl.isZero then r
  else if cl.width = Expr.BoolWidth then EqExpr_createPartial r (APInt.ofNat Expr.BoolWidth 0)
  else .Binary .Xor (.Constant cl) r

def XorExpr_createPartial (l : Expr) (cr : APInt) : Expr := XorExpr_createPartialR cr l

def XorExpr_create (l r : Expr) : Expr := .Binary .Xor l r

def XorExpr.create : Expr → Expr → Expr :=
  BCREATE_R (ConstantExpr.binary .Xor) XorExpr_createPartial XorExpr_createPartialR XorExpr_create

/-! ## Add and Sub -/

mutual

def AddExpr_createPartialR (cl : APInt) (r : Expr) : Expr :=
  if cl.width = Expr.BoolWidth then XorExpr_createPartialR cl r
  else if cl.isZero then r
  else
    match r with
    | .Binary .Add (.Constant c) y =>
        -- A + (B+c) == (A+B) + c
        let cl' := ConstantExpr.binary .Add cl c
        match y with
        | .Constant d => .Constant (ConstantExpr.binary .Add cl' d)
        | _ => AddExpr_createPartialR cl' y
    | .Binary .Sub (.Constant c) y =>
        -- A + (B-c) == (A+B) - c
        let cl' := ConstantExpr.binary .Add cl c
        match y with
        | .Constant d => .Constant (ConstantExpr.binary .Sub cl' d)
        | _ => SubExpr_createPartialR cl' y
    | _ => .Binary .Add (.Constant cl) r

def SubExpr_createPartialR (cl : APInt) (r : Expr) : Expr :=
  if cl.width = Expr.BoolWidth then XorExpr_createPartialR cl r
  else
    match r with
    | .Binary .Add (.Constant c) y =>
        -- A - (B+c) == (A-B) - c
        let cl' := ConstantExpr.binary .Sub cl c
        match y with
        | .Constant d => .Constant (ConstantExpr.binary .Sub cl' d)
        | _ => SubExpr_createPartialR cl' y
    | .Binary .Sub (.Constant c) y =>
        -- A - (B-c) == (A-B) + c
        let cl' := ConstantExpr.binary .Sub cl c
        match y with
        | .Constant d => .Constant (ConstantExpr.binary .Add cl' d)
        | _ => AddExpr_createPartialR cl' y
    | _ => .Binary .Sub (.Constant cl) r

end

def AddExpr_createPartial (l : Expr) (cr : APInt) : Expr := AddExpr_createPartialR cr l

/-- `l - c => l + (-c)` -/
def SubExpr_createPartial (l : Expr) (cr : APInt) : Expr :=
  AddExpr_createPartial l (ConstantExpr.binary .Sub (APInt.ofNat cr.width 0) cr)

/-- `AddExpr::create` over a given `AddExpr_create`. -/
def AddExpr.createWith : (Expr → Expr → Expr) → Expr → Expr → Expr :=
  BCREATE_R (ConstantExpr.binary .Add) AddExpr_createPartial AddExpr_createPartialR

/-- `SubExpr::create` over a given `SubExpr_create`. -/
def SubExpr.createWith : (Expr → Expr → Expr) → Expr → Expr → Expr :=
  BCREATE_R (ConstantExpr.binary .Sub) SubExpr_createPartial SubExpr_createPartialR

/-- The body of `AddExpr_create`, over the constructors it calls. -/
def AddExpr_createBody (add sub : Expr → Expr → Expr) (l r : Expr) : Expr :=
  if l.width = Expr.BoolWidth then XorExpr_create l r
  else
    match l, r with
    | .Binary .Add (.Constant k) a, r => add (.Constant k) (add a r)
    | .Binary .Sub (.Constant k) a, r => add (.Constant k) (sub r a)
    | l, .Binary .Add (.Constant k) b => add (.Constant k) (add l b)
    | l, .Binary .Sub (.Constant k) b => add (.Constant k) (sub l b)
    | l, r => .Binary .Add l r

/-- The body of `SubExpr_create`, over the constructors it calls. -/
def SubExpr_createBody (add sub : Expr → Expr → Expr) (l r : Expr) : Expr :=
  if l.width = Expr.BoolWidth then XorExpr_create l r
  else if l = r then ConstantExpr.alloc 0 l.width
  else
    match l, r with
    | .Binary .Add (.Constant k) a, r => add (.Constant k) (sub a r)
    | .Binary .Sub (.Constant k) a, r => sub (.Constant k) (add a r)
    | l, .Binary .Add (.Constant k) b => sub (sub l b) (.Constant k)
    | l, .Binary .Sub (.Constant k) b => sub (add l b) (.Constant k)
    | l, r => .Binary .Sub l r

mutual

def AddExpr_createN : ℕ → Expr → Expr → Expr
  | 0, l, r => .Binary .Add l r
  | n + 1, l, r => AddExpr_createBody (AddExpr.createWith (AddExpr_createN n))
      (SubExpr.createWith (SubExpr_createN n)) l r

def SubExpr_createN : ℕ → Expr → Expr → Expr
  | 0, l, r => .Binary .Sub l r
  | n + 1, l, r => SubExpr_createBody (AddExpr.createWith (AddExpr_createN n))
      (SubExpr.createWith (SubExpr_createN n)) l r

end

def AddExpr_create (l r : Expr) : Expr := AddExpr_createN (l.size + r.size) l r

def SubExpr_create (l r : Expr) : Expr := SubExpr_createN (l.size + r.size) l r

def AddExpr.create : Expr → Expr → Expr := AddExpr.createWith AddExpr_create

def SubExpr.create : Expr → Expr → Expr := SubExpr.createWith SubExpr_create

/-! ## Mul -/

def MulExpr_createPartialR (cl : APInt) (r : Expr) : Expr :=
  if cl.width = Expr.BoolWidth then AndExpr_createPartialR cl r
  else if cl.isOne then r
  else if cl.isZero then .Constant cl
  else .Binary .Mul (.Constant cl) r

def MulExpr_createPartial (l : Expr) (cr : APInt) : Expr := MulExpr_createPartialR cr l

def MulExpr_create (l r : Expr) : Expr :=
  if l.width = Expr.BoolWidth then .Binary .And l r else .Binary .Mul l r

def MulExpr.create : Expr → Expr → Expr :=
  BCREATE_R (ConstantExpr.binary .Mul) MulExpr_createPartial MulExpr_createPartialR MulExpr_create

/-! ## Division, remainder and shifts -/

/-- `UDivExpr_create` and `SDivExpr_create`: at width 1 the divisor must be 1. -/
def DivExpr_create (k : BinaryKind) (l r : Expr) : Expr :=
  if l.width = Expr.BoolWidth then l else .Binary k l r

/-- `URemExpr_create` and `SRemExpr_create`: at width 1 the divisor must be 1. -/
def RemExpr_create (k : BinaryKind) (l r : Expr) : Expr :=
  if l.width = Expr.BoolWidth then ConstantExpr.alloc 0 Expr.BoolWidth else .Binary k l r

/-- `ShlExpr_create` and `LShrExpr_create`: `l & !r` at width 1. -/
def ShiftExpr_create (k : BinaryKind) (l r : Expr) : Expr :=
  if l.width = Expr.BoolWidth then AndExpr.create l r.createIsZero else .Binary k l r

/-- `AShrExpr_create`: `l` at width 1. -/
def AShrExpr_create (l r : Expr) : Expr :=
  if l.width = Expr.BoolWidth then l else .Binary .AShr l r

def UDivExpr.create : Expr → Expr → Expr :=
  BCREATE (ConstantExpr.binary .UDiv) (DivExpr_create .UDiv)

def SDivExpr.create : Expr → Expr → Expr :=
  BCREATE (ConstantExpr.binary .SDiv) (DivExpr_create .SDiv)

def URemExpr.create : Expr → Expr → Expr :=
  BCREATE (ConstantExpr.binary .URem) (RemExpr_create .URem)

def SRemExpr.create : Expr → Expr → Expr :=
  BCREATE (ConstantExpr.binary .SRem) (RemExpr_create .SRem)

def ShlExpr.create : Expr → Expr → Expr :=
  BCREATE (ConstantExpr.binary .Shl) (ShiftExpr_create .Shl)

def LShrExpr.create : Expr → Expr → Expr :=
  BCREATE (ConstantExpr.binary .LShr) (ShiftExpr_create .LShr)

def AShrExpr.create : Expr → Expr → Expr :=
  BCREATE (ConstantExpr.binary .AShr) AShrExpr_create

/-! ## Orderings -/

/-- `!l && r` at width 1. -/
def UltExpr_create (l r : Expr) : Expr :=
  if l.width = Expr.BoolWidth then AndExpr.create l.createIsZero r else .Cmp .Ult l r

/-- `!(l && !r)` at width 1. -/
def UleExpr_create (l r : Expr) : Expr :=
  if l.width = Expr.BoolWidth then OrExpr.create l.createIsZero r else .Cmp .Ule l r

/-- `l && !r` at width 1. -/
def SltExpr_create (l r : Expr) : Expr :=
  if l.width = Expr.BoolWidth then AndExpr.create l r.createIsZero else .Cmp .Slt l r

/-- `!(!l && r)` at width 1. -/
def SleExpr_create (l r : Expr) : Expr :=
  if l.width = Expr.BoolWidth then OrExpr.create l r.createIsZero else .Cmp .Sle l r

def UltExpr.create : Expr → Expr → Expr := BCREATE (ConstantExpr.compare .Ult) UltExpr_create

def UleExpr.create : Expr → Expr → Expr := BCREATE (ConstantExpr.compare .Ule) UleExpr_create

def SltExpr.create : Expr → Expr → Expr := BCREATE (ConstantExpr.compare .Slt) SltExpr_create

def SleExpr.create : Expr → Expr → Expr := BCREATE (ConstantExpr.compare .Sle) SleExpr_create

def UgtExpr.create (l r : Expr) : Expr := UltExpr.create r l

def UgeExpr.create (l r : Expr) : Expr := UleExpr.create r l

def SgtExpr.create (l r : Expr) : Expr := SltExpr.create r l

def SgeExpr.create (l r : Expr) : Expr := SleExpr.create r l

/-! ## Concat and Extract -/

/-- `ConcatExpr::create` over a given `ExtractExpr::create`. -/
def ConcatExpr.createWith (extract : Expr → ℕ → ℕ → Expr) (l r : Expr) : Expr :=
  match l, r with
  | .Constant a, .Constant b => .Constant (ConstantExpr.Concat a b)
  | .Extract e off w, .Extract e' off' w' =>
      -- Merge contiguous Extracts
      if e = e' ∧ off' + w' = off then extract e off' (w + w')
      else .Concat (.Extract e off w) (.Extract e' off' w')
  | l, r => .Concat l r

/-- The body of `ExtractExpr::create`, over itself. In the straddling case the
source computes the width of the left part as `w - rightWidth + off` in unsigned
arithmetic. -/
def ExtractExpr.createBody (extract : Expr → ℕ → ℕ → Expr) (e : Expr) (off w : ℕ) : Expr :=
  if w = e.width then e
  else
    match e with
    | .Constant c => .Constant (ConstantExpr.Extract c off w)
    | .Concat left right =>
        if right.width ≤ off then extract left (off - right.width) w
        else if off + w ≤ right.width then extract right off w
        else
          -- E(C(x,y)) = C(E(x), E(y))
          ConcatExpr.createWith extract (extract left 0 (w + off - right.width))
            (extract right off (right.width - off))
    | e => .Extract e off w

def ExtractExpr.createN : ℕ → Expr → ℕ → ℕ → Expr
  | 0, e, off, w => .Extract e off w
  | n + 1, e, off, w => ExtractExpr.createBody (ExtractExpr.createN n) e off w

def ExtractExpr.create (e : Expr) (off w : ℕ) : Expr := ExtractExpr.createN e.size e off w

def ConcatExpr.create : Expr → Expr → Expr := ConcatExpr.createWith ExtractExpr.create

/-! ## Not and the casts -/

def NotOptimizedExpr.create (e : Expr) : Expr := .NotOptimized e

def NotExpr.create : Expr → Expr
  | .Constant c => .Constant (ConstantExpr.Not c)
  | e => .Not e

/-- `ZExtExpr::create` and `SExtExpr::create`, which differ in the operation on
constants alone. -/
def CastExpr.create (k : CastKind) (e : Expr) (w : ℕ) : Expr :=
  if w = e.width then e
  else if w < e.width then ExtractExpr.create e 0 w
  else
    match e with
    | .Constant c => .Constant (k.apply c w)
    | e => .Cast k e w

def ZExtExpr.create : Expr → ℕ → Expr := CastExpr.create .ZExt

def SExtExpr.create : Expr → ℕ → Expr := CastExpr.create .SExt

/-! ## Select -/

def SelectExpr.create (c t f : Expr) : Expr :=
  match c with
  | .Constant cc => if cc.isTrue then t else f
  | c =>
      if t = f then t
      else if t.width = Expr.BoolWidth then
        -- c ? t : f  <=> (c and t) or (not c and f)
        match t, f with
        | .Constant ct, f => if ct.isTrue then OrExpr.create c f else AndExpr.create c.createIsZero f
        | t, .Constant cf => if cf.isTrue then OrExpr.create c.createIsZero t else AndExpr.create c t
        | t, f => .Select c t f
      else .Select c t f

/-! ## Read -/

/-- The loop of `ReadExpr::create` over the update nodes from `un` on: `ul` is
the list the read was asked for. -/
def ReadExpr.rollback (ul : UpdateList) (index : Expr) : UpdateList → Expr
  | .root _ => .Read ul index
  | .extend i v next =>
      match EqExpr.create index i with
      | .Constant c => if c.isTrue then v else ReadExpr.rollback ul index next
      | _ => .Read ul index

def ReadExpr.create (ul : UpdateList) (index : Expr) : Expr := ReadExpr.rollback ul index ul

/-! ## Rebuilding a node -/

/-- `create` of the binary kinds. -/
def BinaryKind.create : BinaryKind → Expr → Expr → Expr
  | .Add => AddExpr.create
  | .Sub => SubExpr.create
  | .Mul => MulExpr.create
  | .UDiv => UDivExpr.create
  | .SDiv => SDivExpr.create
  | .URem => URemExpr.create
  | .SRem => SRemExpr.create
  | .And => AndExpr.create
  | .Or => OrExpr.create
  | .Xor => XorExpr.create
  | .Shl => ShlExpr.create
  | .LShr => LShrExpr.create
  | .AShr => AShrExpr.create

/-- `create` of the comparison kinds. -/
def CmpKind.create : CmpKind → Expr → Expr → Expr
  | .Eq => EqExpr.create
  | .Ne => NeExpr.create
  | .Ult => UltExpr.create
  | .Ule => UleExpr.create
  | .Ugt => UgtExpr.create
  | .Uge => UgeExpr.create
  | .Slt => SltExpr.create
  | .Sle => SleExpr.create
  | .Sgt => SgtExpr.create
  | .Sge => SgeExpr.create

/-- `Expr::rebuild` of a node with its own kids: the call `XExpr::create(args)`
where the node is `XExpr` with the arguments `args`. -/
def Expr.rebuild : Expr → Expr
  | .Constant c => .Constant c
  | .NotOptimized e => NotOptimizedExpr.create e
  | .Read ul i => ReadExpr.create ul i
  | .Select c t f => SelectExpr.create c t f
  | .Concat l r => ConcatExpr.create l r
  | .Extract e off w => ExtractExpr.create e off w
  | .Cast k e w => CastExpr.create k e w
  | .Not e => NotExpr.create e
  | .Binary k l r => k.create l r
  | .Cmp k l r => k.create l r

end Xklee
