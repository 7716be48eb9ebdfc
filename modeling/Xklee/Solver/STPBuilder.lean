/-
The terms of a query for STP: `lib/Solver/STPBuilder.cpp`.

What division and multiplication by a constant need of the builder: constants, shifts and sums. The
primitives of the library have their standard meaning. What the library refuses is no term: a
primitive stops there, as it stops the program.

Widths, shift amounts and the 32-bit values of constants are numbers. Reference counts and the
statistics are left out.
-/
import Xklee.Data.SMTTerm
import Xklee.Expr.Contents
import Xklee.Solver.ConstantDivision

set_option autoImplicit false

namespace Xklee

open SMTLIB (Fn₁ Fn₂ Fn₃ BoolFn BitVecFn BitVecRel)
open SMTTerm (app₁ app₂ app₃)

/-- A term of a query: its variables are the arrays. -/
abbrev QueryTerm := SMTTerm Contents

/-! ## The library -/

namespace STP

def vc_bvConstExprFromInt (n_bits value : ℕ) : Option QueryTerm := SMTTerm.const n_bits value

def vc_bvConstExprFromLL (n_bits : ℕ) (value : BitVec 64) : Option QueryTerm :=
  SMTTerm.const n_bits value.toNat

def vc_getBVLength : QueryTerm → Option ℕ
  | .bitVec w _ => some w
  | _ => none

/-- A term of the length that the caller names. -/
def ofLength (n_bits : ℕ) (t : Option QueryTerm) : Option QueryTerm := do
  let t ← t
  let length ← vc_getBVLength t
  guard (length = n_bits)
  return t

def vc_bvConcatExpr (left right : QueryTerm) : Option QueryTerm := app₂ .concat left right

def vc_bvExtract (child : QueryTerm) (high_bit_no low_bit_no : ℕ) : Option QueryTerm :=
  app₁ (.extract high_bit_no low_bit_no) child

/-- The length is that of the result. -/
def vc_bvSignExtend (child : QueryTerm) (n_bits : ℕ) : Option QueryTerm := do
  let length ← vc_getBVLength child
  guard (length ≤ n_bits)
  app₁ (.sign_extend (n_bits - length)) child

def vc_eqExpr (left right : QueryTerm) : Option QueryTerm := app₂ .eq left right

def vc_iteExpr (cond thenExpr elseExpr : QueryTerm) : Option QueryTerm :=
  app₃ .ite cond thenExpr elseExpr

def vc_bvPlusExpr (n_bits : ℕ) (left right : QueryTerm) : Option QueryTerm :=
  ofLength n_bits (app₂ (.bitVec .bvadd) left right)

def vc_bvMinusExpr (n_bits : ℕ) (left right : QueryTerm) : Option QueryTerm :=
  ofLength n_bits (app₂ (.bitVec .bvsub) left right)

def vc_bvUMinusExpr (child : QueryTerm) : Option QueryTerm := SMTTerm.bvneg child

def vc_bvXorExpr (left right : QueryTerm) : Option QueryTerm := app₂ (.bitVec .bvxor) left right

end STP

/-! ## What both builders use -/

/-- The loop of `getShiftBits`. The first argument bounds the rounds. -/
def getShiftBitsLoop : ℕ → ℕ → ℕ → ℕ
  | 0, _, bits => bits
  | n + 1, amount, bits =>
    let amount := amount >>> 1
    if amount ≠ 0 then getShiftBitsLoop n amount (bits + 1) else bits

/-- `getShiftBits` of both builders. -/
def getShiftBits (amount : ℕ) : ℕ := getShiftBitsLoop amount (amount - 1) 1

/-- `ConstantExpr::getZExtValue`, which asserts that the value is not too wide. -/
def ConstantExpr.getZExtValue (bits : ℕ) (c : APInt) : Option (BitVec 64) :=
  if c.width ≤ bits then some (c.bits.setWidth 64) else none

/-- The value of a constant of at most 64 bits. -/
def Expr.constant64? : Expr → Option (BitVec 64)
  | .Constant c => ConstantExpr.getZExtValue 64 c
  | _ => none

/-! ## Constants and shifts -/

/-- `STPBuilder`. -/
structure STPBuilder where
  optimizeDivides : Bool
  UseConstructHash : Bool
  /-- The meaning of `vc_sbvModExpr`. -/
  sbvMod : ∀ {w : ℕ}, BitVec w → BitVec w → BitVec w

namespace STPBuilder

open STP

def bvConst32 (width value : ℕ) : Option QueryTerm := vc_bvConstExprFromInt width value

def bvConst64 (width : ℕ) (value : BitVec 64) : Option QueryTerm := vc_bvConstExprFromLL width value

/-- The loop of `bvZExtConst`. The first argument bounds the rounds. -/
def bvZExtConstLoop (zero : QueryTerm) : ℕ → ℕ → QueryTerm → Option QueryTerm
  | 0, _, _ => none
  | n + 1, width, expr =>
    if 64 < width then do
      let expr ← vc_bvConcatExpr zero expr
      bvZExtConstLoop zero n (width - 64) expr
    else do
      let top ← bvConst64 width 0
      vc_bvConcatExpr top expr

def bvZExtConst (width : ℕ) (value : BitVec 64) : Option QueryTerm :=
  if width ≤ 64 then bvConst64 width value
  else do
    let expr ← bvConst64 64 value
    let zero ← bvConst64 64 0
    bvZExtConstLoop zero width (width - 64) expr

def bvSExtConst (width : ℕ) (value : BitVec 64) : Option QueryTerm :=
  if width ≤ 64 then bvConst64 width value
  else do
    let expr ← bvConst64 64 value
    vc_bvSignExtend expr width

def bvOne (width : ℕ) : Option QueryTerm := bvZExtConst width 1

def bvZero (width : ℕ) : Option QueryTerm := bvZExtConst width 0

def bvMinusOne (width : ℕ) : Option QueryTerm := bvSExtConst width (-1)

def bvExtract (expr : QueryTerm) (top bottom : ℕ) : Option QueryTerm := vc_bvExtract expr top bottom

def bvBoolExtract (expr : QueryTerm) (bit : ℕ) : Option QueryTerm := do
  let extracted ← bvExtract expr bit bit
  let one ← bvOne 1
  vc_eqExpr extracted one

def eqExpr (a b : QueryTerm) : Option QueryTerm := vc_eqExpr a b

/-- Logical right shift. -/
def bvRightShift (expr : QueryTerm) (amount shiftBits : ℕ) : Option QueryTerm := do
  let width ← vc_getBVLength expr
  let shift := amount &&& (1 <<< shiftBits - 1)
  if shift = 0 then
    return expr
  else if width ≤ shift then
    bvZero width
  else
    let zero ← bvZero shift
    let high ← bvExtract expr (width - 1) shift
    vc_bvConcatExpr zero high

/-- Logical left shift. -/
def bvLeftShift (expr : QueryTerm) (amount shiftBits : ℕ) : Option QueryTerm := do
  let width ← vc_getBVLength expr
  let shift := amount &&& (1 <<< shiftBits - 1)
  if shift = 0 then
    return expr
  else if width ≤ shift then
    bvZero width
  else
    let low ← bvExtract expr (width - shift - 1) 0
    let zero ← bvZero shift
    vc_bvConcatExpr low zero

/-- One round of the loops over the shift amounts. -/
def shiftCase (shift : QueryTerm) (shiftBits i : ℕ) (shifted : Option QueryTerm) (res : QueryTerm) :
    Option QueryTerm := do
  let amount ← bvConst32 shiftBits i
  let cond ← eqExpr shift amount
  let shifted ← shifted
  vc_iteExpr cond shifted res

/-- Logical right shift by a variable amount on an expression of the specified width. -/
def bvVarRightShift (expr amount : QueryTerm) (width : ℕ) : Option QueryTerm := do
  let res ← bvZero width
  let shiftBits := getShiftBits width
  let shift ← vc_bvExtract amount (shiftBits - 1) 0
  (List.range width).foldrM
    (fun i res => shiftCase shift shiftBits i (bvRightShift expr i shiftBits) res) res

/-! ## Multiplication and division -/

/-- One round of the loop of `constructMulByConstant`; the null handle is `none`. -/
def mulRound (expr : QueryTerm) (width shiftBits : ℕ) (add sub : BitVec 64) (j : ℕ)
    (res : Option QueryTerm) : Option (Option QueryTerm) :=
  let bit := 1#64 <<< j
  if add &&& bit ≠ 0 ∨ sub &&& bit ≠ 0 then do
    guard (¬(add &&& bit ≠ 0 ∧ sub &&& bit ≠ 0))
    let op ← bvLeftShift expr j shiftBits
    if add &&& bit ≠ 0 then
      match res with
      | some res => some <$> vc_bvPlusExpr width res op
      | none => return some op
    else
      match res with
      | some res => some <$> vc_bvMinusExpr width res op
      | none => some <$> vc_bvUMinusExpr op
  else
    some res

def constructMulByConstant (expr : QueryTerm) (width : ℕ) (x : BitVec 64) : Option QueryTerm := do
  let shiftBits := getShiftBits width
  let (add, sub) ← ComputeMultConstants64 x
  let add := bits64.truncateToNBits add width
  let sub := bits64.truncateToNBits sub width
  let res ← (List.range 64).foldrM (mulRound expr width shiftBits add sub) none
  match res with
  | some res => return res
  | none => bvZero width

/-- `n / d` without explicit division, for a constant divisor. -/
def constructUDivByConstant (expr_n : QueryTerm) (width : ℕ) (d : BitVec 64) : Option QueryTerm := do
  guard (width = 32)
  let (mprime, sh1, sh2) ← ComputeUDivConstants32 (d.setWidth 32)
  let expr_sh1 ← bvConst32 32 sh1.toNat
  let expr_sh2 ← bvConst32 32 sh2.toNat
  let zero ← bvZero 32
  let expr_n_64 ← vc_bvConcatExpr zero expr_n
  let t1_64bits ← constructMulByConstant expr_n_64 64 (mprime.setWidth 64)
  let t1 ← vc_bvExtract t1_64bits 63 32
  let n_minus_t1 ← vc_bvMinusExpr width expr_n t1
  let shift_sh1 ← bvVarRightShift n_minus_t1 expr_sh1 32
  let plus_t1 ← vc_bvPlusExpr width shift_sh1 t1
  bvVarRightShift plus_t1 expr_sh2 32

/-- Signed `n / d` without explicit division, for a constant divisor. -/
def constructSDivByConstant (expr_n : QueryTerm) (width : ℕ) (d : BitVec 64) : Option QueryTerm := do
  guard (width = 32)
  let (mprime, dsign, shpost) ← ComputeSDivConstants32 (d.setWidth 32)
  let expr_dsign ← bvConst32 32 dsign.toNat
  let expr_shpost ← bvConst32 32 shpost.toNat
  let mprime_64 := mprime.signExtend 64
  let expr_n_64 ← vc_bvSignExtend expr_n 64
  let mult_64 ← constructMulByConstant expr_n_64 64 mprime_64
  let mulsh ← vc_bvExtract mult_64 63 32
  let n_plus_mulsh ← vc_bvPlusExpr width expr_n mulsh
  -- sign extend, shift, extract
  let extend_npm ← vc_bvSignExtend n_plus_mulsh 64
  let shift_npm ← bvVarRightShift extend_npm expr_shpost 64
  let shift_shpost ← vc_bvExtract shift_npm 31 0
  -- `XSIGN(n)` is -1 if `n` is negative
  let is_signed ← bvBoolExtract expr_n 31
  let neg_one ← bvMinusOne 32
  let zero ← bvZero 32
  let xsign_of_n ← vc_iteExpr is_signed neg_one zero
  let q0 ← vc_bvMinusExpr width shift_shpost xsign_of_n
  let q0_xor_dsign ← vc_bvXorExpr q0 expr_dsign
  vc_bvMinusExpr width q0_xor_dsign expr_dsign

end STPBuilder

end Xklee
