/-
Types and their layout, and the walk over the types that an instruction indexes:
`Executor::computeOffsets` in `lib/Core/Executor.cpp`.

The target data gives the alignment of each type. The sizes follow from it: what a value stores is
its bits in whole bytes, and what it is allocated is that up to a multiple of the alignment. The
elements of an array are one allocation apart, and the fields of a struct one after the other, each
at its alignment. The walk adds up what the constant indices give and lists the other ones.
-/
import Mathlib.Data.BitVec
import Xklee.Data.Alignment
import Xklee.Expr.RebuildSound

set_option autoImplicit false

namespace Xklee

inductive LLVMType
  | int (width : ℕ)
  | floating (width : ℕ)
  | pointer
  | vector (length : ℕ) (element : LLVMType)
  | array (length : ℕ) (element : LLVMType)
  | struct (isPacked : Bool) (fields : List LLVMType)

/-- What the target's data layout says. -/
structure TargetData where
  pointerWidth : ℕ
  pointerWidth_pos : 0 < pointerWidth
  abiAlignment : LLVMType → ℕ
  abiAlignment_pos : ∀ T, 0 < abiAlignment T

namespace TargetData

variable (td : TargetData)

/-! ## Sizes -/

/-- The alignment of a field. -/
def fieldAlignment (isPacked : Bool) (T : LLVMType) : ℕ := if isPacked then 1 else td.abiAlignment T

/-- The greatest alignment of the fields. -/
def structAlignment (isPacked : Bool) (fields : List LLVMType) : ℕ :=
  fields.foldl (fun a T => max a (td.fieldAlignment isPacked T)) 1

mutual

/-- `getTypeSizeInBits`. -/
def getTypeSizeInBits : LLVMType → ℕ
  | .int width => width
  | .floating width => width
  | .pointer => td.pointerWidth
  | .vector length element => length * getTypeSizeInBits element
  | .array length element =>
      length * (8 * alignUp ((getTypeSizeInBits element + 7) / 8) (td.abiAlignment element))
  | .struct isPacked fields =>
      8 * alignUp (fieldsEnd isPacked 0 fields) (td.structAlignment isPacked fields)

/-- Where the fields end that are placed from `offset` on. -/
def fieldsEnd (isPacked : Bool) (offset : ℕ) : List LLVMType → ℕ
  | [] => offset
  | T :: fields => fieldsEnd isPacked (alignUp offset (td.fieldAlignment isPacked T)
      + alignUp ((getTypeSizeInBits T + 7) / 8) (td.abiAlignment T)) fields

end

def getTypeStoreSize (T : LLVMType) : ℕ := (td.getTypeSizeInBits T + 7) / 8

def getTypeAllocSize (T : LLVMType) : ℕ := alignUp (td.getTypeStoreSize T) (td.abiAlignment T)

/-- `StructLayout::getElementOffset`, for the fields that are placed from `offset` on. -/
def getElementOffset (isPacked : Bool) : ℕ → List LLVMType → ℕ → Option ℕ
  | _, [], _ => none
  | offset, T :: _, 0 => some (alignUp offset (td.fieldAlignment isPacked T))
  | offset, T :: fields, i + 1 => getElementOffset isPacked
      (alignUp offset (td.fieldAlignment isPacked T) + td.getTypeAllocSize T) fields i

end TargetData

/-! ## Indexing -/

/-- An operand that is an index. -/
inductive IndexOperand
  /-- A constant, as `evalConstant` gives it. -/
  | constant (value : APInt)
  | value (e : Expr)

/-- The type that an index goes into. -/
inductive CompositeType
  | struct (isPacked : Bool) (fields : List LLVMType)
  | sequential (element : LLVMType)

/-- What is precomputed for an instruction: the sum of the constant parts, and the number of each
other operand with the size of what it counts. -/
structure KGEPInstruction (pointerWidth : ℕ) where
  offset : BitVec pointerWidth
  indices : List (ℕ × ℕ)

/-- The loop of `Executor::computeOffsets`; nothing where a cast or an access of the target data
fails. -/
def computeOffsets (td : TargetData) : List (CompositeType × IndexOperand) → ℕ →
    BitVec td.pointerWidth → List (ℕ × ℕ) → Option (KGEPInstruction td.pointerWidth)
  | [], _, constantOffset, indices => some ⟨constantOffset, indices⟩
  | (.struct isPacked fields, .constant ci) :: steps, index, constantOffset, indices =>
      (td.getElementOffset isPacked 0 fields ci.toNat).bind fun addend =>
        computeOffsets td steps (index + 1) (constantOffset + BitVec.ofNat _ addend) indices
  | (.struct _ _, .value _) :: _, _, _, _ => none
  | (.sequential element, .constant c) :: steps, index, constantOffset, indices =>
      let elementSize := td.getTypeStoreSize element
      computeOffsets td steps (index + 1)
        (constantOffset + c.bits.signExtend _ * BitVec.ofNat _ elementSize) indices
  | (.sequential element, .value _) :: steps, index, constantOffset, indices =>
      let elementSize := td.getTypeStoreSize element
      computeOffsets td steps (index + 1) constantOffset (indices ++ [(index, elementSize)])

end Xklee
