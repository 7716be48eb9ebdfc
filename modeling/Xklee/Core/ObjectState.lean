/-
Object states: `ObjectState` of `lib/Core/Memory.cpp`.

The contents of an object live in three places. A byte may be in the concrete
store, its expression may be cached in `knownSymbolics`, or it may have been
flushed to the update list, which is where accesses at symbolic offsets look.
Two bit masks and the cache, all of them allocated when first needed, say where
a byte is. A null pointer is `none` here and stands for its default value.

The methods return the new state; they are `none` when an assertion fails.
-/
import Xklee.Data.ByteMemory
import Xklee.Expr.RebuildSound

set_option autoImplicit false

namespace Xklee

/-- `ObjectState`. The updates are split into their root, which is null until a
constant array has been made for it, and the nodes, newest first. `constArray` is
the number that array gets. -/
structure ObjectState where
  size : ℕ
  concreteStore : ℕ → BitVec 8
  concreteMask : Option (ℕ → Bool)
  flushMask : Option (ℕ → Bool)
  knownSymbolics : Option (ℕ → Option Expr)
  root : Option KArray
  nodes : List (Expr × Expr)
  constArray : ℕ
  /-- `size` is an `unsigned`. -/
  size_lt : size < 2 ^ 32

namespace ObjectState

/-! ## Masks and the cache -/

def isByteConcrete (s : ObjectState) (offset : ℕ) : Bool :=
  match s.concreteMask with
  | none => true
  | some mask => mask offset

def isByteFlushed (s : ObjectState) (offset : ℕ) : Bool :=
  match s.flushMask with
  | none => false
  | some mask => !mask offset

/-- `knownSymbolics[offset]`, null without a cache. -/
def knownSymbolic (s : ObjectState) (offset : ℕ) : Option Expr :=
  match s.knownSymbolics with
  | none => none
  | some known => known offset

def isByteKnownSymbolic (s : ObjectState) (offset : ℕ) : Bool := (s.knownSymbolic offset).isSome

def markByteConcrete (s : ObjectState) (offset : ℕ) : ObjectState :=
  { s with concreteMask := s.concreteMask.map (Function.update · offset true) }

def markByteSymbolic (s : ObjectState) (offset : ℕ) : ObjectState :=
  { s with concreteMask := some (Function.update (s.concreteMask.getD fun _ => true) offset false) }

def markByteUnflushed (s : ObjectState) (offset : ℕ) : ObjectState :=
  { s with flushMask := s.flushMask.map (Function.update · offset true) }

/-- A new mask has all bytes flushed. -/
def markByteFlushed (s : ObjectState) (offset : ℕ) : ObjectState :=
  match s.flushMask with
  | none => { s with flushMask := some fun _ => false }
  | some mask => { s with flushMask := some (Function.update mask offset false) }

def setKnownSymbolic (s : ObjectState) (offset : ℕ) (value : Option Expr) : ObjectState :=
  match s.knownSymbolics with
  | some known => { s with knownSymbolics := some (Function.update known offset value) }
  | none =>
      if value.isSome then
        { s with knownSymbolics := some (Function.update (fun _ => none) offset value) }
      else s

/-! ## Creation -/

/-- `ObjectState(mo)`: zero bytes. The root is null with `--use-constant-arrays`
and the symbolic array `tmp_arr` otherwise. -/
def ofConcrete (size : ℕ) (h : size < 2 ^ 32) (tmpArr : Option KArray) (constArray : ℕ) :
    ObjectState where
  size := size
  concreteStore := fun _ => 0
  concreteMask := none
  flushMask := none
  knownSymbolics := none
  root := tmpArr
  nodes := []
  constArray := constArray
  size_lt := h

/-- `makeSymbolic`, for a state without updates. -/
def makeSymbolic (s : ObjectState) : ObjectState :=
  (List.range s.size).foldl
    (fun s i => ((s.markByteSymbolic i).setKnownSymbolic i none).markByteFlushed i) s

/-- `ObjectState(mo, array)`. -/
def ofArray (size : ℕ) (h : size < 2 ^ 32) (array : KArray) (constArray : ℕ) : ObjectState :=
  (ofConcrete size h (some array) constArray).makeSymbolic

def makeConcrete (s : ObjectState) : ObjectState :=
  { s with concreteMask := none, flushMask := none, knownSymbolics := none }

def initializeToZero (s : ObjectState) : ObjectState :=
  { s.makeConcrete with concreteStore := fun _ => 0 }

/-- "randomly selected by 256 sided die" -/
def initializeToRandom (s : ObjectState) : ObjectState :=
  { s.makeConcrete with concreteStore := fun _ => 0xAB }

/-! ## Updates -/

/-- `updates.extend`, with the assertion of `UpdateNode`. -/
def extend (s : ObjectState) (index value : Expr) : Option ObjectState :=
  if value.width = KArray.range then some { s with nodes := (index, value) :: s.nodes } else none

/-- The update list over a root. -/
def updateList (root : KArray) : List (Expr × Expr) → UpdateList
  | [] => .root root
  | (index, value) :: nodes => .extend index value (updateList root nodes)

/-- Both sides of the write are constants. -/
def isConcreteWrite (w : Expr × Expr) : Bool := w.1.isConstant && w.2.isConstant

/-- `Contents[Index->getZExtValue()] = Value`. -/
def setContents (contents : List (BitVec 8)) (w : Expr × Expr) : List (BitVec 8) :=
  match w with
  | (.Constant index, .Constant value) => contents.set index.toNat (value.bits.setWidth 8)
  | _ => contents

theorem length_setContents (contents : List (BitVec 8)) (w : Expr × Expr) :
    (setContents contents w).length = contents.length := by
  unfold setContents
  split
  · exact List.length_set
  · rfl

theorem length_foldl_setContents (ws : List (Expr × Expr)) (contents : List (BitVec 8)) :
    (ws.foldl setContents contents).length = contents.length := by
  induction ws generalizing contents with
  | nil => rfl
  | cons w ws ih => rw [List.foldl_cons, ih, length_setContents]

/-- The array that `getUpdates` makes of the oldest writes, as long as they are
concrete. -/
def constantArray (s : ObjectState) : KArray where
  id := s.constArray
  name := "const_arr" ++ toString s.constArray
  size := s.size
  constantValues := (s.nodes.reverse.takeWhile isConcreteWrite).foldl setContents
    (List.replicate s.size 0)
  wf := .inr ((length_foldl_setContents _ _).trans List.length_replicate)

/-- `getUpdates`. Constant arrays are created lazily. -/
def getUpdates (s : ObjectState) : UpdateList × ObjectState :=
  match s.root with
  | some root => (updateList root s.nodes, s)
  | none =>
      let nodes := (s.nodes.reverse.dropWhile isConcreteWrite).reverse
      (updateList s.constantArray nodes, { s with root := some s.constantArray, nodes := nodes })

/-! ## Flushing -/

/-- `flushMask->unset(offset)`. -/
def unsetFlush (s : ObjectState) (offset : ℕ) : ObjectState :=
  { s with flushMask := s.flushMask.map (Function.update · offset false) }

/-- `if (!flushMask) flushMask = new BitArray(size, true)`. -/
def makeFlushMask (s : ObjectState) : ObjectState :=
  { s with flushMask := some (s.flushMask.getD fun _ => true) }

/-- The body of the loop of `flushRangeForRead`. -/
def flushByteForRead (s : ObjectState) (offset : ℕ) : Option ObjectState :=
  if s.isByteFlushed offset then some s
  else if s.isByteConcrete offset then do
    let s ← s.extend (ConstantExpr.alloc offset 32) (.Constant ⟨8, s.concreteStore offset⟩)
    some (s.unsetFlush offset)
  else
    match s.knownSymbolic offset with
    | none => none
    | some value => do
        let s ← s.extend (ConstantExpr.alloc offset 32) value
        some (s.unsetFlush offset)

def flushRangeForRead (s : ObjectState) (rangeBase rangeSize : ℕ) : Option ObjectState :=
  (List.range' rangeBase rangeSize).foldlM flushByteForRead s.makeFlushMask

/-- The body of the loop of `flushRangeForWrite`. -/
def flushByteForWrite (s : ObjectState) (offset : ℕ) : Option ObjectState :=
  if s.isByteFlushed offset then
    -- flushed bytes that are written over still need to be marked out
    if s.isByteConcrete offset then some (s.markByteSymbolic offset)
    else if s.isByteKnownSymbolic offset then some (s.setKnownSymbolic offset none)
    else some s
  else if s.isByteConcrete offset then do
    let s ← s.extend (ConstantExpr.alloc offset 32) (.Constant ⟨8, s.concreteStore offset⟩)
    some ((s.markByteSymbolic offset).unsetFlush offset)
  else
    match s.knownSymbolic offset with
    | none => none
    | some value => do
        let s ← s.extend (ConstantExpr.alloc offset 32) value
        some ((s.setKnownSymbolic offset none).unsetFlush offset)

def flushRangeForWrite (s : ObjectState) (rangeBase rangeSize : ℕ) : Option ObjectState :=
  (List.range' rangeBase rangeSize).foldlM flushByteForWrite s.makeFlushMask

/-- `fastRangeCheckOffset`: the base and the size of the range. -/
def fastRangeCheckOffset (s : ObjectState) : ℕ × ℕ := (0, s.size)

/-! ## Bytes -/

/-- `read8(unsigned)`. -/
def read8 (s : ObjectState) (offset : ℕ) : Option (Expr × ObjectState) :=
  if s.isByteConcrete offset then some (.Constant ⟨8, s.concreteStore offset⟩, s)
  else
    match s.knownSymbolic offset with
    | some value => some (value, s)
    | none =>
        if s.isByteFlushed offset then
          some (ReadExpr.create s.getUpdates.1 (ConstantExpr.alloc offset 32), s.getUpdates.2)
        else none

/-- `read8(ref<Expr>)`. -/
def read8Symbolic (s : ObjectState) (offset : Expr) : Option (Expr × ObjectState) :=
  if offset.isConstant then none
  else do
    let s ← s.flushRangeForRead s.fastRangeCheckOffset.1 s.fastRangeCheckOffset.2
    some (ReadExpr.create s.getUpdates.1 (ZExtExpr.create offset 32), s.getUpdates.2)

/-- `write8(unsigned, uint8_t)`. -/
def write8 (s : ObjectState) (offset : ℕ) (value : BitVec 8) : ObjectState :=
  ((({ s with concreteStore := Function.update s.concreteStore offset value }).setKnownSymbolic
    offset none).markByteConcrete offset).markByteUnflushed offset

/-- `write8(unsigned, ref<Expr>)`. -/
def write8Expr (s : ObjectState) (offset : ℕ) (value : Expr) : ObjectState :=
  match value with
  | .Constant CE => s.write8 offset (CE.bits.setWidth 8)
  | _ => ((s.setKnownSymbolic offset (some value)).markByteSymbolic offset).markByteUnflushed offset

/-- `write8(ref<Expr>, ref<Expr>)`. -/
def write8Symbolic (s : ObjectState) (offset value : Expr) : Option ObjectState :=
  if offset.isConstant then none
  else do
    let s ← s.flushRangeForWrite s.fastRangeCheckOffset.1 s.fastRangeCheckOffset.2
    s.extend (ZExtExpr.create offset 32) value

/-! ## Values -/

section Values

variable (littleEndian : Bool)

/-- The loop of `read`: `Res` after `i` bytes. -/
def readLoop (NumBytes : ℕ) (byte : ObjectState → ℕ → Option (Expr × ObjectState)) :
    ℕ → ObjectState → Option (Option Expr × ObjectState)
  | 0, s => some (none, s)
  | i + 1, s => do
      let (res, s) ← readLoop NumBytes byte i s
      let (byte, s) ← byte s (ByteMemory.byteIndex littleEndian NumBytes i)
      some (some (match res with
        | some res => ConcatExpr.create byte res
        | none => byte), s)

/-- The general case of `read`. -/
def readBytes (byte : ObjectState → ℕ → Option (Expr × ObjectState)) (width : ℕ)
    (s : ObjectState) : Option (Expr × ObjectState) :=
  let NumBytes := width / 8
  if width = NumBytes * 8 then
    match readLoop littleEndian NumBytes byte NumBytes s with
    | some (some res, s) => some (res, s)
    | _ => none
  else none

/-- `offset + idx`, which are `unsigned`. -/
def addOffset (offset idx : ℕ) : ℕ := (offset + idx) % 2 ^ 32

/-- `read(unsigned, Width)`. -/
def readAt (s : ObjectState) (offset width : ℕ) : Option (Expr × ObjectState) :=
  if width = Expr.BoolWidth then do
    let (byte, s) ← s.read8 offset
    some (ExtractExpr.create byte 0 Expr.BoolWidth, s)
  else readBytes littleEndian (fun s idx => s.read8 (addOffset offset idx)) width s

/-- `read(ref<Expr>, Width)`. -/
def read (s : ObjectState) (offset : Expr) (width : ℕ) : Option (Expr × ObjectState) :=
  -- truncate offset to 32-bits
  match ZExtExpr.create offset 32 with
  | .Constant CE => s.readAt littleEndian CE.toNat width
  | offset =>
      if width = Expr.BoolWidth then do
        let (byte, s) ← s.read8Symbolic offset
        some (ExtractExpr.create byte 0 Expr.BoolWidth, s)
      else
        readBytes littleEndian
          (fun s idx => s.read8Symbolic (AddExpr.create offset (ConstantExpr.alloc idx 32))) width s

/-- `write16`, `write32` and `write64`. -/
def writeConst (s : ObjectState) (offset NumBytes : ℕ) (value : APInt) : ObjectState :=
  (List.range NumBytes).foldl
    (fun s i => s.write8 (addOffset offset (ByteMemory.byteIndex littleEndian NumBytes i))
      (value.bits.extractLsb' (8 * i) 8)) s

/-- The general case of `write`. -/
def writeBytes (byte : ObjectState → ℕ → Expr → Option ObjectState) (s : ObjectState)
    (value : Expr) : Option ObjectState :=
  let NumBytes := value.width / 8
  if value.width = NumBytes * 8 then
    (List.range NumBytes).foldlM
      (fun s i => byte s (ByteMemory.byteIndex littleEndian NumBytes i)
        (ExtractExpr.create value (8 * i) 8)) s
  else none

/-- `write(unsigned, ref<Expr>)` for a value that is not a constant of at most 64
bits. -/
def writeExprAt (s : ObjectState) (offset : ℕ) (value : Expr) : Option ObjectState :=
  if value.width = Expr.BoolWidth then some (s.write8Expr offset (ZExtExpr.create value 8))
  else
    writeBytes littleEndian
      (fun s idx byte => some (s.write8Expr (addOffset offset idx) byte)) s value

/-- `write(unsigned, ref<Expr>)`. -/
def writeAt (s : ObjectState) (offset : ℕ) (value : Expr) : Option ObjectState :=
  match value with
  | .Constant CE =>
      if CE.width ≤ 64 then
        if CE.width = 1 ∨ CE.width = 8 then some (s.write8 offset (CE.bits.setWidth 8))
        else if CE.width = 16 then some (s.writeConst littleEndian offset 2 CE)
        else if CE.width = 32 then some (s.writeConst littleEndian offset 4 CE)
        else if CE.width = 64 then some (s.writeConst littleEndian offset 8 CE)
        else none
      else s.writeExprAt littleEndian offset value
  | _ => s.writeExprAt littleEndian offset value

/-- `write(ref<Expr>, ref<Expr>)`. -/
def write (s : ObjectState) (offset value : Expr) : Option ObjectState :=
  -- truncate offset to 32-bits
  match ZExtExpr.create offset 32 with
  | .Constant CE => s.writeAt littleEndian CE.toNat value
  | offset =>
      if value.width = Expr.BoolWidth then s.write8Symbolic offset (ZExtExpr.create value 8)
      else
        writeBytes littleEndian
          (fun s idx byte => s.write8Symbolic (AddExpr.create offset (ConstantExpr.alloc idx 32)) byte)
          s value

end Values

end ObjectState

end Xklee
