/-
Loads and stores: `Executor::executeMemoryOperation` of `lib/Core/Executor.cpp`, with
`resolveOne` and `resolve` of `lib/Core/AddressSpace.cpp`.

The fast path guesses one object and asks whether the whole access must be within it. The
slow path takes every object in which the address may be, forks the state at each of them in
turn, and ends what is left over.

`resolve` gives up when it has taken too long or a query fails; `executeMemoryOperation` is
modelled without its time limit. Printing is left out.
-/
import Xklee.Core.MemoryState

set_option autoImplicit false

namespace Xklee

/-- A load of a type of some width, or a store of a value. -/
inductive MemoryOperation where
  | read (type : ℕ)
  | write (value : Expr)

/-- `type` in `executeMemoryOperation`. -/
def MemoryOperation.type : MemoryOperation → ℕ
  | .read type => type
  | .write value => value.width

/-- A value that is stored is simplified. -/
def MemoryOperation.simplify (constraints : List Expr) : MemoryOperation → MemoryOperation
  | .read type => .read type
  | .write value => .write (ConstraintManager.simplifyExpr constraints value)

/-! ## Resolving an address -/

namespace MemoryState

/-- `AddressSpace::resolveOne` of a constant. -/
def resolveOneConstant (state : MemoryState) (address : BitVec 64) : Option BoundObject :=
  match KeyedList.previous BoundObject.address address.toNat state.objects with
  | none => none
  | some o =>
      if o.mo.size = 0 ∧ address = o.mo.address ∨ (address - o.mo.address).toNat < o.mo.size.toNat
      then some o
      else none

/-- The objects from `upper_bound(&hack)` backwards. -/
def below (state : MemoryState) (example' : BitVec 64) : List BoundObject :=
  (state.objects.filter fun o => o.address ≤ example'.toNat).reverse

/-- The objects from `upper_bound(&hack)` on. -/
def above (state : MemoryState) (example' : BitVec 64) : List BoundObject :=
  state.objects.filter fun o => example'.toNat < o.address

end MemoryState

namespace MemoryExecutor

variable (ex : MemoryExecutor)

section Resolve

variable (constraints : List Expr) (address : Expr)

/-- The address is at or behind the start of the object. -/
def mustBeBehind (o : BoundObject) : Option Bool :=
  ex.solver.mustBeTrue constraints
    (UgeExpr.create address (o.mo.getBaseExpr ex.pointerWidth))

/-- The address is before the object. -/
def mustBeBefore (o : BoundObject) : Option Bool :=
  ex.solver.mustBeTrue constraints
    (UltExpr.create address (o.mo.getBaseExpr ex.pointerWidth))

/-- The first loop of `resolveOne`. It gives `none` when a query fails. -/
def resolveOneBelow : List BoundObject → Option (Option BoundObject)
  | [] => some none
  | o :: objects => do
      let inBounds := o.mo.getBoundsCheckPointer ex.pointerWidth address
      let mayBeTrue ← ex.solver.mayBeTrue constraints inBounds
      if mayBeTrue then some (some o)
      else
        let mustBeTrue ← ex.mustBeBehind constraints address o
        if mustBeTrue then some none else resolveOneBelow objects

/-- The second loop of `resolveOne`. -/
def resolveOneAbove : List BoundObject → Option (Option BoundObject)
  | [] => some none
  | o :: objects => do
      let mustBeTrue ← ex.mustBeBefore constraints address o
      if mustBeTrue then some none
      else
        let inBounds := o.mo.getBoundsCheckPointer ex.pointerWidth address
        let mayBeTrue ← ex.solver.mayBeTrue constraints inBounds
        if mayBeTrue then some (some o) else resolveOneAbove objects

/-- The part of `resolve` that is the same in both of its loops: keep the object when the
address may be in it. The first component is what `resolve` returns, if it does. -/
def keepResolution (maxResolutions : ℕ) (o : BoundObject) (rl : List BoundObject) :
    Option Bool × List BoundObject :=
  let inBounds := o.mo.getBoundsCheckPointer ex.pointerWidth address
  match ex.solver.mayBeTrue constraints inBounds with
  | none => (some true, rl)
  | some false => (none, rl)
  | some true =>
      let rl := rl ++ [o]
      -- fast path check
      if rl.length = 1 then
        match ex.solver.mustBeTrue constraints inBounds with
        | none => (some true, rl)
        | some true => (some false, rl)
        | some false => (none, rl)
      else if rl.length = maxResolutions then (some true, rl)
      else (none, rl)

/-- The first loop of `resolve`. `late` says at which objects the time is up. -/
def resolveBelow (maxResolutions : ℕ) (late : BoundObject → Bool) :
    List BoundObject → List BoundObject → Option Bool × List BoundObject
  | [], rl => (none, rl)
  | o :: objects, rl =>
      if late o then (some true, rl)
      else
        match ex.keepResolution constraints address maxResolutions o rl with
        | (some incomplete, rl) => (some incomplete, rl)
        | (none, rl) =>
            match ex.mustBeBehind constraints address o with
            | none => (some true, rl)
            | some true => (none, rl)
            | some false => resolveBelow maxResolutions late objects rl

/-- The second loop of `resolve`. -/
def resolveAbove (maxResolutions : ℕ) (late : BoundObject → Bool) :
    List BoundObject → List BoundObject → Option Bool × List BoundObject
  | [], rl => (none, rl)
  | o :: objects, rl =>
      if late o then (some true, rl)
      else
        match ex.mustBeBefore constraints address o with
        | none => (some true, rl)
        | some true => (none, rl)
        | some false =>
            match ex.keepResolution constraints address maxResolutions o rl with
            | (some incomplete, rl) => (some incomplete, rl)
            | (none, rl) => resolveAbove maxResolutions late objects rl

end Resolve

/-- `AddressSpace::resolveOne`, `none` when it fails. -/
def resolveOne (state : MemoryState) (address : Expr) : Option (Option BoundObject) :=
  match address with
  | .Constant CE => some (state.resolveOneConstant (BitVec.ofNat 64 CE.toNat))
  | _ => do
      let cex ← ex.solver.getValue state.constraints address
      let example' := BitVec.ofNat 64 cex.toNat
      -- try cheap search, will succeed for any inbounds pointer
      match (KeyedList.previous BoundObject.address example'.toNat state.objects).filter fun o =>
          (example' - o.mo.address).toNat < o.mo.size.toNat with
      | some o => some (some o)
      | none =>
          let found ← ex.resolveOneBelow state.constraints address (state.below example')
          match found with
          | some o => some (some o)
          | none => ex.resolveOneAbove state.constraints address (state.above example')

/-- `AddressSpace::resolve`: whether it is incomplete, and the list. -/
def resolve (state : MemoryState) (p : Expr) (maxResolutions : ℕ) (late : BoundObject → Bool) :
    Bool × List BoundObject :=
  match p with
  | .Constant CE => (false, (state.resolveOneConstant (BitVec.ofNat 64 CE.toNat)).toList)
  | _ =>
      match ex.solver.getValue state.constraints p with
      | none => (true, [])
      | some cex =>
          let example' := BitVec.ofNat 64 cex.toNat
          match ex.resolveBelow state.constraints p maxResolutions late (state.below example') [] with
          | (some incomplete, rl) => (incomplete, rl)
          | (none, rl) =>
              match ex.resolveAbove state.constraints p maxResolutions late (state.above example') rl with
              | (some incomplete, rl) => (incomplete, rl)
              | (none, rl) => (false, rl)

/-! ## Concretising -/

/-- `Executor::toConstant`. -/
def toConstant (state : MemoryState) (e : Expr) : Option (MemoryExecutor × MemoryState × APInt) :=
  match ConstraintManager.simplifyExpr state.constraints e with
  | .Constant CE => some (ex, state, CE)
  | e => do
      let value ← ex.solver.getValue state.constraints e
      let (executor, s) ← ex.addConstraint state.toExecutionState (EqExpr.create e (.Constant value))
      some ({ ex with toExecutor := executor }, { state with toExecutionState := s }, value)

/-- `Expr::createTempRead`. -/
def createTempRead (array : KArray) (w : ℕ) : Option Expr :=
  let byte := fun i => ReadExpr.create (.root array) (ConstantExpr.alloc i 32)
  if w = Expr.BoolWidth then some (ZExtExpr.create (byte 0) Expr.BoolWidth)
  else if w = 8 ∨ w = 16 ∨ w = 32 ∨ w = 64 then
    some ((List.range' 1 (w / 8 - 1)).foldl (fun e i => ConcatExpr.create (byte i) e) (byte 0))
  else none

/-- `Executor::replaceReadWithSymbolic`; `random` is what `random()` gives. -/
def replaceReadWithSymbolic (state : MemoryState) (e : Expr) (random : ℕ) :
    Option (MemoryExecutor × MemoryState × Expr) :=
  let n := ex.MakeConcreteSymbolic.toNat
  if n = 0 ∨ ex.replayOut ∨ ex.replayPath.isSome then some (ex, state, e)
  else if !e.isConstant then some (ex, state, e)
  else if n ≠ 1 ∧ random % n ≠ 0 then some (ex, state, e)
  else do
    let array : KArray :=
      ⟨ex.arrays, "rrws_arr" ++ toString ex.arrays, (e.width + 7) / 8, [], .inl rfl⟩
    let res ← createTempRead array e.width
    let constraints ← ConstraintManager.addConstraint state.constraints
      (.NotOptimized (EqExpr.create e res))
    some ({ ex with arrays := ex.arrays + 1 },
      { state with toExecutionState := { state.toExecutionState with constraints := constraints } },
      res)

/-! ## The operation -/

/-- `terminateStateEarly(state, message)`. -/
def terminateStateEarly (state : MemoryState) (message : String) :
    MemoryExecutor × MemoryState × Ending :=
  ({ ex with toExecutor := ex.terminateState state.toExecutionState }, state, .early message)

/-- What is done in a state in which the access is within the object. A load may be replaced
before it is bound. Both leave an object state behind, since a load may flush one. -/
def access (state : MemoryState) (o : BoundObject) (offset : Expr) (op : MemoryOperation)
    (replace : MemoryState → Expr → Option (MemoryExecutor × MemoryState × Expr)) :
    Option (MemoryExecutor × MemoryState × Ending) :=
  match op with
  | .write value =>
      if o.readOnly then
        some (ex.terminateStateOnError state "memory error: object read only" "readonly.err")
      else do
        let os ← o.os.write ex.isLittleEndian offset value
        some (ex, state.bindObject { o with os := os }, .continues)
  | .read type => do
      let (result, os) ← o.os.read ex.isLittleEndian offset type
      let (ex, state, result) ← replace (state.bindObject { o with os := os }) result
      some (ex, state.bindLocal result, .continues)

section Operation

variable (address : Expr) (bytes : ℕ) (op : MemoryOperation) (chances : ℕ → ForkChance)

/-- "bound can be 0 on failure or overlapped" -/
def accessBound (o : BoundObject) :
    Option MemoryState → Option (MemoryExecutor × List (MemoryState × Ending))
  | none => some (ex, [])
  | some bound =>
      (ex.access bound o (o.mo.getOffsetExpr ex.pointerWidth address) op
        fun state result => some (ex, state, result)).map fun x => (x.1, [x.2])

/-- The loop over the resolutions, and what is done with the state that is left over. The
number counts the forks. -/
def accessEach (incomplete : Bool) :
    ℕ → MemoryExecutor → MemoryState → List BoundObject → Option MemoryResult
  | _, ex, unbound, [] =>
      let (ex, x) :=
        if incomplete then ex.terminateStateEarly unbound "Query timed out (resolve)."
        else ex.terminateStateOnError unbound "memory error: out of bound pointer" "ptr.err"
      some ⟨ex, [x], []⟩
  | n, ex, unbound, o :: rl => do
      let inBounds := o.mo.getBoundsCheckPointerBytes ex.pointerWidth address bytes
      let branches ← ex.forkState unbound inBounds (chances n)
      let (ex, states) ← branches.executor.accessBound address op o branches.first
      match branches.second with
      | none => some ⟨ex, states, [branches.call]⟩
      | some unbound =>
          (accessEach incomplete (n + 1) ex unbound rl).map fun r =>
            ⟨r.executor, states ++ r.states, branches.call :: r.forks⟩

/-- "we are on an error path (no resolution, multiple resolution, one resolution with out of
bounds)" -/
def accessResolved (state : MemoryState) : Option MemoryResult :=
  let (incomplete, rl) := ex.resolve state address 0 fun _ => false
  accessEach address bytes op chances incomplete 0 ex state rl

/-- What is done with the object that `resolveOne` has found. -/
def accessFound (state : MemoryState) (o : BoundObject) (random : ℕ) : Option MemoryResult :=
  let offset := o.mo.getOffsetExpr ex.pointerWidth address
  match ex.solver.mustBeTrue state.constraints
      (o.mo.getBoundsCheckOffsetBytes ex.pointerWidth offset bytes) with
  | none =>
      let (ex, x) := ex.terminateStateEarly state "Query timed out (bounds check)."
      some ⟨ex, [x], []⟩
  | some true =>
      (ex.access state o offset op fun state result =>
        ex.replaceReadWithSymbolic state result random).map fun x => ⟨x.1, [x.2], []⟩
  | some false => ex.accessResolved address bytes op chances state

/-- The result of `resolveOne`, or of its other version on a constant when it fails. -/
def resolveFirst (state : MemoryState) :
    Option (MemoryExecutor × MemoryState × Expr × Option BoundObject) :=
  match ex.resolveOne state address with
  | some found => some (ex, state, address, found)
  | none => do
      let (ex, state, value) ← ex.toConstant state address
      some (ex, state, .Constant value, state.resolveOneConstant (BitVec.ofNat 64 value.toNat))

/-- "max-sym-array-size": the address of a large object is made a constant. -/
def limitAddress (state : MemoryState) (o : BoundObject) :
    Option (MemoryExecutor × MemoryState × Expr) :=
  if ex.MaxSymArraySize ≠ 0 ∧ ex.MaxSymArraySize ≤ o.mo.size then do
    let (ex, state, value) ← ex.toConstant state address
    some (ex, state, .Constant value)
  else some (ex, state, address)

/-- `executeMemoryOperation` after its arguments have been simplified. -/
def accessAddress (state : MemoryState) (random : ℕ) : Option MemoryResult := do
  let (ex, state, address, found) ← ex.resolveFirst address state
  match found with
  | none => ex.accessResolved address bytes op chances state
  | some o =>
      let (ex, state, address) ← ex.limitAddress address state o
      ex.accessFound address bytes op chances state o random

/-- `Executor::executeMemoryOperation`. -/
def executeMemoryOperation (state : MemoryState) (random : ℕ) : Option MemoryResult :=
  let bytes := ObjectState.accessBytes op.type
  if ex.SimplifySymIndices then
    ex.accessAddress (ConstraintManager.simplifyExpr state.constraints address) bytes
      (op.simplify state.constraints) chances state random
  else ex.accessAddress address bytes op chances state random

end Operation

end MemoryExecutor

end Xklee
