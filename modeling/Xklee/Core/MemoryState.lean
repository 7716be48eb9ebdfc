/-
States with their memory: `MemoryObject` and `MemoryManager`, the address space of a state,
and what the executor's memory operations share.

`Core/AddressSpace.lean` has the sharing of object states between address spaces and shows
that no address space sees what another one writes. Here a state therefore owns its objects:
an address space is the list of the objects that it binds, in the order of their addresses.

A memory operation may fork a state several times and end some of the states that come of
it. Its result lists every state with what became of it, and the forks that were made.
-/
import Xklee.Core.ForkOutcome
import Xklee.Core.ObjectStateRun
import Xklee.Data.KeyedList

set_option autoImplicit false

namespace Xklee

/-! ## Memory objects -/

/-- `MemoryObject`. -/
structure MemoryObject where
  id : ℕ
  address : BitVec 64
  size : BitVec 32
  isLocal : Bool
deriving DecidableEq

namespace MemoryObject

theorem size_toNat_lt (mo : MemoryObject) : mo.size.toNat < 2 ^ 32 := mo.size.isLt

variable (pointerWidth : ℕ) (mo : MemoryObject)

/-- `getBaseExpr`. That the address fits a pointer is asserted. -/
def getBaseExpr : Expr := ConstantExpr.alloc mo.address.toNat pointerWidth

/-- `getSizeExpr`. That the size fits a pointer is asserted. -/
def getSizeExpr : Expr := ConstantExpr.alloc mo.size.toNat pointerWidth

/-- `getOffsetExpr`. -/
def getOffsetExpr (pointer : Expr) : Expr := SubExpr.create pointer (mo.getBaseExpr pointerWidth)

/-- `getBoundsCheckOffset(offset)`. -/
def getBoundsCheckOffset (offset : Expr) : Expr :=
  if mo.size = 0 then EqExpr.create offset (ConstantExpr.alloc 0 pointerWidth)
  else UltExpr.create offset (mo.getSizeExpr pointerWidth)

/-- `getBoundsCheckOffset(offset, bytes)`. The bound is computed in 32 bits. -/
def getBoundsCheckOffsetBytes (offset : Expr) (bytes : ℕ) : Expr :=
  if bytes ≤ mo.size.toNat then
    UltExpr.create offset
      (ConstantExpr.alloc (mo.size - BitVec.ofNat 32 bytes + 1).toNat pointerWidth)
  else ConstantExpr.alloc 0 Expr.BoolWidth

/-- `getBoundsCheckOffset(offset, bytes)` with an expression for the number of bytes. -/
def getBoundsCheckOffsetExpr (offset bytes : Expr) : Expr :=
  UltExpr.create (AddExpr.create offset bytes) (ConstantExpr.alloc (mo.size + 1).toNat pointerWidth)

/-- `getBoundsCheckPointer(pointer)`. -/
def getBoundsCheckPointer (pointer : Expr) : Expr :=
  mo.getBoundsCheckOffset pointerWidth (mo.getOffsetExpr pointerWidth pointer)

/-- `getBoundsCheckPointer(pointer, bytes)`. -/
def getBoundsCheckPointerBytes (pointer : Expr) (bytes : ℕ) : Expr :=
  mo.getBoundsCheckOffsetBytes pointerWidth (mo.getOffsetExpr pointerWidth pointer) bytes

/-- `getBoundsCheckPointer(pointer, bytes)` with an expression for the number of bytes. -/
def getBoundsCheckPointerExpr (pointer bytes : Expr) : Expr :=
  mo.getBoundsCheckOffsetExpr pointerWidth (mo.getOffsetExpr pointerWidth pointer) bytes

end MemoryObject

/-- `MemoryManager`: the `malloc` of the host, which knows how often it has been called, and
the number the next object gets. -/
structure MemoryManager where
  malloc : ℕ → BitVec 32 → BitVec 64
  calls : ℕ
  counter : ℕ

/-- `MemoryManager::allocate`. The size is 64 bits wide; `malloc` is called with its lower
half, and that is what the object gets for its size. -/
def MemoryManager.allocate (memory : MemoryManager) (size : ℕ) (isLocal : Bool) :
    Option MemoryObject × MemoryManager :=
  let unsigned := BitVec.ofNat 32 size
  let address := memory.malloc memory.calls unsigned
  let memory := { memory with calls := memory.calls + 1 }
  if address = 0 then (none, memory)
  else
    (some ⟨memory.counter, address, unsigned, isLocal⟩, { memory with counter := memory.counter + 1 })

/-! ## States -/

/-- A memory object with its object state, which may be read-only. -/
structure BoundObject where
  mo : MemoryObject
  os : ObjectState
  readOnly : Bool

/-- The key of an object in the address space. -/
def BoundObject.address (o : BoundObject) : ℕ := o.mo.address.toNat

/-- `ExecutionState` with its address space, and the local of the instruction at hand. -/
structure MemoryState extends ExecutionState where
  objects : List BoundObject
  target : Option Expr

namespace MemoryState

def bindObject (state : MemoryState) (o : BoundObject) : MemoryState :=
  { state with
    objects := KeyedList.alter BoundObject.address o.address (fun _ => some o) state.objects }

def unbindObject (state : MemoryState) (o : BoundObject) : MemoryState :=
  { state with
    objects := KeyedList.alter BoundObject.address o.address (fun _ => none) state.objects }

/-- `bindLocal(target, state, value)`. -/
def bindLocal (state : MemoryState) (value : Expr) : MemoryState := { state with target := some value }

end MemoryState

/-- What becomes of a state: it goes on, perhaps with a note; `terminateStateOnError` with a
message and the suffix of its file; or `terminateStateEarly`. -/
inductive Ending where
  | continues
  | noted (message : String)
  | error (message suffix : String)
  | early (message : String)
deriving DecidableEq

/-- The executor with its memory manager, and the options that its memory operations look
at. `arrays` numbers the arrays it makes. -/
structure MemoryExecutor extends Executor where
  pointerWidth : ℕ
  isLittleEndian : Bool
  memory : MemoryManager
  arrays : ℕ
  UseConstantArrays : Bool
  SimplifySymIndices : Bool
  MaxSymArraySize : BitVec 32
  MakeConcreteSymbolic : BitVec 32

/-- A call of `fork`, with `isInternal` set. -/
structure ForkCall where
  executor : Executor
  state : ExecutionState
  condition : Expr
  atStaticLimit : Bool

/-- No mode decides the branch. -/
def ForkCall.Undecided (call : ForkCall) : Prop :=
  call.executor.Undecided call.state call.condition true call.atStaticLimit

/-- The states that a memory operation has made, with what became of them, and the calls of
`fork` on the way. -/
structure MemoryResult where
  executor : MemoryExecutor
  states : List (MemoryState × Ending)
  forks : List ForkCall

/-- What `fork` returns. -/
structure StatePair where
  executor : MemoryExecutor
  first : Option MemoryState
  second : Option MemoryState
  call : ForkCall

/-- Whether one of the `--max-static` percentages is exceeded, and what `theRNG.getBool()`
gives. -/
structure ForkChance where
  atStaticLimit : Bool
  getBool : Bool

namespace MemoryExecutor

/-- `fork(state, condition, true)`. Both states have the objects of the parent. -/
def forkState (ex : MemoryExecutor) (state : MemoryState) (condition : Expr) (chance : ForkChance) :
    Option StatePair :=
  (ex.fork state.toExecutionState condition true chance.atStaticLimit chance.getBool).map fun r =>
    ⟨{ ex with toExecutor := r.executor },
      r.trueState.map fun s => { state with toExecutionState := s },
      r.falseState.map fun s => { state with toExecutionState := s },
      ⟨ex.toExecutor, state.toExecutionState, condition, chance.atStaticLimit⟩⟩

/-- `terminateStateOnError(state, message, suffix)`. -/
def terminateStateOnError (ex : MemoryExecutor) (state : MemoryState) (message suffix : String) :
    MemoryExecutor × MemoryState × Ending :=
  ({ ex with toExecutor := ex.terminateState state.toExecutionState }, state, .error message suffix)

/-- `new ObjectState(mo)`. -/
def newObjectState (ex : MemoryExecutor) (mo : MemoryObject) : ObjectState × MemoryExecutor :=
  let tmpArr : KArray :=
    ⟨ex.arrays, "tmp_arr" ++ toString ex.arrays, mo.size.toNat, [], .inl rfl⟩
  (ObjectState.ofConcrete mo.size.toNat mo.size.isLt (if ex.UseConstantArrays then none else some tmpArr)
    (ex.arrays + 1), { ex with arrays := ex.arrays + 2 })

/-- `Executor::toUnique`: the value of an expression that has one. -/
def toUnique (ex : Executor) (constraints : List Expr) (e : Expr) : Expr :=
  if e.isConstant then e
  else
    match ex.solver.getValue constraints e with
    | none => e
    | some value =>
        match ex.solver.mustBeTrue constraints (EqExpr.create e (.Constant value)) with
        | some true => .Constant value
        | _ => e

theorem toUnique_cases (ex : Executor) (constraints : List Expr) (e : Expr) :
    toUnique ex constraints e = e ∨ ∃ value, toUnique ex constraints e = .Constant value := by
  unfold toUnique
  split
  next => exact .inl rfl
  next =>
    split
    next => exact .inl rfl
    next value _ =>
      split
      next => exact .inr ⟨value, rfl⟩
      next => exact .inl rfl

/-- `TimingSolver::ZESTEvaluate`. More than one seed fails an assertion. -/
def ZESTEvaluate (ex : Executor) (id : ℕ) (expr : Expr) : Option Expr :=
  match ex.seedMap id with
  | none => some expr
  | some [] => some expr
  | some [siit] => some (siit.evaluate expr)
  | some _ => none

/-- `TimingSolver::getValue` with `useSeeds`. -/
def getValueOfSeed (ex : Executor) (state : ExecutionState) (expr : Expr) : Option APInt := do
  let expr ← ZESTEvaluate ex state.id expr
  ex.solver.getValue state.constraints expr

end MemoryExecutor

/-! ## Forking -/

namespace Executor

variable {ex : Executor} {state : ExecutionState} {condition : Expr}
  {isInternal atStaticLimit getBool : Bool} {r : ForkResult}

/-- The constraints of a returned state are Bool, and the solver stays. -/
structure KeepsRunning (ex : Executor) (r : ForkResult) : Prop where
  solver : r.executor.solver = ex.solver
  trueState : ∀ s, r.trueState = some s → ∀ c ∈ s.constraints, c.IsBool
  falseState : ∀ s, r.falseState = some s → ∀ c ∈ s.constraints, c.IsBool

theorem forkResult_keepsRunning (hcs : ∀ c ∈ state.constraints, c.IsBool) (he : condition.IsBool)
    {res : Validity} (h : ex.forkResult state condition getBool res = some r) :
    ex.KeepsRunning r := by
  cases res with
  | True =>
    obtain rfl := Option.some.inj h
    exact ⟨rfl, fun s hs => Option.some.inj hs ▸ hcs, fun s hs => absurd hs (by simp)⟩
  | False =>
    obtain rfl := Option.some.inj h
    exact ⟨rfl, fun s hs => absurd hs (by simp), fun s hs => Option.some.inj hs ▸ hcs⟩
  | Unknown =>
    obtain ⟨-, hsolver, ⟨htrue, hfalse⟩ | ⟨t, f, htrue, hfalse, -, -, ht, hf, -⟩⟩ :=
      splitState_cases hcs he h
    · refine ⟨hsolver, fun s hs => ?_, fun s hs => ?_⟩
      · rw [htrue] at hs
        exact absurd hs (by simp)
      · rw [hfalse] at hs
        exact absurd hs (by simp)
    · refine ⟨hsolver, fun s hs => ?_, fun s hs => ?_⟩
      · rw [htrue] at hs
        exact Option.some.inj hs ▸ ht
      · rw [hfalse] at hs
        exact Option.some.inj hs ▸ hf

/-- What `fork` returns can be run on. -/
theorem fork_keepsRunning (hwidths : ValueWidths ex.solver.solver)
    (hcs : ∀ c ∈ state.constraints, c.IsBool) (he : condition.IsBool)
    (h : ex.fork state condition isInternal atStaticLimit getBool = some r) :
    ex.KeepsRunning r := by
  rw [fork_eq, Option.bind_eq_some_iff] at h
  obtain ⟨outcome, houtcome, hresult⟩ := h
  have hkeeps := forkOutcome_keeps hwidths hcs he houtcome
  cases outcome with
  | singlePath ex' state' res =>
    obtain ⟨hsame, hreaches, hres, -⟩ := hkeeps
    have hr := forkResult_keepsRunning hreaches.isBool isBool_false
      ((forkResult_decided hres _ _).symm.trans hresult)
    exact ⟨hr.solver.trans hsame.solver, hr.trueState, hr.falseState⟩
  | timedOut ex' state' =>
    obtain rfl := Option.some.inj hresult
    obtain ⟨hsame, -⟩ := hkeeps
    exact ⟨(terminateState_same ex' state').solver.trans hsame.solver,
      fun s hs => absurd hs (by simp), fun s hs => absurd hs (by simp)⟩
  | evaluated ex' state' condition' res =>
    obtain ⟨hsame, hreaches, hunknown⟩ := hkeeps
    by_cases hres : res = .Unknown
    · -- the condition that is split is the one that was asked about
      obtain ⟨rfl, rfl, -⟩ := hunknown hres
      have hr := forkResult_keepsRunning hcs he hresult
      exact ⟨hr.solver.trans hsame.solver, hr.trueState, hr.falseState⟩
    · have hr := forkResult_keepsRunning hreaches.isBool isBool_false
        ((forkResult_decided hres _ _).symm.trans hresult)
      exact ⟨hr.solver.trans hsame.solver, hr.trueState, hr.falseState⟩

end Executor

namespace MemoryExecutor

/-- What the executor relies on while it runs a state. -/
structure Ready (ex : MemoryExecutor) (state : MemoryState) : Prop where
  solver : ex.solver.solver.Correct
  widths : Executor.ValueWidths ex.solver.solver
  isBool : ∀ c ∈ state.constraints, c.IsBool

variable {ex : MemoryExecutor} {state : MemoryState} {condition : Expr} {chance : ForkChance}
  {p : StatePair}

/-- The executor is as before, but for what forking and terminating change. -/
structure SameMemory (ex ex' : MemoryExecutor) : Prop where
  rest : ex' = { ex with toExecutor := ex'.toExecutor }
  solver : ex'.solver = ex.solver

theorem SameMemory.refl (ex : MemoryExecutor) : ex.SameMemory ex := ⟨rfl, rfl⟩

theorem SameMemory.trans {ex ex' ex'' : MemoryExecutor} (h : ex.SameMemory ex')
    (h' : ex'.SameMemory ex'') : ex.SameMemory ex'' := by
  refine ⟨?_, h'.solver.trans h.solver⟩
  rw [h'.rest, h.rest]

theorem terminateStateOnError_same (ex : MemoryExecutor) (state : MemoryState)
    (message suffix : String) :
    ex.SameMemory (ex.terminateStateOnError state message suffix).1 :=
  ⟨rfl, (Executor.terminateState_same ex.toExecutor state.toExecutionState).solver⟩

/-- Another executor with the same solver is ready, too. -/
theorem Ready.of_same {ex' : MemoryExecutor} (h : ex.Ready state) (hsame : ex.SameMemory ex') :
    ex'.Ready state :=
  ⟨hsame.solver ▸ h.solver, hsame.solver ▸ h.widths, h.isBool⟩

/-- A state that `fork` returns: the executor can run it, its objects are those of the
parent, and its assignments are those of the parent on one side of the condition. -/
structure IsSide (ex : MemoryExecutor) (parent : MemoryState) (P : Env → Prop)
    (state : MemoryState) : Prop where
  ready : ex.Ready state
  objects : state.objects = parent.objects
  target : state.target = parent.target
  sound : ∀ σ, Satisfies σ state.constraints → Satisfies σ parent.constraints ∧ P σ

/-- `forkState` in terms of its two sides. -/
structure Splits (ex : MemoryExecutor) (state : MemoryState) (condition : Expr) (p : StatePair) :
    Prop where
  executor : ex.SameMemory p.executor
  first : ∀ s, p.first = some s → p.executor.IsSide state (fun σ => condition.Holds σ) s
  second : ∀ s, p.second = some s → p.executor.IsSide state (fun σ => ¬condition.Holds σ) s
  covers : p.call.Undecided → ∀ σ, Satisfies σ state.constraints →
    ∃ s, (p.first = some s ∨ p.second = some s) ∧ Satisfies σ s.constraints

theorem forkState_splits (hready : ex.Ready state) (he : condition.IsBool)
    (h : ex.forkState state condition chance = some p) : ex.Splits state condition p := by
  obtain ⟨r, hr, rfl⟩ := Option.map_eq_some_iff.mp h
  have hkeeps := Executor.fork_keepsRunning hready.widths hready.isBool he hr
  have hsound := Executor.fork_sound hready.solver hready.widths hready.isBool he hr
  have hsolver : r.executor.solver.solver.Correct := hkeeps.solver ▸ hready.solver
  have hwidths : Executor.ValueWidths r.executor.solver.solver := hkeeps.solver ▸ hready.widths
  refine ⟨⟨rfl, hkeeps.solver⟩, fun s hs => ?_, fun s hs => ?_, fun hund σ hσ => ?_⟩
  · obtain ⟨t, ht, rfl⟩ := Option.map_eq_some_iff.mp hs
    exact ⟨⟨hsolver, hwidths, hkeeps.trueState t ht⟩, rfl, rfl, hsound.trueState t ht⟩
  · obtain ⟨t, ht, rfl⟩ := Option.map_eq_some_iff.mp hs
    exact ⟨⟨hsolver, hwidths, hkeeps.falseState t ht⟩, rfl, rfl, hsound.falseState t ht⟩
  · obtain ⟨t, ht, hσt⟩ := Executor.fork_covers hready.isBool he hund hr σ hσ
    refine ⟨{ state with toExecutionState := t }, ?_, hσt⟩
    rcases ht with ht | ht
    · exact .inl (Option.map_eq_some_iff.mpr ⟨t, ht, rfl⟩)
    · exact .inr (Option.map_eq_some_iff.mpr ⟨t, ht, rfl⟩)

/-- A value that `toUnique` finds is the only one. -/
theorem eval_of_toUnique (hready : ex.Ready state) (hsat : ∃ σ, Satisfies σ state.constraints)
    {e : Expr} (he : e.WellTyped) {c : APInt}
    (h : toUnique ex.toExecutor state.constraints e = .Constant c) :
    ∀ σ, Satisfies σ state.constraints → e.eval σ = c := by
  intro σ hσ
  rw [toUnique] at h
  by_cases hconst : e.isConstant = true
  · rw [if_pos hconst] at h
    rw [h]
    rfl
  · rw [if_neg hconst] at h
    have hself : e ≠ .Constant c := fun heq => hconst (heq ▸ rfl)
    split at h
    next => exact absurd h hself
    next value hvalue =>
      split at h
      next hmust =>
        obtain rfl := Expr.Constant.inj h
        have hw := Executor.getValue_width hready.widths hready.isBool he hvalue
        obtain ⟨x, rfl⟩ := APInt.eq_mk_of_width hw
        have heq : ∀ σ, ∃ y : BitVec e.width, Denotes σ e y
            ∧ Denotes σ (EqExpr.create e (.Constant ⟨e.width, x⟩)) (BitVec.ofBool (y == x)) := by
          intro σ
          obtain ⟨y, hy⟩ := he.denotes (σ := σ) rfl
          exact ⟨y, hy, EqExpr.create_denotes hy (denotes_const he.width_pos x)⟩
        have hbool : (EqExpr.create e (.Constant ⟨e.width, x⟩)).IsBool := by
          obtain ⟨y, -, hy⟩ := heq fun _ _ => 0
          exact ⟨hy.1, hy.width_eq⟩
        have hvalid := (TimingSolver.mustBeTrue_sound hready.solver hsat hready.isBool hbool hmust).mp
          rfl
        obtain ⟨y, hy, hyx⟩ := heq σ
        have hholds := hvalid σ hσ
        rw [hyx.holds_iff, beq_iff_eq] at hholds
        rw [hy.2, hholds]
      next => exact absurd h hself

/-! ## An executor -/

/-- An executor without limits or seeds, on a host that has memory. -/
def plainMemoryExecutor (solver : SolverImpl) : MemoryExecutor where
  toExecutor := Executor.plainExecutor solver
  pointerWidth := 64
  isLittleEndian := true
  memory := ⟨fun n _ => BitVec.ofNat 64 (4096 * (n + 1)), 0, 1⟩
  arrays := 1
  UseConstantArrays := true
  SimplifySymIndices := false
  MaxSymArraySize := 0
  MakeConcreteSymbolic := 0

/-- A state without objects. -/
def emptyState (constraints : List Expr) : MemoryState where
  id := 0
  constraints := constraints
  depth := 0
  forkDisabled := false
  objects := []
  target := none

end MemoryExecutor

end Xklee
