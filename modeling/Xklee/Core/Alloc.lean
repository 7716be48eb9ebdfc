/-
Allocation: `Executor::executeAlloc` and `Executor::doSizeControlledMalloc` of
`lib/Core/Executor.cpp`, as they are compiled with `XQX_CMA_CHECK`.

A size that the constraints leave open is settled by four forks: no bytes at all, more than
`0xffffffff`, more than `1 << 15`, and in what is left one value that the solver gives and
that is halved as long as it stays possible. The first two sides and the other values are
reported as errors, a huge size makes the result a null pointer, and an object is bound for
the one value that is left.

Printing and the list of a frame's `alloca`s are left out.
-/
import Xklee.Core.MemoryState

set_option autoImplicit false

namespace Xklee

/-- The instruction that allocates: an `alloca`, on which `CallSite` fails an assertion; a
call of something that `getTargetFunction` cannot tell; or a call of a function. -/
inductive AllocSite where
  | alloca
  | unknownFunction
  | function

/-- The arguments of `executeAlloc` besides the state and the size. -/
structure AllocArgs where
  isLocal : Bool
  site : AllocSite
  zeroMemory : Bool
  reallocFrom : Option BoundObject

namespace MemoryExecutor

/-! ## A constant size -/

/-- The loop that copies the bytes of `reallocFrom`. -/
def copyBytes (littleEndian : Bool) (count : ℕ) (reallocFrom os : ObjectState) :
    Option ObjectState :=
  ((List.range count).foldlM (fun (s : ObjectState × ObjectState) i => do
    let (value, reallocFrom) ← s.1.read8 i
    let os ← s.2.writeAt littleEndian i value
    some (reallocFrom, os)) (reallocFrom, os)).map Prod.snd

/-- `executeAlloc` for a constant size. `getZExtValue` asserts that it fits 64 bits. -/
def executeAllocConstant (ex : MemoryExecutor) (state : MemoryState) (CE : APInt)
    (args : AllocArgs) : Option MemoryResult :=
  if CE.width ≤ 64 then
    match ex.memory.allocate CE.toNat args.isLocal with
    | (none, memory) =>
        some ⟨{ ex with memory := memory },
          [(state.bindLocal (ConstantExpr.alloc 0 ex.pointerWidth), .continues)], []⟩
    | (some mo, memory) =>
        let (os, ex) := { ex with memory := memory }.newObjectState mo
        let os := if args.zeroMemory then os.initializeToZero else os.initializeToRandom
        let result := fun os : ObjectState =>
          (state.bindObject ⟨mo, os, false⟩).bindLocal (mo.getBaseExpr ex.pointerWidth)
        match args.reallocFrom with
        | none => some ⟨ex, [(result os, .continues)], []⟩
        | some reallocFrom => do
            let count := min reallocFrom.os.size os.size
            let os ← copyBytes ex.isLittleEndian count reallocFrom.os os
            some ⟨ex, [((result os).unbindObject reallocFrom, .continues)], []⟩
  else none

/-! ## A symbolic size -/

/-- "Try and start with a small example": the loop that halves a value above 128 as long as
the half is a size that the constraints allow. The first argument is the width of the value,
after so many halvings it is 0. -/
def halveSize (solver : TimingSolver) (constraints : List Expr) (size : Expr) :
    ℕ → APInt → Option APInt
  | 0, value => some value
  | n + 1, value =>
      if (ConstantExpr.compare .Ugt value (APInt.ofNat value.width 128)).isTrue then do
        let tmp := ConstantExpr.binary .LShr value (APInt.ofNat value.width 1)
        let res ← solver.mayBeTrue constraints (EqExpr.create (.Constant tmp) size)
        if res then halveSize solver constraints size n tmp else some value
      else some value

/-- The constraints of the state object `id` after a call of `fork`, which it had before if
it is in neither of the states. -/
def constraintsOf (p : StatePair) (id : ℕ) (before : List Expr) : List Expr :=
  match (p.first.toList ++ p.second.toList).find? fun s => s.id == id with
  | none => before
  | some s => s.constraints

/-- One state of a pair is reported before the other one goes on. -/
def reportThen (p : StatePair) (reported other : Option MemoryState)
    (report : MemoryExecutor → MemoryState → MemoryExecutor × MemoryState × Ending)
    (rest : MemoryExecutor → MemoryState → Option MemoryResult) : Option MemoryResult :=
  let (ex, states) := match reported with
    | none => (p.executor, [])
    | some s => let (ex, s) := report p.executor s; (ex, [s])
  match other with
  | none => some ⟨ex, states, [p.call]⟩
  | some s => (rest ex s).map fun r => ⟨r.executor, states ++ r.states, p.call :: r.forks⟩

section Stages

variable (size : Expr) (args : AllocArgs) (chances : ℕ → ForkChance)

/-- The part of `doSizeControlledMalloc` on `hugeSize.second`. The loop asks about the state
that `doSizeControlledMalloc` was called with, whose constraints are `original` by now.
`EqExpr::create` asserts that the widths are the same. -/
def allocExample (ex : MemoryExecutor) (state : MemoryState) (original : List Expr) :
    Option MemoryResult := do
  let value ← getValueOfSeed ex.toExecutor state.toExecutionState size
  if value.width = size.width then
    let value ← halveSize ex.solver original size value.width value
    let fixedSize ← ex.forkState state (EqExpr.create (.Constant value) size) (chances 3)
    reportThen fixedSize fixedSize.second fixedSize.first
      (fun ex s => ex.terminateStateOnError s "controlled symbolic size" "cma.err")
      (fun ex s => ex.executeAllocConstant s value args)
  else none

/-- The part on `iofSize.second`. "See if a *really* big value is possible." -/
def allocNotHuge (ex : MemoryExecutor) (state : MemoryState) (id : ℕ) (original : List Expr) :
    Option MemoryResult := do
  let hugeSize ← ex.forkState state
    (UltExpr.create (ConstantExpr.alloc (1 <<< 15) size.width) size) (chances 2)
  reportThen hugeSize hugeSize.first hugeSize.second
    (fun ex s => (ex, s.bindLocal (ConstantExpr.alloc 0 ex.pointerWidth),
      .noted "NOTE: found huge malloc, returning 0"))
    (fun ex s => ex.allocExample size args chances s (constraintsOf hugeSize id original))

/-- The part on `zeroSize.second`. -/
def allocNoOverflow (ex : MemoryExecutor) (state : MemoryState) (id : ℕ) (original : List Expr) :
    Option MemoryResult := do
  let iofSize ← ex.forkState state
    (UltExpr.create (ConstantExpr.alloc 0xffffffff size.width) size) (chances 1)
  reportThen iofSize iofSize.first iofSize.second
    (fun ex s => ex.terminateStateOnError s "integer overflow size" "iof.err")
    (fun ex s => ex.allocNotHuge size args chances s id (constraintsOf iofSize id original))

/-- `doSizeControlledMalloc` past its treatment of seeds. -/
def allocNonzero (ex : MemoryExecutor) (state : MemoryState) : Option MemoryResult := do
  let eqZeroSize := EqExpr.create size (ConstantExpr.alloc 0 size.width)
  let _ ← ex.solver.mayBeTrue state.constraints eqZeroSize
  let zeroSize ← ex.forkState state eqZeroSize (chances 0)
  reportThen zeroSize zeroSize.first zeroSize.second
    (fun ex s => ex.terminateStateOnError s "malloc zero size" "zma.err")
    (fun ex s => ex.allocNoOverflow size args chances s state.id
      (constraintsOf zeroSize state.id state.constraints))

/-- `Executor::doSizeControlledMalloc`. When it does not know the function it returns false,
and `executeAlloc` does nothing more either. -/
def doSizeControlledMalloc (ex : MemoryExecutor) (state : MemoryState) : Option MemoryResult :=
  match args.site with
  | .alloca => none
  | .unknownFunction => some ⟨ex, [(state, .continues)], []⟩
  | .function =>
      match ex.enableFork, ex.seedMap state.id with
      | false, some (_ :: _) => do
          -- the size of the seed is not added to the constraints
          let res ← getValueOfSeed ex.toExecutor state.toExecutionState size
          ex.executeAllocConstant state res args
      | _, _ => ex.allocNonzero size args chances state

/-- `Executor::executeAlloc`. The chances are those of the calls of `fork`, in order. -/
def executeAlloc (ex : MemoryExecutor) (state : MemoryState) : Option MemoryResult :=
  match toUnique ex.toExecutor state.constraints size with
  | .Constant CE => ex.executeAllocConstant state CE args
  | size => ex.doSizeControlledMalloc size args chances state

end Stages

end MemoryExecutor

/-! ## What becomes of the sizes -/

/-- A result for a state: the assignments of each state in it are assignments of that state,
of which `Q` holds; and where no mode decides a branch, none is lost. -/
structure MemoryResult.Meets (r : MemoryResult) (state : MemoryState)
    (Q : Env → MemoryState × Ending → Prop) : Prop where
  sound : ∀ x ∈ r.states, ∀ σ, Satisfies σ x.1.constraints → Satisfies σ state.constraints ∧ Q σ x
  covers : (∀ call ∈ r.forks, call.Undecided) → ∀ σ, Satisfies σ state.constraints →
    ∃ x ∈ r.states, Satisfies σ x.1.constraints

theorem MemoryResult.Meets.mono {r : MemoryResult} {state : MemoryState}
    {Q Q' : Env → MemoryState × Ending → Prop} (h : r.Meets state Q)
    (himp : ∀ σ x, Satisfies σ state.constraints → Q σ x → Q' σ x) : r.Meets state Q' where
  sound x hx σ hσ :=
    ⟨(h.sound x hx σ hσ).1, himp σ x (h.sound x hx σ hσ).1 (h.sound x hx σ hσ).2⟩
  covers := h.covers

namespace MemoryExecutor

/-- What becomes of a size of `n` bytes, for a size expression of some width: an object of
that size is bound, which the result points to; the host has no memory; the function is not
known; or the size is reported. -/
inductive SizeFate (ex : MemoryExecutor) (args : AllocArgs) (width n : ℕ) :
    MemoryState × Ending → Prop
  | bound {s : MemoryState} {o : BoundObject} (ho : o ∈ s.objects) (hsize : o.mo.size.toNat = n)
      (htarget : s.target = some (o.mo.getBaseExpr ex.pointerWidth)) :
      SizeFate ex args width n (s, .continues)
  | outOfMemory {s : MemoryState} (hnull : ex.memory.malloc ex.memory.calls (BitVec.ofNat 32 n) = 0)
      (htarget : s.target = some (ConstantExpr.alloc 0 ex.pointerWidth)) :
      SizeFate ex args width n (s, .continues)
  | unknownFunction {s : MemoryState} (hsite : args.site = .unknownFunction) :
      SizeFate ex args width n (s, .continues)
  | huge {s : MemoryState} (hsize : 2 ^ 15 % 2 ^ width < n)
      (htarget : s.target = some (ConstantExpr.alloc 0 ex.pointerWidth)) :
      SizeFate ex args width n (s, .noted "NOTE: found huge malloc, returning 0")
  | zero {s : MemoryState} (hsize : n = 0) :
      SizeFate ex args width n (s, .error "malloc zero size" "zma.err")
  | overflow {s : MemoryState} (hsize : (2 ^ 32 - 1) % 2 ^ width < n) :
      SizeFate ex args width n (s, .error "integer overflow size" "iof.err")
  | controlled {s : MemoryState} (hsize : 0 < n) (hsmall : n ≤ 2 ^ 15 % 2 ^ width) :
      SizeFate ex args width n (s, .error "controlled symbolic size" "cma.err")

/-- What a state says about the size under one of its assignments: the objects that it has
and `root` has not are of that size, and what became of the state agrees with it. -/
structure SizeOutcome (ex : MemoryExecutor) (args : AllocArgs) (root : MemoryState) (size : Expr)
    (σ : Env) (x : MemoryState × Ending) : Prop where
  pinned : ∀ o ∈ x.1.objects, o ∈ root.objects ∨ (size.eval σ).toNat = o.mo.size.toNat
  fate : SizeFate ex args size.width (size.eval σ).toNat x

/-- What a state says when the size was left open: an object that is bound is small. -/
structure OpenOutcome (ex : MemoryExecutor) (args : AllocArgs) (root : MemoryState) (size : Expr)
    (σ : Env) (x : MemoryState × Ending) : Prop extends SizeOutcome ex args root size σ x where
  small : args.site = .function → x.2 = .continues →
    0 < (size.eval σ).toNat ∧ (size.eval σ).toNat ≤ 2 ^ 15 % 2 ^ size.width

/-! ### The conditions -/

section Conditions

variable {size : Expr} (hsize : size.WellTyped)

include hsize

theorem eqZero_isBool : (EqExpr.create size (ConstantExpr.alloc 0 size.width)).IsBool := by
  obtain ⟨x, hx⟩ := hsize.denotes (σ := fun _ _ => 0) rfl
  have h := EqExpr.create_denotes hx (denotes_alloc (v := 0) hsize.width_pos)
  exact ⟨h.1, h.width_eq⟩

theorem holds_eqZero (σ : Env) :
    (EqExpr.create size (ConstantExpr.alloc 0 size.width)).Holds σ ↔ (size.eval σ).toNat = 0 := by
  obtain ⟨x, hx⟩ := hsize.denotes (σ := σ) rfl
  rw [(EqExpr.create_denotes hx (denotes_alloc hsize.width_pos)).holds_iff, beq_iff_eq, hx.2,
    ← BitVec.toNat_inj, BitVec.toNat_ofNat, Nat.zero_mod]
  exact Iff.rfl

theorem above_isBool (n : ℕ) :
    (UltExpr.create (ConstantExpr.alloc n size.width) size).IsBool := by
  obtain ⟨x, hx⟩ := hsize.denotes (σ := fun _ _ => 0) rfl
  have h := UltExpr.create_denotes (denotes_alloc (v := n) hsize.width_pos) hx
  exact ⟨h.1, h.width_eq⟩

theorem holds_above (n : ℕ) (σ : Env) :
    (UltExpr.create (ConstantExpr.alloc n size.width) size).Holds σ
      ↔ n % 2 ^ size.width < (size.eval σ).toNat := by
  obtain ⟨x, hx⟩ := hsize.denotes (σ := σ) rfl
  rw [(UltExpr.create_denotes (denotes_alloc hsize.width_pos) hx).holds_iff, BitVec.ult_iff_lt,
    BitVec.lt_def, BitVec.toNat_ofNat, hx.2]
  exact Iff.rfl

theorem eqValue_isBool {value : APInt} (hwidth : value.width = size.width) :
    (EqExpr.create (.Constant value) size).IsBool := by
  obtain ⟨x, hx⟩ := hsize.denotes (σ := fun _ _ => 0) rfl
  obtain ⟨y, rfl⟩ := APInt.eq_mk_of_width hwidth
  have h := EqExpr.create_denotes (denotes_const hsize.width_pos y) hx
  exact ⟨h.1, h.width_eq⟩

theorem holds_eqValue {value : APInt} (hwidth : value.width = size.width) (σ : Env) :
    (EqExpr.create (.Constant value) size).Holds σ ↔ size.eval σ = value := by
  obtain ⟨x, hx⟩ := hsize.denotes (σ := σ) rfl
  obtain ⟨y, rfl⟩ := APInt.eq_mk_of_width hwidth
  rw [(EqExpr.create_denotes (denotes_const hsize.width_pos y) hx).holds_iff, beq_iff_eq, hx.2,
    eq_comm]
  simp

end Conditions

/-- The loop keeps the width of the value. -/
theorem halveSize_width {solver : TimingSolver} {constraints : List Expr} {size : Expr} {n : ℕ}
    {value value' : APInt} (h : halveSize solver constraints size n value = some value') :
    value'.width = value.width := by
  induction n generalizing value with
  | zero => exact congrArg APInt.width (Option.some.inj h).symm
  | succ n ih =>
    rw [halveSize] at h
    split at h
    next =>
      simp only [bind, Option.bind_eq_some_iff] at h
      obtain ⟨res, -, h⟩ := h
      split at h
      next => exact (ih h).trans rfl
      next => exact congrArg APInt.width (Option.some.inj h).symm
    next => exact congrArg APInt.width (Option.some.inj h).symm

/-! ### The stages -/

section Stages

variable {ex ex₀ : MemoryExecutor} {state root : MemoryState} {args : AllocArgs} {size : Expr}
  {chances : ℕ → ForkChance} {r : MemoryResult}

/-- A reported state and what the rest of the function makes of the other one. -/
theorem reportThen_meets {p : StatePair} {reported other : Option MemoryState}
    {report : MemoryExecutor → MemoryState → MemoryExecutor × MemoryState × Ending}
    {rest : MemoryExecutor → MemoryState → Option MemoryResult}
    {Q : Env → MemoryState × Ending → Prop}
    (hreport : ∀ s, p.executor.SameMemory (report p.executor s).1
      ∧ (report p.executor s).2.1.constraints = s.constraints)
    (hreported : ∀ s, reported = some s → ∀ σ, Satisfies σ s.constraints →
      Satisfies σ state.constraints ∧ Q σ (report p.executor s).2)
    (hother : ∀ s, other = some s → ∀ σ, Satisfies σ s.constraints → Satisfies σ state.constraints)
    (hcovers : p.call.Undecided → ∀ σ, Satisfies σ state.constraints →
      ∃ s, (reported = some s ∨ other = some s) ∧ Satisfies σ s.constraints)
    (hrest : ∀ ex s r, p.executor.SameMemory ex → other = some s → rest ex s = some r → r.Meets s Q)
    (h : reportThen p reported other report rest = some r) : r.Meets state Q := by
  obtain ⟨ex, states, hstart, hsame, hstates, hall⟩ : ∃ ex states,
      (match reported with
        | none => (p.executor, [])
        | some s => let (ex, s) := report p.executor s; (ex, [s])) = (ex, states)
      ∧ p.executor.SameMemory ex
      ∧ (∀ x ∈ states, ∀ σ, Satisfies σ x.1.constraints → Satisfies σ state.constraints ∧ Q σ x)
      ∧ ∀ s, reported = some s → ∃ x ∈ states, x.1.constraints = s.constraints := by
    cases hrep : reported with
    | none =>
      exact ⟨p.executor, [], rfl, .refl _, by simp, fun s hs => absurd hs (by simp)⟩
    | some s =>
      obtain ⟨hsame, hconstraints⟩ := hreport s
      refine ⟨_, [(report p.executor s).2], rfl, hsame, fun x hx σ hσ => ?_, fun s' hs' => ?_⟩
      · rw [List.mem_singleton.mp hx] at hσ ⊢
        exact hreported s hrep σ (hconstraints ▸ hσ)
      · obtain rfl := Option.some.inj hs'
        exact ⟨_, List.mem_singleton_self _, hconstraints⟩
  unfold reportThen at h
  rw [hstart] at h
  dsimp only at h
  cases hoth : other with
  | none =>
    rw [hoth] at h
    obtain rfl := Option.some.inj h
    refine ⟨hstates, fun hund σ hσ => ?_⟩
    obtain ⟨s, hs, hσs⟩ := hcovers (hund _ (List.mem_singleton_self _)) σ hσ
    rcases hs with hs | hs
    · obtain ⟨x, hx, hxs⟩ := hall s hs
      exact ⟨x, hx, hxs ▸ hσs⟩
    · rw [hoth] at hs
      exact absurd hs (by simp)
  | some t =>
    rw [hoth] at h
    obtain ⟨r', hr', rfl⟩ := Option.map_eq_some_iff.mp h
    have hmeets := hrest ex t r' hsame hoth hr'
    refine ⟨fun x hx σ hσ => ?_, fun hund σ hσ => ?_⟩
    · rcases List.mem_append.mp hx with hx | hx
      · exact hstates x hx σ hσ
      · obtain ⟨hσt, hQ⟩ := hmeets.sound x hx σ hσ
        exact ⟨hother t hoth σ hσt, hQ⟩
    · obtain ⟨hcall, hforks⟩ := List.forall_mem_cons.mp hund
      obtain ⟨s, hs, hσs⟩ := hcovers hcall σ hσ
      rcases hs with hs | hs
      · obtain ⟨x, hx, hxs⟩ := hall s hs
        exact ⟨x, List.mem_append_left _ hx, hxs ▸ hσs⟩
      · rw [hoth] at hs
        obtain rfl := Option.some.inj hs
        obtain ⟨x, hx, hσx⟩ := hmeets.covers hforks σ hσs
        exact ⟨x, List.mem_append_right _ hx, hσx⟩

/-- `malloc` gives no object the address of one that is to be freed. -/
def AllocArgs.Live (args : AllocArgs) (memory : MemoryManager) : Prop :=
  ∀ o, args.reallocFrom = some o → ∀ n size, memory.malloc n size ≠ o.mo.address

/-- The object that `allocate` makes of a size. -/
def newObject (ex : MemoryExecutor) (CE : APInt) (args : AllocArgs) : MemoryObject :=
  ⟨ex.memory.counter, ex.memory.malloc ex.memory.calls (BitVec.ofNat 32 CE.toNat),
    BitVec.ofNat 32 CE.toNat, args.isLocal⟩

/-- The contents that it starts with. -/
def newContents (ex : MemoryExecutor) (CE : APInt) (args : AllocArgs) : ObjectState :=
  let os := (ex.newObjectState (ex.newObject CE args)).1
  if args.zeroMemory then os.initializeToZero else os.initializeToRandom

/-- `unbindObject(reallocFrom->getObject())`, if there is one. -/
def release (args : AllocArgs) (state : MemoryState) : MemoryState :=
  match args.reallocFrom with
  | none => state
  | some reallocFrom => state.unbindObject reallocFrom

/-- What a constant size leads to. Either the host has no memory; or an object is bound, which
`reallocFrom` is copied to before it is unbound. -/
theorem executeAllocConstant_inv {CE : APInt} (h : ex.executeAllocConstant state CE args = some r) :
    r.forks = [] ∧
    ((ex.memory.malloc ex.memory.calls (BitVec.ofNat 32 CE.toNat) = 0
        ∧ r.states = [(state.bindLocal (ConstantExpr.alloc 0 ex.pointerWidth), .continues)])
      ∨ ∃ os, ex.memory.malloc ex.memory.calls (BitVec.ofNat 32 CE.toNat) ≠ 0
        ∧ (match args.reallocFrom with
          | none => os = ex.newContents CE args
          | some reallocFrom =>
              copyBytes ex.isLittleEndian (min reallocFrom.os.size (ex.newContents CE args).size)
                reallocFrom.os (ex.newContents CE args) = some os)
        ∧ r.states = [(release args ((state.bindObject ⟨ex.newObject CE args, os, false⟩).bindLocal
            ((ex.newObject CE args).getBaseExpr ex.pointerWidth)), .continues)]) := by
  rw [executeAllocConstant] at h
  obtain ⟨-, h⟩ := Option.ite_none_right_eq_some.mp h
  by_cases hnull : ex.memory.malloc ex.memory.calls (BitVec.ofNat 32 CE.toNat) = 0
  · rw [show ex.memory.allocate CE.toNat args.isLocal
      = (none, { ex.memory with calls := ex.memory.calls + 1 }) from if_pos hnull] at h
    obtain rfl := Option.some.inj h
    exact ⟨rfl, .inl ⟨hnull, rfl⟩⟩
  · rw [show ex.memory.allocate CE.toNat args.isLocal = (some (ex.newObject CE args),
        { ex.memory with calls := ex.memory.calls + 1, counter := ex.memory.counter + 1 })
      from if_neg hnull] at h
    dsimp only at h
    cases hfrom : args.reallocFrom with
    | none =>
      rw [hfrom] at h
      obtain rfl := Option.some.inj h
      refine ⟨rfl, .inr ⟨_, hnull, rfl, ?_⟩⟩
      rw [release, hfrom]
      rfl
    | some reallocFrom =>
      rw [hfrom] at h
      simp only [bind, Option.bind_eq_some_iff] at h
      obtain ⟨os, hos, h⟩ := h
      obtain rfl := Option.some.inj h
      refine ⟨rfl, .inr ⟨os, hnull, hos, ?_⟩⟩
      rw [release, hfrom]
      rfl

/-- The state that an allocation goes on with. -/
theorem executeAllocConstant_cases {CE : APInt} (hlive : AllocArgs.Live args ex.memory)
    (h : ex.executeAllocConstant state CE args = some r) :
    ∃ s, r.states = [(s, .continues)] ∧ r.forks = [] ∧ s.constraints = state.constraints
      ∧ (∀ o ∈ s.objects, o ∈ state.objects ∨ o.mo.size = BitVec.ofNat 32 CE.toNat)
      ∧ ((ex.memory.malloc ex.memory.calls (BitVec.ofNat 32 CE.toNat) = 0
          ∧ s.target = some (ConstantExpr.alloc 0 ex.pointerWidth))
        ∨ ∃ o ∈ s.objects, o.mo.size = BitVec.ofNat 32 CE.toNat
          ∧ s.target = some (o.mo.getBaseExpr ex.pointerWidth)) := by
  obtain ⟨hforks, ⟨hnull, hstates⟩ | ⟨os, -, -, hstates⟩⟩ := executeAllocConstant_inv h
  · exact ⟨_, hstates, hforks, rfl, fun o ho => .inl ho, .inl ⟨hnull, rfl⟩⟩
  · cases hfrom : args.reallocFrom with
    | none =>
      rw [release, hfrom] at hstates
      refine ⟨_, hstates, hforks, rfl, fun o ho => ?_,
        .inr ⟨_, KeyedList.mem_alter_self _ _ _, rfl, rfl⟩⟩
      refine (KeyedList.mem_alter_const ho).imp_right fun heq => ?_
      rw [← Option.some.inj heq]
      rfl
    | some old =>
      rw [release, hfrom] at hstates
      refine ⟨_, hstates, hforks, rfl, fun o ho => ?_,
        .inr ⟨⟨ex.newObject CE args, os, false⟩,
          KeyedList.mem_alter_of_ne (KeyedList.mem_alter_self _ _ _) fun heq => ?_, rfl, rfl⟩⟩
      · have hmem := (KeyedList.mem_alter_const ho).resolve_right (by simp)
        refine (KeyedList.mem_alter_const hmem).imp_right fun heq => ?_
        rw [← Option.some.inj heq]
        rfl
      · exact hlive old hfrom _ _ (BitVec.toNat_inj.mp heq)

/-- What the stages keep: the executor is `ex₀` with other states and seeds, no object has
been bound, and `B` holds of the assignments of the state. -/
structure AtStage (ex₀ : MemoryExecutor) (root : MemoryState) (B : Env → Prop)
    (ex : MemoryExecutor) (state : MemoryState) : Prop where
  same : ex₀.SameMemory ex
  ready : ex.Ready state
  objects : state.objects = root.objects
  sound : ∀ σ, Satisfies σ state.constraints → B σ

theorem SameMemory.memory (h : ex₀.SameMemory ex) : ex.memory = ex₀.memory := by rw [h.rest]

theorem SameMemory.pointerWidth (h : ex₀.SameMemory ex) : ex.pointerWidth = ex₀.pointerWidth := by
  rw [h.rest]

/-- One side of a fork is at the next stage. -/
theorem AtStage.side {B A : Env → Prop} (h : AtStage ex₀ root B ex state) {ex₁ ex' : MemoryExecutor}
    {t : MemoryState} (hsame : ex.SameMemory ex₁) (ht : ex₁.IsSide state A t)
    (hsame' : ex₁.SameMemory ex') : AtStage ex₀ root (fun σ => B σ ∧ A σ) ex' t where
  same := (h.same.trans hsame).trans hsame'
  ready := ht.ready.of_same hsame'
  objects := ht.objects.trans h.objects
  sound σ hσ := ⟨h.sound σ (ht.sound σ hσ).1, (ht.sound σ hσ).2⟩

/-- The states of a stage have no other objects than `root`. -/
theorem AtStage.outcome {B : Env → Prop} (h : AtStage ex₀ root B ex state) {σ : Env}
    {ending : Ending} (hfate : SizeFate ex₀ args size.width (size.eval σ).toNat (state, ending))
    (hending : args.site = .function → ending ≠ .continues) :
    OpenOutcome ex₀ args root size σ (state, ending) :=
  ⟨⟨fun _ ho => .inl (h.objects ▸ ho), hfate⟩,
    fun hsite hcontinues => absurd hcontinues (hending hsite)⟩

section Meets

variable {B : Env → Prop}

/-- A constant that is the size binds an object of the size. -/
theorem executeAllocConstant_meets {CE : APInt} (hlive : AllocArgs.Live args ex₀.memory)
    (hstage : AtStage ex₀ root B ex state)
    (hvalue : ∀ σ, B σ → size.eval σ = CE ∧ CE.toNat < 2 ^ 32)
    (h : ex.executeAllocConstant state CE args = some r) :
    r.Meets state (SizeOutcome ex₀ args root size) := by
  obtain ⟨s, hstates, -, hconstraints, hobjects, htarget⟩ :=
    executeAllocConstant_cases (hstage.same.memory ▸ hlive) h
  have hsize : ∀ σ, Satisfies σ state.constraints →
      (BitVec.ofNat 32 CE.toNat).toNat = (size.eval σ).toNat := by
    intro σ hσ
    obtain ⟨heval, hlt⟩ := hvalue σ (hstage.sound σ hσ)
    rw [BitVec.toNat_ofNat, Nat.mod_eq_of_lt hlt, heval]
  refine ⟨fun x hx σ hσ => ?_, fun _ σ hσ => ?_⟩
  · rw [hstates, List.mem_singleton] at hx
    subst hx
    rw [hconstraints] at hσ
    obtain ⟨heval, -⟩ := hvalue σ (hstage.sound σ hσ)
    refine ⟨hσ, fun o ho => ?_, ?_⟩
    · rcases hobjects o ho with ho | ho
      · exact .inl (hstage.objects ▸ ho)
      · exact .inr (by rw [ho, hsize σ hσ])
    · rcases htarget with ⟨hnull, htarget⟩ | ⟨o, ho, hosize, htarget⟩
      · refine .outOfMemory ?_ (hstage.same.pointerWidth ▸ htarget)
        rw [← hstage.same.memory, heval]
        exact hnull
      · exact .bound ho (by rw [hosize, hsize σ hσ]) (hstage.same.pointerWidth ▸ htarget)
  · rw [hstates]
    exact ⟨_, List.mem_singleton_self _, hconstraints ▸ hσ⟩

variable (hlive : AllocArgs.Live args ex₀.memory) (hsize : size.WellTyped)

include hlive hsize

variable {original : List Expr} {id : ℕ}

/-- In the last stage one value of a small size is left. -/
theorem allocExample_meets (hstage : AtStage ex₀ root (fun σ => 0 < (size.eval σ).toNat
      ∧ (size.eval σ).toNat ≤ 2 ^ 15 % 2 ^ size.width) ex state)
    (h : ex.allocExample size args chances state original = some r) :
    r.Meets state (OpenOutcome ex₀ args root size) := by
  simp only [allocExample, bind, Option.bind_eq_some_iff] at h
  obtain ⟨value, -, h⟩ := h
  obtain ⟨hwidth, h⟩ := Option.ite_none_right_eq_some.mp h
  simp only [Option.bind_eq_some_iff] at h
  obtain ⟨value', hhalve, p, hp, h⟩ := h
  have hwidth' : value'.width = size.width := (halveSize_width hhalve).trans hwidth
  have hsplits := forkState_splits hstage.ready (eqValue_isBool hsize hwidth') hp
  refine reportThen_meets (fun s => ⟨terminateStateOnError_same _ s _ _, rfl⟩)
    (fun s hs σ hσ => ?_) (fun s hs σ hσ => ((hsplits.first s hs).sound σ hσ).1)
    (fun hund σ hσ => ?_) (fun ex' s r' hsame hs hr' => ?_) h
  · have hnext := hstage.side hsplits.executor (hsplits.second s hs) (.refl _)
    obtain ⟨⟨hpos, hle⟩, -⟩ := hnext.sound σ hσ
    exact ⟨((hsplits.second s hs).sound σ hσ).1, hnext.outcome (.controlled hpos hle) (by simp)⟩
  · obtain ⟨s, hs, hσs⟩ := hsplits.covers hund σ hσ
    exact ⟨s, hs.symm, hσs⟩
  · have hnext := hstage.side hsplits.executor (hsplits.first s hs) hsame
    have hvalue : ∀ σ, (0 < (size.eval σ).toNat ∧ (size.eval σ).toNat ≤ 2 ^ 15 % 2 ^ size.width)
        ∧ (EqExpr.create (.Constant value') size).Holds σ →
        size.eval σ = value' ∧ value'.toNat < 2 ^ 32 := by
      rintro σ ⟨⟨-, hle⟩, hholds⟩
      have heval := (holds_eqValue hsize hwidth' σ).mp hholds
      have hmod : 2 ^ 15 % 2 ^ size.width ≤ 2 ^ 15 := Nat.mod_le _ _
      refine ⟨heval, ?_⟩
      rw [heval] at hle
      omega
    exact (executeAllocConstant_meets hlive hnext hvalue hr').mono
      fun σ x hσ hout => ⟨hout, fun _ _ => (hnext.sound σ hσ).1⟩

theorem allocNotHuge_meets (hstage : AtStage ex₀ root (fun σ => 0 < (size.eval σ).toNat) ex state)
    (h : ex.allocNotHuge size args chances state id original = some r) :
    r.Meets state (OpenOutcome ex₀ args root size) := by
  simp only [allocNotHuge, bind, Option.bind_eq_some_iff] at h
  obtain ⟨p, hp, h⟩ := h
  have hsplits := forkState_splits hstage.ready (above_isBool hsize _) hp
  refine reportThen_meets (fun s => ⟨.refl _, rfl⟩) (fun s hs σ hσ => ?_)
    (fun s hs σ hσ => ((hsplits.second s hs).sound σ hσ).1) hsplits.covers
    (fun ex' s r' hsame hs hr' => ?_) h
  · have hnext := hstage.side hsplits.executor (hsplits.first s hs) (.refl _)
    obtain ⟨-, hholds⟩ := hnext.sound σ hσ
    have hhuge := (holds_above hsize _ σ).mp hholds
    have hfate : SizeFate ex₀ args size.width (size.eval σ).toNat
        (s.bindLocal (ConstantExpr.alloc 0 p.executor.pointerWidth),
          .noted "NOTE: found huge malloc, returning 0") :=
      .huge hhuge (hnext.same.pointerWidth ▸ rfl)
    exact ⟨((hsplits.first s hs).sound σ hσ).1,
      ⟨fun o ho => .inl (hnext.objects ▸ ho), hfate⟩, fun _ h => absurd h (by simp)⟩
  · have hnext := hstage.side hsplits.executor (hsplits.second s hs) hsame
    refine allocExample_meets hlive hsize ⟨hnext.same, hnext.ready, hnext.objects, fun σ hσ => ?_⟩ hr'
    obtain ⟨hpos, hholds⟩ := hnext.sound σ hσ
    rw [holds_above hsize, not_lt] at hholds
    exact ⟨hpos, hholds⟩

theorem allocNoOverflow_meets
    (hstage : AtStage ex₀ root (fun σ => 0 < (size.eval σ).toNat) ex state)
    (h : ex.allocNoOverflow size args chances state id original = some r) :
    r.Meets state (OpenOutcome ex₀ args root size) := by
  simp only [allocNoOverflow, bind, Option.bind_eq_some_iff] at h
  obtain ⟨p, hp, h⟩ := h
  have hsplits := forkState_splits hstage.ready (above_isBool hsize _) hp
  refine reportThen_meets (fun s => ⟨terminateStateOnError_same _ s _ _, rfl⟩)
    (fun s hs σ hσ => ?_) (fun s hs σ hσ => ((hsplits.second s hs).sound σ hσ).1) hsplits.covers
    (fun ex' s r' hsame hs hr' => ?_) h
  · have hnext := hstage.side hsplits.executor (hsplits.first s hs) (.refl _)
    obtain ⟨-, hholds⟩ := hnext.sound σ hσ
    have hover := (holds_above hsize _ σ).mp hholds
    exact ⟨((hsplits.first s hs).sound σ hσ).1, hnext.outcome (.overflow hover) (by simp)⟩
  · have hnext := hstage.side hsplits.executor (hsplits.second s hs) hsame
    exact allocNotHuge_meets hlive hsize
      ⟨hnext.same, hnext.ready, hnext.objects, fun σ hσ => (hnext.sound σ hσ).1⟩ hr'

theorem allocNonzero_meets (hstage : AtStage ex₀ root (fun _ => True) ex state)
    (h : ex.allocNonzero size args chances state = some r) :
    r.Meets state (OpenOutcome ex₀ args root size) := by
  simp only [allocNonzero, bind, Option.bind_eq_some_iff] at h
  obtain ⟨res, -, p, hp, h⟩ := h
  have hsplits := forkState_splits hstage.ready (eqZero_isBool hsize) hp
  refine reportThen_meets (fun s => ⟨terminateStateOnError_same _ s _ _, rfl⟩)
    (fun s hs σ hσ => ?_) (fun s hs σ hσ => ((hsplits.second s hs).sound σ hσ).1) hsplits.covers
    (fun ex' s r' hsame hs hr' => ?_) h
  · have hnext := hstage.side hsplits.executor (hsplits.first s hs) (.refl _)
    obtain ⟨-, hholds⟩ := hnext.sound σ hσ
    have hzero := (holds_eqZero hsize σ).mp hholds
    exact ⟨((hsplits.first s hs).sound σ hσ).1, hnext.outcome (.zero hzero) (by simp)⟩
  · have hnext := hstage.side hsplits.executor (hsplits.second s hs) hsame
    refine allocNoOverflow_meets hlive hsize
      ⟨hnext.same, hnext.ready, hnext.objects, fun σ hσ => ?_⟩ hr'
    obtain ⟨-, hholds⟩ := hnext.sound σ hσ
    rw [holds_eqZero hsize] at hholds
    exact Nat.pos_of_ne_zero hholds

end Meets

/-! ### Allocation -/

theorem doSizeControlledMalloc_meets (hlive : AllocArgs.Live args ex.memory)
    (hready : ex.Ready state) (hsize : size.WellTyped) (hseed : ¬ex.SinglePath state.id)
    (h : ex.doSizeControlledMalloc size args chances state = some r) :
    r.Meets state (OpenOutcome ex args state size) := by
  have hstage : AtStage ex state (fun _ => True) ex state :=
    ⟨.refl ex, hready, rfl, fun _ _ => trivial⟩
  unfold doSizeControlledMalloc at h
  split at h
  next => exact absurd h (by simp)
  next hsite =>
    obtain rfl := Option.some.inj h
    refine ⟨fun x hx σ hσ => ?_, fun _ σ hσ => ⟨_, List.mem_singleton_self _, hσ⟩⟩
    rw [List.mem_singleton.mp hx] at hσ ⊢
    exact ⟨hσ, hstage.outcome (.unknownFunction hsite) (by simp [hsite])⟩
  next =>
    split at h
    next siit seeds hfork hseeds => exact absurd ⟨hfork, siit, seeds, hseeds⟩ hseed
    next => exact allocNonzero_meets hlive hsize hstage h

/-- What `executeAlloc` makes of a state, except in single-path mode and for a size of 4 GiB
or more that is the only one. -/
theorem executeAlloc_meets (hlive : AllocArgs.Live args ex.memory) (hready : ex.Ready state)
    (hsat : ∃ σ, Satisfies σ state.constraints) (hsize : size.WellTyped)
    (hseed : ¬ex.SinglePath state.id)
    (hlarge : ∀ n, (∀ σ, Satisfies σ state.constraints → (size.eval σ).toNat = n) → n < 2 ^ 32)
    (h : ex.executeAlloc size args chances state = some r) :
    r.Meets state (SizeOutcome ex args state size) := by
  unfold executeAlloc at h
  split at h
  next CE hCE =>
    have heval := eval_of_toUnique hready hsat hsize hCE
    have hlt : CE.toNat < 2 ^ 32 :=
      hlarge _ fun σ hσ => congrArg APInt.toNat (heval σ hσ)
    have hstage : AtStage ex state (fun σ => size.eval σ = CE) ex state :=
      ⟨.refl ex, hready, rfl, heval⟩
    exact executeAllocConstant_meets hlive hstage (fun σ hσ => ⟨hσ, hlt⟩) h
  next hconst =>
    have hself := (toUnique_cases ex.toExecutor state.constraints size).resolve_right
      fun ⟨value, hvalue⟩ => hconst value hvalue
    rw [hself] at h
    exact (doSizeControlledMalloc_meets hlive hready hsize hseed h).mono
      fun σ x _ hout => hout.toSizeOutcome

end Stages

end MemoryExecutor

/-- A symbolic size is pinned: the constraints of a state in which an object has been bound
entail that the size is the size of the object; and the states account for every size that
the parent allowed, as long as no mode decides a branch. -/
structure MemoryResult.PinsSize (r : MemoryResult) (ex : MemoryExecutor) (args : AllocArgs)
    (state : MemoryState) (size : Expr) : Prop where
  pinned : ∀ x ∈ r.states, ∀ o ∈ x.1.objects, o ∉ state.objects →
    ∀ σ, Satisfies σ x.1.constraints → (size.eval σ).toNat = o.mo.size.toNat
  covered : (∀ call ∈ r.forks, call.Undecided) → ∀ σ, Satisfies σ state.constraints →
    ∃ x ∈ r.states, Satisfies σ x.1.constraints
      ∧ MemoryExecutor.SizeFate ex args size.width (size.eval σ).toNat x

namespace MemoryExecutor

section Alloc

variable {ex : MemoryExecutor} {state : MemoryState} {args : AllocArgs} {size : Expr}
  {chances : ℕ → ForkChance} {r : MemoryResult}

/-- `executeAlloc` pins the size, except in single-path mode and for a size of 4 GiB or more
that is the only one. -/
theorem executeAlloc_pinsSize (hlive : AllocArgs.Live args ex.memory) (hready : ex.Ready state)
    (hsat : ∃ σ, Satisfies σ state.constraints) (hsize : size.WellTyped)
    (hseed : ¬ex.SinglePath state.id)
    (hlarge : ∀ n, (∀ σ, Satisfies σ state.constraints → (size.eval σ).toNat = n) → n < 2 ^ 32)
    (h : ex.executeAlloc size args chances state = some r) : r.PinsSize ex args state size := by
  have hmeets := executeAlloc_meets hlive hready hsat hsize hseed hlarge h
  refine ⟨fun x hx o ho hnew σ hσ => ?_, fun hund σ hσ => ?_⟩
  · exact ((hmeets.sound x hx σ hσ).2.pinned o ho).resolve_left hnew
  · obtain ⟨x, hx, hσx⟩ := hmeets.covers hund σ hσ
    exact ⟨x, hx, hσx, (hmeets.sound x hx σ hσx).2.fate⟩

end Alloc

/-! ### Two runs -/

/-- A size that is read from the input. -/
def inputSize : Expr :=
  .Cast .ZExt (.Read (.root (.symbolic 0 "x" 1)) (.Constant ⟨32, 0⟩)) 64

/-- The size is `n`. -/
def sizeIs (n : ℕ) : Expr := EqExpr.create inputSize (ConstantExpr.alloc n 64)

/-- Arguments of `malloc`. -/
def mallocArgs : AllocArgs := ⟨false, .function, false, none⟩

theorem sizeIs_isBool (n : ℕ) : (sizeIs n).IsBool := by
  have hsize : inputSize.WellTyped := by decide
  obtain ⟨x, hx⟩ := hsize.denotes (σ := fun _ _ => 0) (w := 64) rfl
  have h := EqExpr.create_denotes hx (denotes_alloc (v := n) (by decide : 0 < 64))
  exact ⟨h.1, h.width_eq⟩

theorem holds_sizeIs (n : ℕ) (σ : Env) :
    (sizeIs n).Holds σ ↔ (inputSize.eval σ).toNat = n % 2 ^ 64 := by
  have hsize : inputSize.WellTyped := by decide
  obtain ⟨x, hx⟩ := hsize.denotes (σ := σ) (w := 64) rfl
  rw [sizeIs, (EqExpr.create_denotes hx (denotes_alloc (by decide : 0 < 64))).holds_iff, beq_iff_eq,
    hx.2, ← BitVec.toNat_inj, BitVec.toNat_ofNat]
  exact Iff.rfl

/-- A solver that gives up on values but knows that a size which must be 0 is 0. -/
def zeroSizeSolver : SolverImpl where
  computeTruth q := if q = ⟨[sizeIs 0], (sizeIs 0).createIsZero⟩ then some false else none
  computeValidity q := if q = ⟨[sizeIs 0], sizeIs 0⟩ then some .True else none
  computeValue _ := none
  computeInitialValues _ _ := none

theorem zeroSizeSolver_correct : zeroSizeSolver.Correct where
  truth q b hq h := by
    simp only [zeroSizeSolver, Option.ite_none_right_eq_some, Option.some.injEq] at h
    obtain ⟨rfl, rfl⟩ := h
    refine iff_of_false (by simp) fun hvalid => ?_
    obtain ⟨σ, hσ⟩ := hq.consistent
    have hnot := hvalid σ hσ
    rw [Expr.IsBool.holds_createIsZero (sizeIs_isBool 0)] at hnot
    exact hnot (hσ _ (List.mem_singleton_self _))
  validity q v hq h := by
    simp only [zeroSizeSolver, Option.ite_none_right_eq_some, Option.some.injEq] at h
    obtain ⟨rfl, rfl⟩ := h
    exact fun σ hσ => hσ _ (List.mem_singleton_self _)
  value _ _ _ _ h := by simp [zeroSizeSolver] at h
  initialValues _ _ _ _ h := by simp [zeroSizeSolver] at h

/-- The size 0 is neither bound nor a huge `malloc` nor a concretised size: it is reported as
an error of its own. -/
theorem executeAlloc_reports_zero :
    (plainMemoryExecutor zeroSizeSolver).Ready (emptyState [sizeIs 0])
      ∧ ∃ r, (plainMemoryExecutor zeroSizeSolver).executeAlloc inputSize mallocArgs
          (fun _ => ⟨false, false⟩) (emptyState [sizeIs 0]) = some r
        ∧ ¬∀ σ, Satisfies σ (emptyState [sizeIs 0]).constraints →
            ∃ x ∈ r.states, Satisfies σ x.1.constraints
              ∧ x.2 ∈ [.continues, .noted "NOTE: found huge malloc, returning 0",
                .error "controlled symbolic size" "cma.err"] := by
  refine ⟨⟨zeroSizeSolver_correct, ?_, ?_⟩, _, rfl, fun h => ?_⟩
  · intro q value _ h
    simp [plainMemoryExecutor, Executor.plainExecutor, zeroSizeSolver] at h
  · intro c hc
    rw [List.mem_singleton.mp hc]
    exact sizeIs_isBool 0
  · have hzero : Satisfies (fun _ _ => 0) (emptyState [sizeIs 0]).constraints := by
      intro c hc
      rw [List.mem_singleton.mp hc]
      decide
    obtain ⟨x, hx, -, hmem⟩ := h _ hzero
    rw [List.mem_singleton.mp hx] at hmem
    revert hmem
    decide

/-- A solver that knows the size 8. -/
def eightSolver : SolverImpl where
  computeTruth q := if q = ⟨[sizeIs 8], sizeIs 8⟩ then some true else none
  computeValidity _ := none
  computeValue q := if q = ⟨[sizeIs 8], inputSize⟩ then some (.Constant ⟨64, 8⟩) else none
  computeInitialValues _ _ := none

theorem eightSolver_correct : eightSolver.Correct where
  truth q b hq h := by
    simp only [eightSolver, Option.ite_none_right_eq_some, Option.some.injEq] at h
    obtain ⟨rfl, rfl⟩ := h
    exact iff_of_true rfl fun σ hσ => hσ _ (List.mem_singleton_self _)
  validity _ _ _ h := by simp [eightSolver] at h
  value q e hq he h := by
    simp only [eightSolver, Option.ite_none_right_eq_some, Option.some.injEq] at h
    obtain ⟨rfl, rfl⟩ := h
    refine ⟨fun _ _ => 8, ?_, ?_⟩
    · intro c hc
      rw [List.mem_singleton.mp hc]
      decide
    · decide
  initialValues _ _ _ _ h := by simp [eightSolver] at h

theorem eightSolver_ready {constraints : List Expr} (h : ∀ c ∈ constraints, c.IsBool) :
    (plainMemoryExecutor eightSolver).Ready (emptyState constraints) := by
  refine ⟨eightSolver_correct, ?_, h⟩
  intro q value _ h
  simp only [plainMemoryExecutor, Executor.plainExecutor, eightSolver,
    Option.ite_none_right_eq_some, Option.some.injEq] at h
  obtain ⟨rfl, h⟩ := h
  rw [← Expr.Constant.inj h]
  decide

theorem sizeIs_eight_isBool : ∀ c ∈ [sizeIs 8], c.IsBool := by
  intro c hc
  rw [List.mem_singleton.mp hc]
  exact sizeIs_isBool 8

theorem satisfies_eight : Satisfies (fun _ _ => 8) (emptyState [sizeIs 8]).constraints := by
  intro c hc
  rw [List.mem_singleton.mp hc]
  decide

/-- The size must be 8: an object of 8 bytes is bound. -/
theorem executeAlloc_pinsSize_eight :
    ∃ r, (plainMemoryExecutor eightSolver).executeAlloc inputSize mallocArgs
        (fun _ => ⟨false, false⟩) (emptyState [sizeIs 8]) = some r
      ∧ r.PinsSize (plainMemoryExecutor eightSolver) mallocArgs (emptyState [sizeIs 8]) inputSize := by
  obtain ⟨r, hr⟩ : ∃ r, (plainMemoryExecutor eightSolver).executeAlloc inputSize mallocArgs
      (fun _ => ⟨false, false⟩) (emptyState [sizeIs 8]) = some r := ⟨_, rfl⟩
  refine ⟨r, hr, executeAlloc_pinsSize ?_ (eightSolver_ready sizeIs_eight_isBool)
    ⟨_, satisfies_eight⟩ (by decide) ?_ ?_ hr⟩
  · exact fun o ho => absurd ho (by simp [mallocArgs])
  · rintro ⟨hfork, -⟩
    exact absurd hfork (by decide)
  · intro n hn
    rw [← hn _ satisfies_eight]
    decide

end MemoryExecutor

end Xklee
