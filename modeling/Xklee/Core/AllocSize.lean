/-
The size of what an allocation binds, from the instruction or the special function that asks
for it to `MemoryManager::allocate`: `Instruction::Alloca` of `lib/Core/Executor.cpp`, and
`handleMalloc`, `handleNew`, `handleNewArray`, `handleCalloc` and the calls of `executeAlloc`
in `handleRealloc` of `lib/Core/SpecialFunctionHandler.cpp`.

What is asked for is a number of bytes. On the way to the object it is a product of 64 bits,
an `unsigned` in the call of `malloc`, and an `unsigned` in the object; the element size of an
`alloca` is an `unsigned` before it is multiplied. A size that is settled goes this way
without a check, so that it is right below `2 ^ 32` only. A size that the constraints leave
open is compared with `0xffffffff` first, by then as the product.
-/
import Xklee.Core.Alloc

set_option autoImplicit false

namespace Xklee

/-! ## Requests -/

/-- What reaches `executeAlloc`: `malloc`, `new` and `new[]` with a size; `calloc`; `realloc`,
for an object that the pointer resolves to or for a null pointer; and `alloca` with the store
size of its type, for an array with a count. -/
inductive AllocRequest where
  | malloc (size : Expr)
  | calloc (nmemb size : Expr)
  | realloc (size : Expr) (reallocFrom : Option BoundObject)
  | alloca (elementSize : ℕ) (count : Option Expr)

namespace AllocRequest

/-- The size expression that `executeAlloc` is called with. -/
def size (pointerWidth : ℕ) : AllocRequest → Expr
  | .malloc size => size
  | .calloc nmemb size => MulExpr.create nmemb size
  | .realloc size _ => size
  | .alloca elementSize count =>
      -- `unsigned elementSize`
      let size := ConstantExpr.alloc (elementSize % 2 ^ 32) pointerWidth
      match count with
      | none => size
      | some count => MulExpr.create size (ZExtExpr.create count pointerWidth)

/-- The other arguments. The instruction is a call of a function, which `getTargetFunction`
may not know, or an `alloca`. -/
def args (known : Bool) : AllocRequest → AllocArgs
  | .malloc _ => ⟨false, if known then .function else .unknownFunction, false, none⟩
  | .calloc _ _ => ⟨false, if known then .function else .unknownFunction, true, none⟩
  | .realloc _ reallocFrom =>
      ⟨false, if known then .function else .unknownFunction, false, reallocFrom⟩
  | .alloca _ _ => ⟨true, .alloca, false, none⟩

/-- The number of bytes that the program asks for. -/
def requested (σ : Env) : AllocRequest → ℕ
  | .malloc size => (size.eval σ).toNat
  | .calloc nmemb size => (nmemb.eval σ).toNat * (size.eval σ).toNat
  | .realloc size _ => (size.eval σ).toNat
  | .alloca elementSize none => elementSize
  | .alloca elementSize (some count) => elementSize * (count.eval σ).toNat

/-- The operands are those of a program for a 64-bit machine. -/
def WellTyped : AllocRequest → Prop
  | .malloc size => size.WellTyped ∧ size.width = 64
  | .calloc nmemb size =>
      (nmemb.WellTyped ∧ nmemb.width = 64) ∧ size.WellTyped ∧ size.width = 64
  | .realloc size _ => size.WellTyped ∧ size.width = 64
  | .alloca _ count => ∀ e, count = some e → e.WellTyped ∧ e.width ≤ 64

end AllocRequest

namespace MemoryExecutor

/-- An allocation. The local of the instruction is not bound before. -/
def allocate (ex : MemoryExecutor) (request : AllocRequest) (known : Bool)
    (chances : ℕ → ForkChance) (state : MemoryState) : Option MemoryResult :=
  ex.executeAlloc (request.size ex.pointerWidth) (request.args known) chances
    { state with target := none }

end MemoryExecutor

/-! ## The size of the result -/

/-- An allocation of `n` bytes: an error state, a null pointer, or a pointer to an object of
exactly `n` bytes. -/
def AllocatesBytes (pointerWidth n : ℕ) (x : MemoryState × Ending) : Prop :=
  (∃ message suffix, x.2 = .error message suffix)
    ∨ x.1.target = some (ConstantExpr.alloc 0 pointerWidth)
    ∨ ∃ o ∈ x.1.objects, x.1.target = some (o.mo.getBaseExpr pointerWidth) ∧ o.mo.size.toNat = n

/-- Every state of the result has what was requested, under each of its assignments. -/
def MemoryResult.AllocatesRequested (r : MemoryResult) (pointerWidth : ℕ)
    (request : AllocRequest) : Prop :=
  ∀ x ∈ r.states, ∀ σ, Satisfies σ x.1.constraints →
    AllocatesBytes pointerWidth (request.requested σ) x

namespace AllocRequest

variable {σ : Env}

/-- The value of an operand of 64 bits. -/
theorem denotes_operand {e : Expr} (he : e.WellTyped) (hwidth : e.width = 64) (σ : Env) :
    ∃ x : BitVec 64, Denotes σ e x ∧ (e.eval σ).toNat = x.toNat := by
  obtain ⟨x, hx⟩ := he.denotes (σ := σ) hwidth
  refine ⟨x, hx, ?_⟩
  rw [hx.2]
  rfl

/-- The value of the count of an `alloca`, zero-extended. -/
theorem denotes_count {e : Expr} (he : e.WellTyped) (hwidth : e.width ≤ 64) (σ : Env) :
    ∃ x : BitVec 64, Denotes σ (ZExtExpr.create e 64) x ∧ (e.eval σ).toNat = x.toNat := by
  obtain ⟨y, hy⟩ := he.denotes (σ := σ) rfl
  have hcast := CastExpr.create_hasValue (σ := σ) .ZExt (n := 64) he (Nat.zero_lt_succ 63)
  rw [hy.2] at hcast
  refine ⟨y.setWidth 64, hcast, ?_⟩
  have hlt : y.toNat < 2 ^ 64 := y.isLt.trans_le (Nat.pow_le_pow_right (by omega) hwidth)
  rw [hy.2, BitVec.toNat_setWidth, Nat.mod_eq_of_lt hlt]
  rfl

theorem mul_mod_mod (a b : ℕ) : a * b % 2 ^ 64 % 2 ^ 32 = a * b % 2 ^ 32 :=
  Nat.mod_mod_of_dvd _ (Nat.pow_dvd_pow 2 (by omega))

/-- What the size expression is worth. Its lower half is the lower half of the number of
bytes; where no element size is narrowed, it is the number of bytes modulo `2 ^ 64`. -/
theorem size_denotes {request : AllocRequest} (hrequest : request.WellTyped) (σ : Env) :
    ∃ x : BitVec 64, Denotes σ (request.size 64) x
      ∧ x.toNat % 2 ^ 32 = request.requested σ % 2 ^ 32
      ∧ ((request.args true).site = .function → x.toNat = request.requested σ % 2 ^ 64) := by
  cases request with
  | malloc size =>
    obtain ⟨x, hx, hvalue⟩ := denotes_operand hrequest.1 hrequest.2 σ
    refine ⟨x, hx, ?_, fun _ => ?_⟩
    · rw [requested, hvalue]
    · rw [requested, hvalue, Nat.mod_eq_of_lt x.isLt]
  | realloc size reallocFrom =>
    obtain ⟨x, hx, hvalue⟩ := denotes_operand hrequest.1 hrequest.2 σ
    refine ⟨x, hx, ?_, fun _ => ?_⟩
    · rw [requested, hvalue]
    · rw [requested, hvalue, Nat.mod_eq_of_lt x.isLt]
  | calloc nmemb size =>
    obtain ⟨⟨hnmemb, hnmembw⟩, hsize, hsizew⟩ := hrequest
    obtain ⟨x, hx, hxvalue⟩ := denotes_operand hnmemb hnmembw σ
    obtain ⟨y, hy, hyvalue⟩ := denotes_operand hsize hsizew σ
    refine ⟨x * y, MulExpr.create_denotes hx hy, ?_, fun _ => ?_⟩
    · rw [requested, hxvalue, hyvalue, BitVec.toNat_mul, mul_mod_mod]
    · rw [requested, hxvalue, hyvalue, BitVec.toNat_mul]
  | alloca elementSize count =>
    have helement : Denotes σ (ConstantExpr.alloc (elementSize % 2 ^ 32) 64)
        (BitVec.ofNat 64 (elementSize % 2 ^ 32)) := denotes_alloc (Nat.zero_lt_succ 63)
    have hnarrow : (BitVec.ofNat 64 (elementSize % 2 ^ 32)).toNat = elementSize % 2 ^ 32 := by
      rw [BitVec.toNat_ofNat]
      omega
    cases count with
    | none =>
      refine ⟨_, helement, ?_, fun hsite => absurd hsite (by simp [args])⟩
      rw [hnarrow, requested, Nat.mod_mod]
    | some count =>
      obtain ⟨hcount, hcountw⟩ := hrequest count rfl
      obtain ⟨y, hy, hyvalue⟩ := denotes_count hcount hcountw σ
      refine ⟨_, MulExpr.create_denotes helement hy, ?_,
        fun hsite => absurd hsite (by simp [args])⟩
      rw [BitVec.toNat_mul, hnarrow, mul_mod_mod, requested, hyvalue, Nat.mod_mul_mod]

end AllocRequest

/-! ## A settled size -/

theorem alloc_toNat_inj (x y : BitVec 64) :
    ConstantExpr.alloc x.toNat 64 = ConstantExpr.alloc y.toNat 64 ↔ x = y := by
  refine ⟨fun h => ?_, fun h => by rw [h]⟩
  simpa [ConstantExpr.alloc, APInt.ofNat] using h

section Bound

variable {s : MemoryState} {o : BoundObject}

/-- The objects of an address space have different addresses. -/
theorem eq_of_address_eq (hsorted : KeyedList.Sorted BoundObject.address s.objects)
    {o' : BoundObject} (ho : o ∈ s.objects) (ho' : o' ∈ s.objects)
    (h : o'.mo.address = o.mo.address) : o' = o := by
  have hfind := (KeyedList.toMap_keyOf hsorted).mpr ho
  have hfind' := (KeyedList.toMap_keyOf hsorted).mpr ho'
  have hkey : BoundObject.address o' = BoundObject.address o := by
    rw [BoundObject.address, BoundObject.address, h]
  rw [hkey, hfind] at hfind'
  exact (Option.some.inj hfind').symm

/-- A state that points to an object has what was asked for when the object has. -/
theorem allocatesBytes_bound_iff (hsorted : KeyedList.Sorted BoundObject.address s.objects)
    (ho : o ∈ s.objects) (htarget : s.target = some (o.mo.getBaseExpr 64))
    (haddress : o.mo.address ≠ 0) (n : ℕ) :
    AllocatesBytes 64 n (s, .continues) ↔ o.mo.size.toNat = n := by
  constructor
  · rintro (⟨message, suffix, h⟩ | h | ⟨o', ho', hbase, hsize⟩)
    · exact absurd h (by simp)
    · rw [htarget, Option.some.injEq] at h
      exact absurd ((alloc_toNat_inj _ 0).mp h) haddress
    · rw [htarget, Option.some.injEq] at hbase
      rw [← eq_of_address_eq hsorted ho ho' ((alloc_toNat_inj _ _).mp hbase).symm]
      exact hsize
  · exact fun h => .inr (.inr ⟨o, ho, htarget, h⟩)

end Bound

namespace MemoryExecutor

/-- The host has no memory for a size. -/
def Refuses (ex : MemoryExecutor) (n : ℕ) : Prop :=
  ex.memory.malloc ex.memory.calls (BitVec.ofNat 32 n) = 0

section Settled

variable {ex : MemoryExecutor} {state : MemoryState} {args : AllocArgs} {request : AllocRequest}
  {CE : APInt} {r : MemoryResult}

/-- The objects of the state that an allocation goes on with are in order. -/
theorem sorted_release (hsorted : KeyedList.Sorted BoundObject.address state.objects)
    (o : BoundObject) (value : Expr) :
    KeyedList.Sorted BoundObject.address
      (release args ((state.bindObject o).bindLocal value)).objects := by
  have hbind : KeyedList.Sorted BoundObject.address (state.bindObject o).objects := by
    refine KeyedList.sorted_alter (fun _ _ v hv => ?_) hsorted
    rw [← Option.some.inj hv]
  unfold release
  split
  next => exact hbind
  next old _ => exact KeyedList.sorted_alter (fun _ _ v hv => absurd hv (by simp)) hbind

/-- The new object is not what is released. -/
theorem mem_release (hlive : AllocArgs.Live args ex.memory) (os : ObjectState) (value : Expr) :
    ⟨ex.newObject CE args, os, false⟩
      ∈ (release args ((state.bindObject ⟨ex.newObject CE args, os, false⟩).bindLocal value)).objects
    := by
  unfold release
  split
  next => exact KeyedList.mem_alter_self _ _ _
  next old hold =>
    refine KeyedList.mem_alter_of_ne (KeyedList.mem_alter_self _ _ _) fun heq => ?_
    exact hlive old hold _ _ (BitVec.toNat_inj.mp heq)

theorem release_constraints (args : AllocArgs) (s : MemoryState) :
    (release args s).constraints = s.constraints := by
  unfold release
  split <;> rfl

theorem release_target (args : AllocArgs) (s : MemoryState) :
    (release args s).target = s.target := by
  unfold release
  split <;> rfl

/-- A settled size is right when the host refuses it, or its lower half is what was asked
for. -/
theorem executeAllocConstant_allocates (hpointer : ex.pointerWidth = 64)
    (hlive : AllocArgs.Live args ex.memory)
    (hsorted : KeyedList.Sorted BoundObject.address state.objects)
    (h : ex.executeAllocConstant state CE args = some r) :
    r.AllocatesRequested 64 request
      ↔ ex.Refuses CE.toNat
        ∨ ∀ σ, Satisfies σ state.constraints → CE.toNat % 2 ^ 32 = request.requested σ := by
  obtain ⟨-, ⟨hnull, hstates⟩ | ⟨os, hsome, -, hstates⟩⟩ := executeAllocConstant_inv h
  · refine iff_of_true (fun x hx σ hσ => ?_) (.inl hnull)
    rw [hstates, List.mem_singleton] at hx
    rw [hx, hpointer]
    exact .inr (.inl rfl)
  · have hsize : (ex.newObject CE args).size.toNat = CE.toNat % 2 ^ 32 := BitVec.toNat_ofNat ..
    have hbound := fun n => allocatesBytes_bound_iff
      (sorted_release hsorted ⟨ex.newObject CE args, os, false⟩
        ((ex.newObject CE args).getBaseExpr ex.pointerWidth))
      (mem_release hlive os _) (by rw [release_target, hpointer]; rfl) hsome n
    have hall : r.AllocatesRequested 64 request ↔ ∀ σ, Satisfies σ state.constraints →
        CE.toNat % 2 ^ 32 = request.requested σ := by
      rw [MemoryResult.AllocatesRequested, hstates, List.forall_mem_singleton,
        release_constraints]
      refine forall_congr' fun σ => imp_congr_right fun _ => ?_
      rw [hbound, hsize]
    rw [hall]
    exact ⟨.inr, fun hcond => hcond.resolve_left hsome⟩

end Settled

/-! ## When the size is right -/

/-- What a request must be for its allocation to have the size: below `2 ^ 32` where the size
is settled, or refused by the host. Where it is open, the function must be known, a seed of
the single-path mode must have the only size there is, and otherwise no product may wrap to a
size that is bound. -/
structure SizeFits (ex : MemoryExecutor) (request : AllocRequest) (known : Bool)
    (state : MemoryState) : Prop where
  settled : (toUnique ex.toExecutor state.constraints (request.size 64)).isConstant = true →
    ∀ σ, Satisfies σ state.constraints →
      ex.Refuses (request.requested σ) ∨ request.requested σ < 2 ^ 32
  known : (toUnique ex.toExecutor state.constraints (request.size 64)).isConstant = false →
    known = true
  seed : (toUnique ex.toExecutor state.constraints (request.size 64)).isConstant = false →
    ex.SinglePath state.id →
    ∀ res, getValueOfSeed ex.toExecutor state.toExecutionState (request.size 64) = some res →
      ex.Refuses res.toNat
        ∨ ∀ σ, Satisfies σ state.constraints → res.toNat % 2 ^ 32 = request.requested σ
  wraps : (toUnique ex.toExecutor state.constraints (request.size 64)).isConstant = false →
    ¬ex.SinglePath state.id → ∀ σ, Satisfies σ state.constraints →
      0 < request.requested σ % 2 ^ 64 → request.requested σ % 2 ^ 64 ≤ 2 ^ 15 →
      request.requested σ < 2 ^ 64

section Request

variable {ex : MemoryExecutor} {state : MemoryState} {request : AllocRequest} {known : Bool}
  {chances : ℕ → ForkChance} {r : MemoryResult}

/-- The size is settled. -/
theorem allocate_settled (hpointer : ex.pointerWidth = 64)
    (hlive : AllocArgs.Live (request.args known) ex.memory)
    (hready : ex.Ready state) (hsat : ∃ σ, Satisfies σ state.constraints)
    (hsorted : KeyedList.Sorted BoundObject.address state.objects)
    (hrequest : request.WellTyped)
    (hconst : (toUnique ex.toExecutor state.constraints (request.size 64)).isConstant = true)
    (h : ex.allocate request known chances state = some r) :
    r.AllocatesRequested 64 request ↔ ∀ σ, Satisfies σ state.constraints →
      ex.Refuses (request.requested σ) ∨ request.requested σ < 2 ^ 32 := by
  obtain ⟨τ, hτ⟩ := hsat
  have htyped : (request.size 64).WellTyped := (AllocRequest.size_denotes hrequest τ).choose_spec.1.1
  rw [allocate, executeAlloc, hpointer] at h
  cases hunique : toUnique ex.toExecutor state.constraints (request.size 64) with
  | Constant CE =>
    rw [show ({ state with target := none } : MemoryState).constraints = state.constraints from rfl,
      hunique] at h
    -- the value of the size, of which the lower half is that of the number of bytes
    have hlow : ∀ σ, Satisfies σ state.constraints →
        CE.toNat % 2 ^ 32 = request.requested σ % 2 ^ 32 := by
      intro σ hσ
      obtain ⟨x, hx, hmod, -⟩ := AllocRequest.size_denotes hrequest σ
      have heval := eval_of_toUnique hready ⟨τ, hτ⟩ htyped hunique σ hσ
      rw [hx.2] at heval
      rw [← heval]
      exact hmod
    have hrefuses : ∀ σ, Satisfies σ state.constraints →
        (ex.Refuses CE.toNat ↔ ex.Refuses (request.requested σ)) := by
      intro σ hσ
      have hsame : BitVec.ofNat 32 CE.toNat = BitVec.ofNat 32 (request.requested σ) :=
        BitVec.eq_of_toNat_eq (by rw [BitVec.toNat_ofNat, BitVec.toNat_ofNat, hlow σ hσ])
      rw [Refuses, Refuses, hsame]
    rw [executeAllocConstant_allocates hpointer hlive hsorted h]
    constructor
    · rintro (hnull | hall) σ hσ
      · exact .inl ((hrefuses σ hσ).mp hnull)
      · refine .inr ?_
        rw [← hall σ hσ]
        exact Nat.mod_lt _ (by omega)
    · intro hall
      by_cases hnull : ex.Refuses CE.toNat
      · exact .inl hnull
      · refine .inr fun σ hσ => ?_
        have hlt := (hall σ hσ).resolve_left fun hσnull => hnull ((hrefuses σ hσ).mpr hσnull)
        rw [hlow σ hσ, Nat.mod_eq_of_lt hlt]
  | _ =>
    rw [hunique] at hconst
    exact absurd hconst (by simp [Expr.isConstant])

/-- A size that is left open goes to `doSizeControlledMalloc`. -/
theorem allocate_open (hpointer : ex.pointerWidth = 64)
    (hopen : (toUnique ex.toExecutor state.constraints (request.size 64)).isConstant = false)
    (h : ex.allocate request known chances state = some r) :
    ex.doSizeControlledMalloc (request.size 64) (request.args known) chances
      { state with target := none } = some r := by
  have hself := (toUnique_cases ex.toExecutor state.constraints (request.size 64)).resolve_right
    fun ⟨value, hvalue⟩ => by rw [hvalue] at hopen; exact absurd hopen (by simp [Expr.isConstant])
  rw [allocate, executeAlloc, hpointer] at h
  split at h
  next CE hCE =>
    rw [show toUnique ex.toExecutor state.constraints (request.size 64) = .Constant CE from hCE]
      at hopen
    exact absurd hopen (by simp [Expr.isConstant])
  next =>
    rw [show toUnique ex.toExecutor ({ state with target := none } : MemoryState).constraints
      (request.size 64) = request.size 64 from hself] at h
    exact h

/-- Nothing is allocated by a function that is not known. -/
theorem allocate_unknown (hsat : ∃ σ, Satisfies σ state.constraints)
    (h : ex.doSizeControlledMalloc (request.size 64) (request.args false) chances
      { state with target := none } = some r) : ¬r.AllocatesRequested 64 request := by
  obtain ⟨σ, hσ⟩ := hsat
  have hr : r = ⟨ex, [({ state with target := none }, .continues)], []⟩ := by
    cases request with
    | alloca elementSize count => exact absurd h (by simp [doSizeControlledMalloc, AllocRequest.args])
    | _ => exact (Option.some.inj h).symm
  intro hall
  subst hr
  rcases hall _ (List.mem_singleton_self _) σ hσ with ⟨_, _, h⟩ | h | ⟨o, -, h, -⟩
  · exact absurd h (by simp)
  · exact absurd h (by simp)
  · exact absurd h (by simp)

/-- A known function is called, since a call of `executeAlloc` from an `alloca` fails here. -/
theorem site_of_open (h : ex.doSizeControlledMalloc (request.size 64) (request.args true) chances
    { state with target := none } = some r) : (request.args true).site = .function := by
  cases request with
  | alloca elementSize count => exact absurd h (by simp [doSizeControlledMalloc, AllocRequest.args])
  | _ => rfl

/-- In single-path mode the size is that of the seed. -/
theorem allocate_seed (hpointer : ex.pointerWidth = 64)
    (hlive : AllocArgs.Live (request.args true) ex.memory)
    (hsorted : KeyedList.Sorted BoundObject.address state.objects)
    (hseed : ex.SinglePath state.id)
    (h : ex.doSizeControlledMalloc (request.size 64) (request.args true) chances
      { state with target := none } = some r) :
    r.AllocatesRequested 64 request ↔ ∀ res,
      getValueOfSeed ex.toExecutor state.toExecutionState (request.size 64) = some res →
      ex.Refuses res.toNat
        ∨ ∀ σ, Satisfies σ state.constraints → res.toNat % 2 ^ 32 = request.requested σ := by
  have hsite := site_of_open h
  obtain ⟨hfork, siit, seeds, hseeds⟩ := hseed
  simp only [doSizeControlledMalloc, hsite, hfork, hseeds, bind, Option.bind_eq_some_iff] at h
  obtain ⟨res, hres, h⟩ := h
  rw [executeAllocConstant_allocates hpointer hlive hsorted h, hres]
  simp only [Option.some.injEq, forall_eq']

/-- Otherwise the sizes are told apart, as products. -/
theorem allocate_forks (hpointer : ex.pointerWidth = 64)
    (hlive : AllocArgs.Live (request.args true) ex.memory) (hready : ex.Ready state)
    (hrequest : request.WellTyped) (hseed : ¬ex.SinglePath state.id)
    (hwraps : ∀ σ, Satisfies σ state.constraints → 0 < request.requested σ % 2 ^ 64 →
      request.requested σ % 2 ^ 64 ≤ 2 ^ 15 → request.requested σ < 2 ^ 64)
    (h : ex.doSizeControlledMalloc (request.size 64) (request.args true) chances
      { state with target := none } = some r) : r.AllocatesRequested 64 request := by
  have hsite := site_of_open h
  have htyped : (request.size 64).WellTyped :=
    (AllocRequest.size_denotes hrequest fun _ _ => 0).choose_spec.1.1
  have hready' : ex.Ready { state with target := none } :=
    ⟨hready.solver, hready.widths, hready.isBool⟩
  have hmeets := doSizeControlledMalloc_meets hlive hready' htyped hseed h
  intro x hx σ hσ
  obtain ⟨hroot, hout⟩ := hmeets.sound x hx σ hσ
  obtain ⟨y, hy, -, hmod⟩ := AllocRequest.size_denotes hrequest σ
  have hvalue : ((request.size 64).eval σ).toNat = request.requested σ % 2 ^ 64 := by
    rw [hy.2, ← hmod hsite]
    rfl
  obtain ⟨⟨-, hfate⟩, hsmall⟩ := hout
  cases hfate with
  | bound ho hsize htarget =>
    have hrange := hsmall hsite rfl
    rw [hvalue, hy.width_eq] at hrange
    have hlt := hwraps σ hroot hrange.1 (hrange.2.trans (Nat.mod_le _ _))
    refine .inr (.inr ⟨_, ho, hpointer ▸ htarget, ?_⟩)
    rw [hsize, hvalue, Nat.mod_eq_of_lt hlt]
  | outOfMemory hnull htarget => exact .inr (.inl (hpointer ▸ htarget))
  | unknownFunction hunknown => exact absurd (hsite.symm.trans hunknown) (by simp)
  | huge hsize htarget => exact .inr (.inl (hpointer ▸ htarget))
  | zero hsize => exact .inl ⟨_, _, rfl⟩
  | overflow hsize => exact .inl ⟨_, _, rfl⟩
  | controlled hpos hle => exact .inl ⟨_, _, rfl⟩

/-- An allocation has the size that was requested when the request fits, and only then,
except that an open product that wraps is bound when the solver picks its value. -/
theorem allocates_requested_iff (hpointer : ex.pointerWidth = 64)
    (hlive : AllocArgs.Live (request.args known) ex.memory)
    (hready : ex.Ready state) (hsat : ∃ σ, Satisfies σ state.constraints)
    (hsorted : KeyedList.Sorted BoundObject.address state.objects)
    (hrequest : request.WellTyped)
    (h : ex.allocate request known chances state = some r) :
    (ex.SizeFits request known state → r.AllocatesRequested 64 request)
      ∧ ((toUnique ex.toExecutor state.constraints (request.size 64)).isConstant = true
          ∨ known = false ∨ ex.SinglePath state.id →
        r.AllocatesRequested 64 request → ex.SizeFits request known state) := by
  cases hunique : (toUnique ex.toExecutor state.constraints (request.size 64)).isConstant with
  | true =>
    have hiff := allocate_settled hpointer hlive hready hsat hsorted hrequest hunique h
    refine ⟨fun hfits => hiff.mpr (hfits.settled hunique), fun _ hall => ?_⟩
    exact ⟨fun _ => hiff.mp hall, fun hopen => by simp [hunique] at hopen,
      fun hopen => by simp [hunique] at hopen, fun hopen => by simp [hunique] at hopen⟩
  | false =>
    have hopen := allocate_open hpointer hunique h
    cases known with
    | false =>
      have hnot := allocate_unknown hsat hopen
      exact ⟨fun hfits => absurd (hfits.known hunique) (by simp), fun _ hall => absurd hall hnot⟩
    | true =>
      by_cases hseed : ex.SinglePath state.id
      · have hiff := allocate_seed hpointer hlive hsorted hseed hopen
        refine ⟨fun hfits => hiff.mpr (hfits.seed hunique hseed), fun _ hall => ?_⟩
        exact ⟨fun hconst => by simp [hunique] at hconst, fun _ => rfl, fun _ _ => hiff.mp hall,
          fun _ hnot => absurd hseed hnot⟩
      · refine ⟨fun hfits => ?_, fun hcases => absurd hcases (by simp [hseed])⟩
        exact allocate_forks hpointer hlive hready hrequest hseed (hfits.wraps hunique hseed) hopen

end Request

/-! ### Two runs -/

/-- A size that must be 8 fits, and gets an object of 8 bytes. -/
theorem allocates_requested_eight :
    ∃ r, (plainMemoryExecutor eightSolver).allocate (.malloc inputSize) true
        (fun _ => ⟨false, false⟩) (emptyState [sizeIs 8]) = some r
      ∧ r.AllocatesRequested 64 (.malloc inputSize) := by
  obtain ⟨r, hr⟩ : ∃ r, (plainMemoryExecutor eightSolver).allocate (.malloc inputSize) true
      (fun _ => ⟨false, false⟩) (emptyState [sizeIs 8]) = some r := ⟨_, rfl⟩
  have hrequest : (AllocRequest.malloc inputSize).WellTyped :=
    (⟨by decide, rfl⟩ : inputSize.WellTyped ∧ inputSize.width = 64)
  have hconst : (toUnique (plainMemoryExecutor eightSolver).toExecutor
      (emptyState [sizeIs 8]).constraints ((AllocRequest.malloc inputSize).size 64)).isConstant
        = true := rfl
  refine ⟨r, hr, (allocates_requested_iff rfl ?_ (eightSolver_ready sizeIs_eight_isBool)
    ⟨_, satisfies_eight⟩ .nil hrequest hr).1 ⟨fun _ σ hσ => .inr ?_, ?_, ?_, ?_⟩⟩
  · exact fun o ho => absurd ho (by simp [AllocRequest.args])
  · have hsize := (holds_sizeIs 8 σ).mp (hσ _ (List.mem_singleton_self _))
    rw [AllocRequest.requested, hsize]
    decide
  · exact fun hopen => absurd (hconst.symm.trans hopen) (by decide)
  · exact fun hopen => absurd (hconst.symm.trans hopen) (by decide)
  · exact fun hopen => absurd (hconst.symm.trans hopen) (by decide)

/-- `malloc(2 ^ 32 + 8)`. -/
def largeMalloc : AllocRequest := .malloc (ConstantExpr.alloc (2 ^ 32 + 8) 64)

/-- It gets an object of 8 bytes. -/
theorem not_allocates_requested_malloc :
    ∃ r, (plainMemoryExecutor eightSolver).allocate largeMalloc true (fun _ => ⟨false, false⟩)
        (emptyState []) = some r
      ∧ (∀ x ∈ r.states, ∀ o ∈ x.1.objects, o.mo.size = 8)
      ∧ ¬r.AllocatesRequested 64 largeMalloc := by
  obtain ⟨r, hr⟩ : ∃ r, (plainMemoryExecutor eightSolver).allocate largeMalloc true
      (fun _ => ⟨false, false⟩) (emptyState []) = some r := ⟨_, rfl⟩
  have hlive : AllocArgs.Live (largeMalloc.args true) (plainMemoryExecutor eightSolver).memory :=
    fun o ho => absurd ho (by simp [largeMalloc, AllocRequest.args])
  have hrequest : largeMalloc.WellTyped :=
    (⟨by decide, rfl⟩ : (ConstantExpr.alloc (2 ^ 32 + 8) 64).WellTyped
      ∧ (ConstantExpr.alloc (2 ^ 32 + 8) 64).width = 64)
  have hzero : Satisfies (fun _ _ => 0) (emptyState []).constraints :=
    fun c hc => absurd hc List.not_mem_nil
  refine ⟨r, hr, ?_, fun hall => ?_⟩
  · have hconst : (plainMemoryExecutor eightSolver).executeAllocConstant (emptyState [])
        (APInt.ofNat 64 (2 ^ 32 + 8)) (largeMalloc.args true) = some r := hr
    obtain ⟨s, hstates, -, -, hobjects, -⟩ := executeAllocConstant_cases hlive hconst
    intro x hx o ho
    rw [hstates, List.mem_singleton] at hx
    subst hx
    exact (hobjects o ho).resolve_left (by simp [emptyState])
  · rw [allocate_settled rfl hlive (eightSolver_ready (by simp)) ⟨_, hzero⟩ .nil hrequest rfl hr]
      at hall
    have hfits := hall _ hzero
    revert hfits
    unfold Refuses
    decide

end MemoryExecutor

end Xklee
