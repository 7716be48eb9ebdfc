/-
What `executeAlloc` makes of each assignment of a state, in an executor in which nothing but
the solver decides a branch.

The assignments under which an object is bound find it at an address where there was none,
with the first bytes of `reallocFrom` in it, and every other object of the state but
`reallocFrom`. A size that the constraints leave open may be reported instead, or counted as
one for which the host has no memory; then no object is bound or unbound.
-/
import Xklee.Core.StateParts
import Xklee.Core.MemoryPartition
import Xklee.Data.Partial

set_option autoImplicit false

namespace Xklee

namespace MemoryExecutor

/-! ## Copying -/

/-- `m'` behind the first `count` bytes of `m`. -/
def copied (count : ℕ) (m m' : ByteMemory) : ByteMemory := fun i => if i < count then m i else m' i

theorem copied_zero (m m' : ByteMemory) : copied 0 m m' = m' := by
  funext i
  exact if_neg (Nat.not_lt_zero i)

theorem copied_succ (count : ℕ) (m m' : ByteMemory) :
    copied (count + 1) m m' = Function.update (copied count m m') count (m count) := by
  funext i
  by_cases hi : i = count
  · rw [hi, Function.update_self]
    exact if_pos (Nat.lt_succ_self count)
  · rw [Function.update_of_ne hi]
    exact if_congr (by omega) rfl rfl

/-- One round of the loop that copies. -/
def copyByte (littleEndian : Bool) (s : ObjectState × ObjectState) (i : ℕ) :
    Option (ObjectState × ObjectState) := do
  let (value, reallocFrom) ← s.1.read8 i
  let os ← s.2.writeAt littleEndian i value
  some (reallocFrom, os)

theorem copyBytes_eq (littleEndian : Bool) (count : ℕ) (reallocFrom os : ObjectState) :
    copyBytes littleEndian count reallocFrom os
      = ((List.range count).foldlM (copyByte littleEndian) (reallocFrom, os)).map Prod.snd := rfl

section Copy

variable {σ : Env} {m m' : ByteMemory} {old os : ObjectState} (littleEndian : Bool) {count : ℕ}

/-- A round copies one byte: a read may flush the old object, whose contents stay. -/
theorem copyByte_returns (hold : old.Represents σ m) (hos : os.Represents σ m') {i : ℕ}
    (hi : i < old.size) (hi' : i < os.size) :
    ∃ s, copyByte littleEndian (old, os) i = some s ∧ s.1.Represents σ m ∧ s.1.size = old.size
      ∧ s.2.Represents σ (Function.update m' i (m i)) ∧ s.2.size = os.size := by
  obtain ⟨value, old', hread, hvalue, hold', hsize⟩ := ObjectState.read8_returns hold hi
  have hwidth : value.width = 8 := hvalue.width_eq
  have hone : ObjectState.accessBytes value.width = 1 := by
    rw [hwidth]
    rfl
  obtain ⟨os', hwrite, hos', hsize'⟩ := ObjectState.writeAt_leaves littleEndian hos hvalue.1
    (.inr (.inl hwidth)) (by omega : i + ObjectState.accessBytes value.width ≤ os.size)
  have hbyte : ObjectState.storeValue littleEndian m' i (value.eval σ)
      = Function.update m' i (m i) := by
    rw [hvalue.2, ObjectState.storeValue_byte littleEndian rfl, BitVec.setWidth_eq]
  refine ⟨(old', os'), ?_, hold', hsize, hbyte ▸ hos', hsize'⟩
  show (old.read8 i).bind _ = _
  rw [hread, Option.bind_some]
  show (os.writeAt littleEndian i value).bind _ = _
  rw [hwrite, Option.bind_some]

/-- The loop leaves the first bytes of the old object in the new one. -/
theorem copyBytes_leaves (hold : old.Represents σ m) (hos : os.Represents σ m')
    (hcount : count ≤ old.size) (hcount' : count ≤ os.size) :
    ObjectState.Leaves σ os (copied count m m') (copyBytes littleEndian count old os) := by
  obtain ⟨s, hs, -, -, hrep, hsize⟩ : ∃ s,
      (List.range count).foldlM (copyByte littleEndian) (old, os) = some s
      ∧ s.1.Represents σ m ∧ s.1.size = old.size ∧ s.2.Represents σ (copied count m m')
      ∧ s.2.size = os.size := by
    induction count with
    | zero => exact ⟨(old, os), rfl, hold, rfl, (copied_zero m m').symm ▸ hos, rfl⟩
    | succ count ih =>
      obtain ⟨s, hs, hold', hsize, hos', hsize'⟩ := ih (by omega) (by omega)
      obtain ⟨t, ht, hold'', hsize'', hos'', hsize'''⟩ :=
        copyByte_returns littleEndian hold' hos' (i := count) (by omega) (by omega)
      refine ⟨t, ?_, hold'', hsize''.trans hsize, ?_, hsize'''.trans hsize'⟩
      · rw [Partial.foldlM_range_succ, hs]
        exact ht
      · rw [copied_succ]
        exact hos''
  refine ⟨s.2, ?_, hrep, hsize⟩
  rw [copyBytes_eq, hs]
  rfl

end Copy

/-! ## What becomes of an assignment -/

/-- `s` is `root` with a new object, and without `reallocFrom`, of which the new object has
the first bytes. -/
structure Binds (ex : MemoryExecutor) (args : AllocArgs) (σ : Env) (view : ℕ → ByteMemory)
    (root : MemoryState) (o : BoundObject) (s : MemoryState) : Prop where
  target : s.target = some (o.mo.getBaseExpr ex.pointerWidth)
  notNull : o.address ≠ 0
  fresh : ∀ p ∈ root.objects, p.address ≠ o.address
  kind : o.mo.isLocal = args.isLocal ∧ o.readOnly = false
  size : o.os.size = o.mo.size.toNat
  objects : ∀ p, p ∈ s.objects ↔ p = o ∨ p ∈ root.objects ∧ args.reallocFrom ≠ some p
  copied : ∀ old, args.reallocFrom = some old → ∃ m, o.os.Represents σ m
    ∧ ∀ i < min old.mo.size.toNat o.mo.size.toNat, m i = view old.address i

/-- The constraints leave the size open. -/
def SizeOpen (root : MemoryState) (size : Expr) : Prop :=
  ∃ σ τ, Satisfies σ root.constraints ∧ Satisfies τ root.constraints ∧ size.eval σ ≠ size.eval τ

/-- What is reported of an open size of `n` bytes. -/
inductive SizeReport (width n : ℕ) : Ending → Prop
  | zero (hsize : n = 0) : SizeReport width n (.error "malloc zero size" "zma.err")
  | overflow (hsize : (2 ^ 32 - 1) % 2 ^ width < n) :
      SizeReport width n (.error "integer overflow size" "iof.err")
  | controlled (hpos : 0 < n) (hsmall : n ≤ 2 ^ 15 % 2 ^ width) :
      SizeReport width n (.error "controlled symbolic size" "cma.err")

/-- What becomes of an assignment when `executeAlloc` is called on `root`. -/
inductive AllocOutcome (ex : MemoryExecutor) (args : AllocArgs) (σ : Env) (view : ℕ → ByteMemory)
    (root : MemoryState) (size : Expr) : MemoryState × Ending → Prop
  | bound {o : BoundObject} {s : MemoryState}
      (hsize : o.mo.size = BitVec.ofNat 32 (size.eval σ).toNat)
      (h : Binds ex args σ view root o s) : AllocOutcome ex args σ view root size (s, .continues)
  | outOfMemory {s : MemoryState} {n : ℕ}
      (hnull : ex.memory.malloc n (BitVec.ofNat 32 (size.eval σ).toNat) = 0)
      (hobjects : s.objects = root.objects)
      (htarget : s.target = some (ConstantExpr.alloc 0 ex.pointerWidth)) :
      AllocOutcome ex args σ view root size (s, .continues)
  | huge {s : MemoryState} (hopen : SizeOpen root size)
      (hsize : 2 ^ 15 % 2 ^ size.width < (size.eval σ).toNat) (hobjects : s.objects = root.objects)
      (htarget : s.target = some (ConstantExpr.alloc 0 ex.pointerWidth)) :
      AllocOutcome ex args σ view root size (s, .noted "NOTE: found huge malloc, returning 0")
  | reported {s : MemoryState} {ending : Ending} (hopen : SizeOpen root size)
      (h : SizeReport size.width (size.eval σ).toNat ending) :
      AllocOutcome ex args σ view root size (s, ending)
  | unknownFunction {s : MemoryState} (hsite : args.site = .unknownFunction)
      (hopen : SizeOpen root size) : AllocOutcome ex args σ view root size (s, .continues)

/-- An executor that can allocate in a state: `malloc` gives no address that is in use. -/
structure Allocates (ex : MemoryExecutor) (args : AllocArgs) (view : Env → ℕ → ByteMemory)
    (root : MemoryState) : Prop where
  holds : root.Holds ex.pointerWidth view
  source : ∀ old, args.reallocFrom = some old → old ∈ root.objects
  fresh : ∀ o ∈ root.objects, ∀ n size, ex.memory.malloc n size ≠ o.mo.address

/-! ## A constant size -/

section Constant

variable {ex ex₀ : MemoryExecutor} {args : AllocArgs} {view : Env → ℕ → ByteMemory}
  {root s : MemoryState} {size : Expr} {A : Env → Prop} {CE : APInt}

/-- The bytes that a new object starts with. -/
theorem newContents_represents (ex : MemoryExecutor) (CE : APInt) (args : AllocArgs) (σ : Env) :
    (ex.newContents CE args).size = (BitVec.ofNat 32 CE.toNat).toNat
      ∧ ∃ m, (ex.newContents CE args).Represents σ m := by
  have hstart : (ex.newObjectState (ex.newObject CE args)).1.Represents σ fun _ => 0 :=
    ObjectState.ofConcrete_represents σ _ _ _
  rw [newContents]
  split
  · exact ⟨rfl, _, hstart.makeConcrete fun _ => 0⟩
  · exact ⟨rfl, _, hstart.makeConcrete fun _ => 0xAB⟩

/-- An allocation of a constant size returns if the bytes of `reallocFrom` can be copied. -/
theorem executeAllocConstant_returns (hwidth : CE.width ≤ 64)
    (hcopy : ∀ old, args.reallocFrom = some old → ∃ os,
      copyBytes ex.isLittleEndian (min old.os.size (ex.newContents CE args).size) old.os
        (ex.newContents CE args) = some os) :
    ∃ r, ex.executeAllocConstant s CE args = some r ∧ ex.Follows r.executor
      ∧ r.executor.toExecutor = ex.toExecutor := by
  rw [executeAllocConstant, if_pos hwidth]
  by_cases hnull : ex.memory.malloc ex.memory.calls (BitVec.ofNat 32 CE.toNat) = 0
  · rw [show ex.memory.allocate CE.toNat args.isLocal
      = (none, { ex.memory with calls := ex.memory.calls + 1 }) from if_pos hnull]
    exact ⟨_, rfl, ⟨rfl, rfl, rfl, rfl⟩, rfl⟩
  · rw [show ex.memory.allocate CE.toNat args.isLocal = (some (ex.newObject CE args),
        { ex.memory with calls := ex.memory.calls + 1, counter := ex.memory.counter + 1 })
      from if_neg hnull]
    dsimp only
    cases hfrom : args.reallocFrom with
    | none => exact ⟨_, rfl, ⟨rfl, rfl, rfl, rfl⟩, rfl⟩
    | some old =>
      obtain ⟨os, hos⟩ := hcopy old hfrom
      exact ⟨_, Partial.bind_of_eq hos _, ⟨rfl, rfl, rfl, rfl⟩, rfl⟩

/-- The bytes of `reallocFrom` are copied. -/
theorem Allocates.copies (h : Allocates ex args view root) {σ : Env}
    (hσ : Satisfies σ root.constraints) {old : BoundObject} (hfrom : args.reallocFrom = some old)
    (littleEndian : Bool) {contents : ObjectState} {m : ByteMemory}
    (hcontents : contents.Represents σ m) :
    ObjectState.Leaves σ contents
      (copied (min old.os.size contents.size) (view σ old.address) m)
      (copyBytes littleEndian (min old.os.size contents.size) old.os contents) :=
  copyBytes_leaves littleEndian (h.holds.shows σ hσ old (h.source old hfrom)).2 hcontents (Nat.min_le_left _ _)
    (Nat.min_le_right _ _)

/-- The objects behind an allocation. -/
theorem Allocates.mem_release (h : Allocates ex args view root) (hobjects : s.objects = root.objects)
    {o : BoundObject} (hfresh : ∀ p ∈ root.objects, p.address ≠ o.address) (value : Expr)
    (p : BoundObject) :
    p ∈ (release args ((s.bindObject o).bindLocal value)).objects
      ↔ p = o ∨ p ∈ root.objects ∧ args.reallocFrom ≠ some p := by
  have hsorted := h.holds.layout.sorted
  have hown : ∀ v, some o = some v → BoundObject.address v = o.address := fun v hv =>
    congrArg BoundObject.address (Option.some.inj hv).symm
  have hbind : ∀ q, q ∈ KeyedList.alter BoundObject.address o.address (fun _ => some o) s.objects
      ↔ q = o ∨ q ∈ root.objects := by
    intro q
    rw [hobjects, KeyedList.mem_alter_const_iff hsorted hown, Option.some.injEq, eq_comm]
    exact or_congr_right ⟨And.left, fun hq => ⟨hq, hfresh q hq⟩⟩
  cases hfrom : args.reallocFrom with
  | none =>
    rw [release, hfrom]
    refine (hbind p).trans (or_congr_right ⟨fun hp => ⟨hp, by simp⟩, And.left⟩)
  | some old =>
    have hold := h.source old hfrom
    rw [release, hfrom]
    show p ∈ KeyedList.alter BoundObject.address old.address (fun _ => none)
      (KeyedList.alter BoundObject.address o.address (fun _ => some o) s.objects) ↔ _
    have hsorted' : KeyedList.Sorted BoundObject.address
        (KeyedList.alter BoundObject.address o.address (fun _ => some o) s.objects) :=
      KeyedList.sorted_alter (fun _ _ => hown) (hobjects ▸ hsorted)
    rw [KeyedList.mem_alter_const_iff hsorted' (by simp), hbind]
    constructor
    · rintro (hp | ⟨rfl | hp, hne⟩)
      · exact absurd hp (by simp)
      · exact .inl rfl
      · exact .inr ⟨hp, fun heq => hne (congrArg BoundObject.address (Option.some.inj heq).symm)⟩
    · rintro (rfl | ⟨hp, hne⟩)
      · exact .inr ⟨.inl rfl, (hfresh old hold).symm⟩
      · exact .inr ⟨.inr hp, fun haddress =>
          hne (congrArg some (h.holds.layout.eq_of_address hp hold haddress).symm)⟩

/-- An allocation of a constant size binds an object of that size. -/
theorem executeAllocConstant_yields (h : Allocates ex₀ args view root) (hfollows : ex₀.Follows ex)
    (hside : Side ex root A s) (hwidth : CE.width ≤ 64)
    (hvalue : ∀ σ, Satisfies σ s.constraints → size.eval σ = CE) :
    ex.Yields (fun σ => Satisfies σ s.constraints)
      (fun σ => AllocOutcome ex₀ args σ (view σ) root size) (ex.executeAllocConstant s CE args) := by
  have hroot : ∀ σ, Satisfies σ s.constraints → Satisfies σ root.constraints := fun σ hσ =>
    ((hside.satisfies σ).mp hσ).1
  obtain ⟨r, hr, hfollows', hsame⟩ : ∃ r, ex.executeAllocConstant s CE args = some r
      ∧ ex.Follows r.executor ∧ r.executor.toExecutor = ex.toExecutor := by
    refine executeAllocConstant_returns hwidth fun old hfrom => ?_
    obtain ⟨σ, hσ⟩ := hside.going.isOpen.satisfiable
    obtain ⟨-, m, hm⟩ := newContents_represents ex CE args σ
    obtain ⟨os, hos, -⟩ := h.copies (hroot σ hσ) hfrom ex.isLittleEndian hm
    exact ⟨os, hos⟩
  refine ⟨r, hr, hfollows', hsame ▸ hside.going.free, ?_⟩
  obtain ⟨-, ⟨hnull, hstates⟩ | ⟨os, hsome, hos, hstates⟩⟩ := executeAllocConstant_inv hr
  · rw [hstates]
    refine .single (fun σ => Iff.rfl) fun σ hσ =>
      .outOfMemory (n := ex.memory.calls) ?_ hside.objects ?_
    · rw [hvalue σ hσ, ← hfollows.malloc]
      exact hnull
    · rw [← hfollows.pointerWidth]
      rfl
  · have hfresh : ∀ p ∈ root.objects, p.address ≠ (ex.newObject CE args).address.toNat := by
      intro p hp heq
      refine h.fresh p hp ex.memory.calls (BitVec.ofNat 32 CE.toNat) ?_
      rw [← hfollows.malloc]
      exact (BitVec.toNat_inj.mp heq).symm
    have hmem := h.mem_release hside.objects (o := ⟨ex.newObject CE args, os, false⟩) hfresh
      ((ex.newObject CE args).getBaseExpr ex.pointerWidth)
    have hconstraints : (release args ((s.bindObject ⟨ex.newObject CE args, os, false⟩).bindLocal
        ((ex.newObject CE args).getBaseExpr ex.pointerWidth))).constraints = s.constraints := by
      rw [release]
      split <;> rfl
    have htarget : (release args ((s.bindObject ⟨ex.newObject CE args, os, false⟩).bindLocal
        ((ex.newObject CE args).getBaseExpr ex.pointerWidth))).target
        = some ((ex.newObject CE args).getBaseExpr ex.pointerWidth) := by
      rw [release]
      split <;> rfl
    rw [hstates]
    refine .single (fun σ => by rw [hconstraints]) fun σ hσ => ?_
    obtain ⟨hsize, m, hm⟩ := newContents_represents ex CE args σ
    have hcopied : os.size = (BitVec.ofNat 32 CE.toNat).toNat
        ∧ ∀ old, args.reallocFrom = some old → ∃ m, os.Represents σ m
          ∧ ∀ i < min old.mo.size.toNat (BitVec.ofNat 32 CE.toNat).toNat,
            m i = view σ old.address i := by
      cases hfrom : args.reallocFrom with
      | none =>
        rw [hfrom] at hos
        dsimp only at hos
        exact ⟨hos ▸ hsize, fun old hold => absurd hold (by simp)⟩
      | some old =>
        rw [hfrom] at hos
        obtain ⟨os', hos', hrep, hsize'⟩ := h.copies (hroot σ hσ) hfrom ex.isLittleEndian hm
        obtain rfl := Option.some.inj (hos.symm.trans hos')
        refine ⟨hsize'.trans hsize, fun old' hold' => ⟨_, hrep, fun i hi => ?_⟩⟩
        obtain rfl := Option.some.inj hold'
        have hshow := (h.holds.shows σ (hroot σ hσ) old (h.source old hfrom)).1
        exact if_pos (by rw [hshow, hsize]; exact hi)
    refine .bound (o := ⟨ex.newObject CE args, os, false⟩) ?_ ?_
    · rw [hvalue σ hσ]
      rfl
    · exact ⟨hfollows.pointerWidth ▸ htarget, fun hzero => hsome (BitVec.toNat_inj.mp hzero), hfresh,
        ⟨rfl, rfl⟩, hcopied.1, hmem, hcopied.2⟩

end Constant

/-! ## An open size -/

section Open

variable {ex ex₀ : MemoryExecutor} {args : AllocArgs} {view : Env → ℕ → ByteMemory}
  {root s : MemoryState} {size : Expr} {A : Env → Prop} {chances : ℕ → ForkChance}
  {original : List Expr} {id : ℕ}

/-- The loop that halves a value returns when the solver answers. -/
theorem halveSize_returns {solver : TimingSolver} (hsolver : solver.Reliable original)
    (hsize : size.WellTyped) (n : ℕ) {value : APInt} (hwidth : value.width = size.width) :
    ∃ value', halveSize solver original size n value = some value' := by
  induction n generalizing value with
  | zero => exact ⟨value, rfl⟩
  | succ n ih =>
    rw [halveSize]
    split
    next =>
      have hhalf : (ConstantExpr.binary .LShr value (APInt.ofNat value.width 1)).width = size.width :=
        hwidth
      obtain ⟨res, hres, -⟩ := hsolver.mayBeTrue (eqValue_isBool hsize hhalf)
      dsimp only
      rw [Partial.bind_of_eq hres]
      split
      next => exact ih hwidth
      next => exact ⟨value, rfl⟩
    next => exact ⟨value, rfl⟩

/-- The constraints that the loop asks about can be asked about. -/
theorem reliable_constraintsOf {p : StatePair} {condition : Expr} {ex' : MemoryExecutor}
    (h : ex.TwoSides s condition p) (hfollows : ex.Follows ex')
    (horiginal : ex.solver.Reliable original) :
    ex'.solver.Reliable (constraintsOf p id original) := by
  rw [hfollows.solver, constraintsOf]
  split
  next => exact horiginal
  next t ht =>
    rw [← h.same.solver]
    rcases List.mem_append.mp (List.mem_of_find?_eq_some ht) with ht | ht
    · exact (h.first t (Option.mem_toList.mp ht)).going.reliable
    · exact (h.second t (Option.mem_toList.mp ht)).going.reliable

/-- A reported state, and the other one. -/
theorem terminateStateOnError_follows (hside : Side ex root A s) (message suffix : String) :
    ex.SameMemory (ex.terminateStateOnError s message suffix).1
      ∧ (ex.terminateStateOnError s message suffix).1.Free
      ∧ (ex.terminateStateOnError s message suffix).2.1.constraints = s.constraints :=
  ⟨terminateStateOnError_same ex s message suffix, hside.going.free.terminateState _, rfl⟩

/-- Without seeds a value is one that the solver gives. -/
theorem getValueOfSeed_returns (hgoing : ex.Going s) (hsize : size.WellTyped) :
    ∃ value, getValueOfSeed ex.toExecutor s.toExecutionState size = some value
      ∧ value.width = size.width := by
  obtain ⟨value, σ, hvalue, -, heval⟩ := hgoing.reliable.getValue hsize
  refine ⟨value, ?_, heval ▸ hsize.eval_width⟩
  rw [getValueOfSeed, ZESTEvaluate, hgoing.free.seedMap]
  exact hvalue

variable (h : Allocates ex₀ args view root) (hopen : SizeOpen root size) (hsize : size.WellTyped)
  (hwidth : size.width ≤ 64) (hchance : ∀ n, (chances n).atStaticLimit = false)

include h hopen hsize hwidth hchance

theorem allocExample_yields (hfollows : ex₀.Follows ex)
    (hside : Side ex root A s) (hA : ∀ σ, A σ → 0 < (size.eval σ).toNat
      ∧ (size.eval σ).toNat ≤ 2 ^ 15 % 2 ^ size.width)
    (horiginal : ex.solver.Reliable original) :
    ex.Yields (fun σ => Satisfies σ s.constraints)
      (fun σ => AllocOutcome ex₀ args σ (view σ) root size)
      (ex.allocExample size args chances s original) := by
  obtain ⟨value, hvalue, hvaluew⟩ := getValueOfSeed_returns hside.going hsize
  obtain ⟨value', hhalve⟩ := halveSize_returns horiginal hsize value.width hvaluew
  have hvaluew' : value'.width = size.width := (halveSize_width hhalve).trans hvaluew
  obtain ⟨p, hp, hsides⟩ := hside.going.forkState (eqValue_isBool hsize hvaluew') (hchance 3)
  rw [allocExample, Partial.bind_of_eq hvalue, if_pos hvaluew, Partial.bind_of_eq hhalve,
    Partial.bind_of_eq hp]
  apply reportThen_yields hsides.same hsides.free hsides.second hsides.first
  · exact fun hnone σ hσ hnot => hnot (hsides.noSecond hnone σ hσ)
  · exact hsides.noFirst
  · exact fun σ => not_not.symm
  · intro ex' t hfollows' ht
    obtain ⟨hsame, hfree, hconstraints⟩ :=
      terminateStateOnError_follows ht "controlled symbolic size" "cma.err"
    refine ⟨hsame, hfree, hconstraints, fun σ hσ => .reported hopen ?_⟩
    obtain ⟨hpos, hle⟩ := hA σ ((hside.satisfies σ).mp ((ht.satisfies σ).mp hσ).1).2
    exact .controlled hpos hle
  · intro ex' t hfollows' ht
    have hroot := hside.trans ht fun σ _ => Iff.rfl
    refine executeAllocConstant_yields h (hfollows.trans hfollows') hroot (hvaluew'.trans_le hwidth)
      fun σ hσ => ?_
    exact (holds_eqValue hsize hvaluew' σ).mp ((hroot.satisfies σ).mp hσ).2.2

theorem allocNotHuge_yields (hfollows : ex₀.Follows ex)
    (hside : Side ex root A s) (hA : ∀ σ, A σ → 0 < (size.eval σ).toNat)
    (horiginal : ex.solver.Reliable original) :
    ex.Yields (fun σ => Satisfies σ s.constraints)
      (fun σ => AllocOutcome ex₀ args σ (view σ) root size)
      (ex.allocNotHuge size args chances s id original) := by
  obtain ⟨p, hp, hsides⟩ := hside.going.forkState (above_isBool hsize _) (hchance 2)
  rw [allocNotHuge, Partial.bind_of_eq hp]
  apply reportThen_yields hsides.same hsides.free hsides.first hsides.second
  · exact hsides.noFirst
  · exact fun hnone σ hσ hnot => hnot (hsides.noSecond hnone σ hσ)
  · exact fun σ => Iff.rfl
  · intro ex' t hfollows' ht
    refine ⟨.refl _, ht.going.free, rfl, fun σ hσ => .huge hopen ?_ ?_ ?_⟩
    · exact (holds_above hsize _ σ).mp ((ht.satisfies σ).mp hσ).2
    · exact ht.objects.trans hside.objects
    · rw [← (hfollows.trans hfollows').pointerWidth]
      rfl
  · intro ex' t hfollows' ht
    refine allocExample_yields h hopen hsize hwidth hchance (hfollows.trans hfollows')
      (hside.trans ht fun σ _ => Iff.rfl) ?_ ?_
    · rintro σ ⟨hσ, hnot⟩
      rw [holds_above hsize, not_lt] at hnot
      exact ⟨hA σ hσ, hnot⟩
    · exact reliable_constraintsOf hsides hfollows' horiginal

theorem allocNoOverflow_yields (hfollows : ex₀.Follows ex)
    (hside : Side ex root A s) (hA : ∀ σ, A σ → 0 < (size.eval σ).toNat)
    (horiginal : ex.solver.Reliable original) :
    ex.Yields (fun σ => Satisfies σ s.constraints)
      (fun σ => AllocOutcome ex₀ args σ (view σ) root size)
      (ex.allocNoOverflow size args chances s id original) := by
  obtain ⟨p, hp, hsides⟩ := hside.going.forkState (above_isBool hsize _) (hchance 1)
  rw [allocNoOverflow, Partial.bind_of_eq hp]
  apply reportThen_yields hsides.same hsides.free hsides.first hsides.second
  · exact hsides.noFirst
  · exact fun hnone σ hσ hnot => hnot (hsides.noSecond hnone σ hσ)
  · exact fun σ => Iff.rfl
  · intro ex' t hfollows' ht
    obtain ⟨hsame, hfree, hconstraints⟩ :=
      terminateStateOnError_follows ht "integer overflow size" "iof.err"
    refine ⟨hsame, hfree, hconstraints, fun σ hσ => .reported hopen (.overflow ?_)⟩
    exact (holds_above hsize _ σ).mp ((ht.satisfies σ).mp hσ).2
  · intro ex' t hfollows' ht
    refine allocNotHuge_yields h hopen hsize hwidth hchance (hfollows.trans hfollows')
      (hside.trans ht fun σ _ => Iff.rfl) (fun σ hσ => hA σ hσ.1) ?_
    exact reliable_constraintsOf hsides hfollows' horiginal

theorem allocNonzero_yields (hfollows : ex₀.Follows ex) (hside : Side ex root A s) :
    ex.Yields (fun σ => Satisfies σ s.constraints)
      (fun σ => AllocOutcome ex₀ args σ (view σ) root size)
      (ex.allocNonzero size args chances s) := by
  obtain ⟨p, hp, hsides⟩ := hside.going.forkState (eqZero_isBool hsize) (hchance 0)
  obtain ⟨res, hres, -⟩ := hside.going.reliable.mayBeTrue (eqZero_isBool hsize)
  rw [allocNonzero, Partial.bind_of_eq hres, Partial.bind_of_eq hp]
  apply reportThen_yields hsides.same hsides.free hsides.first hsides.second
  · exact hsides.noFirst
  · exact fun hnone σ hσ hnot => hnot (hsides.noSecond hnone σ hσ)
  · exact fun σ => Iff.rfl
  · intro ex' t hfollows' ht
    obtain ⟨hsame, hfree, hconstraints⟩ :=
      terminateStateOnError_follows ht "malloc zero size" "zma.err"
    refine ⟨hsame, hfree, hconstraints, fun σ hσ => .reported hopen (.zero ?_)⟩
    exact (holds_eqZero hsize σ).mp ((ht.satisfies σ).mp hσ).2
  · intro ex' t hfollows' ht
    refine allocNoOverflow_yields h hopen hsize hwidth hchance (hfollows.trans hfollows')
      (hside.trans ht fun σ _ => Iff.rfl) ?_ ?_
    · rintro σ ⟨-, hnot⟩
      rw [holds_eqZero hsize] at hnot
      exact Nat.pos_of_ne_zero hnot
    · exact reliable_constraintsOf hsides hfollows' hside.going.reliable

end Open

/-! ## Allocation -/

section Alloc

variable {ex ex₀ : MemoryExecutor} {args : AllocArgs} {view : Env → ℕ → ByteMemory}
  {root s : MemoryState} {size : Expr} {A : Env → Prop} {chances : ℕ → ForkChance}

/-- A size that `toUnique` does not make a constant has two values. -/
theorem sizeOpen_of_toUnique (hgoing : ex.Going s) (hsize : size.WellTyped)
    (hconst : ∀ CE, toUnique ex.toExecutor s.constraints size ≠ .Constant CE) : SizeOpen s size := by
  obtain ⟨value, σ, hvalue, hσ, rfl⟩ := hgoing.reliable.getValue hsize
  have hsymbolic : ¬size.isConstant = true := by
    intro hc
    cases size with
    | Constant CE => exact hconst CE rfl
    | _ => exact absurd hc Bool.false_ne_true
  obtain ⟨x, hx⟩ := APInt.eq_mk_of_width (hsize.eval_width (σ := σ))
  have hcheck : ∀ τ, ∃ y : BitVec size.width, Denotes τ size y
      ∧ Denotes τ (EqExpr.create size (.Constant (size.eval σ))) (BitVec.ofBool (y == x)) := by
    intro τ
    obtain ⟨y, hy⟩ := hsize.denotes (σ := τ) rfl
    rw [hx]
    exact ⟨y, hy, EqExpr.create_denotes hy (denotes_const hsize.width_pos x)⟩
  have hbool : (EqExpr.create size (.Constant (size.eval σ))).IsBool := by
    obtain ⟨y, -, hy⟩ := hcheck σ
    exact ⟨hy.1, hy.width_eq⟩
  obtain ⟨must, hmust, hiff⟩ := hgoing.reliable.mustBeTrue hbool
  have hnot : ¬must = true := by
    rintro rfl
    refine hconst (size.eval σ) ?_
    rw [toUnique, if_neg hsymbolic, hvalue]
    dsimp only
    rw [hmust]
  rw [hiff] at hnot
  push Not at hnot
  obtain ⟨τ, hτ, hne⟩ := hnot
  refine ⟨σ, τ, hσ, hτ, fun heq => hne ?_⟩
  obtain ⟨y, hy, hyx⟩ := hcheck τ
  rw [hyx.holds_iff, beq_iff_eq]
  rw [hx, hy.2] at heq
  simpa using heq.symm

variable (hsize : size.WellTyped) (hwidth : size.width ≤ 64)
  (hchance : ∀ n, (chances n).atStaticLimit = false)

include hsize hwidth hchance

/-- What `executeAlloc` makes of a state. -/
theorem executeAlloc_yields (h : Allocates ex₀ args view root) (hsite : args.site ≠ .alloca)
    (hfollows : ex₀.Follows ex) (hside : Side ex root A s) :
    ex.Yields (fun σ => Satisfies σ s.constraints)
      (fun σ => AllocOutcome ex₀ args σ (view σ) root size) (ex.executeAlloc size args chances s) := by
  have hroot : ∀ σ, Satisfies σ s.constraints → Satisfies σ root.constraints := fun σ hσ =>
    ((hside.satisfies σ).mp hσ).1
  unfold executeAlloc
  split
  next CE hCE =>
    have heval := eval_of_toUnique hside.going.ready hside.going.isOpen.satisfiable hsize hCE
    obtain ⟨σ, hσ⟩ := hside.going.isOpen.satisfiable
    have hCEw : CE.width = size.width := by rw [← heval σ hσ, hsize.eval_width]
    exact executeAllocConstant_yields h hfollows hside (hCEw.trans_le hwidth) heval
  next hconst =>
    obtain ⟨σ, τ, hσ, hτ, hne⟩ := sizeOpen_of_toUnique hside.going hsize hconst
    have hopen : SizeOpen root size := ⟨σ, τ, hroot σ hσ, hroot τ hτ, hne⟩
    have hself := (toUnique_cases ex.toExecutor s.constraints size).resolve_right
      fun ⟨value, hvalue⟩ => hconst value hvalue
    rw [hself, doSizeControlledMalloc, hside.going.free.seedMap]
    split
    next hlocal => exact absurd hlocal hsite
    next hunknown =>
      exact ⟨_, rfl, .refl ex, hside.going.free,
        .single (fun σ => Iff.rfl) fun σ hσ => .unknownFunction hunknown hopen⟩
    next =>
      split
      next hseeds => exact absurd hseeds (by simp)
      next => exact allocNonzero_yields h hopen hsize hwidth hchance hfollows hside

end Alloc

end MemoryExecutor

end Xklee
