/-
Merging states: `ExecutionState::merge` of `lib/Core/ExecutionState.cpp`.

Two states at one place of the program become one. Its path condition is what they have
in common, and one of the two rests; registers and bytes that differ become a choice,
made by the rest of the first state. `MergingState` has the fields that `merge` reads or
writes.

Object states live in a heap that all states share. A state that is not merged is left
as it was, and no result stands for a failing assertion.
-/
import Xklee.Core.AddressSpace
import Xklee.Core.ObjectStateRun
import Xklee.Data.SetOrder
import Xklee.Expr.Constraints
import Mathlib.Data.Finset.Basic

set_option autoImplicit false

namespace Xklee

open KeyedList

/-! ## States -/

/-- A function of the program: its address, and its registers. -/
structure KFunction where
  id : ℕ
  numRegisters : ℕ
deriving DecidableEq

/-- `StackFrame`. A register that has no value yet is `none`. -/
structure StackFrame where
  caller : ℕ
  kf : KFunction
  locals : List (Option Expr)
  /-- `locals = new Cell[kf->numRegisters]` -/
  length_locals : locals.length = kf.numRegisters

structure MergingState (K : Type) [LinearOrder K] where
  pc : ℕ
  stack : List StackFrame
  symbolics : List (K × KArray)
  constraints : List Expr
  addressSpace : AddressSpace K

/-- The bindings from `begin()` to `end()`. -/
def ImmutableMap.entries {K D : Type} [LinearOrder K] (m : ImmutableMap K D) : List (K × D) :=
  m.elts.toList

/-- What all bytes of an object are under an assignment. -/
def ObjectState.WellFormed (s : ObjectState) : Prop := ∀ σ, ∃ m, s.Represents σ m

namespace MergingState

/-! ## The parts of `merge` -/

/-- The loop over both stacks that compares callers and functions. -/
def sameFrames : List StackFrame → List StackFrame → Bool
  | [], [] => true
  | af :: as, bf :: bs => af.caller = bf.caller && af.kf = bf.kf && sameFrames as bs
  | _, _ => false

/-- The conjunction of a suffix, `inA` or `inB`. -/
def conjunction (suffix : List Expr) : Expr :=
  suffix.foldl AndExpr.create (ConstantExpr.alloc 1 Expr.BoolWidth)

/-- A register that both states have a value for. "if one is null then by implication (we
are at same pc) we cannot reuse this local, so just ignore" -/
def mergeLocal (inA : Expr) : Option Expr → Option Expr → Option (Option Expr)
  | some av, some bv =>
      if av.width = bv.width then some (some (SelectExpr.create inA av bv)) else none
  | av, _ => some av

/-- The loop over the registers of a frame. -/
def mergeLocals (inA : Expr) : List (Option Expr) → List (Option Expr) →
    Option (List (Option Expr))
  | [], [] => some []
  | av :: as, bv :: bs => do
      let v ← mergeLocal inA av bv
      let vs ← mergeLocals inA as bs
      some (v :: vs)
  | _, _ => none

theorem length_mergeLocals {inA : Expr} {as bs vs : List (Option Expr)}
    (h : mergeLocals inA as bs = some vs) : vs.length = as.length := by
  induction as generalizing bs vs with
  | nil =>
    cases bs with
    | nil =>
      obtain rfl : [] = vs := Option.some.inj h
      rfl
    | cons bv bs => exact absurd h (by simp [mergeLocals])
  | cons av as ih =>
    cases bs with
    | nil => exact absurd h (by simp [mergeLocals])
    | cons bv bs =>
      simp only [mergeLocals, Option.bind_eq_bind, Option.bind_eq_some_iff] at h
      obtain ⟨v, -, vs', hvs', heq⟩ := h
      obtain rfl : v :: vs' = vs := Option.some.inj heq
      rw [List.length_cons, List.length_cons, ih hvs']

def mergeFrame (inA : Expr) (af bf : StackFrame) : Option StackFrame :=
  match h : mergeLocals inA af.locals bf.locals with
  | none => none
  | some locals => some { af with
      locals := locals
      length_locals := (length_mergeLocals h).trans af.length_locals }

/-- The loop over the frames. -/
def mergeStack (inA : Expr) : List StackFrame → List StackFrame → Option (List StackFrame)
  | [], [] => some []
  | af :: as, bf :: bs => do
      let f ← mergeFrame inA af bf
      let fs ← mergeStack inA as bs
      some (f :: fs)
  | _, _ => none

section Memory

variable {K : Type} [LinearOrder K]

/-- The loop over the bindings of both address spaces: the memory objects that are
mutated, or `none` where a binding misses. -/
def mutatedObjects : List (K × ℕ) → List (K × ℕ) → Option (Finset K)
  | [], [] => some ∅
  | (mo, os) :: as, (mo', os') :: bs =>
      if mo ≠ mo' then none
      else (mutatedObjects as bs).map fun mutated =>
        if os ≠ os' then insert mo mutated else mutated
  | _, _ => none

/-- The body of the loop over the bytes of an object that both states have an object
state of their own for. -/
def mergeByte (littleEndian : Bool) (inA : Expr) (objects : ObjectState × ObjectState) (i : ℕ) :
    Option (ObjectState × ObjectState) := do
  let (wos, otherOS) := objects
  let (av, wos) ← wos.read8 i
  let (bv, otherOS) ← otherOS.read8 i
  if av.width = bv.width then
    let wos ← wos.writeAt littleEndian i (SelectExpr.create inA av bv)
    some (wos, otherOS)
  else none

variable [Inhabited K] (littleEndian : Bool) (size : K → ℕ)

/-- The body of the loop over the mutated objects; `size mo` is `mo->size`. That the
object is not read-only is what `getWriteable` asserts too. -/
def mergeObject (inA : Expr) (b : AddressSpace K)
    (memory : AddressSpace K × List (HeapObject ObjectState)) (mo : K) :
    Option (AddressSpace K × List (HeapObject ObjectState)) := do
  let (space, heap) := memory
  let os ← space.findObject mo
  let otherOS ← b.findObject mo
  let (wos, space, heap) ← space.getWriteable heap mo os
  let object ← heap[wos]?
  let other ← heap[otherOS]?
  let (contents, otherContents) ←
    (List.range (size mo)).foldlM (mergeByte littleEndian inA) (object.contents, other.contents)
  some (space, (heap.set wos { object with contents := contents }).set otherOS
    { other with contents := otherContents })

end Memory

section Merge

variable {K : Type} [LinearOrder K] [Inhabited K] (littleEndian : Bool) (size : K → ℕ)
  (exprOrder : SetOrder Expr) (objectOrder : SetOrder K)

/-- `a.merge(b)`: the answer, and `a` and the heap afterwards. -/
def merge (a b : MergingState K) (heap : List (HeapObject ObjectState)) :
    Option (Bool × MergingState K × List (HeapObject ObjectState)) :=
  if a.pc ≠ b.pc then some (false, a, heap)
  else if a.symbolics ≠ b.symbolics then some (false, a, heap)
  else if !sameFrames a.stack b.stack then some (false, a, heap)
  else
    let commonConstraints := a.constraints.toFinset ∩ b.constraints.toFinset
    let aSuffix := a.constraints.toFinset \ commonConstraints
    let bSuffix := b.constraints.toFinset \ commonConstraints
    match mutatedObjects a.addressSpace.objects.entries b.addressSpace.objects.entries with
    | none => some (false, a, heap)
    | some mutated => do
        let inA := conjunction (exprOrder.toList aSuffix)
        let inB := conjunction (exprOrder.toList bSuffix)
        let stack ← mergeStack inA a.stack b.stack
        let (addressSpace, heap) ← (objectOrder.toList mutated).foldlM
          (mergeObject littleEndian size inA b.addressSpace) (a.addressSpace, heap)
        let constraints ← ConstraintManager.addConstraints [] (exprOrder.toList commonConstraints)
        let constraints ← ConstraintManager.addConstraint constraints (OrExpr.create inA inB)
        some (true, ⟨a.pc, stack, a.symbolics, constraints, addressSpace⟩, heap)

end Merge

/-! ## The path condition -/

section Sound

variable {σ : Env}

theorem conjunction_denotes {suffix : List Expr} (h : ∀ e ∈ suffix, e.IsBool) :
    Denotes σ (conjunction suffix) (BitVec.ofBool (decide (Satisfies σ suffix))) := by
  -- What the loop has conjoined so far is `acc`.
  have hloop : ∀ (es : List Expr) (acc : Expr) (b : Bool), (∀ e ∈ es, e.IsBool) →
      Denotes σ acc (BitVec.ofBool b) →
      Denotes σ (es.foldl AndExpr.create acc) (BitVec.ofBool (b && decide (Satisfies σ es))) := by
    intro es
    induction es with
    | nil =>
      intro acc b _ hacc
      have hnil : decide (Satisfies σ []) = true :=
        decide_eq_true fun c hc => absurd hc List.not_mem_nil
      rwa [hnil, Bool.and_true]
    | cons e es ih =>
      intro acc b hes hacc
      obtain ⟨he, hes⟩ := List.forall_mem_cons.mp hes
      have hand := AndExpr.create_denotes hacc (he.denotes σ)
      rw [BitVec.ofBool_and_ofBool] at hand
      have hcons : decide (Satisfies σ (e :: es))
          = (decide (e.Holds σ) && decide (Satisfies σ es)) := by
        rw [← Bool.decide_and]
        exact decide_eq_decide.mpr ConstraintManager.satisfies_cons
      rw [List.foldl_cons, hcons, ← Bool.and_assoc]
      exact ih _ _ hes hand
  exact hloop suffix _ true h (denotes_const Nat.one_pos _)

/-- What the constraints of the merged state say. -/
theorem satisfies_merged {common aSuffix bSuffix constraints merged : List Expr}
    (hcommon : ∀ e ∈ common, e.IsBool) (ha : ∀ e ∈ aSuffix, e.IsBool)
    (hb : ∀ e ∈ bSuffix, e.IsBool)
    (hadd : ConstraintManager.addConstraints [] common = some constraints)
    (hmerged : ConstraintManager.addConstraint constraints
      (OrExpr.create (conjunction aSuffix) (conjunction bSuffix)) = some merged) :
    Satisfies σ merged
      ↔ Satisfies σ common ∧ (Satisfies σ aSuffix ∨ Satisfies σ bSuffix) := by
  obtain ⟨hbool, hiff⟩ :=
    ConstraintManager.addConstraints_represents common (by simp) hcommon hadd
  have hor : ∀ σ, Denotes σ (OrExpr.create (conjunction aSuffix) (conjunction bSuffix))
      (BitVec.ofBool (decide (Satisfies σ aSuffix) || decide (Satisfies σ bSuffix))) := by
    intro σ
    rw [← BitVec.ofBool_or_ofBool]
    exact OrExpr.create_denotes (conjunction_denotes ha) (conjunction_denotes hb)
  have hrep := ConstraintManager.addConstraint_represents hbool
    (e := OrExpr.create (conjunction aSuffix) (conjunction bSuffix))
    ⟨(hor σ).1, (hor σ).width_eq⟩
  rw [hmerged] at hrep
  have hnil : Satisfies σ [] := fun c hc => absurd hc List.not_mem_nil
  have hholds : (OrExpr.create (conjunction aSuffix) (conjunction bSuffix)).Holds σ
      ↔ Satisfies σ aSuffix ∨ Satisfies σ bSuffix := by
    rw [(hor σ).holds_iff, Bool.or_eq_true, decide_eq_true_iff, decide_eq_true_iff]
  exact (hrep.2 σ trivial).trans (and_congr ((hiff σ).trans (and_iff_right hnil)) hholds)

/-! ## Registers -/

/-- The value of register `i` of frame `d`. -/
def register (stack : List StackFrame) (d i : ℕ) : Option Expr :=
  stack[d]?.bind fun frame => frame.locals[i]?.join

theorem mergeLocals_get {inA : Expr} {as bs vs : List (Option Expr)}
    (h : mergeLocals inA as bs = some vs) {i : ℕ} {av bv : Expr} (ha : as[i]?.join = some av)
    (hb : bs[i]?.join = some bv) :
    av.width = bv.width ∧ vs[i]?.join = some (SelectExpr.create inA av bv) := by
  induction as generalizing bs vs i with
  | nil => exact absurd ha (by simp)
  | cons a as ih =>
    cases bs with
    | nil => exact absurd hb (by simp)
    | cons b bs =>
      simp only [mergeLocals, Option.bind_eq_bind, Option.bind_eq_some_iff] at h
      obtain ⟨v, hv, vs', hvs', heq⟩ := h
      obtain rfl : v :: vs' = vs := Option.some.inj heq
      cases i with
      | zero =>
        obtain rfl : a = some av := ha
        obtain rfl : b = some bv := hb
        obtain ⟨hwidth, hsome⟩ := Option.ite_none_right_eq_some.mp hv
        exact ⟨hwidth, (Option.some.inj hsome).symm⟩
      | succ i => exact ih hvs' ha hb

theorem mergeFrame_locals {inA : Expr} {af bf f : StackFrame} (h : mergeFrame inA af bf = some f) :
    mergeLocals inA af.locals bf.locals = some f.locals := by
  unfold mergeFrame at h
  split at h
  · exact absurd h (by simp)
  · next locals hlocals =>
    obtain rfl := Option.some.inj h
    exact hlocals

/-- A register that both states have a value for is a choice in the merged state. -/
theorem mergeStack_register {inA : Expr} {as bs stack : List StackFrame}
    (h : mergeStack inA as bs = some stack) {d i : ℕ} {av bv : Expr}
    (ha : register as d i = some av) (hb : register bs d i = some bv) :
    av.width = bv.width ∧ register stack d i = some (SelectExpr.create inA av bv) := by
  induction as generalizing bs stack d with
  | nil => exact absurd ha (by simp [register])
  | cons af as ih =>
    cases bs with
    | nil => exact absurd hb (by simp [register])
    | cons bf bs =>
      simp only [mergeStack, Option.bind_eq_bind, Option.bind_eq_some_iff] at h
      obtain ⟨f, hf, fs, hfs, heq⟩ := h
      obtain rfl : f :: fs = stack := Option.some.inj heq
      cases d with
      | zero => exact mergeLocals_get (mergeFrame_locals hf) ha hb
      | succ d => exact ih hfs ha hb

/-! ## Bytes -/

/-- The bytes of a merged object. -/
def chosenBytes (p : Bool) (m m' : ByteMemory) : ByteMemory := fun i => if p then m i else m' i

/-- Choosing once more changes nothing. -/
theorem chosenBytes_chosenBytes (p : Bool) (m m' : ByteMemory) :
    chosenBytes p (chosenBytes p m m') m' = chosenBytes p m m' := by
  funext i
  cases p <;> rfl

theorem mergeByte_step (littleEndian : Bool) {inA : Expr} {p : Bool} {m m' : ByteMemory}
    {wos otherOS : ObjectState} (hinA : Denotes σ inA (BitVec.ofBool p))
    (hm : wos.Represents σ m) (hm' : otherOS.Represents σ m') {i : ℕ} (hi : i < wos.size)
    (hi' : i < otherOS.size) :
    ∃ wos₁ otherOS₁, mergeByte littleEndian inA (wos, otherOS) i = some (wos₁, otherOS₁)
      ∧ wos₁.Represents σ (Function.update m i (chosenBytes p m m' i))
      ∧ otherOS₁.Represents σ m' ∧ wos₁.size = wos.size ∧ otherOS₁.size = otherOS.size := by
  obtain ⟨av, w, hread, hav, hw, hsize⟩ := ObjectState.read8_returns hm hi
  obtain ⟨bv, o, hread', hbv, ho, hsize'⟩ := ObjectState.read8_returns hm' hi'
  have hselect := SelectExpr.create_denotes hinA hav hbv
  have hwidth : (SelectExpr.create inA av bv).width = 8 := hselect.width_eq
  have hbytes : ObjectState.accessBytes 8 = 1 := by decide
  obtain ⟨w₁, hwrite, hw₁, hsize₁⟩ := ObjectState.writeAt_leaves littleEndian hw hselect.1
    (.inr (.inl hwidth)) (show i + ObjectState.accessBytes _ ≤ w.size by
      rw [hwidth, hbytes, hsize]
      exact hi)
  -- A write of one byte is an update.
  have hstore : ObjectState.storeValue littleEndian m i ((SelectExpr.create inA av bv).eval σ)
      = Function.update m i (chosenBytes p m m' i) := by
    have hne : (8 : ℕ) ≠ Expr.BoolWidth := by decide
    have hdiv : 8 / 8 = 1 := by decide
    rw [hselect.2, ObjectState.storeValue_bytes littleEndian hne hdiv]
    have hone : ∀ x : BitVec 8, m.store (ByteMemory.place littleEndian i 1) x (0 + 1)
        = Function.update m i x := by
      intro x
      rw [ByteMemory.store_succ]
      cases littleEndian <;> simp <;> rfl
    rw [hone, chosenBytes]
  rw [hstore] at hw₁
  refine ⟨w₁, o, ?_, hw₁, ho, hsize₁.trans hsize, hsize'⟩
  have heq : av.width = bv.width := hav.width_eq.trans hbv.width_eq.symm
  simp only [mergeByte, hread, hread', Option.bind_eq_bind, Option.bind_some, if_pos heq, hwrite]

/-- The run of the loop over the bytes. -/
theorem foldlM_mergeByte (littleEndian : Bool) {inA : Expr} {p : Bool} {m m' : ByteMemory}
    {wos otherOS : ObjectState} (hinA : Denotes σ inA (BitVec.ofBool p)) (offsets : List ℕ)
    (hm : wos.Represents σ m) (hm' : otherOS.Represents σ m')
    (hoffsets : ∀ i ∈ offsets, i < wos.size ∧ i < otherOS.size) :
    ∃ wos₁ otherOS₁, offsets.foldlM (mergeByte littleEndian inA) (wos, otherOS)
        = some (wos₁, otherOS₁)
      ∧ wos₁.Represents σ (fun i => if i ∈ offsets then chosenBytes p m m' i else m i)
      ∧ otherOS₁.Represents σ m' ∧ wos₁.size = wos.size ∧ otherOS₁.size = otherOS.size := by
  induction offsets generalizing wos otherOS m with
  | nil => exact ⟨wos, otherOS, rfl, by simpa using hm, hm', rfl, rfl⟩
  | cons i offsets ih =>
    obtain ⟨⟨hi, hi'⟩, hoffsets⟩ := List.forall_mem_cons.mp hoffsets
    obtain ⟨w₁, o₁, hstep, hw₁, ho₁, hsize, hsize'⟩ :=
      mergeByte_step littleEndian hinA hm hm' hi hi'
    obtain ⟨w₂, o₂, hrun, hw₂, ho₂, hsize₂, hsize₂'⟩ :=
      ih hw₁ ho₁ (by rw [hsize, hsize']; exact hoffsets)
    refine ⟨w₂, o₂, ?_, ?_, ho₂, hsize₂.trans hsize, hsize₂'.trans hsize'⟩
    · rw [List.foldlM_cons, hstep]
      exact hrun
    · convert hw₂ using 1
      funext j
      by_cases hj : j = i
      · -- The byte is chosen once, or once more.
        subst hj
        cases p <;> simp [chosenBytes]
      · simp [chosenBytes, hj]

end Sound

/-! ## Address spaces -/

section Spaces

variable {K : Type} [LinearOrder K] {σ : Env} {size : K → ℕ}
  {heap heap' : List (HeapObject ObjectState)} {space space' b : AddressSpace K}

/-- The bytes of the objects that are bound are those of `m`. -/
def HoldsBytes (σ : Env) (size : K → ℕ) (heap : List (HeapObject ObjectState))
    (space : AddressSpace K) (m : K → ByteMemory) : Prop :=
  ∀ mo os, space.findObject mo = some os → ∃ object, heap[os]? = some object
    ∧ object.contents.size = size mo ∧ object.contents.Represents σ (m mo)

/-- An object state is bound to one memory object only. -/
def Separate (space b : AddressSpace K) : Prop :=
  ∀ mo mo' os, (space.findObject mo = some os ∨ b.findObject mo = some os) →
    (space.findObject mo' = some os ∨ b.findObject mo' = some os) → mo = mo'

/-- The heap after both object states of a memory object are written. -/
theorem getElem?_set_set {α : Type} {heap : List α} {i j : ℕ} {x y : α} (hx : heap[i]? = some x)
    (hy : heap[j]? = some y) (x' y' : α) (k : ℕ) :
    ((heap.set i x').set j y')[k]?
      = if k = j then some y' else if k = i then some x' else heap[k]? := by
  have hi : i < heap.length := (List.getElem?_eq_some_iff.mp hx).1
  have hj : j < heap.length := (List.getElem?_eq_some_iff.mp hy).1
  rw [List.getElem?_set, List.getElem?_set, List.length_set]
  by_cases hkj : j = k
  · subst hkj
    rw [if_pos rfl, if_pos rfl, if_pos hj]
  · rw [if_neg hkj, if_neg (Ne.symm hkj)]
    by_cases hki : i = k
    · subst hki
      rw [if_pos rfl, if_pos rfl, if_pos hi]
    · rw [if_neg hki, if_neg (Ne.symm hki)]

variable [Inhabited K]

/-- What merging an object does: in the first address space it has the chosen bytes, in the
second one it keeps its bytes, and all other objects stay. -/
theorem mergeObject_step (littleEndian : Bool) {inA : Expr} {p : Bool} {m m' : K → ByteMemory}
    {mo : K} {os otherOS : ℕ} (hinA : Denotes σ inA (BitVec.ofBool p))
    (hsep : Separate space b) (hm : HoldsBytes σ size heap space m)
    (hm' : HoldsBytes σ size heap b m') (hos : space.findObject mo = some os)
    (hother : b.findObject mo = some otherOS) (hne : os ≠ otherOS)
    (h : mergeObject littleEndian size inA b (space, heap) mo = some (space', heap')) :
    ∃ wos, wos ≠ otherOS ∧ space'.findObject = Function.update space.findObject mo (some wos)
      ∧ Separate space' b ∧ HoldsBytes σ size heap' b m'
      ∧ HoldsBytes σ size heap' space'
          (Function.update m mo (chosenBytes p (m mo) (m' mo))) := by
  simp only [mergeObject, hos, hother, Option.bind_eq_bind, Option.bind_some,
    Option.bind_eq_some_iff] at h
  obtain ⟨⟨wos, space₁, heap₁⟩, hget, written, hwritten, other, hotherObject,
    ⟨contents, otherContents⟩, hrun, heq⟩ := h
  obtain ⟨hfind, ⟨object, written', hobject, hwritten', hcontents⟩, hkeep, hwos⟩ :=
    AddressSpace.getWriteable_spec hos hget
  obtain rfl : written' = written := Option.some.inj (hwritten'.symm.trans hwritten)
  obtain ⟨rfl, rfl⟩ := Prod.mk.inj (Option.some.inj heq)
  obtain ⟨object', hobject', hsize, hrep⟩ := hm mo os hos
  obtain rfl : object' = object := Option.some.inj (hobject'.symm.trans hobject)
  obtain ⟨other', hother', hsize', hrep'⟩ := hm' mo otherOS hother
  obtain rfl : other' = other := Option.some.inj ((hkeep _ _ hother').symm.trans hotherObject)
  -- Nothing else is bound to the object state that is written.
  have hbound : ∀ mo' k, space.findObject mo' = some k ∨ b.findObject mo' = some k →
      k < heap.length := by
    intro mo' k hk
    have hsome : ∃ object, heap[k]? = some object := by
      rcases hk with hk | hk
      · obtain ⟨object, hobject, -⟩ := hm mo' k hk
        exact ⟨object, hobject⟩
      · obtain ⟨object, hobject, -⟩ := hm' mo' k hk
        exact ⟨object, hobject⟩
    obtain ⟨object, hobject⟩ := hsome
    exact (List.getElem?_eq_some_iff.mp hobject).1
  have hwosMo : ∀ mo', space.findObject mo' = some wos ∨ b.findObject mo' = some wos →
      mo' = mo := by
    intro mo' hk
    rcases hwos with rfl | rfl
    · exact hsep mo' mo _ hk (.inl hos)
    · exact absurd (hbound mo' _ hk) (Nat.lt_irrefl _)
  have hwosNe : wos ≠ otherOS := by
    rcases hwos with rfl | rfl
    · exact hne
    · exact (Nat.ne_of_lt (hbound mo _ (.inr hother))).symm
  have hheap := getElem?_set_set hwritten' (hkeep _ _ hother')
    { written' with contents := contents } { other' with contents := otherContents }
  obtain ⟨w, o, hloop, hw, ho, hsizew, hsizeo⟩ := foldlM_mergeByte littleEndian hinA
    (List.range (size mo)) (hcontents ▸ hrep) hrep' (fun i hi => by
      rw [hcontents, hsize, hsize']
      exact ⟨List.mem_range.mp hi, List.mem_range.mp hi⟩)
  obtain ⟨rfl, rfl⟩ := Prod.mk.inj (Option.some.inj (hloop.symm.trans hrun))
  -- What is bound otherwise is as it was.
  have hstays : ∀ mo' k object, mo' ≠ mo → space.findObject mo' = some k ∨ b.findObject mo' = some k →
      heap[k]? = some object → ((heap₁.set wos { written' with contents := w }).set otherOS
        { other' with contents := o })[k]? = some object := by
    intro mo' k object hmo' hk hobject
    have hko : k ≠ otherOS := by
      rintro rfl
      exact hmo' (hsep mo' mo _ hk (.inr hother))
    have hkw : k ≠ wos := by
      rintro rfl
      exact hmo' (hwosMo mo' hk)
    rw [hheap, if_neg hko, if_neg hkw]
    exact hkeep k object hobject
  have hfindOf : ∀ mo' k, space₁.findObject mo' = some k →
      mo' = mo ∧ k = wos ∨ mo' ≠ mo ∧ space.findObject mo' = some k := by
    intro mo' k hk
    rw [hfind] at hk
    by_cases hmo' : mo' = mo
    · subst hmo'
      rw [Function.update_self] at hk
      exact .inl ⟨rfl, (Option.some.inj hk).symm⟩
    · rw [Function.update_of_ne hmo'] at hk
      exact .inr ⟨hmo', hk⟩
  refine ⟨wos, hwosNe, hfind, ?_, ?_, ?_⟩
  · -- A binding of the new address space is an old one, or the one to `wos`.
    have hold : ∀ mo' k, space₁.findObject mo' = some k ∨ b.findObject mo' = some k →
        mo' = mo ∧ k = wos ∨ space.findObject mo' = some k ∨ b.findObject mo' = some k := by
      intro mo' k hk
      rcases hk with hk | hk
      · rcases hfindOf mo' k hk with hk | ⟨-, hk⟩
        · exact .inl hk
        · exact .inr (.inl hk)
      · exact .inr (.inr hk)
    intro mo₁ mo₂ k hk₁ hk₂
    rcases hold mo₁ k hk₁ with ⟨rfl, rfl⟩ | hold₁
    · rcases hold mo₂ k hk₂ with ⟨rfl, -⟩ | hold₂
      · rfl
      · exact (hwosMo mo₂ hold₂).symm
    · rcases hold mo₂ k hk₂ with ⟨rfl, rfl⟩ | hold₂
      · exact hwosMo mo₁ hold₁
      · exact hsep mo₁ mo₂ k hold₁ hold₂
  · intro mo' k hk
    by_cases hmo' : mo' = mo
    · subst hmo'
      obtain rfl : otherOS = k := Option.some.inj (hother.symm.trans hk)
      exact ⟨_, (hheap _).trans (if_pos rfl), hsizeo.trans hsize', ho⟩
    · obtain ⟨object, hobject, hrest⟩ := hm' mo' k hk
      exact ⟨object, hstays mo' k object hmo' (.inr hk) hobject, hrest⟩
  · intro mo' k hk
    rcases hfindOf mo' k hk with ⟨rfl, rfl⟩ | ⟨hmo', hk⟩
    · refine ⟨_, (hheap k).trans ((if_neg hwosNe).trans (if_pos rfl)),
        hsizew.trans (hcontents ▸ hsize), ?_⟩
      rw [Function.update_self]
      refine ⟨hw.typed, fun i hi => ?_⟩
      have hmem : i ∈ List.range (size mo') := by
        rw [List.mem_range, ← hsize, ← hcontents, ← hsizew]
        exact hi
      have hbyte := hw.bytes i hi
      rwa [if_pos hmem] at hbyte
    · obtain ⟨object, hobject, hrest⟩ := hm mo' k hk
      rw [Function.update_of_ne hmo']
      exact ⟨object, hstays mo' k object hmo' (.inl hk) hobject, hrest⟩

/-- The run of the loop over the mutated objects. -/
theorem foldlM_mergeObject (littleEndian : Bool) {inA : Expr} {p : Bool} {m m' : K → ByteMemory}
    (hinA : Denotes σ inA (BitVec.ofBool p)) (objects : List K) (hsep : Separate space b)
    (hm : HoldsBytes σ size heap space m) (hm' : HoldsBytes σ size heap b m')
    (hobjects : ∀ mo ∈ objects, ∃ os otherOS, space.findObject mo = some os
      ∧ b.findObject mo = some otherOS ∧ os ≠ otherOS)
    (h : objects.foldlM (mergeObject littleEndian size inA b) (space, heap)
      = some (space', heap')) :
    (∀ mo, space'.findObject mo = none ↔ space.findObject mo = none)
      ∧ HoldsBytes σ size heap' space'
          (fun mo => if mo ∈ objects then chosenBytes p (m mo) (m' mo) else m mo) := by
  induction objects generalizing space heap m with
  | nil =>
    obtain ⟨rfl, rfl⟩ := Prod.mk.inj (Option.some.inj h)
    exact ⟨fun _ => Iff.rfl, by simpa using hm⟩
  | cons mo objects ih =>
    obtain ⟨⟨os, otherOS, hos, hother, hne⟩, hobjects⟩ := List.forall_mem_cons.mp hobjects
    rw [List.foldlM_cons, Option.bind_eq_bind, Option.bind_eq_some_iff] at h
    obtain ⟨⟨space₁, heap₁⟩, hstep, hrun⟩ := h
    obtain ⟨wos, hwos, hfind, hsep₁, hm₁', hm₁⟩ :=
      mergeObject_step littleEndian hinA hsep hm hm' hos hother hne hstep
    have hobjects₁ : ∀ mo ∈ objects, ∃ os otherOS, space₁.findObject mo = some os
        ∧ b.findObject mo = some otherOS ∧ os ≠ otherOS := by
      intro mo₁ hmo₁
      by_cases hmo : mo₁ = mo
      · subst hmo
        exact ⟨wos, otherOS, by rw [hfind, Function.update_self], hother, hwos⟩
      · rw [hfind, Function.update_of_ne hmo]
        exact hobjects mo₁ hmo₁
    obtain ⟨hbound, hholds⟩ := ih hsep₁ hm₁ hm₁' hobjects₁ hrun
    refine ⟨fun mo₁ => (hbound mo₁).trans ?_, ?_⟩
    · by_cases hmo : mo₁ = mo
      · subst hmo
        rw [hfind, Function.update_self, hos]
        simp
      · rw [hfind, Function.update_of_ne hmo]
    · convert hholds using 1
      funext mo₁
      by_cases hmo : mo₁ = mo
      · subst hmo
        simp [chosenBytes_chosenBytes]
      · simp [hmo]

end Spaces

/-! ## Bindings -/

section Bindings

variable {K : Type} [LinearOrder K]

theorem mutatedObjects_subset {as bs : List (K × ℕ)} {mutated : Finset K}
    (h : mutatedObjects as bs = some mutated) {mo : K} (hmo : mo ∈ mutated) :
    ∃ a ∈ as, a.1 = mo := by
  induction as generalizing bs mutated with
  | nil =>
    cases bs with
    | nil =>
      obtain rfl : ∅ = mutated := Option.some.inj h
      exact absurd hmo (Finset.notMem_empty mo)
    | cons b bs => exact absurd h (by simp [mutatedObjects])
  | cons a as ih =>
    cases bs with
    | nil => exact absurd h (by simp [mutatedObjects])
    | cons b bs =>
      rw [mutatedObjects, Option.ite_none_left_eq_some, Option.map_eq_some_iff] at h
      obtain ⟨-, rest, hrest, heq⟩ := h
      have hcase : mo = a.1 ∨ mo ∈ rest := by
        rw [← heq] at hmo
        by_cases hdiffer : a.2 ≠ b.2
        · rw [if_pos hdiffer] at hmo
          exact Finset.mem_insert.mp hmo
        · rw [if_neg hdiffer] at hmo
          exact .inr hmo
      rcases hcase with hmo | hmo
      · exact ⟨a, List.mem_cons_self, hmo.symm⟩
      · obtain ⟨a', ha', heq'⟩ := ih hrest hmo
        exact ⟨a', List.mem_cons_of_mem a ha', heq'⟩

/-- Both sides bind the same memory objects, and the mutated ones are those that they bind
to different object states. -/
theorem mutatedObjects_toMap {as bs : List (K × ℕ)} {mutated : Finset K}
    (hsorted : Sorted Prod.fst as) (h : mutatedObjects as bs = some mutated) (mo : K) :
    (toMap Prod.fst as mo).map Prod.snd = none ∧ (toMap Prod.fst bs mo).map Prod.snd = none
        ∧ mo ∉ mutated
      ∨ ∃ os os', (toMap Prod.fst as mo).map Prod.snd = some os
        ∧ (toMap Prod.fst bs mo).map Prod.snd = some os' ∧ (mo ∈ mutated ↔ os ≠ os') := by
  induction as generalizing bs mutated with
  | nil =>
    cases bs with
    | nil =>
      obtain rfl : ∅ = mutated := Option.some.inj h
      exact .inl ⟨rfl, rfl, Finset.notMem_empty mo⟩
    | cons b bs => exact absurd h (by simp [mutatedObjects])
  | cons a as ih =>
    cases bs with
    | nil => exact absurd h (by simp [mutatedObjects])
    | cons b bs =>
      rw [mutatedObjects, Option.ite_none_left_eq_some, Option.map_eq_some_iff] at h
      obtain ⟨hkeys, rest, hrest, heq⟩ := h
      obtain ⟨hlt, hsorted⟩ := sorted_cons.mp hsorted
      rw [toMap_cons, toMap_cons, ← not_not.mp hkeys]
      by_cases hmo : a.1 = mo
      · rw [if_pos hmo, if_pos hmo]
        have hnot : mo ∉ rest := by
          intro hmem
          obtain ⟨a', ha', heq'⟩ := mutatedObjects_subset hrest hmem
          exact absurd (hlt a' ha') (by rw [hmo, heq']; exact lt_irrefl mo)
        refine .inr ⟨a.2, b.2, rfl, rfl, ?_⟩
        rw [← heq]
        by_cases hdiffer : a.2 ≠ b.2
        · rw [if_pos hdiffer, hmo]
          exact iff_of_true (Finset.mem_insert_self mo rest) hdiffer
        · rw [if_neg hdiffer]
          exact iff_of_false hnot hdiffer
      · rw [if_neg hmo, if_neg hmo]
        have hmem : mo ∈ mutated ↔ mo ∈ rest := by
          rw [← heq]
          by_cases hdiffer : a.2 ≠ b.2
          · rw [if_pos hdiffer, Finset.mem_insert]
            exact or_iff_right (Ne.symm hmo)
          · rw [if_neg hdiffer]
        rw [hmem]
        exact ih hsorted hrest

theorem mutatedObjects_find {a b : AddressSpace K} {mutated : Finset K}
    (h : mutatedObjects a.objects.entries b.objects.entries = some mutated) (mo : K) :
    a.findObject mo = none ∧ b.findObject mo = none ∧ mo ∉ mutated
      ∨ ∃ os os', a.findObject mo = some os ∧ b.findObject mo = some os'
        ∧ (mo ∈ mutated ↔ os ≠ os') := by
  have hfind : ∀ space : AddressSpace K,
      space.findObject mo = (toMap Prod.fst space.objects.entries mo).map Prod.snd := by
    intro space
    rw [AddressSpace.findObject, ImmutableMap.lookup, Node.lookup_eq mo space.objects.ordered]
    rfl
  rw [hfind a, hfind b]
  exact mutatedObjects_toMap a.objects.ordered h mo

end Bindings

/-! ## Soundness -/

section Soundness

variable {K : Type} [LinearOrder K]

/-- What the executor keeps about a state: the types of its expressions, and an object
state of the right size for every binding. -/
structure WellFormed (size : K → ℕ) (heap : List (HeapObject ObjectState))
    (s : MergingState K) : Prop where
  constraints : ∀ c ∈ s.constraints, c.IsBool
  registers : ∀ d i v, register s.stack d i = some v → v.WellTyped
  objects : ∀ mo os, s.addressSpace.findObject mo = some os → ∃ object, heap[os]? = some object
    ∧ object.contents.size = size mo ∧ object.contents.WellFormed

/-- What a byte of a memory object reads as. -/
def byte (s : MergingState K) (heap : List (HeapObject ObjectState)) (mo : K) (i : ℕ) :
    Option Expr := do
  let os ← s.addressSpace.findObject mo
  let object ← heap[os]?
  let (value, _) ← object.contents.read8 i
  some value

/-- The constraints beyond the common ones. -/
def suffix (a b : MergingState K) : List Expr := a.constraints.filter (· ∉ b.constraints)

/-- The value is that of `va` where `p` holds, and that of `vb` where it does not. -/
def Chooses (σ : Env) (p : Prop) (v va vb : Expr) : Prop :=
  (p → v.eval σ = va.eval σ) ∧ (¬p → v.eval σ = vb.eval σ)

theorem WellFormed.holdsBytes {size : K → ℕ} {heap : List (HeapObject ObjectState)}
    {s : MergingState K} (h : s.WellFormed size heap) (σ : Env) :
    ∃ m, HoldsBytes σ size heap s.addressSpace m := by
  have hobject : ∀ mo, ∃ m : ByteMemory, ∀ os, s.addressSpace.findObject mo = some os →
      ∃ object, heap[os]? = some object ∧ object.contents.size = size mo
        ∧ object.contents.Represents σ m := by
    intro mo
    cases hfind : s.addressSpace.findObject mo with
    | none => exact ⟨fun _ => 0, fun os hos => absurd hos (by simp)⟩
    | some os =>
      obtain ⟨object, hobject, hsize, hformed⟩ := h.objects mo os hfind
      obtain ⟨m, hm⟩ := hformed σ
      refine ⟨m, fun os' hos' => ?_⟩
      obtain rfl : os = os' := Option.some.inj hos'
      exact ⟨object, hobject, hsize, hm⟩
  choose m hm using hobject
  exact ⟨m, hm⟩

/-- A byte of an object that is bound reads as what it holds. -/
theorem HoldsBytes.byte {σ : Env} {size : K → ℕ} {heap : List (HeapObject ObjectState)}
    {s : MergingState K} {m : K → ByteMemory} (h : HoldsBytes σ size heap s.addressSpace m)
    {mo : K} {os i : ℕ} (hos : s.addressSpace.findObject mo = some os) (hi : i < size mo) :
    ∃ v, s.byte heap mo i = some v ∧ v.eval σ = ⟨8, m mo i⟩ := by
  obtain ⟨object, hobject, hsize, hrep⟩ := h mo os hos
  obtain ⟨v, s', hread, hv, -⟩ := ObjectState.read8_returns hrep (hsize.symm ▸ hi)
  refine ⟨v, ?_, hv.2⟩
  simp [MergingState.byte, hos, hobject, hread]

/-- What a merged state is: it has the assignments of both states, and under an assignment
the value of every register and byte is the one that the state it comes from has. -/
structure Merged (size : K → ℕ) (heap heap' : List (HeapObject ObjectState))
    (a b a' : MergingState K) : Prop where
  constraints : ∀ σ, Satisfies σ a'.constraints
    ↔ Satisfies σ a.constraints ∨ Satisfies σ b.constraints
  registers : ∀ σ d i va vb, register a.stack d i = some va → register b.stack d i = some vb →
    ∃ v, register a'.stack d i = some v ∧ Chooses σ (Satisfies σ (a.suffix b)) v va vb
  objects : ∀ mo, (a'.addressSpace.findObject mo = none ↔ a.addressSpace.findObject mo = none)
    ∧ (a'.addressSpace.findObject mo = none ↔ b.addressSpace.findObject mo = none)
  bytes : ∀ σ mo i, a'.addressSpace.findObject mo ≠ none → i < size mo →
    ∃ va vb v, a.byte heap mo i = some va ∧ b.byte heap mo i = some vb
      ∧ a'.byte heap' mo i = some v ∧ Chooses σ (Satisfies σ (a.suffix b)) v va vb

variable [Inhabited K] {littleEndian : Bool} {size : K → ℕ} {exprOrder : SetOrder Expr}
  {objectOrder : SetOrder K} {a b a' : MergingState K} {heap heap' : List (HeapObject ObjectState)}

/-- What `merge` does when it returns: nothing, or every part of it succeeds. -/
theorem merge_cases {answer : Bool}
    (h : merge littleEndian size exprOrder objectOrder a b heap = some (answer, a', heap')) :
    (answer = false ∧ a' = a ∧ heap' = heap)
      ∨ ∃ common aSuffix bSuffix mutated constraints, answer = true
        ∧ (∀ c, c ∈ common ↔ c ∈ a.constraints ∧ c ∈ b.constraints)
        ∧ (∀ c, c ∈ aSuffix ↔ c ∈ a.constraints ∧ c ∉ b.constraints)
        ∧ (∀ c, c ∈ bSuffix ↔ c ∈ b.constraints ∧ c ∉ a.constraints)
        ∧ mutatedObjects a.addressSpace.objects.entries b.addressSpace.objects.entries
            = some mutated
        ∧ mergeStack (conjunction aSuffix) a.stack b.stack = some a'.stack
        ∧ (objectOrder.toList mutated).foldlM
            (mergeObject littleEndian size (conjunction aSuffix) b.addressSpace)
            (a.addressSpace, heap) = some (a'.addressSpace, heap')
        ∧ ConstraintManager.addConstraints [] common = some constraints
        ∧ ConstraintManager.addConstraint constraints
            (OrExpr.create (conjunction aSuffix) (conjunction bSuffix)) = some a'.constraints := by
  have hfalse : some (false, a, heap) = some (answer, a', heap') →
      answer = false ∧ a' = a ∧ heap' = heap := by
    intro heq
    obtain ⟨rfl, rfl, rfl⟩ : false = answer ∧ a = a' ∧ heap = heap' := by simpa using heq
    exact ⟨rfl, rfl, rfl⟩
  rw [merge] at h
  by_cases hpc : a.pc ≠ b.pc
  · rw [if_pos hpc] at h
    exact .inl (hfalse h)
  rw [if_neg hpc] at h
  by_cases hsymbolics : a.symbolics ≠ b.symbolics
  · rw [if_pos hsymbolics] at h
    exact .inl (hfalse h)
  rw [if_neg hsymbolics] at h
  by_cases hframes : (!sameFrames a.stack b.stack) = true
  · rw [if_pos hframes] at h
    exact .inl (hfalse h)
  rw [if_neg hframes] at h
  cases hmutated : mutatedObjects a.addressSpace.objects.entries b.addressSpace.objects.entries with
  | none =>
    simp only [hmutated] at h
    exact .inl (hfalse h)
  | some mutated =>
    simp only [hmutated, Option.bind_eq_bind, Option.bind_eq_some_iff] at h
    obtain ⟨stack, hstack, ⟨space, heap₁⟩, hmemory, constraints, hadd, merged, hmerged, heq⟩ := h
    obtain ⟨rfl, rfl, rfl⟩ : true = answer
        ∧ ⟨a.pc, stack, a.symbolics, merged, space⟩ = a' ∧ heap₁ = heap' := by
      simpa using heq
    refine .inr ⟨_, _, _, mutated, constraints, rfl, fun c => ?_, fun c => ?_, fun c => ?_, rfl,
      hstack, hmemory, hadd, hmerged⟩
    · rw [exprOrder.mem_toList, Finset.mem_inter, List.mem_toFinset, List.mem_toFinset]
    · rw [exprOrder.mem_toList]
      simp only [Finset.mem_sdiff, Finset.mem_inter, List.mem_toFinset]
      tauto
    · rw [exprOrder.mem_toList]
      simp only [Finset.mem_sdiff, Finset.mem_inter, List.mem_toFinset]
      tauto

/-- A list of constraints is satisfied when its part in another list and the rest are. -/
theorem satisfies_parts {σ : Env} {constraints other common rest : List Expr}
    (hcommon : ∀ c, c ∈ common ↔ c ∈ constraints ∧ c ∈ other)
    (hrest : ∀ c, c ∈ rest ↔ c ∈ constraints ∧ c ∉ other) :
    Satisfies σ common ∧ Satisfies σ rest ↔ Satisfies σ constraints := by
  constructor
  · rintro ⟨hc, hr⟩ c hmem
    by_cases hother : c ∈ other
    · exact hc c ((hcommon c).mpr ⟨hmem, hother⟩)
    · exact hr c ((hrest c).mpr ⟨hmem, hother⟩)
  · intro h
    exact ⟨fun c hc => h c ((hcommon c).mp hc).1, fun c hc => h c ((hrest c).mp hc).1⟩

/-- `merge` is sound. If it returns false it leaves everything as it was. If it returns
true, the first state is now both states, each under its own assignments. -/
theorem merge_correct {answer : Bool} (ha : a.WellFormed size heap) (hb : b.WellFormed size heap)
    (hsep : Separate a.addressSpace b.addressSpace)
    (h : merge littleEndian size exprOrder objectOrder a b heap = some (answer, a', heap')) :
    (answer = false → a' = a ∧ heap' = heap) ∧ (answer = true → Merged size heap heap' a b a') := by
  rcases merge_cases h with ⟨rfl, hunchanged⟩ | ⟨common, aSuffix, bSuffix, mutated, constraints, rfl,
    hcommon, hasuffix, hbsuffix, hmutated, hstack, hmemory, hadd, hmerged⟩
  · exact ⟨fun _ => hunchanged, fun htrue => absurd htrue Bool.false_ne_true⟩
  refine ⟨fun hfalse => absurd hfalse (by simp), fun _ => ?_⟩
  have hcommonBool : ∀ c ∈ common, c.IsBool := fun c hc => ha.constraints c ((hcommon c).mp hc).1
  have haBool : ∀ c ∈ aSuffix, c.IsBool := fun c hc => ha.constraints c ((hasuffix c).mp hc).1
  have hbBool : ∀ c ∈ bSuffix, c.IsBool := fun c hc => hb.constraints c ((hbsuffix c).mp hc).1
  have hcommon' : ∀ c, c ∈ common ↔ c ∈ b.constraints ∧ c ∈ a.constraints := fun c =>
    (hcommon c).trans and_comm
  have hsuffix : ∀ σ, Satisfies σ (a.suffix b) ↔ Satisfies σ aSuffix := by
    intro σ
    refine forall_congr' fun c => ?_
    rw [hasuffix c, suffix, List.mem_filter, decide_eq_true_iff]
  have hinA : ∀ σ, Denotes σ (conjunction aSuffix)
      (BitVec.ofBool (decide (Satisfies σ (a.suffix b)))) := by
    intro σ
    rw [decide_eq_decide.mpr (hsuffix σ)]
    exact conjunction_denotes haBool
  have hfind := mutatedObjects_find hmutated
  have hobjects : ∀ mo ∈ objectOrder.toList mutated, ∃ os otherOS,
      a.addressSpace.findObject mo = some os ∧ b.addressSpace.findObject mo = some otherOS
        ∧ os ≠ otherOS := by
    intro mo hmo
    rw [objectOrder.mem_toList] at hmo
    rcases hfind mo with ⟨-, -, hnot⟩ | ⟨os, otherOS, hos, hother, hiff⟩
    · exact absurd hmo hnot
    · exact ⟨os, otherOS, hos, hother, hiff.mp hmo⟩
  have hbound : ∀ mo, a'.addressSpace.findObject mo = none ↔ a.addressSpace.findObject mo = none := by
    intro mo
    obtain ⟨m, hm⟩ := ha.holdsBytes fun _ _ => 0
    obtain ⟨m', hm'⟩ := hb.holdsBytes fun _ _ => 0
    exact (foldlM_mergeObject littleEndian (hinA _) _ hsep hm hm' hobjects hmemory).1 mo
  refine ⟨fun σ => ?_, fun σ d i va vb hva hvb => ?_, fun mo => ⟨hbound mo, (hbound mo).trans ?_⟩,
    fun σ mo i hmo hi => ?_⟩
  · rw [satisfies_merged hcommonBool haBool hbBool hadd hmerged, and_or_left,
      satisfies_parts hcommon hasuffix, satisfies_parts hcommon' hbsuffix]
  · obtain ⟨hwidth, hregister⟩ := mergeStack_register hstack hva hvb
    obtain ⟨x, hx⟩ := (ha.registers d i va hva).denotes (σ := σ) rfl
    obtain ⟨y, hy⟩ := (hb.registers d i vb hvb).denotes (σ := σ) hwidth.symm
    have hselect := SelectExpr.create_denotes (hinA σ) hx hy
    refine ⟨_, hregister, fun hp => ?_, fun hp => ?_⟩
    · rw [hselect.2, hx.2, decide_eq_true hp, if_pos rfl]
    · rw [hselect.2, hy.2, decide_eq_false hp, if_neg Bool.false_ne_true]
  · rcases hfind mo with ⟨hnone, hnone', -⟩ | ⟨os, otherOS, hos, hother, -⟩
    · rw [hnone, hnone']
    · rw [hos, hother]
      simp
  · obtain ⟨m, hm⟩ := ha.holdsBytes σ
    obtain ⟨m', hm'⟩ := hb.holdsBytes σ
    have hrun := (foldlM_mergeObject littleEndian (hinA σ) _ hsep hm hm' hobjects hmemory).2
    obtain ⟨wos, hwos⟩ := Option.ne_none_iff_exists'.mp hmo
    rcases hfind mo with ⟨hnone, -, -⟩ | ⟨os, otherOS, hos, hother, hiff⟩
    · exact absurd ((hbound mo).mpr hnone) hmo
    obtain ⟨va, hva, hvaeval⟩ := hm.byte hos hi
    obtain ⟨vb, hvb, hvbeval⟩ := hm'.byte hother hi
    obtain ⟨v, hv, hveval⟩ := hrun.byte hwos hi
    refine ⟨va, vb, v, hva, hvb, hv, ?_⟩
    by_cases hmem : mo ∈ mutated
    · -- The byte is chosen.
      rw [if_pos ((objectOrder.mem_toList _ _).mpr hmem)] at hveval
      refine ⟨fun hp => ?_, fun hp => ?_⟩
      · rw [hveval, hvaeval, chosenBytes, decide_eq_true hp, if_pos rfl]
      · rw [hveval, hvbeval, chosenBytes, decide_eq_false hp, if_neg Bool.false_ne_true]
    · -- Both states have one object state, and so has the merged one.
      rw [if_neg fun hlist => hmem ((objectOrder.mem_toList _ _).mp hlist)] at hveval
      obtain rfl : os = otherOS := by
        by_contra hne
        exact hmem (hiff.mpr hne)
      have hsame : a.byte heap mo i = b.byte heap mo i := by
        simp only [MergingState.byte, hos, hother]
      obtain rfl : va = vb := Option.some.inj (hva.symm.trans (hsame.trans hvb))
      exact ⟨fun _ => hveval.trans hvaeval.symm, fun _ => hveval.trans hvaeval.symm⟩

end Soundness

/-! ## A merge of two states -/

/-- Sets in some order. -/
noncomputable def someOrder (α : Type) : SetOrder α where
  toList := Finset.toList
  mem_toList _ _ := Finset.mem_toList
  nodup := Finset.nodup_toList

/-- The first byte of an array is zero. -/
def zeroByte : Expr :=
  .Cmp .Eq (.Constant ⟨8, 0⟩) (.Read (.root (.symbolic 0 "a" 4)) (.Constant ⟨32, 0⟩))

/-- A state with one register and one object of a byte. -/
def oneByte (constraints : List Expr) (os : ℕ) (value : BitVec 8) : MergingState ℕ where
  pc := 0
  stack := [⟨0, ⟨0, 1⟩, [some (.Constant ⟨8, value⟩)], rfl⟩]
  symbolics := []
  constraints := constraints
  addressSpace := ⟨1, ImmutableMap.empty.replace (0, os)⟩

/-- The object states of two states. -/
def twoObjects : List (HeapObject ObjectState) :=
  [(1 : BitVec 8), 2].map fun value =>
    ⟨1, false, (ObjectState.ofConcrete 1 (by decide) none 0).write8 0 value⟩

theorem oneByte_findObject {constraints : List Expr} {os : ℕ} {value : BitVec 8} {mo k : ℕ}
    (h : (oneByte constraints os value).addressSpace.findObject mo = some k) :
    mo = 0 ∧ k = os := by
  rw [oneByte, AddressSpace.findObject, ImmutableMap.lookup_replace] at h
  by_cases hmo : mo = 0
  · rw [hmo, Function.update_self] at h
    exact ⟨hmo, (Option.some.inj h).symm⟩
  · rw [Function.update_of_ne hmo] at h
    exact absurd h (by simp [ImmutableMap.lookup_empty])

theorem oneByte_wellFormed {constraints : List Expr} (h : ∀ c ∈ constraints, c.IsBool) {os : ℕ}
    (hos : os < 2) (value : BitVec 8) :
    (oneByte constraints os value).WellFormed (fun _ => 1) twoObjects where
  constraints := h
  registers d i v hv := by
    cases d with
    | zero =>
      cases i with
      | zero =>
        obtain rfl : Expr.Constant ⟨8, value⟩ = v := Option.some.inj hv
        exact Nat.zero_lt_succ 7
      | succ i => exact absurd hv (by simp [register, oneByte])
    | succ d => exact absurd hv (by simp [register, oneByte])
  objects mo k hk := by
    obtain ⟨-, rfl⟩ := oneByte_findObject hk
    obtain ⟨value, hvalue⟩ : ∃ value, [(1 : BitVec 8), 2][k]? = some value :=
      ⟨_, List.getElem?_eq_getElem hos⟩
    refine ⟨_, by rw [twoObjects, List.getElem?_map, hvalue]; rfl, rfl, fun σ => ?_⟩
    have hzero := ObjectState.ofConcrete_represents σ (by decide : 1 < 2 ^ 32) none 0
    exact ⟨_, (ObjectState.write8_represents hzero 0 value).1⟩

/-- One state has a constraint, the other none; the merged state has none, and its register
is a choice. -/
theorem merge_correct_oneByte : ∃ a' heap',
    merge true (fun _ => 1) (someOrder Expr) (someOrder ℕ) (oneByte [zeroByte] 0 1)
        (oneByte [] 1 2) twoObjects = some (true, a', heap')
      ∧ Merged (fun _ => 1) twoObjects heap' (oneByte [zeroByte] 0 1) (oneByte [] 1 2) a' := by
  have hcommon : (oneByte [zeroByte] 0 1).constraints.toFinset
      ∩ (oneByte [] 1 2).constraints.toFinset = ∅ := Finset.inter_empty _
  have haSuffix : (someOrder Expr).toList ((oneByte [zeroByte] 0 1).constraints.toFinset \ ∅)
      = [zeroByte] := by
    rw [Finset.sdiff_empty]
    exact Finset.toList_singleton zeroByte
  have hbSuffix : (someOrder Expr).toList ((oneByte [] 1 2).constraints.toFinset \ ∅) = [] :=
    Finset.toList_empty
  have hempty : (someOrder Expr).toList ∅ = [] := Finset.toList_empty
  have hmutated : mutatedObjects (oneByte [zeroByte] 0 1).addressSpace.objects.entries
      (oneByte [] 1 2).addressSpace.objects.entries = some {0} := rfl
  have hobjects : (someOrder ℕ).toList {0} = [0] := Finset.toList_singleton 0
  have hadd : ConstraintManager.addConstraint [] (.Constant (.ofBool true)) = some [] := by
    simp [ConstraintManager.addConstraint, ConstraintManager.simplifyExpr,
      ConstraintManager.addConstraintInternal, Expr.isConstant]
    rfl
  have hor : OrExpr.create (conjunction [zeroByte]) (conjunction []) = .Constant (.ofBool true) := rfl
  have hrun : ∃ a' heap', merge true (fun _ => 1) (someOrder Expr) (someOrder ℕ)
      (oneByte [zeroByte] 0 1) (oneByte [] 1 2) twoObjects = some (true, a', heap') := by
    have hpc : ¬(oneByte [zeroByte] 0 1).pc ≠ (oneByte [] 1 2).pc := not_not.mpr rfl
    have hsymbolics : ¬(oneByte [zeroByte] 0 1).symbolics ≠ (oneByte [] 1 2).symbolics :=
      not_not.mpr rfl
    have hframes : ¬(!sameFrames (oneByte [zeroByte] 0 1).stack (oneByte [] 1 2).stack) = true := by
      decide
    obtain ⟨stack, hstack⟩ : ∃ stack, mergeStack (conjunction [zeroByte])
        (oneByte [zeroByte] 0 1).stack (oneByte [] 1 2).stack = some stack := ⟨_, rfl⟩
    obtain ⟨memory, hmemory⟩ : ∃ memory, [0].foldlM
        (mergeObject true (fun _ => 1) (conjunction [zeroByte]) (oneByte [] 1 2).addressSpace)
        ((oneByte [zeroByte] 0 1).addressSpace, twoObjects) = some memory := ⟨_, rfl⟩
    have hnil : ConstraintManager.addConstraints [] [] = some [] := rfl
    rw [merge, if_neg hpc, if_neg hsymbolics, if_neg hframes]
    simp only [hcommon, haSuffix, hbSuffix, hempty, hmutated, hobjects, hstack, hmemory, hnil, hor,
      hadd, Option.bind_eq_bind, Option.bind_some]
    exact ⟨_, _, rfl⟩
  obtain ⟨a', heap', hmerge⟩ := hrun
  refine ⟨a', heap', hmerge, (merge_correct (oneByte_wellFormed (by decide) (by decide) 1)
    (oneByte_wellFormed (by simp) (by decide) 2) ?_ hmerge).2 rfl⟩
  rintro mo mo' os (h | h) (h' | h') <;>
    rw [(oneByte_findObject h).1, (oneByte_findObject h').1]

end MergingState

end Xklee
