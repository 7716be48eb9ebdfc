/-
`getelementptr`: `Instruction::GetElementPtr` in `Executor::executeInstruction`.

The address is the base, with the precomputed offset and with each index that is no constant times
the size of what it counts. The target data puts the elements of a sequence one allocation apart,
while the precomputed sizes are those of a store; the address is right exactly when the padding
between the elements that were stepped over comes to nothing.
-/
import Mathlib.Tactic.Ring
import Xklee.Core.TypeLayout

set_option autoImplicit false

namespace Xklee

variable (td : TargetData)

/-- `Expr::createPointer`, which asserts that the number fits. -/
def createPointer (v : ℕ) : Option Expr :=
  if v < 2 ^ td.pointerWidth then some (.Constant ⟨td.pointerWidth, BitVec.ofNat _ v⟩) else none

/-- What `eval` gives for an operand. -/
def IndexOperand.expr : IndexOperand → Expr
  | .constant c => .Constant c
  | .value e => e

/-- A round of the loop over the indices; operand 0 is the base. -/
def addIndex (steps : List (CompositeType × IndexOperand)) (base : Expr) (it : ℕ × ℕ) :
    Option Expr := do
  let index ← (steps[it.1 - 1]?).map fun s => s.2.expr
  let elementSize ← createPointer td it.2
  some (AddExpr.create base (MulExpr.create (SExtExpr.create index td.pointerWidth) elementSize))

def executeGetElementPtr (base : Expr) (steps : List (CompositeType × IndexOperand)) : Option Expr := do
  let kgepi ← computeOffsets td steps 1 0 []
  let base ← kgepi.indices.foldlM (addIndex td steps) base
  if kgepi.offset ≠ 0 then
    some (AddExpr.create base (.Constant ⟨td.pointerWidth, kgepi.offset⟩))
  else some base

/-! ## The address -/

/-- The steps of an instruction that the verifier lets pass. -/
def ValidStep : CompositeType × IndexOperand → Prop
  | (.struct _ fields, op) => ∃ c : APInt, op = .constant c ∧ c.toNat < fields.length
  | (.sequential _, .constant _) => True
  | (.sequential _, .value e) => e.WellTyped

/-- The index, sign-extended or truncated to the width of a pointer. -/
def IndexOperand.index (σ : Env) (op : IndexOperand) : BitVec td.pointerWidth :=
  (op.expr.eval σ).bits.signExtend _

/-- What a step adds to the address when the elements of a sequence are `size` apart. -/
def stepOffset (size : LLVMType → ℕ) (σ : Env) :
    CompositeType × IndexOperand → BitVec td.pointerWidth
  | (.struct isPacked fields, op) =>
      BitVec.ofNat _ ((td.getElementOffset isPacked 0 fields (op.expr.eval σ).toNat).getD 0)
  | (.sequential element, op) => op.index td σ * BitVec.ofNat _ (size element)

/-- The offset that the target data prescribes. -/
def layoutOffset (σ : Env) (steps : List (CompositeType × IndexOperand)) : BitVec td.pointerWidth :=
  (steps.map (stepOffset td td.getTypeAllocSize σ)).sum

/-- The padding between the elements that an index steps over. -/
def stepPadding (σ : Env) : CompositeType × IndexOperand → BitVec td.pointerWidth
  | (.struct _ _, _) => 0
  | (.sequential element, op) => op.index td σ
      * BitVec.ofNat _ (td.getTypeAllocSize element - td.getTypeStoreSize element)

def skippedPadding (σ : Env) (steps : List (CompositeType × IndexOperand)) :
    BitVec td.pointerWidth :=
  (steps.map (stepPadding td σ)).sum

/-- Every size that a variable index counts is a number of an address. -/
def SizesFit (steps : List (CompositeType × IndexOperand)) : Prop :=
  ∀ element e, (CompositeType.sequential element, IndexOperand.value e) ∈ steps →
    td.getTypeStoreSize element < 2 ^ td.pointerWidth

variable {td} {σ : Env}

variable (td) in
theorem getElementOffset_isSome (isPacked : Bool) (offset : ℕ) {i : ℕ} {fields : List LLVMType}
    (h : i < fields.length) : ∃ o, td.getElementOffset isPacked offset fields i = some o := by
  induction fields generalizing offset i with
  | nil => cases h
  | cons T fields ih =>
      cases i with
      | zero => exact ⟨_, rfl⟩
      | succ i => exact ih _ (Nat.lt_of_succ_lt_succ h)

/-! ## The walk -/

variable (td) in
/-- The numbers of the operands that are no constants, with the sizes of what they count. -/
def listed : ℕ → List (CompositeType × IndexOperand) → List (ℕ × ℕ)
  | _, [] => []
  | index, (.sequential element, .value _) :: steps =>
      (index, td.getTypeStoreSize element) :: listed (index + 1) steps
  | index, _ :: steps => listed (index + 1) steps

variable (td σ) in
/-- What the walk adds to the offset for a step. -/
def constantPart : CompositeType × IndexOperand → BitVec td.pointerWidth
  | (.sequential _, .value _) => 0
  | s => stepOffset td td.getTypeStoreSize σ s

variable (td σ) in
/-- What is left for the run. -/
def variablePart : CompositeType × IndexOperand → BitVec td.pointerWidth
  | (.sequential element, .value e) =>
      stepOffset td td.getTypeStoreSize σ (.sequential element, .value e)
  | _ => 0

theorem constantPart_add_variablePart (s : CompositeType × IndexOperand) :
    constantPart td σ s + variablePart td σ s = stepOffset td td.getTypeStoreSize σ s := by
  rcases s with ⟨_ | _, _ | _⟩ <;> simp [constantPart, variablePart]

theorem computeOffsets_eq (steps : List (CompositeType × IndexOperand))
    (hvalid : ∀ s ∈ steps, ValidStep s) (index : ℕ) (offset : BitVec td.pointerWidth)
    (indices : List (ℕ × ℕ)) : computeOffsets td steps index offset indices
      = some ⟨offset + (steps.map (constantPart td σ)).sum, indices ++ listed td index steps⟩ := by
  induction steps generalizing index offset indices with
  | nil => simp [computeOffsets, listed]
  | cons s steps ih =>
      have htail := ih fun s hs => hvalid s (List.mem_cons_of_mem _ hs)
      have hs := hvalid s List.mem_cons_self
      obtain ⟨type, op⟩ := s
      cases type with
      | struct isPacked fields =>
          obtain ⟨c, rfl, hc⟩ := hs
          obtain ⟨addend, haddend⟩ := getElementOffset_isSome td isPacked 0 hc
          have hpart : constantPart td σ (.struct isPacked fields, .constant c)
              = BitVec.ofNat _ addend := by
            have hvalue : ((IndexOperand.constant c).expr.eval σ).toNat = c.toNat := rfl
            rw [constantPart, stepOffset, hvalue, haddend]
            · rfl
            · rintro _ _ ⟨⟩
          rw [computeOffsets, haddend, Option.bind_some, htail, List.map_cons, List.sum_cons, hpart,
            add_assoc, listed]
          rintro _ _ ⟨⟩
      | sequential element =>
          cases op with
          | constant c =>
              rw [computeOffsets, htail, List.map_cons, List.sum_cons, add_assoc, listed]
              · rfl
              · rintro _ _ ⟨⟩
          | value e =>
              rw [computeOffsets, htail, List.map_cons, List.sum_cons, constantPart, zero_add, listed,
                List.append_assoc]
              rfl

/-! ## The run -/

variable {s : CompositeType × IndexOperand} {steps : List (CompositeType × IndexOperand)}
  {e base : Expr} {b : BitVec td.pointerWidth} {k size : ℕ}

theorem createPointer_denotes {v : ℕ} (h : createPointer td v = some e) :
    v < 2 ^ td.pointerWidth ∧ Denotes σ e (BitVec.ofNat td.pointerWidth v) := by
  unfold createPointer at h
  split at h
  next hv =>
    obtain rfl := Option.some.inj h
    exact ⟨hv, denotes_const td.pointerWidth_pos _⟩
  next => cases h

theorem addIndex_eq_some {r : Expr} {element : LLVMType}
    (hget : steps[k]? = some (.sequential element, .value e)) (he : e.WellTyped)
    (hbase : Denotes σ base b) (h : addIndex td steps base (k + 1, size) = some r) :
    size < 2 ^ td.pointerWidth ∧
      Denotes σ r (b + (IndexOperand.value e).index td σ * BitVec.ofNat _ size) := by
  simp only [addIndex, Nat.add_sub_cancel, hget, Option.map_some, Option.bind_eq_bind,
    Option.bind_some, Option.bind_eq_some_iff, Option.some.injEq] at h
  obtain ⟨elementSize, hsize, rfl⟩ := h
  obtain ⟨hlt, hdenotes⟩ := createPointer_denotes (σ := σ) hsize
  obtain ⟨hwt, hval⟩ := CastExpr.create_hasValue (σ := σ) .SExt he td.pointerWidth_pos
  exact ⟨hlt, AddExpr.create_denotes hbase (MulExpr.create_denotes ⟨hwt, hval⟩ hdenotes)⟩

theorem addIndex_isSome (base : Expr) (hget : steps[k]? = some s) (h : size < 2 ^ td.pointerWidth) :
    ∃ r, addIndex td steps base (k + 1, size) = some r := by
  simp [addIndex, hget, createPointer, h]

theorem sizesFit_cons :
    SizesFit td (s :: steps) ↔ (∀ element e, s = (.sequential element, .value e) →
      td.getTypeStoreSize element < 2 ^ td.pointerWidth) ∧ SizesFit td steps := by
  constructor
  · intro h
    exact ⟨fun element e hs => h element e (hs ▸ List.mem_cons_self),
      fun element e hmem => h element e (List.mem_cons_of_mem _ hmem)⟩
  · rintro ⟨hs, h⟩ element e hmem
    rcases List.mem_cons.mp hmem with heq | hmem
    · exact hs element e heq.symm
    · exact h element e hmem

variable (td σ) in
/-- A step without a variable index leaves nothing for the run. -/
theorem listed_of_ne (h : ∀ element e, s ≠ (.sequential element, .value e)) (k : ℕ)
    (steps : List (CompositeType × IndexOperand)) :
    listed td k (s :: steps) = listed td (k + 1) steps ∧ variablePart td σ s = 0 := by
  obtain ⟨_ | element, _ | e⟩ := s
  · exact ⟨rfl, rfl⟩
  · exact ⟨rfl, rfl⟩
  · exact ⟨rfl, rfl⟩
  · exact absurd rfl (h element e)

/-- The loop runs to its end exactly when the sizes fit, and adds up what the walk has left. -/
theorem foldlM_listed {whole : List (CompositeType × IndexOperand)}
    (hvalid : ∀ s ∈ steps, ValidStep s) (hk : whole.drop k = steps) (hbase : Denotes σ base b) :
    (SizesFit td steps → ∃ r, (listed td (k + 1) steps).foldlM (addIndex td whole) base = some r) ∧
      ∀ r, (listed td (k + 1) steps).foldlM (addIndex td whole) base = some r →
        SizesFit td steps ∧ Denotes σ r (b + (steps.map (variablePart td σ)).sum) := by
  induction steps generalizing k base b with
  | nil =>
      refine ⟨fun _ => ⟨base, rfl⟩, fun r h => ?_⟩
      obtain rfl := Option.some.inj h
      exact ⟨fun _ _ hmem => (nomatch hmem), by simpa using hbase⟩
  | cons s steps ih =>
      have hs := hvalid s List.mem_cons_self
      have hget : whole[k]? = some s := by
        rw [← Nat.add_zero k, ← List.getElem?_drop, hk]
        rfl
      have hdrop : whole.drop (k + 1) = steps := by
        rw [← List.drop_drop, hk]
        rfl
      have htail := fun {base b} (h : Denotes σ base b) =>
        ih (fun s hs => hvalid s (List.mem_cons_of_mem _ hs)) hdrop h
      by_cases hvariable : ∃ element e, s = (.sequential element, .value e)
      · obtain ⟨element, e, rfl⟩ := hvariable
        rw [sizesFit_cons, List.map_cons, List.sum_cons, ← add_assoc, listed, List.foldlM_cons]
        constructor
        · rintro ⟨hsize, hfit⟩
          obtain ⟨base', hadd⟩ := addIndex_isSome base hget (hsize element e rfl)
          rw [hadd]
          exact (htail (addIndex_eq_some hget hs hbase hadd).2).1 hfit
        · intro r h
          obtain ⟨base', hadd, hrest⟩ := Option.bind_eq_some_iff.mp h
          obtain ⟨hlt, hdenotes⟩ := addIndex_eq_some hget hs hbase hadd
          obtain ⟨hfit, hr⟩ := (htail hdenotes).2 r hrest
          refine ⟨⟨?_, hfit⟩, hr⟩
          rintro _ _ ⟨⟩
          exact hlt
      · push Not at hvariable
        obtain ⟨hlisted, hzero⟩ := listed_of_ne td σ hvariable (k + 1) steps
        rw [hlisted, sizesFit_cons, List.map_cons, List.sum_cons, hzero, zero_add]
        obtain ⟨hruns, hsum⟩ := htail hbase
        refine ⟨fun h => hruns h.2, fun r h => ?_⟩
        obtain ⟨hfit, hr⟩ := hsum r h
        exact ⟨⟨fun element e hs => absurd hs (hvariable element e), hfit⟩, hr⟩

theorem executeGetElementPtr_runs (hbase : Denotes σ base b) (hvalid : ∀ s ∈ steps, ValidStep s) :
    (SizesFit td steps → ∃ r, executeGetElementPtr td base steps = some r) ∧
      ∀ r, executeGetElementPtr td base steps = some r → SizesFit td steps ∧
        Denotes σ r (b + (steps.map (stepOffset td td.getTypeStoreSize σ)).sum) := by
  obtain ⟨hruns, hsum⟩ := foldlM_listed hvalid (k := 0) rfl hbase
  have hparts : (steps.map (constantPart td σ)).sum + (steps.map (variablePart td σ)).sum
      = (steps.map (stepOffset td td.getTypeStoreSize σ)).sum := by
    rw [← List.sum_map_add]
    simp only [constantPart_add_variablePart]
  unfold executeGetElementPtr
  rw [computeOffsets_eq (σ := σ) steps hvalid, Option.bind_eq_bind, Option.bind_some, zero_add,
    List.nil_append]
  constructor
  · intro hfit
    obtain ⟨r, hr⟩ := hruns hfit
    rw [hr, Option.bind_eq_bind, Option.bind_some]
    split
    · exact ⟨_, rfl⟩
    · exact ⟨_, rfl⟩
  · intro r h
    obtain ⟨base', hloop, h⟩ := Option.bind_eq_some_iff.mp h
    obtain ⟨hfit, hdenotes⟩ := hsum base' hloop
    refine ⟨hfit, ?_⟩
    rw [← hparts, add_comm (steps.map (constantPart td σ)).sum, ← add_assoc]
    split at h
    next =>
      obtain rfl := Option.some.inj h
      exact AddExpr.create_denotes hdenotes (denotes_const td.pointerWidth_pos _)
    next hzero =>
      obtain rfl := Option.some.inj h
      have hzero : (steps.map (constantPart td σ)).sum = 0 := not_not.mp hzero
      rw [hzero, add_zero]
      exact hdenotes

/-- What the layout has and the code has not is the padding. -/
theorem stepOffset_alloc (s : CompositeType × IndexOperand) :
    stepOffset td td.getTypeAllocSize σ s = stepOffset td td.getTypeStoreSize σ s
      + stepPadding td σ s := by
  obtain ⟨_ | element, op⟩ := s
  · simp [stepOffset, stepPadding]
  · have hle : td.getTypeStoreSize element ≤ td.getTypeAllocSize element :=
      le_alignUp _ (td.abiAlignment_pos element)
    rw [stepOffset, stepOffset, stepPadding, ← mul_add, BitVec.ofNat_add_ofNat, Nat.add_sub_cancel' hle]

/-- The address is as the target data prescribes exactly when the sizes fit and no padding was
skipped. -/
theorem executeGetElementPtr_right_iff {base : Expr} {b : BitVec td.pointerWidth}
    (hbase : Denotes σ base b) {steps : List (CompositeType × IndexOperand)}
    (hvalid : ∀ s ∈ steps, ValidStep s) :
    (∃ r, executeGetElementPtr td base steps = some r ∧
        Denotes σ r (b + layoutOffset td σ steps)) ↔
      SizesFit td steps ∧ skippedPadding td σ steps = 0 := by
  obtain ⟨hruns, hvalue⟩ := executeGetElementPtr_runs hbase hvalid
  have hlayout : layoutOffset td σ steps = (steps.map (stepOffset td td.getTypeStoreSize σ)).sum
      + skippedPadding td σ steps := by
    rw [layoutOffset, skippedPadding, ← List.sum_map_add, funext (stepOffset_alloc (σ := σ))]
  constructor
  · rintro ⟨r, h, hr⟩
    obtain ⟨hfit, hr'⟩ := hvalue r h
    refine ⟨hfit, ?_⟩
    have heq := hr.unique hr'
    rw [hlayout, ← add_assoc] at heq
    exact add_left_cancel (heq.trans (add_zero _).symm)
  · rintro ⟨hfit, hpadding⟩
    obtain ⟨r, h⟩ := hruns hfit
    refine ⟨r, h, ?_⟩
    rw [hlayout, hpadding, add_zero]
    exact (hvalue r h).2

section Input

/-- A target with pointers of 64 bits on which everything is aligned to four bytes. -/
def wordAligned : TargetData := ⟨64, by decide, fun _ => 4, fun _ => by decide⟩

/-- The second element of an array of `i24` is at its fourth byte, not at its third. -/
theorem executeGetElementPtr_padded : ¬∃ r,
    executeGetElementPtr wordAligned (.Constant ⟨64, 4096⟩)
      [(.sequential (.int 24), .constant ⟨64, 1⟩)] = some r ∧
    Denotes (fun _ _ => 0) r (4096 + layoutOffset wordAligned (fun _ _ => 0)
      [(.sequential (.int 24), .constant ⟨64, 1⟩)]) := by
  rintro ⟨r, h, hr⟩
  have heq : r = .Constant ⟨64, 4099⟩ := (Option.some.inj h).symm.trans (by decide)
  subst heq
  exact absurd (congrArg BitVec.toNat (APInt.mk_inj.mp hr.2)) (by decide)

/-- Without padding the address is the one of the layout. -/
theorem executeGetElementPtr_right_input : ∃ r,
    executeGetElementPtr wordAligned (.Constant ⟨64, 4096⟩)
      [(.sequential (.int 32), .constant ⟨64, 1⟩)] = some r ∧
    Denotes (fun _ _ => 0) r (4096 + layoutOffset wordAligned (fun _ _ => 0)
      [(.sequential (.int 32), .constant ⟨64, 1⟩)]) := by
  refine (executeGetElementPtr_right_iff (denotes_const (by decide) 4096) ?_).mpr ⟨?_, by decide⟩
  · intro s hs
    obtain rfl := List.mem_singleton.mp hs
    trivial
  · intro element e hmem
    cases List.mem_singleton.mp hmem

end Input

end Xklee
