/-
`insertvalue` and `extractvalue`: the two instructions in `Executor::executeInstruction`.

An aggregate is one bit vector. Extracting a member cuts out its bits, inserting one puts it
together again with what is below and above. The members of the layout do not overlap, also where
the elements of an array are one store apart, so both instructions go by the laws of a lens. A
member without bits cannot be cut out: there the extract is out of range.
-/
import Xklee.Core.TypeLayout

set_option autoImplicit false

namespace Xklee

variable (td : TargetData)

/-! ## The instructions -/

/-- The indices of an instruction. -/
abbrev IndexPath := List (BitVec 32)

/-- The steps of the indices of an instruction. -/
def indexSteps : LLVMType → IndexPath → Option (List (CompositeType × IndexOperand))
  | _, [] => some []
  | .struct isPacked fields, i :: path =>
      (fields[i.toNat]?).bind fun T => (indexSteps T path).map fun steps =>
        (.struct isPacked fields, .constant ⟨32, i⟩) :: steps
  | .array length element, i :: path =>
      if i.toNat < length then (indexSteps element path).map fun steps =>
        (.sequential element, .constant ⟨32, i⟩) :: steps
      else none
  | _, _ :: _ => none

/-- `kgepi->offset`. -/
def aggregateOffset (T : LLVMType) (path : IndexPath) : Option ℕ := do
  let steps ← indexSteps T path
  let kgepi ← computeOffsets td steps 1 0 []
  if kgepi.indices.isEmpty then some kgepi.offset.toNat else none

/-- `ExtractExpr::create` with its assertion. -/
def createExtract (e : Expr) (off w : ℕ) : Option Expr :=
  if 0 < w ∧ off + w ≤ e.width then some (ExtractExpr.create e off w) else none

/-- `l` and `r`: an extract where there is something to extract. -/
def extractPart (present : Bool) (e : Expr) (off w : ℕ) : Option (Option Expr) :=
  if present then (createExtract e off w).map some else some none

def joinParts (l : Option Expr) (val : Expr) (r : Option Expr) : Expr :=
  match l, r with
  | some l, some r => ConcatExpr.create r (ConcatExpr.create val l)
  | some l, none => ConcatExpr.create val l
  | none, some r => ConcatExpr.create r val
  | none, none => val

def executeInsertValue (T : LLVMType) (path : IndexPath) (agg val : Expr) : Option Expr := do
  let offset ← aggregateOffset td T path
  let lOffset := offset * 8 % 2 ^ 32
  let rOffset := (offset * 8 + val.width) % 2 ^ 32
  let l ← extractPart (0 < lOffset) agg 0 lOffset
  let r ← extractPart (rOffset < agg.width) agg rOffset (agg.width - rOffset)
  some (joinParts l val r)

/-- `memberType` is the type of the instruction. -/
def executeExtractValue (T : LLVMType) (path : IndexPath) (memberType : LLVMType) (agg : Expr) :
    Option Expr := do
  let offset ← aggregateOffset td T path
  createExtract agg (offset * 8 % 2 ^ 32) (td.getTypeSizeInBits memberType)

/-! ## Members -/

/-- The member at a path, with the byte it begins at. -/
def memberAt : LLVMType → IndexPath → Option (ℕ × LLVMType)
  | T, [] => some (0, T)
  | .struct isPacked fields, i :: path =>
      (td.getElementOffset isPacked 0 fields i.toNat).bind fun offset =>
        (fields[i.toNat]?).bind fun T => (memberAt T path).map fun m => (offset + m.1, m.2)
  | .array length element, i :: path =>
      if i.toNat < length then
        (memberAt element path).map fun m => (i.toNat * td.getTypeStoreSize element + m.1, m.2)
      else none
  | _, _ :: _ => none

/-- Neither path leads through the member at the other one. -/
def DisjointPaths (p q : IndexPath) : Prop := ¬p <+: q ∧ ¬q <+: p

/-- An expression of the type. -/
def IsValue (T : LLVMType) (e : Expr) : Prop := e.WellTyped ∧ e.width = td.getTypeSizeInBits T

/-- The laws of the two instructions for the member at `path`. -/
structure LensLaws (T : LLVMType) (path : IndexPath) (memberType : LLVMType) : Prop where
  insert : ∀ agg val, IsValue td T agg → IsValue td memberType val →
    ∃ r, executeInsertValue td T path agg val = some r ∧ IsValue td T r ∧
      (∃ e, executeExtractValue td T path memberType r = some e ∧ ∀ σ, e.eval σ = val.eval σ) ∧
      (∀ q offset U, memberAt td T q = some (offset, U) → DisjointPaths path q →
        ∃ e e', executeExtractValue td T q U r = some e ∧
          executeExtractValue td T q U agg = some e' ∧ ∀ σ, e.eval σ = e'.eval σ) ∧
      ∀ val', IsValue td memberType val' → ∃ r' r'', executeInsertValue td T path r val' = some r' ∧
        executeInsertValue td T path agg val' = some r'' ∧ ∀ σ, r'.eval σ = r''.eval σ
  keep : ∀ agg, IsValue td T agg → ∃ e r, executeExtractValue td T path memberType agg = some e ∧
    executeInsertValue td T path agg e = some r ∧ ∀ σ, r.eval σ = agg.eval σ

namespace TargetData

/-! ## The layout -/

theorem fieldAlignment_pos (isPacked : Bool) (T : LLVMType) : 0 < td.fieldAlignment isPacked T := by
  unfold fieldAlignment
  split
  · exact Nat.one_pos
  · exact td.abiAlignment_pos T

theorem sizes_le (T : LLVMType) : td.getTypeSizeInBits T ≤ 8 * td.getTypeStoreSize T ∧
    td.getTypeStoreSize T ≤ td.getTypeAllocSize T := by
  refine ⟨?_, le_alignUp _ (td.abiAlignment_pos T)⟩
  unfold getTypeStoreSize
  omega

theorem structAlignment_pos (isPacked : Bool) (fields : List LLVMType) :
    0 < td.structAlignment isPacked fields := by
  unfold structAlignment
  suffices h : ∀ a, 0 < a → 0 < fields.foldl (fun a T => max a (td.fieldAlignment isPacked T)) a from
    h 1 Nat.one_pos
  induction fields with
  | nil => exact fun _ h => h
  | cons T fields ih => exact fun a h => ih _ (lt_max_of_lt_left h)

theorem le_fieldsEnd (isPacked : Bool) (offset : ℕ) (fields : List LLVMType) :
    offset ≤ td.fieldsEnd isPacked offset fields := by
  induction fields generalizing offset with
  | nil => exact le_rfl
  | cons T fields ih =>
      exact (le_alignUp offset (td.fieldAlignment_pos isPacked T)).trans
        ((Nat.le_add_right _ _).trans (ih _))

theorem getTypeSizeInBits_array (length : ℕ) (element : LLVMType) :
    td.getTypeSizeInBits (.array length element) = length * (8 * td.getTypeAllocSize element) := rfl

theorem fieldsEnd_le (isPacked : Bool) (fields : List LLVMType) :
    8 * td.fieldsEnd isPacked 0 fields ≤ td.getTypeSizeInBits (.struct isPacked fields) :=
  Nat.mul_le_mul_left 8 (le_alignUp _ (td.structAlignment_pos isPacked fields))

variable {isPacked : Bool} {T : LLVMType} {fields : List LLVMType} {offset i j o : ℕ}

omit td in
/-- An element of an array ends in front of the next one. -/
theorem element_le (h : i < j) (n : ℕ) : i * n + n ≤ j * n := by
  rw [← Nat.succ_mul]
  exact Nat.mul_le_mul_right n h

theorem array_le {length : ℕ} (hi : i < length) (element : LLVMType) :
    8 * (i * td.getTypeStoreSize element + td.getTypeStoreSize element)
      ≤ td.getTypeSizeInBits (.array length element) := by
  rw [getTypeSizeInBits_array, Nat.mul_left_comm]
  apply Nat.mul_le_mul_left
  exact (element_le hi _).trans
    (Nat.mul_le_mul_left length (td.sizes_le element).2)

variable {td}

/-- A field lies behind `offset` and in front of the end. -/
theorem getElementOffset_le (ho : td.getElementOffset isPacked offset fields i = some o)
    (hT : fields[i]? = some T) :
    offset ≤ o ∧ o + td.getTypeAllocSize T ≤ td.fieldsEnd isPacked offset fields := by
  induction fields generalizing offset i with
  | nil => cases hT
  | cons U fields ih =>
      have hle := le_alignUp offset (td.fieldAlignment_pos isPacked U)
      cases i with
      | zero =>
          obtain rfl := Option.some.inj ho
          obtain rfl := Option.some.inj hT
          exact ⟨hle, td.le_fieldsEnd isPacked _ fields⟩
      | succ i =>
          obtain ⟨hlow, hend⟩ := ih ho hT
          exact ⟨hle.trans ((Nat.le_add_right _ _).trans hlow), hend⟩

/-- An earlier field ends in front of a later one. -/
theorem getElementOffset_lt {o' : ℕ} (hij : i < j)
    (ho : td.getElementOffset isPacked offset fields i = some o) (hT : fields[i]? = some T)
    (ho' : td.getElementOffset isPacked offset fields j = some o') (hj : j < fields.length) :
    o + td.getTypeAllocSize T ≤ o' := by
  induction fields generalizing offset i j with
  | nil => cases hT
  | cons U fields ih =>
      obtain ⟨j, rfl⟩ : ∃ k, j = k + 1 := ⟨j - 1, by omega⟩
      have hj : j < fields.length := Nat.lt_of_succ_lt_succ hj
      cases i with
      | zero =>
          obtain rfl := Option.some.inj ho
          obtain rfl := Option.some.inj hT
          have ho' : td.getElementOffset isPacked (alignUp offset (td.fieldAlignment isPacked U)
              + td.getTypeAllocSize U) fields j = some o' := ho'
          exact (getElementOffset_le ho' (List.getElem?_eq_getElem hj)).1
      | succ i => exact ih (Nat.lt_of_succ_lt_succ hij) ho hT ho' hj

end TargetData

/-! ## Members do not overlap -/

variable {td}

variable {i : BitVec 32} {o length off : ℕ} {path p q : IndexPath} {U T : LLVMType}
  {a b c c' : APInt}

theorem memberAt_struct {isPacked : Bool} {fields : List LLVMType}
    (h : memberAt td (.struct isPacked fields) (i :: path) = some (o, U)) :
    ∃ o₁ T o₂, td.getElementOffset isPacked 0 fields i.toNat = some o₁ ∧ fields[i.toNat]? = some T ∧
      memberAt td T path = some (o₂, U) ∧ o = o₁ + o₂ := by
  simp only [memberAt, Option.bind_eq_some_iff, Option.map_eq_some_iff, Prod.mk.injEq] at h
  obtain ⟨o₁, ho₁, T, hT, ⟨o₂, V⟩, hm, rfl, rfl⟩ := h
  exact ⟨o₁, T, o₂, ho₁, hT, hm, rfl⟩

theorem memberAt_array {element : LLVMType}
    (h : memberAt td (.array length element) (i :: path) = some (o, U)) :
    i.toNat < length ∧ ∃ o₂, memberAt td element path = some (o₂, U) ∧
      o = i.toNat * td.getTypeStoreSize element + o₂ := by
  simp only [memberAt] at h
  split at h
  next hi =>
    simp only [Option.map_eq_some_iff, Prod.mk.injEq] at h
    obtain ⟨⟨o₂, V⟩, hm, rfl, rfl⟩ := h
    exact ⟨hi, o₂, hm, rfl⟩
  next => cases h

/-- A member lies inside of its aggregate. -/
theorem memberAt_le (h : memberAt td T path = some (o, U)) :
    8 * o + td.getTypeSizeInBits U ≤ td.getTypeSizeInBits T := by
  induction path generalizing T o with
  | nil =>
      simp only [memberAt, Option.some.injEq, Prod.mk.injEq] at h
      obtain ⟨rfl, rfl⟩ := h
      omega
  | cons i path ih =>
      cases T with
      | struct isPacked fields =>
          obtain ⟨o₁, V, o₂, ho₁, hV, hm, rfl⟩ := memberAt_struct h
          have hfield := (TargetData.getElementOffset_le ho₁ hV).2
          have hend := td.fieldsEnd_le isPacked fields
          have hbits := td.sizes_le V
          have hm := ih hm
          omega
      | array length element =>
          obtain ⟨hi, o₂, hm, rfl⟩ := memberAt_array h
          have hend := td.array_le hi element
          have hbits := td.sizes_le element
          have hm := ih hm
          omega
      | int | floating | pointer | vector => cases h

theorem disjointPaths_cons (h : DisjointPaths (i :: p) (i :: q)) :
    DisjointPaths p q := by
  simpa [DisjointPaths, List.cons_prefix_cons] using h

/-- Members at disjoint paths have no bit in common. -/
theorem memberAt_disjoint (hpq : DisjointPaths p q) {V : LLVMType} {o' : ℕ}
    (h : memberAt td T p = some (o, U)) (h' : memberAt td T q = some (o', V)) :
    8 * o + td.getTypeSizeInBits U ≤ 8 * o' ∨ 8 * o' + td.getTypeSizeInBits V ≤ 8 * o := by
  induction p generalizing q T o o' with
  | nil => exact absurd (List.nil_prefix) hpq.1
  | cons i p ih =>
      cases q with
      | nil => exact absurd (List.nil_prefix) hpq.2
      | cons j q =>
          cases T with
          | struct isPacked fields =>
              obtain ⟨o₁, W, o₂, ho₁, hW, hm, rfl⟩ := memberAt_struct h
              obtain ⟨o₁', W', o₂', ho₁', hW', hm', rfl⟩ := memberAt_struct h'
              have hbits := td.sizes_le W
              have hbits' := td.sizes_le W'
              rcases lt_trichotomy i.toNat j.toNat with hij | hij | hij
              · have hlt := TargetData.getElementOffset_lt hij ho₁ hW ho₁'
                  (List.getElem?_eq_some_iff.mp hW').1
                have hle := memberAt_le hm
                omega
              · obtain rfl := BitVec.eq_of_toNat_eq hij
                obtain rfl := Option.some.inj (ho₁.symm.trans ho₁')
                obtain rfl := Option.some.inj (hW.symm.trans hW')
                have := ih (disjointPaths_cons hpq) hm hm'
                omega
              · have hlt := TargetData.getElementOffset_lt hij ho₁' hW' ho₁
                  (List.getElem?_eq_some_iff.mp hW).1
                have hle := memberAt_le hm'
                omega
          | array length element =>
              obtain ⟨hi, o₂, hm, rfl⟩ := memberAt_array h
              obtain ⟨hj, o₂', hm', rfl⟩ := memberAt_array h'
              have hbits := td.sizes_le element
              have hle := memberAt_le hm
              have hle' := memberAt_le hm'
              rcases lt_trichotomy i.toNat j.toNat with hij | hij | hij
              · have hlt := TargetData.element_le hij (td.getTypeStoreSize element)
                omega
              · obtain rfl := BitVec.eq_of_toNat_eq hij
                have := ih (disjointPaths_cons hpq) hm hm'
                omega
              · have hlt := TargetData.element_le hij (td.getTypeStoreSize element)
                omega
          | int | floating | pointer | vector => cases h

/-! ## Offsets -/

/-- An index is not negative where the aggregate has fewer than `2 ^ 32` bits. -/
theorem signExtend_mul_store (hi : i.toNat < length) (element : LLVMType)
    (hT : td.getTypeSizeInBits (.array length element) < 2 ^ 32) :
    i.signExtend td.pointerWidth * BitVec.ofNat _ (td.getTypeStoreSize element)
      = BitVec.ofNat _ (i.toNat * td.getTypeStoreSize element) := by
  have hle := td.array_le hi element
  rcases Nat.eq_zero_or_pos (td.getTypeStoreSize element) with hzero | hpos
  · rw [hzero]
    simp
  · have hmsb : i.msb = false := by
      have := Nat.le_mul_of_pos_right i.toNat hpos
      rw [BitVec.msb_eq_false_iff_two_mul_lt]
      omega
    rw [BitVec.signExtend_eq_setWidth_of_msb_false hmsb]
    apply BitVec.eq_of_toNat_eq
    simp only [BitVec.toNat_mul, BitVec.toNat_setWidth, BitVec.toNat_ofNat, ← Nat.mul_mod]

/-- The walk over the steps of a path adds up the offset of the member. -/
theorem exists_indexSteps (h : memberAt td T path = some (o, U))
    (hT : td.getTypeSizeInBits T < 2 ^ 32) :
    ∃ steps, indexSteps T path = some steps ∧ ∀ index offset,
      computeOffsets td steps index offset [] = some ⟨offset + BitVec.ofNat _ o, []⟩ := by
  induction path generalizing T o with
  | nil =>
      simp only [memberAt, Option.some.injEq, Prod.mk.injEq] at h
      obtain ⟨rfl, rfl⟩ := h
      exact ⟨[], rfl, fun index offset => by simp [computeOffsets]⟩
  | cons i path ih =>
      cases T with
      | struct isPacked fields =>
          obtain ⟨o₁, V, o₂, ho₁, hV, hm, rfl⟩ := memberAt_struct h
          have hfield := (TargetData.getElementOffset_le ho₁ hV).2
          have hend := td.fieldsEnd_le isPacked fields
          have hbits := td.sizes_le V
          obtain ⟨steps, hsteps, hwalk⟩ := ih hm (by omega)
          refine ⟨(.struct isPacked fields, .constant ⟨32, i⟩) :: steps, ?_, fun index offset => ?_⟩
          · rw [indexSteps, hV, Option.bind_some, hsteps]
            rfl
          · rw [computeOffsets, APInt.toNat_mk, ho₁, Option.bind_some, hwalk, add_assoc,
              BitVec.ofNat_add_ofNat]
      | array length element =>
          obtain ⟨hi, o₂, hm, rfl⟩ := memberAt_array h
          have hend := td.array_le hi element
          have hbits := td.sizes_le element
          obtain ⟨steps, hsteps, hwalk⟩ := ih hm (by omega)
          refine ⟨(.sequential element, .constant ⟨32, i⟩) :: steps, ?_, fun index offset => ?_⟩
          · rw [indexSteps, if_pos hi, hsteps]
            rfl
          · rw [computeOffsets, hwalk, signExtend_mul_store hi element hT, add_assoc,
              BitVec.ofNat_add_ofNat]
      | int | floating | pointer | vector => cases h

/-! ## Bits -/

/-- `c` is `a` with the bits of `b` from bit `off` on. -/
def Overwrites (a : APInt) (off : ℕ) (b c : APInt) : Prop :=
  c.width = a.width ∧ ∀ i, i < a.width → c.bits.getLsbD i =
    if off ≤ i ∧ i < off + b.width then b.bits.getLsbD (i - off) else a.bits.getLsbD i

theorem Overwrites.unique (h : Overwrites a off b c) (h' : Overwrites a off b c') : c = c' := by
  refine APInt.ext_getLsbD (h.1.trans h'.1.symm) fun i hi => ?_
  rw [h.1] at hi
  rw [h.2 i hi, h'.2 i hi]

theorem Overwrites.extract (h : Overwrites a off b c) (hle : off + b.width ≤ a.width) :
    c.extract off b.width = b := by
  refine APInt.ext_getLsbD rfl fun i (hi : i < b.width) => ?_
  have hbit := h.2 (off + i) (by omega)
  rw [if_pos (by omega), Nat.add_sub_cancel_left] at hbit
  simpa [APInt.extract, hi] using hbit

theorem Overwrites.extract_disjoint {off' w : ℕ} (h : Overwrites a off b c)
    (hle : off' + w ≤ a.width) (hdisjoint : off + b.width ≤ off' ∨ off' + w ≤ off) :
    c.extract off' w = a.extract off' w := by
  refine APInt.ext_getLsbD rfl fun i (hi : i < w) => ?_
  have hbit := h.2 (off' + i) (by omega)
  rw [if_neg (by omega)] at hbit
  simpa [APInt.extract, hi] using hbit

/-- What was there is put there again. -/
theorem overwrites_extract (a : APInt) (off w : ℕ) : Overwrites a off (a.extract off w) a := by
  refine ⟨rfl, fun i _ => ?_⟩
  split
  next h =>
    have hlt : i - off < w := by
      have := h.2
      simp only [APInt.extract] at this
      omega
    simp [APInt.extract, hlt, Nat.add_sub_cancel' h.1]
  next => rfl

theorem Overwrites.overwrites {b' : APInt} (h : Overwrites a off b c) (h' : Overwrites c off b' c')
    (hw : b.width = b'.width) : Overwrites a off b' c' := by
  refine ⟨h'.1.trans h.1, fun i hi => ?_⟩
  rw [h'.2 i (by rw [h.1]; exact hi)]
  split
  next => rfl
  next hout => rw [h.2 i hi, if_neg (by rw [hw]; exact hout)]

theorem getLsbD_concat (a b : APInt) (i : ℕ) : (a.concat b).bits.getLsbD i
    = if i < b.width then b.bits.getLsbD i else a.bits.getLsbD (i - b.width) := by
  simp only [APInt.concat, BitVec.getLsbD_append]

theorem getLsbD_extract (a : APInt) (off w i : ℕ) : (a.extract off w).bits.getLsbD i
    = (decide (i < w) && a.bits.getLsbD (off + i)) := by
  simp only [APInt.extract, BitVec.getLsbD_extractLsb']

/-- The part below, the new bits and the part above, where there are such parts. -/
theorem overwrites_concat (hle : off + b.width ≤ a.width) :
    let below := a.extract 0 off
    let above := a.extract (off + b.width) (a.width - (off + b.width))
    Overwrites a off b (above.concat (b.concat below)) ∧
      (off + b.width = a.width → Overwrites a off b (b.concat below)) ∧
      (off = 0 → Overwrites a off b (above.concat b)) ∧
      (off = 0 → b.width = a.width → Overwrites a off b b) := by
  intro below above
  have hbelow : below.width = off := rfl
  have habove : above.width = a.width - (off + b.width) := rfl
  refine ⟨⟨?_, fun i hi => ?_⟩, fun h => ⟨?_, fun i hi => ?_⟩, fun h => ⟨?_, fun i hi => ?_⟩,
    fun h hw => ⟨hw, fun i hi => ?_⟩⟩
  · change above.width + (b.width + below.width) = a.width
    omega
  · have hwidth : (b.concat below).width = b.width + off := rfl
    rw [getLsbD_concat, getLsbD_concat, getLsbD_extract, getLsbD_extract, hwidth, hbelow]
    split_ifs with h₁ h₂ h₃ h₃ h₃
    all_goals first | omega | rfl | skip
    · simp [h₂]
    · have hi' : i - (b.width + off) < a.width - (off + b.width) := by omega
      have heq : off + b.width + (i - (b.width + off)) = i := by omega
      simp [hi', heq]
  · change b.width + below.width = a.width
    omega
  · rw [getLsbD_concat, getLsbD_extract, hbelow]
    split_ifs with h₁ h₂ h₂
    all_goals first | omega | rfl | skip
    simp [h₁]
  · change above.width + b.width = a.width
    omega
  · rw [getLsbD_concat, getLsbD_extract]
    split_ifs with h₁ h₂ h₂
    all_goals first | omega | skip
    · rw [h, Nat.sub_zero]
    · have hi' : i - b.width < a.width - (off + b.width) := by omega
      have heq : off + b.width + (i - b.width) = i := by omega
      simp [hi', heq]
  · rw [if_pos (by omega), h, Nat.sub_zero]

/-! ## The laws -/

section Laws

variable {T U : LLVMType} {path : IndexPath} {o : ℕ} (hptr : 32 ≤ td.pointerWidth)
  (hT : td.getTypeSizeInBits T < 2 ^ 32)

include hptr hT in
theorem aggregateOffset_eq (hm : memberAt td T path = some (o, U)) :
    aggregateOffset td T path = some o := by
  have hle := memberAt_le hm
  obtain ⟨steps, hsteps, hwalk⟩ := exists_indexSteps hm hT
  have hlt : o < 2 ^ td.pointerWidth :=
    lt_of_lt_of_le (show o < 2 ^ 32 by omega) (Nat.pow_le_pow_right (by decide) hptr)
  simp only [aggregateOffset, hsteps, hwalk, Option.bind_eq_bind, Option.bind_some,
    List.isEmpty_nil, if_true, zero_add, BitVec.toNat_ofNat, Nat.mod_eq_of_lt hlt]

variable {e agg val : Expr}

theorem createExtract_eq (he : e.WellTyped) (off : ℕ) {w : ℕ} (hw : 0 < w) (hle : off + w ≤ e.width)
    : createExtract e off w = some (ExtractExpr.create e off w) ∧
      ∀ σ, HasValue σ (ExtractExpr.create e off w) ((e.eval σ).extract off w) :=
  ⟨if_pos ⟨hw, hle⟩, fun _ => ExtractExpr.create_hasValue he hw hle⟩

include hptr hT in
/-- A member with bits is cut out. -/
theorem executeExtractValue_eq (hm : memberAt td T path = some (o, U))
    (hU : 0 < td.getTypeSizeInBits U) (hagg : IsValue td T agg) :
    ∃ e, executeExtractValue td T path U agg = some e ∧ IsValue td U e ∧
      ∀ σ, e.eval σ = (agg.eval σ).extract (8 * o) (td.getTypeSizeInBits U) := by
  have hle := memberAt_le hm
  have hmod : o * 8 % 2 ^ 32 = 8 * o := by
    rw [Nat.mod_eq_of_lt (by omega), Nat.mul_comm]
  obtain ⟨heq, hvalue⟩ := createExtract_eq hagg.1 (8 * o) hU (by rw [hagg.2]; omega)
  refine ⟨_, ?_, ⟨(hvalue fun _ _ => 0).1, (hvalue fun _ _ => 0).width_eq⟩, fun σ => (hvalue σ).2⟩
  rw [executeExtractValue, aggregateOffset_eq hptr hT hm, Option.bind_eq_bind, Option.bind_some,
    hmod, heq]

theorem executeExtractValue_none (hU : td.getTypeSizeInBits U = 0) (agg : Expr) :
    executeExtractValue td T path U agg = none := by
  unfold executeExtractValue createExtract
  rw [hU]
  simp

/-- What `extractPart` gives: the part, or nothing where there is none. -/
theorem extractPart_eq (he : e.WellTyped) (off w : ℕ) (hle : off + w ≤ e.width) :
    ∃ part, extractPart (0 < w) e off w = some part ∧
      (w = 0 ∧ part = none ∨ ∃ p, part = some p ∧ ∀ σ, HasValue σ p ((e.eval σ).extract off w)) := by
  by_cases hw : 0 < w
  · obtain ⟨heq, hvalue⟩ := createExtract_eq he off hw hle
    refine ⟨some _, ?_, Or.inr ⟨_, rfl, hvalue⟩⟩
    simp [extractPart, hw, heq]
  · exact ⟨none, by simp [extractPart, hw], Or.inl ⟨by omega, rfl⟩⟩

/-- The value put together with what is below and above. -/
theorem joinParts_overwrites (hval : val.WellTyped) {off : ℕ} {l r : Option Expr} {σ : Env}
    (hle : off + (val.eval σ).width ≤ (agg.eval σ).width)
    (hl : off = 0 ∧ l = none ∨ ∃ p, l = some p ∧ HasValue σ p ((agg.eval σ).extract 0 off))
    (hr : (agg.eval σ).width - (off + (val.eval σ).width) = 0 ∧ r = none ∨ ∃ p, r = some p ∧
      HasValue σ p ((agg.eval σ).extract (off + (val.eval σ).width)
        ((agg.eval σ).width - (off + (val.eval σ).width)))) :
    (joinParts l val r).WellTyped ∧
      Overwrites (agg.eval σ) off (val.eval σ) ((joinParts l val r).eval σ) := by
  obtain ⟨hboth, hbelow, habove, hnone⟩ := overwrites_concat hle
  rcases hl with ⟨hoff, rfl⟩ | ⟨pl, rfl, hpl⟩ <;> rcases hr with ⟨hend, rfl⟩ | ⟨pr, rfl, hpr⟩
  · exact ⟨hval, hnone hoff (by omega)⟩
  · obtain ⟨hwt, heval⟩ := ConcatExpr.create_hasValue (σ := σ) hpr.1 hval
    rw [hpr.2] at heval
    exact ⟨hwt, heval ▸ habove hoff⟩
  · obtain ⟨hwt, heval⟩ := ConcatExpr.create_hasValue (σ := σ) hval hpl.1
    rw [hpl.2] at heval
    exact ⟨hwt, heval ▸ hbelow (by omega)⟩
  · obtain ⟨hwt, heval⟩ := ConcatExpr.create_hasValue (σ := σ) hval hpl.1
    obtain ⟨hwt', heval'⟩ := ConcatExpr.create_hasValue (σ := σ) hpr.1 hwt
    rw [heval, hpr.2, hpl.2] at heval'
    exact ⟨hwt', heval' ▸ hboth⟩

include hptr hT in
/-- A value of the member's type is put in its place. -/
theorem executeInsertValue_eq (hm : memberAt td T path = some (o, U)) (hagg : IsValue td T agg)
    (hval : IsValue td U val) :
    ∃ r, executeInsertValue td T path agg val = some r ∧ IsValue td T r ∧
      ∀ σ, Overwrites (agg.eval σ) (8 * o) (val.eval σ) (r.eval σ) := by
  have hle := memberAt_le hm
  have hlow : o * 8 % 2 ^ 32 = 8 * o := by
    rw [Nat.mod_eq_of_lt (by omega), Nat.mul_comm]
  have hhigh : (o * 8 + td.getTypeSizeInBits U) % 2 ^ 32 = 8 * o + td.getTypeSizeInBits U := by
    rw [Nat.mod_eq_of_lt (by omega), Nat.mul_comm]
  obtain ⟨l, hl, hpartl⟩ := extractPart_eq hagg.1 0 (8 * o) (by rw [hagg.2]; omega)
  obtain ⟨r, hr, hpartr⟩ := extractPart_eq hagg.1 (8 * o + td.getTypeSizeInBits U)
    (td.getTypeSizeInBits T - (8 * o + td.getTypeSizeInBits U)) (by rw [hagg.2]; omega)
  have hwagg : ∀ σ, (agg.eval σ).width = td.getTypeSizeInBits T := fun σ => by
    rw [hagg.1.eval_width, hagg.2]
  have hwval : ∀ σ, (val.eval σ).width = td.getTypeSizeInBits U := fun σ => by
    rw [hval.1.eval_width, hval.2]
  have hjoin : ∀ σ, (joinParts l val r).WellTyped ∧
      Overwrites (agg.eval σ) (8 * o) (val.eval σ) ((joinParts l val r).eval σ) := by
    intro σ
    refine joinParts_overwrites hval.1 (by rw [hwagg, hwval]; exact hle) ?_ ?_
    · exact hpartl.imp_right fun ⟨p, hp, hvalue⟩ => ⟨p, hp, hvalue σ⟩
    · rw [hwagg, hwval]
      exact hpartr.imp_right fun ⟨p, hp, hvalue⟩ => ⟨p, hp, hvalue σ⟩
  have hwt := (hjoin fun _ _ => 0).1
  refine ⟨_, ?_, ⟨hwt, ?_⟩, fun σ => (hjoin σ).2⟩
  · have hpresent : decide (8 * o + td.getTypeSizeInBits U < td.getTypeSizeInBits T)
        = decide (0 < td.getTypeSizeInBits T - (8 * o + td.getTypeSizeInBits U)) :=
      decide_eq_decide.mpr Nat.sub_pos_iff_lt.symm
    rw [executeInsertValue, aggregateOffset_eq hptr hT hm]
    simp only [Option.bind_eq_bind, Option.bind_some, hval.2, hagg.2, hlow, hhigh, hl, hpresent, hr]
  · rw [← hwt.eval_width (σ := fun _ _ => 0), (hjoin _).2.1, hwagg]

include hptr hT in
/-- The instructions go by the laws of a lens exactly when the members have bits. -/
theorem lensLaws_iff (hm : memberAt td T path = some (o, U)) :
    LensLaws td T path U ↔ td.getTypeSizeInBits T = 0 ∨ 0 < td.getTypeSizeInBits U ∧
      ∀ q offset V, memberAt td T q = some (offset, V) → DisjointPaths path q →
        0 < td.getTypeSizeInBits V := by
  have hconst : ∀ W : LLVMType, 0 < td.getTypeSizeInBits W →
      IsValue td W (.Constant ⟨td.getTypeSizeInBits W, 0⟩) := fun W hW => ⟨hW, rfl⟩
  have hpos : ∀ (W : LLVMType) (q : IndexPath) (agg e : Expr),
      executeExtractValue td T q W agg = some e → 0 < td.getTypeSizeInBits W := by
    intro W q agg e h
    by_contra hzero
    rw [executeExtractValue_none (by omega)] at h
    cases h
  constructor
  · intro h
    refine (Nat.eq_zero_or_pos _).imp_right fun hT0 => ?_
    obtain ⟨e, _, he, -⟩ := h.keep _ (hconst T hT0)
    have hU := hpos _ _ _ _ he
    refine ⟨hU, fun q offset V hq hdisjoint => ?_⟩
    obtain ⟨r, -, -, -, hother, -⟩ := h.insert _ _ (hconst T hT0) (hconst U hU)
    obtain ⟨e, _, he, -⟩ := hother q offset V hq hdisjoint
    exact hpos _ _ _ _ he
  · intro h
    have hnonempty : ∀ agg, IsValue td T agg → 0 < td.getTypeSizeInBits U ∧
        ∀ q offset V, memberAt td T q = some (offset, V) → DisjointPaths path q →
          0 < td.getTypeSizeInBits V := by
      intro agg hagg
      refine h.resolve_left fun hzero => ?_
      have := hagg.1.width_pos
      rw [hagg.2] at this
      omega
    have hle := memberAt_le hm
    have hwidth : ∀ {W e}, IsValue td W e → ∀ σ, (e.eval σ).width = td.getTypeSizeInBits W :=
      fun he σ => by rw [he.1.eval_width, he.2]
    constructor
    · intro agg val hagg hval
      obtain ⟨hU, hothers⟩ := hnonempty agg hagg
      obtain ⟨r, hr, hrT, hover⟩ := executeInsertValue_eq hptr hT hm hagg hval
      refine ⟨r, hr, hrT, ?_, fun q offset V hq hdisjoint => ?_, fun val' hval' => ?_⟩
      · obtain ⟨e, he, -, hvalue⟩ := executeExtractValue_eq hptr hT hm hU hrT
        refine ⟨e, he, fun σ => ?_⟩
        rw [hvalue σ, ← hwidth hval σ]
        exact (hover σ).extract (by rw [hwidth hval σ, hwidth hagg σ]; exact hle)
      · have hV := hothers q offset V hq hdisjoint
        obtain ⟨e, he, -, hvalue⟩ := executeExtractValue_eq hptr hT hq hV hrT
        obtain ⟨e', he', -, hvalue'⟩ := executeExtractValue_eq hptr hT hq hV hagg
        refine ⟨e, e', he, he', fun σ => ?_⟩
        rw [hvalue σ, hvalue' σ]
        refine (hover σ).extract_disjoint (by rw [hwidth hagg σ]; exact memberAt_le hq) ?_
        rw [hwidth hval σ]
        exact memberAt_disjoint hdisjoint hm hq
      · obtain ⟨r', hr', -, hover'⟩ := executeInsertValue_eq hptr hT hm hrT hval'
        obtain ⟨r'', hr'', -, hover''⟩ := executeInsertValue_eq hptr hT hm hagg hval'
        refine ⟨r', r'', hr', hr'', fun σ => ?_⟩
        exact ((hover σ).overwrites (hover' σ) (by rw [hwidth hval σ, hwidth hval' σ])).unique
          (hover'' σ)
    · intro agg hagg
      obtain ⟨hU, -⟩ := hnonempty agg hagg
      obtain ⟨e, he, heU, hvalue⟩ := executeExtractValue_eq hptr hT hm hU hagg
      obtain ⟨r, hr, -, hover⟩ := executeInsertValue_eq hptr hT hm hagg heU
      refine ⟨e, r, he, hr, fun σ => (hover σ).unique ?_⟩
      rw [hvalue σ]
      exact overwrites_extract _ _ _

end Laws

/-! ## A member without bits -/

/-- A target with pointers of 64 bits on which nothing is padded. -/
def unpadded : TargetData := ⟨32, by decide, fun _ => 1, fun _ => Nat.one_pos⟩

/-- An empty struct behind a word cannot be extracted. -/
theorem not_lensLaws_empty : ¬LensLaws unpadded (.struct false [.int 32, .struct false []]) [1]
    (.struct false []) := by
  intro h
  obtain ⟨e, _, he, -⟩ := h.keep (.Constant ⟨32, 0⟩) ⟨by decide, rfl⟩
  rw [executeExtractValue_none rfl] at he
  cases he

/-- The laws hold for the first one of two words. -/
theorem lensLaws_words : LensLaws unpadded (.struct false [.int 32, .int 32]) [0] (.int 32) := by
  refine (lensLaws_iff (by decide) (by decide) rfl).mpr (Or.inr ⟨by decide, fun q offset V hq h => ?_⟩)
  cases q with
  | nil => exact absurd List.nil_prefix h.2
  | cons i q =>
      obtain ⟨_, W, _, -, hW, hm, -⟩ := memberAt_struct hq
      obtain rfl : W = .int 32 := by simpa using List.mem_of_getElem? hW
      cases q with
      | nil =>
          obtain rfl := (Prod.mk.inj (Option.some.inj hm)).2
          decide
      | cons _ _ => cases hm

end Xklee
