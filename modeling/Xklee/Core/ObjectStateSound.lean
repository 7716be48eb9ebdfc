/-
Object states behave like plain byte memories.

`Represents` is the invariant behind the comment "Cache Invariants" in
`Memory.cpp`: no byte is concrete and cached at once, a byte that is not flushed
is one of the two, and wherever a byte is, its value is there. Reading keeps it
and returns the byte; writing keeps it for the written memory; flushing moves
bytes without changing any.
-/
import Xklee.Core.ObjectState

set_option autoImplicit false

namespace Xklee

namespace ObjectState

/-! ## The masks -/

section Masks

variable (s : ObjectState) (i j : ℕ) (value : Option Expr)

@[simp] theorem isByteConcrete_markByteConcrete :
    (s.markByteConcrete i).isByteConcrete j = (decide (j = i) || s.isByteConcrete j) := by
  obtain ⟨_, _, _ | mask, _, _, _, _, _, _⟩ := s
  · simp [isByteConcrete, markByteConcrete]
  · by_cases h : j = i
    · simp [isByteConcrete, markByteConcrete, h]
    · simp [isByteConcrete, markByteConcrete, h]

@[simp] theorem isByteConcrete_markByteSymbolic :
    (s.markByteSymbolic i).isByteConcrete j = (!decide (j = i) && s.isByteConcrete j) := by
  obtain ⟨_, _, _ | mask, _, _, _, _, _, _⟩ := s
  · by_cases h : j = i
    · simp [isByteConcrete, markByteSymbolic, h]
    · simp [isByteConcrete, markByteSymbolic, h]
  · by_cases h : j = i
    · simp [isByteConcrete, markByteSymbolic, h]
    · simp [isByteConcrete, markByteSymbolic, h]

@[simp] theorem isByteConcrete_markByteUnflushed :
    (s.markByteUnflushed i).isByteConcrete j = s.isByteConcrete j := rfl

@[simp] theorem isByteConcrete_unsetFlush :
    (s.unsetFlush i).isByteConcrete j = s.isByteConcrete j := rfl

@[simp] theorem isByteConcrete_makeFlushMask :
    s.makeFlushMask.isByteConcrete j = s.isByteConcrete j := rfl

@[simp] theorem isByteFlushed_markByteUnflushed :
    (s.markByteUnflushed i).isByteFlushed j = (!decide (j = i) && s.isByteFlushed j) := by
  obtain ⟨_, _, _, _ | mask, _, _, _, _, _⟩ := s
  · simp [isByteFlushed, markByteUnflushed]
  · by_cases h : j = i
    · simp [isByteFlushed, markByteUnflushed, h]
    · simp [isByteFlushed, markByteUnflushed, h]

@[simp] theorem isByteFlushed_markByteConcrete :
    (s.markByteConcrete i).isByteFlushed j = s.isByteFlushed j := rfl

@[simp] theorem isByteFlushed_markByteSymbolic :
    (s.markByteSymbolic i).isByteFlushed j = s.isByteFlushed j := rfl

@[simp] theorem isByteFlushed_makeFlushMask :
    s.makeFlushMask.isByteFlushed j = s.isByteFlushed j := by
  obtain ⟨_, _, _, _ | mask, _, _, _, _, _⟩ := s
  · rfl
  · rfl

/-- With a mask, unsetting the bit of a byte makes it flushed. -/
theorem isByteFlushed_unsetFlush (h : s.flushMask.isSome = true) :
    (s.unsetFlush i).isByteFlushed j = (decide (j = i) || s.isByteFlushed j) := by
  obtain ⟨_, _, _, _ | mask, _, _, _, _, _⟩ := s
  · simp at h
  · by_cases h : j = i
    · simp [isByteFlushed, unsetFlush, h]
    · simp [isByteFlushed, unsetFlush, h]

@[simp] theorem knownSymbolic_setKnownSymbolic :
    (s.setKnownSymbolic i value).knownSymbolic j
      = if j = i then value else s.knownSymbolic j := by
  obtain ⟨_, _, _, _, _ | known, _, _, _, _⟩ := s
  · cases value with
    | none => simp [knownSymbolic, setKnownSymbolic]
    | some e =>
      by_cases h : j = i
      · simp [knownSymbolic, setKnownSymbolic, h]
      · simp [knownSymbolic, setKnownSymbolic, h]
  · by_cases h : j = i
    · simp [knownSymbolic, setKnownSymbolic, h]
    · simp [knownSymbolic, setKnownSymbolic, h]

@[simp] theorem knownSymbolic_markByteConcrete :
    (s.markByteConcrete i).knownSymbolic j = s.knownSymbolic j := rfl

@[simp] theorem knownSymbolic_markByteSymbolic :
    (s.markByteSymbolic i).knownSymbolic j = s.knownSymbolic j := rfl

@[simp] theorem knownSymbolic_markByteUnflushed :
    (s.markByteUnflushed i).knownSymbolic j = s.knownSymbolic j := rfl

@[simp] theorem knownSymbolic_unsetFlush :
    (s.unsetFlush i).knownSymbolic j = s.knownSymbolic j := rfl

@[simp] theorem knownSymbolic_makeFlushMask :
    s.makeFlushMask.knownSymbolic j = s.knownSymbolic j := rfl

/-- `setKnownSymbolic` changes the cache only. -/
theorem setKnownSymbolic_eq :
    ∃ known, s.setKnownSymbolic i value = { s with knownSymbolics := known } := by
  unfold setKnownSymbolic
  split
  · exact ⟨_, rfl⟩
  · split
    · exact ⟨_, rfl⟩
    · exact ⟨s.knownSymbolics, rfl⟩

@[simp] theorem isByteConcrete_setKnownSymbolic :
    (s.setKnownSymbolic i value).isByteConcrete j = s.isByteConcrete j := by
  obtain ⟨known, h⟩ := s.setKnownSymbolic_eq i value
  rw [h]
  rfl

@[simp] theorem isByteFlushed_setKnownSymbolic :
    (s.setKnownSymbolic i value).isByteFlushed j = s.isByteFlushed j := by
  obtain ⟨known, h⟩ := s.setKnownSymbolic_eq i value
  rw [h]
  rfl

@[simp] theorem size_setKnownSymbolic : (s.setKnownSymbolic i value).size = s.size := by
  obtain ⟨known, h⟩ := s.setKnownSymbolic_eq i value
  rw [h]

@[simp] theorem concreteStore_setKnownSymbolic :
    (s.setKnownSymbolic i value).concreteStore = s.concreteStore := by
  obtain ⟨known, h⟩ := s.setKnownSymbolic_eq i value
  rw [h]

@[simp] theorem nodes_setKnownSymbolic : (s.setKnownSymbolic i value).nodes = s.nodes := by
  obtain ⟨known, h⟩ := s.setKnownSymbolic_eq i value
  rw [h]

@[simp] theorem root_setKnownSymbolic : (s.setKnownSymbolic i value).root = s.root := by
  obtain ⟨known, h⟩ := s.setKnownSymbolic_eq i value
  rw [h]

@[simp] theorem flushMask_setKnownSymbolic :
    (s.setKnownSymbolic i value).flushMask = s.flushMask := by
  obtain ⟨known, h⟩ := s.setKnownSymbolic_eq i value
  rw [h]

end Masks

/-! ## The update list -/

/-- The byte at index `i` after the updates of `nodes`, newest first, over `m`. -/
def readNodes (σ : Env) (m : ByteMemory) : List (Expr × Expr) → ByteMemory
  | [], i => m i
  | (index, value) :: nodes, i =>
      if (index.eval σ).toNat = i then (value.eval σ).bits.setWidth 8 else readNodes σ m nodes i

/-- The bytes below all updates; a constant array to be made starts with zeros. -/
def rootBytes (σ : Env) (s : ObjectState) : ByteMemory :=
  match s.root with
  | some root => root.initial σ
  | none => fun _ => 0

/-- The byte that the updates have at index `i`. -/
def updatesRead (σ : Env) (s : ObjectState) : ByteMemory := readNodes σ (s.rootBytes σ) s.nodes

/-- The widths of an update. -/
def TypedWrite (w : Expr × Expr) : Prop :=
  (w.1.WellTyped ∧ w.1.width = 32) ∧ w.2.WellTyped ∧ w.2.width = 8

theorem readNodes_append (σ : Env) (m : ByteMemory) (new old : List (Expr × Expr)) :
    readNodes σ m (new ++ old) = readNodes σ (readNodes σ m old) new := by
  induction new with
  | nil => rfl
  | cons w new ih =>
    funext i
    obtain ⟨index, value⟩ := w
    rw [List.cons_append, readNodes, readNodes, ih]

variable {σ : Env} {m : ByteMemory} {i offset w : ℕ} {s' : ObjectState} {value : Expr}
  {x : BitVec w} {v : BitVec 8}

theorem readNodes_congr {m' : ByteMemory} (h : m i = m' i) (nodes : List (Expr × Expr)) :
    readNodes σ m nodes i = readNodes σ m' nodes i := by
  induction nodes with
  | nil => exact h
  | cons w nodes ih =>
    obtain ⟨index, value⟩ := w
    rw [readNodes, readNodes, ih]

theorem updateList_read (σ : Env) (root : KArray) (nodes : List (Expr × Expr)) :
    (updateList root nodes).read σ = readNodes σ (root.initial σ) nodes := by
  induction nodes with
  | nil => rfl
  | cons w nodes ih =>
    funext i
    obtain ⟨index, value⟩ := w
    rw [updateList, UpdateList.read_extend, readNodes, ih]

theorem updateList_wellTyped (root : KArray) {nodes : List (Expr × Expr)}
    (h : ∀ w ∈ nodes, TypedWrite w) : (updateList root nodes).WellTyped := by
  induction nodes with
  | nil => trivial
  | cons w nodes ih =>
    obtain ⟨hw, hnodes⟩ := List.forall_mem_cons.mp h
    obtain ⟨index, value⟩ := w
    exact ⟨hw.1.1, hw.1.2, hw.2.1, hw.2.2, ih hnodes⟩

/-- The contents of the constant array are what the concrete writes leave behind. -/
theorem foldl_setContents (σ : Env) {writes : List (Expr × Expr)}
    (hconcrete : ∀ w ∈ writes, isConcreteWrite w = true) {contents : List (BitVec 8)}
    (hm : ∀ i < contents.length, contents.getD i 0 = m i) :
    ∀ i < contents.length,
      (writes.foldl setContents contents).getD i 0 = readNodes σ m writes.reverse i := by
  induction writes generalizing contents m with
  | nil => exact hm
  | cons w writes ih =>
    obtain ⟨hw, hwrites⟩ := List.forall_mem_cons.mp hconcrete
    obtain ⟨index, value⟩ := w
    obtain ⟨hindex, hvalue⟩ := Bool.and_eq_true_iff.mp hw
    obtain ⟨a, rfl⟩ := Expr.eq_Constant_of_isConstant hindex
    obtain ⟨b, rfl⟩ := Expr.eq_Constant_of_isConstant hvalue
    intro i hi
    rw [List.foldl_cons, List.reverse_cons, readNodes_append]
    refine ih hwrites ?_ i (by rwa [length_setContents])
    intro j hj
    rw [length_setContents] at hj
    change (contents.set a.toNat (b.bits.setWidth 8)).getD j 0
      = if a.toNat = j then b.bits.setWidth 8 else m j
    rw [← hm j hj]
    by_cases h : a.toNat = j
    · subst h
      simp [List.getD_eq_getElem?_getD, hj]
    · simp [List.getD_eq_getElem?_getD, h]

/-! ## The invariant -/

/-- The invariant of a byte whose current value is `value`. -/
structure ByteOk (σ : Env) (s : ObjectState) (i : ℕ) (value : BitVec 8) : Prop where
  exclusive : s.isByteConcrete i = true → s.knownSymbolic i = none
  cached : s.isByteFlushed i = false →
    s.isByteConcrete i = true ∨ s.isByteKnownSymbolic i = true
  stored : s.isByteConcrete i = true → s.concreteStore i = value
  known : ∀ e, s.knownSymbolic i = some e → Denotes σ e value
  updated : s.isByteFlushed i = true → s.updatesRead σ i = value

/-- The contents of the object are `m`. -/
structure Represents (σ : Env) (s : ObjectState) (m : ByteMemory) : Prop where
  typed : ∀ w ∈ s.nodes, TypedWrite w
  bytes : ∀ i < s.size, s.ByteOk σ i (m i)

/-- The invariant of a byte looks at its place in the five parts of the state. -/
theorem ByteOk.congr {s : ObjectState} {value : BitVec 8} (h : s.ByteOk σ i value)
    (hconcrete : s'.isByteConcrete i = s.isByteConcrete i)
    (hknown : s'.knownSymbolic i = s.knownSymbolic i)
    (hflushed : s'.isByteFlushed i = s.isByteFlushed i)
    (hstore : s'.concreteStore i = s.concreteStore i)
    (hupdates : s'.updatesRead σ i = s.updatesRead σ i) : s'.ByteOk σ i value where
  exclusive := by rw [hconcrete, hknown]; exact h.exclusive
  cached := by
    rw [hflushed, hconcrete, isByteKnownSymbolic, hknown]
    exact h.cached
  stored := by rw [hconcrete, hstore]; exact h.stored
  known := by rw [hknown]; exact h.known
  updated := by rw [hflushed, hupdates]; exact h.updated

variable {σ : Env} {s : ObjectState} {m : ByteMemory}

theorem Represents.makeFlushMask (h : s.Represents σ m) : s.makeFlushMask.Represents σ m where
  typed := h.typed
  bytes := fun i hi => (h.bytes i hi).congr rfl rfl (isByteFlushed_makeFlushMask s i) rfl rfl

/-! ## The update list is read -/

/-- Splitting off the constant array changes no byte. -/
theorem constantArray_initial (σ : Env) (s : ObjectState) (hi : i < s.size) :
    s.constantArray.initial σ i
      = readNodes σ (fun _ => 0) (s.nodes.reverse.takeWhile isConcreteWrite).reverse i := by
  have hlen : s.constantArray.constantValues.length = s.size :=
    (length_foldl_setContents _ _).trans List.length_replicate
  have hconst : s.constantArray.isConstantArray = true := by
    rw [KArray.isConstantArray, KArray.isSymbolicArray, Bool.not_eq_true', List.isEmpty_eq_false_iff]
    intro hnil
    rw [hnil, List.length_nil] at hlen
    omega
  rw [KArray.initial, if_pos hconst]
  refine foldl_setContents σ (fun w hw => List.mem_takeWhile_imp hw) (fun j hj => ?_) i ?_
  · rw [List.length_replicate] at hj
    simp [List.getD_eq_getElem?_getD, hj]
  · rw [List.length_replicate]
    exact hi

theorem getUpdates_size (s : ObjectState) : s.getUpdates.2.size = s.size := by
  unfold getUpdates
  split <;> rfl

/-- `getUpdates` returns the updates and changes no byte. -/
theorem getUpdates_updatesRead (σ : Env) (s : ObjectState) :
    s.getUpdates.1.read σ = s.getUpdates.2.updatesRead σ
      ∧ ∀ i < s.size, s.getUpdates.2.updatesRead σ i = s.updatesRead σ i := by
  unfold getUpdates
  split
  next root hroot =>
    refine ⟨?_, fun _ _ => rfl⟩
    rw [updateList_read, updatesRead, rootBytes, hroot]
  next hroot =>
    refine ⟨updateList_read σ _ _, fun i hi => ?_⟩
    have hsplit : s.nodes = (s.nodes.reverse.dropWhile isConcreteWrite).reverse
        ++ (s.nodes.reverse.takeWhile isConcreteWrite).reverse := by
      rw [← List.reverse_append, List.takeWhile_append_dropWhile, List.reverse_reverse]
    have hold : s.updatesRead σ i
        = readNodes σ (readNodes σ (fun _ => 0) (s.nodes.reverse.takeWhile isConcreteWrite).reverse)
            (s.nodes.reverse.dropWhile isConcreteWrite).reverse i := by
      rw [updatesRead, rootBytes, hroot, ← readNodes_append, ← hsplit]
    rw [hold]
    exact readNodes_congr (constantArray_initial σ s hi) _

theorem Represents.getUpdates (h : s.Represents σ m) :
    s.getUpdates.1.WellTyped ∧ s.getUpdates.2.Represents σ m
      ∧ ∀ i < s.size, s.isByteFlushed i = true → s.getUpdates.1.read σ i = m i := by
  obtain ⟨hread, hkeep⟩ := getUpdates_updatesRead σ s
  have hnodes : ∀ w ∈ s.getUpdates.2.nodes, w ∈ s.nodes := by
    unfold ObjectState.getUpdates
    split
    · exact fun _ hw => hw
    · intro w hw
      exact List.mem_reverse.mp ((List.dropWhile_sublist _).mem (List.mem_reverse.mp hw))
  refine ⟨?_, ⟨fun w hw => h.typed w (hnodes w hw), fun i hi => ?_⟩, fun i hi hflushed => ?_⟩
  · have htyped : ∀ w ∈ s.getUpdates.2.nodes, TypedWrite w := fun w hw => h.typed w (hnodes w hw)
    revert htyped
    unfold ObjectState.getUpdates
    split
    · exact updateList_wellTyped _
    · exact updateList_wellTyped _
  · rw [getUpdates_size] at hi
    refine (h.bytes i hi).congr ?_ ?_ ?_ ?_ (hkeep i hi)
    all_goals
      unfold ObjectState.getUpdates
      split <;> rfl
  · rw [hread, hkeep i hi]
    exact (h.bytes i hi).updated hflushed

/-! ## Flushing -/

/-- The index of an update node for the byte `offset`. -/
theorem alloc_toNat (h : offset < 2 ^ 32) :
    ((ConstantExpr.alloc offset 32).eval σ).toNat = offset := by
  change (BitVec.ofNat 32 offset).toNat = offset
  rw [BitVec.toNat_ofNat, Nat.mod_eq_of_lt h]

/-- An update of the byte `offset` with an expression for its value. -/
theorem extend_alloc {x : BitVec 8} (hoffset : offset < 2 ^ 32) (hvalue : Denotes σ value x) :
    ∃ w : Expr × Expr, s.extend (ConstantExpr.alloc offset 32) value
        = some { s with nodes := w :: s.nodes }
      ∧ TypedWrite w
      ∧ ∀ m i, readNodes σ m (w :: s.nodes) i
        = if i = offset then x else readNodes σ m s.nodes i := by
  refine ⟨(ConstantExpr.alloc offset 32, value), ?_, ?_, fun m i => ?_⟩
  · rw [extend, if_pos hvalue.width_eq]
  · exact ⟨⟨Nat.zero_lt_succ 31, rfl⟩, hvalue.1, hvalue.width_eq⟩
  · rw [readNodes, alloc_toNat hoffset, hvalue.2, BitVec.setWidth_eq]
    exact if_congr eq_comm rfl rfl

/-- What flushing the byte `offset` does to the invariant: the other bytes are as
they were, and this one is in the update list. -/
structure FlushedByte (s s' : ObjectState) (offset : ℕ) : Prop where
  size : s'.size = s.size
  mask : s'.flushMask.isSome = true
  flushed : ∀ j, s'.isByteFlushed j = (decide (j = offset) || s.isByteFlushed j)

/-- The value that an unflushed byte is flushed with. -/
theorem Represents.flush (h : s.Represents σ m) (hoffset : offset < s.size)
    (hmask : s.flushMask.isSome = true) (hvalue : Denotes σ value (m offset)) :
    ∃ s', s.extend (ConstantExpr.alloc offset 32) value = some s'
      ∧ (s'.unsetFlush offset).Represents σ m ∧ FlushedByte s (s'.unsetFlush offset) offset
      ∧ (∀ j, (s'.unsetFlush offset).isByteConcrete j = s.isByteConcrete j)
      ∧ ∀ j, (s'.unsetFlush offset).knownSymbolic j = s.knownSymbolic j := by
  obtain ⟨w, hextend, hw, hread⟩ := extend_alloc (s := s) (hoffset.trans s.size_lt) hvalue
  have hflushed : ∀ j,
      (({ s with nodes := w :: s.nodes } : ObjectState).unsetFlush offset).isByteFlushed j
        = (decide (j = offset) || s.isByteFlushed j) :=
    fun j => isByteFlushed_unsetFlush _ offset j hmask
  refine ⟨_, hextend, ⟨List.forall_mem_cons.mpr ⟨hw, h.typed⟩, fun i hi => ?_⟩,
    ⟨rfl, ?_, hflushed⟩, fun _ => rfl, fun _ => rfl⟩
  · have hbyte := h.bytes i hi
    refine ⟨hbyte.exclusive, fun hf => hbyte.cached ?_, hbyte.stored, hbyte.known, fun hf => ?_⟩
    · have hor := (hflushed i).symm.trans hf
      exact (Bool.or_eq_false_iff.mp hor).2
    · have hor := (hflushed i).symm.trans hf
      change readNodes σ (s.rootBytes σ) (w :: s.nodes) i = m i
      rw [hread]
      by_cases hio : i = offset
      · rw [if_pos hio, hio]
      · rw [if_neg hio]
        simp only [hio, decide_false, Bool.false_or] at hor
        exact hbyte.updated hor
  · obtain ⟨mask, hmask⟩ := Option.isSome_iff_exists.mp hmask
    simp [unsetFlush, hmask]

theorem FlushedByte.self (hmask : s.flushMask.isSome = true) (h : s.isByteFlushed offset = true) :
    FlushedByte s s offset := by
  refine ⟨rfl, hmask, fun j => ?_⟩
  by_cases hj : j = offset
  · rw [hj, h, Bool.or_true]
  · simp [hj]

/-- A byte that is not flushed has an expression to flush it with. -/
theorem Represents.unflushed (h : s.Represents σ m) (hoffset : offset < s.size)
    (hflushed : s.isByteFlushed offset = false) (hconcrete : s.isByteConcrete offset = false) :
    ∃ value, s.knownSymbolic offset = some value ∧ Denotes σ value (m offset) := by
  have hbyte := h.bytes offset hoffset
  obtain hc | hk := hbyte.cached hflushed
  · rw [hconcrete] at hc
    exact absurd hc Bool.false_ne_true
  · obtain ⟨value, hvalue⟩ := Option.isSome_iff_exists.mp hk
    exact ⟨value, hvalue, hbyte.known value hvalue⟩

/-- The stored byte as an expression. -/
theorem Represents.stored_denotes (h : s.Represents σ m) (hoffset : offset < s.size)
    (hconcrete : s.isByteConcrete offset = true) :
    Denotes σ (.Constant ⟨8, s.concreteStore offset⟩) (m offset) := by
  rw [(h.bytes offset hoffset).stored hconcrete]
  exact denotes_const (by decide) _

theorem flushByteForRead_step (h : s.Represents σ m) (hmask : s.flushMask.isSome = true)
    (hoffset : offset < s.size) :
    ∃ s', s.flushByteForRead offset = some s' ∧ s'.Represents σ m ∧ FlushedByte s s' offset := by
  unfold flushByteForRead
  split
  next hf => exact ⟨s, rfl, h, .self hmask hf⟩
  next hf =>
    split
    next hc =>
      obtain ⟨s', hs', hrep, hstep, -, -⟩ := h.flush hoffset hmask (h.stored_denotes hoffset hc)
      rw [hs']
      exact ⟨_, rfl, hrep, hstep⟩
    next hc =>
      obtain ⟨value, hknown, hvalue⟩ :=
        h.unflushed hoffset (Bool.not_eq_true _ ▸ hf) (Bool.not_eq_true _ ▸ hc)
      obtain ⟨s', hs', hrep, hstep, -, -⟩ := h.flush hoffset hmask hvalue
      rw [hknown]
      change ∃ s'', ((s.extend (ConstantExpr.alloc offset 32) value).bind
        fun s => some (s.unsetFlush offset)) = some s'' ∧ _
      rw [hs']
      exact ⟨_, rfl, hrep, hstep⟩

/-- The byte is neither concrete nor cached. -/
def OnlyFlushed (s : ObjectState) (j : ℕ) : Prop :=
  s.isByteConcrete j = false ∧ s.knownSymbolic j = none

/-- A flushed byte need not be concrete any more. -/
theorem Represents.markByteSymbolic (h : s.Represents σ m)
    (hflushed : s.isByteFlushed offset = true) : (s.markByteSymbolic offset).Represents σ m := by
  refine ⟨h.typed, fun i hi => ?_⟩
  have hbyte := h.bytes i hi
  by_cases hio : i = offset
  · subst hio
    refine ⟨?_, ?_, ?_, hbyte.known, hbyte.updated⟩
    · simp
    · simp [hflushed]
    · simp
  · exact hbyte.congr (by simp [hio]) rfl rfl rfl rfl

/-- A flushed byte need not be cached any more. -/
theorem Represents.dropKnown (h : s.Represents σ m) (hflushed : s.isByteFlushed offset = true) :
    (s.setKnownSymbolic offset none).Represents σ m := by
  refine ⟨?_, fun i hi => ?_⟩
  · rw [nodes_setKnownSymbolic]
    exact h.typed
  · rw [size_setKnownSymbolic] at hi
    have hbyte := h.bytes i hi
    have hupdates : (s.setKnownSymbolic offset none).updatesRead σ i = s.updatesRead σ i := by
      rw [updatesRead, updatesRead, rootBytes, rootBytes, nodes_setKnownSymbolic,
        root_setKnownSymbolic]
    by_cases hio : i = offset
    · subst hio
      refine ⟨?_, ?_, ?_, ?_, ?_⟩
      · simp
      · simp [hflushed]
      · simpa using hbyte.stored
      · simp
      · rw [isByteFlushed_setKnownSymbolic, hupdates]
        exact hbyte.updated
    · exact hbyte.congr (by simp) (by simp [hio]) (by simp) (by simp) hupdates

theorem unsetFlush_setKnownSymbolic (s : ObjectState) (offset : ℕ) (value : Option Expr) :
    (s.setKnownSymbolic offset value).unsetFlush offset
      = (s.unsetFlush offset).setKnownSymbolic offset value := by
  obtain ⟨_, _, _, _, _ | known, _, _, _, _⟩ := s
  · cases value <;> rfl
  · rfl

theorem FlushedByte.markByteSymbolic (h : FlushedByte s s' offset) :
    FlushedByte s (s'.markByteSymbolic offset) offset := ⟨h.size, h.mask, h.flushed⟩

theorem FlushedByte.dropKnown (h : FlushedByte s s' offset) :
    FlushedByte s (s'.setKnownSymbolic offset none) offset := by
  refine ⟨?_, ?_, fun j => ?_⟩
  · rw [size_setKnownSymbolic, h.size]
  · rw [flushMask_setKnownSymbolic, h.mask]
  · rw [isByteFlushed_setKnownSymbolic, h.flushed]

theorem flushByteForWrite_step (h : s.Represents σ m) (hmask : s.flushMask.isSome = true)
    (hoffset : offset < s.size) :
    ∃ s', s.flushByteForWrite offset = some s' ∧ s'.Represents σ m ∧ FlushedByte s s' offset
      ∧ ∀ j, j = offset ∨ s.OnlyFlushed j → s'.OnlyFlushed j := by
  have hbyte := h.bytes offset hoffset
  -- the byte is not flushed yet; it is put into the list and marked out of its place
  have hconcrete : ∀ {s' : ObjectState}, (∀ j, s'.isByteConcrete j = s.isByteConcrete j) →
      (∀ j, s'.knownSymbolic j = s.knownSymbolic j) → s.isByteConcrete offset = true →
      ∀ j, j = offset ∨ s.OnlyFlushed j → (s'.markByteSymbolic offset).OnlyFlushed j := by
    intro s' hc hk hbc j hj
    rw [OnlyFlushed, isByteConcrete_markByteSymbolic, knownSymbolic_markByteSymbolic, hc, hk]
    obtain rfl | hj := hj
    · exact ⟨by simp, hbyte.exclusive hbc⟩
    · exact ⟨by rw [hj.1, Bool.and_false], hj.2⟩
  have hcached : ∀ {s' : ObjectState}, (∀ j, s'.isByteConcrete j = s.isByteConcrete j) →
      (∀ j, s'.knownSymbolic j = s.knownSymbolic j) → s.isByteConcrete offset = false →
      ∀ j, j = offset ∨ s.OnlyFlushed j → (s'.setKnownSymbolic offset none).OnlyFlushed j := by
    intro s' hc hk hbc j hj
    rw [OnlyFlushed, isByteConcrete_setKnownSymbolic, knownSymbolic_setKnownSymbolic, hc, hk]
    obtain rfl | hj := hj
    · exact ⟨hbc, if_pos rfl⟩
    · exact ⟨hj.1, by rw [hj.2, ite_self]⟩
  unfold flushByteForWrite
  split
  next hf =>
    have hself := FlushedByte.self hmask hf
    split
    next hc =>
      exact ⟨_, rfl, h.markByteSymbolic hf, hself.markByteSymbolic,
        hconcrete (fun _ => rfl) (fun _ => rfl) hc⟩
    next hc =>
      rw [Bool.not_eq_true] at hc
      split
      next =>
        exact ⟨_, rfl, h.dropKnown hf, hself.dropKnown, hcached (fun _ => rfl) (fun _ => rfl) hc⟩
      next hk =>
        rw [isByteKnownSymbolic, Bool.not_eq_true, Option.isSome_eq_false_iff,
          Option.isNone_iff_eq_none] at hk
        refine ⟨s, rfl, h, hself, fun j hj => ?_⟩
        obtain rfl | hj := hj
        · exact ⟨hc, hk⟩
        · exact hj
  next hf =>
    rw [Bool.not_eq_true] at hf
    split
    next hc =>
      obtain ⟨s', hs', hrep, hstep, hsc, hsk⟩ := h.flush hoffset hmask (h.stored_denotes hoffset hc)
      have hflushed : (s'.unsetFlush offset).isByteFlushed offset = true := by
        rw [hstep.flushed, decide_eq_true rfl, Bool.true_or]
      rw [hs']
      exact ⟨_, rfl, hrep.markByteSymbolic hflushed, hstep.markByteSymbolic, hconcrete hsc hsk hc⟩
    next hc =>
      rw [Bool.not_eq_true] at hc
      obtain ⟨value, hknown, hvalue⟩ := h.unflushed hoffset hf hc
      obtain ⟨s', hs', hrep, hstep, hsc, hsk⟩ := h.flush hoffset hmask hvalue
      have hflushed : (s'.unsetFlush offset).isByteFlushed offset = true := by
        rw [hstep.flushed, decide_eq_true rfl, Bool.true_or]
      rw [hknown]
      change ∃ s'', ((s.extend (ConstantExpr.alloc offset 32) value).bind
        fun s => some ((s.setKnownSymbolic offset none).unsetFlush offset)) = some s'' ∧ _
      rw [hs']
      refine ⟨_, rfl, ?_⟩
      rw [unsetFlush_setKnownSymbolic]
      exact ⟨hrep.dropKnown hflushed, hstep.dropKnown, hcached hsc hsk hc⟩

/-- The run of `flushRangeForRead` over a list of bytes. -/
theorem foldlM_flushByteForRead (offsets : List ℕ) (h : s.Represents σ m)
    (hmask : s.flushMask.isSome = true) (hoffsets : ∀ o ∈ offsets, o < s.size) :
    ∃ s', offsets.foldlM flushByteForRead s = some s' ∧ s'.Represents σ m ∧ s'.size = s.size
      ∧ ∀ j, s'.isByteFlushed j = (decide (j ∈ offsets) || s.isByteFlushed j) := by
  induction offsets generalizing s with
  | nil => exact ⟨s, rfl, h, rfl, fun j => by simp⟩
  | cons o offsets ih =>
    obtain ⟨ho, hos⟩ := List.forall_mem_cons.mp hoffsets
    obtain ⟨s₁, hs₁, hrep, hstep⟩ := flushByteForRead_step h hmask ho
    obtain ⟨s', hs', hrep', hsize, hflushed⟩ :=
      ih hrep hstep.mask (fun o' ho' => hstep.size ▸ hos o' ho')
    refine ⟨s', ?_, hrep', hsize.trans hstep.size, fun j => ?_⟩
    · rw [List.foldlM_cons, hs₁]
      exact hs'
    · rw [hflushed, hstep.flushed, ← Bool.or_assoc, ← Bool.decide_or]
      congr 1
      rw [decide_eq_decide, List.mem_cons, or_comm]

/-- The run of `flushRangeForWrite` over a list of bytes. -/
theorem foldlM_flushByteForWrite (offsets : List ℕ) (h : s.Represents σ m)
    (hmask : s.flushMask.isSome = true) (hoffsets : ∀ o ∈ offsets, o < s.size) :
    ∃ s', offsets.foldlM flushByteForWrite s = some s' ∧ s'.Represents σ m ∧ s'.size = s.size
      ∧ (∀ j, s'.isByteFlushed j = (decide (j ∈ offsets) || s.isByteFlushed j))
      ∧ ∀ j, j ∈ offsets ∨ s.OnlyFlushed j → s'.OnlyFlushed j := by
  induction offsets generalizing s with
  | nil => exact ⟨s, rfl, h, rfl, fun j => by simp, fun j hj => hj.resolve_left (by simp)⟩
  | cons o offsets ih =>
    obtain ⟨ho, hos⟩ := List.forall_mem_cons.mp hoffsets
    obtain ⟨s₁, hs₁, hrep, hstep, honly⟩ := flushByteForWrite_step h hmask ho
    obtain ⟨s', hs', hrep', hsize, hflushed, honly'⟩ :=
      ih hrep hstep.mask (fun o' ho' => hstep.size ▸ hos o' ho')
    refine ⟨s', ?_, hrep', hsize.trans hstep.size, fun j => ?_, fun j hj => ?_⟩
    · rw [List.foldlM_cons, hs₁]
      exact hs'
    · rw [hflushed, hstep.flushed, ← Bool.or_assoc, ← Bool.decide_or]
      congr 1
      rw [decide_eq_decide, List.mem_cons, or_comm]
    · apply honly'
      rw [List.mem_cons, or_assoc] at hj
      obtain hj | hj | hj := hj
      · exact .inr (honly j (.inl hj))
      · exact .inl hj
      · exact .inr (honly j (.inr hj))

/-- The range of `fastRangeCheckOffset` is the whole object. -/
theorem mem_range'_size {n j : ℕ} : j ∈ List.range' 0 n ↔ j < n := by
  rw [List.mem_range'_1]
  omega

theorem makeFlushMask_flushMask (s : ObjectState) : s.makeFlushMask.flushMask.isSome = true := rfl

/-- After `flushRangeForRead` every byte is in the update list. -/
theorem flushRangeForRead_represents (h : s.Represents σ m) :
    ∃ s', s.flushRangeForRead s.fastRangeCheckOffset.1 s.fastRangeCheckOffset.2 = some s'
      ∧ s'.Represents σ m ∧ s'.size = s.size ∧ ∀ j < s.size, s'.isByteFlushed j = true := by
  obtain ⟨s', hs', hrep, hsize, hflushed⟩ := foldlM_flushByteForRead
    (List.range' 0 s.size) h.makeFlushMask s.makeFlushMask_flushMask
    (fun o ho => mem_range'_size.mp ho)
  refine ⟨s', hs', hrep, hsize, fun j hj => ?_⟩
  rw [hflushed, decide_eq_true (mem_range'_size.mpr hj), Bool.true_or]

/-- After `flushRangeForWrite` every byte is in the update list only. -/
theorem flushRangeForWrite_represents (h : s.Represents σ m) :
    ∃ s', s.flushRangeForWrite s.fastRangeCheckOffset.1 s.fastRangeCheckOffset.2 = some s'
      ∧ s'.Represents σ m ∧ s'.size = s.size
      ∧ ∀ j < s.size, s'.isByteFlushed j = true ∧ s'.OnlyFlushed j := by
  obtain ⟨s', hs', hrep, hsize, hflushed, honly⟩ := foldlM_flushByteForWrite
    (List.range' 0 s.size) h.makeFlushMask s.makeFlushMask_flushMask
    (fun o ho => mem_range'_size.mp ho)
  refine ⟨s', hs', hrep, hsize, fun j hj => ⟨?_, honly j (.inl (mem_range'_size.mpr hj))⟩⟩
  rw [hflushed, decide_eq_true (mem_range'_size.mpr hj), Bool.true_or]

/-! ## Reading and writing a byte -/

/-- A read returns `a` and leaves the contents alone. -/
def Returns (σ : Env) (s : ObjectState) (m : ByteMemory) (a : APInt)
    (result : Option (Expr × ObjectState)) : Prop :=
  ∃ e s', result = some (e, s') ∧ HasValue σ e a ∧ s'.Represents σ m ∧ s'.size = s.size

/-- A write leaves the contents `m`. -/
def Leaves (σ : Env) (s : ObjectState) (m : ByteMemory) (result : Option ObjectState) : Prop :=
  ∃ s', result = some s' ∧ s'.Represents σ m ∧ s'.size = s.size

theorem read8_returns (h : s.Represents σ m) (hoffset : offset < s.size) :
    Returns σ s m ⟨8, m offset⟩ (s.read8 offset) := by
  have hbyte := h.bytes offset hoffset
  unfold read8
  split
  next hc => exact ⟨_, s, rfl, h.stored_denotes hoffset hc, h, rfl⟩
  next hc =>
    split
    next value hk => exact ⟨_, s, rfl, hbyte.known value hk, h, rfl⟩
    next hk =>
      have hf : s.isByteFlushed offset = true := by
        by_contra hf
        obtain ⟨value, hvalue, -⟩ := h.unflushed hoffset (Bool.not_eq_true _ ▸ hf)
          (Bool.not_eq_true _ ▸ hc)
        rw [hk] at hvalue
        exact nomatch hvalue
      obtain ⟨hul, hrep, hread⟩ := h.getUpdates
      rw [if_pos hf]
      refine ⟨_, _, rfl, ?_, hrep, s.getUpdates_size⟩
      have hcreate := ReadExpr.create_denotes hul (denotes_alloc (σ := σ) (v := offset)
        (Nat.zero_lt_succ 31))
      rwa [BitVec.toNat_ofNat, Nat.mod_eq_of_lt (hoffset.trans s.size_lt),
        hread offset hoffset hf] at hcreate

/-- `ZExtExpr::create(offset, Expr::Int32)` of an offset that fits. -/
theorem zext_offset {offset : Expr} (hoffset : Denotes σ offset x) (hlt : x.toNat < 2 ^ 32) :
    ∃ j : BitVec 32, Denotes σ (ZExtExpr.create offset 32) j ∧ j.toNat = x.toNat := by
  refine ⟨x.setWidth 32, ?_, ?_⟩
  · have hcast := CastExpr.create_hasValue (σ := σ) .ZExt (n := 32) hoffset.1 (Nat.zero_lt_succ 31)
    rw [hoffset.2] at hcast
    exact hcast
  · rw [BitVec.toNat_setWidth, Nat.mod_eq_of_lt hlt]

theorem read8Symbolic_returns (h : s.Represents σ m) {offset : Expr} (hoffset : Denotes σ offset x)
    (hsymbolic : offset.isConstant = false) (hlt : x.toNat < s.size) :
    Returns σ s m ⟨8, m x.toNat⟩ (s.read8Symbolic offset) := by
  obtain ⟨s', hs', hrep, hsize, hflushed⟩ := flushRangeForRead_represents h
  obtain ⟨hul, hrep', hread⟩ := hrep.getUpdates
  obtain ⟨j, hj, hjx⟩ := zext_offset hoffset (hlt.trans s.size_lt)
  refine ⟨ReadExpr.create s'.getUpdates.1 (ZExtExpr.create offset 32), s'.getUpdates.2, ?_, ?_,
    hrep', (s'.getUpdates_size).trans hsize⟩
  · rw [read8Symbolic, hsymbolic, hs']
    rfl
  · have hcreate := ReadExpr.create_denotes hul hj
    rwa [hjx, hread _ (hsize ▸ hlt) (hflushed _ hlt)] at hcreate

/-- A step that changes one byte. -/
theorem Represents.update {value : BitVec 8} (h : s.Represents σ m) (hsize : s'.size = s.size)
    (hnodes : s'.nodes = s.nodes) (hroot : s'.root = s.root) (hbyte : s'.ByteOk σ offset value)
    (hother : ∀ i, i ≠ offset → s'.isByteConcrete i = s.isByteConcrete i
      ∧ s'.knownSymbolic i = s.knownSymbolic i ∧ s'.isByteFlushed i = s.isByteFlushed i
      ∧ s'.concreteStore i = s.concreteStore i) :
    s'.Represents σ (Function.update m offset value) := by
  refine ⟨hnodes ▸ h.typed, fun i hi => ?_⟩
  rw [hsize] at hi
  by_cases hio : i = offset
  · subst hio
    rwa [Function.update_self]
  · rw [Function.update_of_ne hio]
    obtain ⟨hc, hk, hf, hstore⟩ := hother i hio
    refine (h.bytes i hi).congr hc hk hf hstore ?_
    rw [updatesRead, updatesRead, rootBytes, rootBytes, hnodes, hroot]

theorem write8_represents (h : s.Represents σ m) (offset : ℕ) (value : BitVec 8) :
    (s.write8 offset value).Represents σ (Function.update m offset value)
      ∧ (s.write8 offset value).size = s.size := by
  have hsize : (s.write8 offset value).size = s.size := by
    simp [write8, markByteConcrete, markByteUnflushed]
  have hstore : (s.write8 offset value).concreteStore
      = Function.update s.concreteStore offset value := by
    simp [write8, markByteConcrete, markByteUnflushed]
  have hconcrete : ∀ i, (s.write8 offset value).isByteConcrete i
      = (decide (i = offset) || s.isByteConcrete i) := by
    intro i
    rw [write8, isByteConcrete_markByteUnflushed, isByteConcrete_markByteConcrete,
      isByteConcrete_setKnownSymbolic]
    rfl
  have hknown : ∀ i, (s.write8 offset value).knownSymbolic i
      = if i = offset then none else s.knownSymbolic i := by
    intro i
    rw [write8, knownSymbolic_markByteUnflushed, knownSymbolic_markByteConcrete,
      knownSymbolic_setKnownSymbolic]
    rfl
  have hflushed : ∀ i, (s.write8 offset value).isByteFlushed i
      = (!decide (i = offset) && s.isByteFlushed i) := by
    intro i
    rw [write8, isByteFlushed_markByteUnflushed, isByteFlushed_markByteConcrete,
      isByteFlushed_setKnownSymbolic]
    rfl
  refine ⟨h.update hsize ?_ ?_ ⟨fun _ => ?_, fun _ => .inl ?_, fun _ => ?_, ?_, ?_⟩
    (fun i hi => ⟨?_, ?_, ?_, ?_⟩), hsize⟩
  · simp [write8, markByteConcrete, markByteUnflushed]
  · simp [write8, markByteConcrete, markByteUnflushed]
  · rw [hknown, if_pos rfl]
  · rw [hconcrete, decide_eq_true rfl, Bool.true_or]
  · rw [hstore, Function.update_self]
  · simp [hknown]
  · simp [hflushed]
  · simp [hconcrete, hi]
  · simp [hknown, hi]
  · simp [hflushed, hi]
  · rw [hstore, Function.update_of_ne hi]

theorem write8Expr_represents (h : s.Represents σ m) (offset : ℕ) (hvalue : Denotes σ value v) :
    (s.write8Expr offset value).Represents σ (Function.update m offset v)
      ∧ (s.write8Expr offset value).size = s.size := by
  unfold write8Expr
  split
  next CE =>
    obtain ⟨-, rfl⟩ := denotes_Constant.mp hvalue
    rw [BitVec.setWidth_eq]
    exact write8_represents h offset v
  next =>
    have hsize : (((s.setKnownSymbolic offset (some value)).markByteSymbolic
        offset).markByteUnflushed offset).size = s.size := by
      simp [markByteSymbolic, markByteUnflushed]
    refine ⟨h.update hsize ?_ ?_ ⟨?_, fun _ => .inr ?_, ?_, fun e he => ?_, ?_⟩
      (fun i hi => ⟨?_, ?_, ?_, ?_⟩), hsize⟩
    · simp [markByteSymbolic, markByteUnflushed]
    · simp [markByteSymbolic, markByteUnflushed]
    · simp
    · simp [isByteKnownSymbolic]
    · simp
    · obtain rfl : value = e := by simpa using he
      exact hvalue
    · simp
    · simp [hi]
    · simp [hi]
    · simp [hi]
    · simp [markByteSymbolic, markByteUnflushed]

theorem write8Symbolic_leaves (h : s.Represents σ m) {offset : Expr} (hoffset : Denotes σ offset x)
    (hsymbolic : offset.isConstant = false) (hlt : x.toNat < s.size) (hvalue : Denotes σ value v) :
    Leaves σ s (Function.update m x.toNat v) (s.write8Symbolic offset value) := by
  obtain ⟨s', hs', hrep, hsize, hflushed⟩ := flushRangeForWrite_represents h
  obtain ⟨j, hj, hjx⟩ := zext_offset hoffset (hlt.trans s.size_lt)
  refine ⟨{ s' with nodes := (ZExtExpr.create offset 32, value) :: s'.nodes }, ?_,
    ⟨List.forall_mem_cons.mpr ⟨⟨⟨hj.1, hj.width_eq⟩, hvalue.1, hvalue.width_eq⟩, hrep.typed⟩,
      fun i hi => ?_⟩, hsize⟩
  · rw [write8Symbolic, hsymbolic, hs']
    exact if_pos hvalue.width_eq
  · have hi' : i < s.size := hsize ▸ hi
    obtain ⟨hf, hc, hk⟩ := hflushed i hi'
    refine ⟨fun hc' => absurd (hc.symm.trans hc') Bool.false_ne_true,
      fun hf' => absurd (hf'.symm.trans hf) Bool.false_ne_true,
      fun hc' => absurd (hc.symm.trans hc') Bool.false_ne_true,
      fun e he => (nomatch hk.symm.trans he), fun _ => ?_⟩
    change readNodes σ (s'.rootBytes σ) ((ZExtExpr.create offset 32, value) :: s'.nodes) i = _
    rw [readNodes, hj.2, hvalue.2, APInt.toNat_mk, hjx, BitVec.setWidth_eq]
    by_cases hix : x.toNat = i
    · rw [if_pos hix, ← hix, Function.update_self]
    · rw [if_neg hix, Function.update_of_ne (Ne.symm hix)]
      exact (hrep.bytes i hi).updated hf

end ObjectState

end Xklee
