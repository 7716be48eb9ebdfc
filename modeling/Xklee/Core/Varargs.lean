/-
Variadic arguments: the end of `Executor::executeCall` and `Intrinsic::vastart` in
`lib/Core/Executor.cpp`, for words of 64 bits.

A call of a variadic function puts the arguments behind the fixed ones into one object, each
from the next word on. `va_start` fills in a list that sends `va_arg` to this object for every
argument. Where `va_arg` looks there is a matter of the calling convention: it goes up to a
multiple of 8 and of the alignment of the type, and on by the size of the type in words.

The two agree as long as no argument has to be moved up: the words before an argument with a
greater alignment have to be a multiple of it, and the size of such an argument is to fill its
words.
-/
import Xklee.Core.MemoryState
import Xklee.Core.ObjectStateRun
import Xklee.Data.Alignment

set_option autoImplicit false

namespace Xklee

namespace Varargs

/-! ## The call -/

/-- `Expr::getMinBytesForWidth`. -/
def getMinBytesForWidth (w : ℕ) : ℕ := (w + 7) / 8

/-- What an argument adds to `size`, and to `offset`. The word size is 32 or another one, which
the writing loop asserts to be 64. -/
def argumentBytes (WordSize width : ℕ) : ℕ :=
  if WordSize = 32 then getMinBytesForWidth width else alignUp width WordSize / 8

/-- An `unsigned` variable that an argument adds to. -/
def addArgument (WordSize n : ℕ) (argument : Expr) : ℕ :=
  (n + argumentBytes WordSize argument.width) % 2 ^ 32

/-- The loop for the size of the object. -/
def varargsSize (WordSize : ℕ) (arguments : List Expr) : ℕ :=
  arguments.foldl (addArgument WordSize) 0

/-- The loop that writes the arguments. It returns the offsets of the writes, too. -/
def storeArguments (WordSize : ℕ) : ObjectState → ℕ → List Expr → Option (ObjectState × List ℕ)
  | os, _, [] => some (os, [])
  | os, offset, e :: es =>
      if WordSize = 32 ∨ WordSize = 64 then
        (os.writeAt true offset e).bind fun os =>
          (storeArguments WordSize os (addArgument WordSize offset e) es).map fun r =>
            (r.1, offset :: r.2)
      else none

/-- `MemoryManager::allocate` for a local object. `malloc` is the host's. -/
def allocate (malloc : BitVec 32 → BitVec 64) (id : ℕ) (size : BitVec 32) : Option MemoryObject :=
  if malloc size = 0 then none else some ⟨id, malloc size, size, true⟩

inductive Outcome
  /-- "calling function with too few arguments". -/
  | tooFewArguments
  /-- "out of memory (varargs)". -/
  | outOfMemory
  /-- The object is bound to `varargs` of the new frame. -/
  | entered (varargs : MemoryObject) (os : ObjectState) (offsets : List ℕ)

/-- The part of `executeCall` for a variadic function with so many fixed arguments. The new
object has the number `id`; `tmpArr` and `constArray` belong to its `ObjectState`. -/
def executeVarargs (WordSize : ℕ) (malloc : BitVec 32 → BitVec 64) (id : ℕ) (tmpArr : Option KArray)
    (constArray funcArgs : ℕ) (arguments : List Expr) : Option Outcome :=
  if arguments.length < funcArgs then some .tooFewArguments
  else
    let variadic := arguments.drop funcArgs
    match allocate malloc id (BitVec.ofNat 32 (varargsSize WordSize variadic)) with
    | none => some .outOfMemory
    | some mo =>
        (storeArguments WordSize
            (ObjectState.ofConcrete mo.size.toNat mo.size_toNat_lt tmpArr constArray) 0 variadic).map
          fun r => .entered mo r.1 r.2

/-- The list of arguments that `va_start` stores, at 0, 4, 8 and 16 from its address. -/
structure VaList where
  gp_offset : BitVec 32
  fp_offset : BitVec 32
  overflow_arg_area : BitVec 64
  reg_save_area : BitVec 64

/-- `Intrinsic::vastart`, with the base of `varargs`. -/
def vastart (base : BitVec 64) : VaList := ⟨48, 304, base, 0⟩

/-! ## The calling convention -/

/-- The type of an argument: its width in bits, its alignment in bytes, and the numbers of
registers that it would take. -/
structure ArgumentType where
  width : ℕ
  align : ℕ
  num_gp : ℕ
  num_fp : ℕ
  align_pos : 0 < align

namespace ArgumentType

/-- The size in bytes, with padding. -/
def size (t : ArgumentType) : ℕ := alignUp (getMinBytesForWidth t.width) t.align

/-- Where an argument may begin in the overflow area. -/
def areaAlign (t : ArgumentType) : ℕ := max 8 t.align

end ArgumentType

/-- An argument that is in registers, if these are not used up. -/
def VaList.inRegisters (l : VaList) (t : ArgumentType) : Bool :=
  0 < t.num_gp + t.num_fp ∧ l.gp_offset.toNat + t.num_gp * 8 ≤ 48
    ∧ l.fp_offset.toNat + t.num_fp * 16 ≤ 304

/-- Where `va_arg` finds the arguments, as offsets from the overflow area of the list; `none`
stands for one in registers. -/
def VaList.offsets (l : VaList) : ℕ → List ArgumentType → List (Option ℕ)
  | _, [] => []
  | offset, t :: ts =>
      if l.inRegisters t then none :: l.offsets offset ts
      else
        let place := alignUp offset t.areaAlign
        some place :: l.offsets (place + alignUp t.size 8) ts

/-- The byte of a value at some distance from its address. -/
def valueByte (value : APInt) (k : ℕ) : BitVec 8 := value.bits.extractLsb' (8 * k) 8

/-- The variadic arguments are where `va_arg` looks for them. -/
structure Lands (types : List ArgumentType) (arguments : List Expr) (mo : MemoryObject)
    (os : ObjectState) (offsets : List ℕ) : Prop where
  /-- The object is large enough. -/
  large : ∀ p ∈ offsets.zip types, p.1 + getMinBytesForWidth p.2.width ≤ mo.size.toNat
  /-- The ranges of bytes do not overlap. -/
  apart : (offsets.zip types).Pairwise fun p q => p.1 + getMinBytesForWidth p.2.width ≤ q.1
    ∨ q.1 + getMinBytesForWidth q.2.width ≤ p.1
  /-- Each argument is stored where the calling convention has it, from the base on that
  `va_start` stores. -/
  places : offsets.map some = (vastart mo.address).offsets 0 types
  base : (vastart mo.address).overflow_arg_area = mo.address
  /-- In the end all arguments are there. -/
  contents : ∀ σ, ∃ m, os.Represents σ m ∧ ∀ p ∈ offsets.zip arguments,
    ∀ k < getMinBytesForWidth p.2.width, m (p.1 + k) = valueByte (p.2.eval σ) k

/-- No argument has to be moved up, from `offset` on. -/
def Aligned : ℕ → List ArgumentType → Prop
  | _, [] => True
  | offset, t :: ts =>
      t.areaAlign ∣ offset ∧ (ts ≠ [] → alignUp t.size 8 = argumentBytes 64 t.width)
        ∧ Aligned (offset + argumentBytes 64 t.width) ts

/-- The condition: every value can be written, the size does not exceed an `unsigned`, and no
argument has to be moved up. -/
structure Fits (types : List ArgumentType) (arguments : List Expr) : Prop where
  writable : ∀ e ∈ arguments, ObjectState.Writable e
  size : (types.map fun t => argumentBytes 64 t.width).sum < 2 ^ 32
  aligned : Aligned 0 types

/-! ## Offsets -/

section Offsets

variable {types : List ArgumentType} {arguments : List Expr} {offset place : ℕ} {t : ArgumentType}

/-- `va_start` says that all registers are used up. -/
theorem not_inRegisters (base : BitVec 64) (t : ArgumentType) :
    (vastart base).inRegisters t = false := by
  unfold VaList.inRegisters
  rw [decide_eq_false_iff_not]
  show ¬(0 < t.num_gp + t.num_fp ∧ 48 + t.num_gp * 8 ≤ 48 ∧ 304 + t.num_fp * 16 ≤ 304)
  omega

theorem offsets_cons (base : BitVec 64) (offset : ℕ) (t : ArgumentType)
    (ts : List ArgumentType) : (vastart base).offsets offset (t :: ts)
      = some (alignUp offset t.areaAlign)
        :: (vastart base).offsets (alignUp offset t.areaAlign + alignUp t.size 8) ts := by
  rw [VaList.offsets, not_inRegisters]
  rfl

/-- The offsets of the writing loop. -/
def writeOffsets : ℕ → List ArgumentType → List ℕ
  | _, [] => []
  | offset, t :: ts => offset :: writeOffsets ((offset + argumentBytes 64 t.width) % 2 ^ 32) ts

theorem areaAlign_pos (t : ArgumentType) : 0 < t.areaAlign :=
  Nat.lt_of_lt_of_le (by decide) (Nat.le_max_left 8 t.align)

/-- The words of an argument hold its bytes, and no whole word more. -/
theorem argumentBytes_bounds (w : ℕ) : getMinBytesForWidth w ≤ argumentBytes 64 w
    ∧ argumentBytes 64 w ≤ getMinBytesForWidth w + 7 := by
  show (w + 7) / 8 ≤ (w + 64 - 1) / 64 * 64 / 8 ∧ (w + 64 - 1) / 64 * 64 / 8 ≤ (w + 7) / 8 + 7
  omega

/-- The calling convention never takes fewer bytes than the call. -/
theorem argumentBytes_le (t : ArgumentType) : argumentBytes 64 t.width ≤ alignUp t.size 8 := by
  have hdvd : 8 ∣ alignUp t.size 8 := dvd_alignUp _ _
  have hsize : getMinBytesForWidth t.width ≤ t.size := le_alignUp _ t.align_pos
  have hround : t.size ≤ alignUp t.size 8 := le_alignUp _ (by decide)
  obtain ⟨k, hk⟩ := hdvd
  have hbytes : (t.width + 7) / 8 ≤ 8 * k := by
    rw [← hk]
    exact hsize.trans hround
  rw [hk]
  show (t.width + 64 - 1) / 64 * 64 / 8 ≤ 8 * k
  omega

/-- The sums of the words before each argument. -/
def starts : ℕ → List ArgumentType → List ℕ
  | _, [] => []
  | offset, t :: ts => offset :: starts (offset + argumentBytes 64 t.width) ts

/-- The words of all arguments. -/
def total (types : List ArgumentType) : ℕ := (types.map fun t => argumentBytes 64 t.width).sum

theorem total_cons (t : ArgumentType) (ts : List ArgumentType) :
    total (t :: ts) = argumentBytes 64 t.width + total ts := rfl

theorem writeOffsets_eq_starts (h : offset + total types < 2 ^ 32) :
    writeOffsets offset types = starts offset types := by
  induction types generalizing offset with
  | nil => rfl
  | cons t ts ih =>
    rw [total_cons] at h
    rw [writeOffsets, starts, Nat.mod_eq_of_lt (by omega), ih (by omega)]

/-- Arguments that do not have to be moved up are where the calling convention has them. -/
theorem starts_eq_offsets (base : BitVec 64) (h : Aligned offset types) :
    (starts offset types).map some = (vastart base).offsets offset types := by
  induction types generalizing offset with
  | nil => rfl
  | cons t ts ih =>
    obtain ⟨hdvd, hsize, htail⟩ := h
    rw [offsets_cons, alignUp_of_dvd hdvd (areaAlign_pos t), starts, List.map_cons]
    cases ts with
    | nil => rfl
    | cons u us => rw [hsize (List.cons_ne_nil u us), ih htail]

/-- The other way round, for offsets that are not above those of the calling convention. -/
theorem aligned_of_writeOffsets (base : BitVec 64) (hle : offset ≤ place)
    (h : (writeOffsets (offset % 2 ^ 32) types).map some = (vastart base).offsets place types) :
    (types ≠ [] → offset = place) ∧ Aligned offset types
      ∧ writeOffsets (offset % 2 ^ 32) types = starts offset types := by
  induction types generalizing offset place with
  | nil => exact ⟨fun hne => absurd rfl hne, trivial, rfl⟩
  | cons t ts ih =>
    rw [offsets_cons, writeOffsets, List.map_cons] at h
    obtain ⟨hhead, htail⟩ := List.cons.inj h
    have hhead := Option.some.inj hhead
    -- what is rounded up is not below `offset`, what is reduced is not above it
    have hup := le_alignUp place (areaAlign_pos t)
    have hmod := Nat.mod_le offset (2 ^ 32)
    have hoffset : offset % 2 ^ 32 = offset := by omega
    have hplace : offset = place := by omega
    have hfixed : alignUp place t.areaAlign = place := by omega
    have hdvd : t.areaAlign ∣ offset := by
      rw [hplace, ← hfixed]
      exact dvd_alignUp _ _
    have hbytes := argumentBytes_le t
    rw [hoffset, hfixed] at htail
    obtain ⟨hnext, halign, hstarts⟩ := ih (by omega) htail
    refine ⟨fun _ => hplace, ⟨hdvd, fun hne => ?_, halign⟩, ?_⟩
    · have := hnext hne
      omega
    · rw [hoffset, writeOffsets, starts, hstarts]

/-- Every range ends with the words of all arguments. -/
theorem end_le_total {p : ℕ × ArgumentType} (h : p ∈ (starts offset types).zip types) :
    offset ≤ p.1 ∧ p.1 + getMinBytesForWidth p.2.width ≤ offset + total types := by
  induction types generalizing offset with
  | nil => cases h
  | cons t ts ih =>
    rw [total_cons]
    obtain rfl | h := List.mem_cons.mp h
    · have := (argumentBytes_bounds t.width).1
      show offset ≤ offset ∧ offset + getMinBytesForWidth t.width ≤ _
      omega
    · have := ih h
      omega

theorem starts_apart (offset : ℕ) (types : List ArgumentType) :
    ((starts offset types).zip types).Pairwise fun p q => p.1 + getMinBytesForWidth p.2.width ≤ q.1
      ∨ q.1 + getMinBytesForWidth q.2.width ≤ p.1 := by
  induction types generalizing offset with
  | nil => exact .nil
  | cons t ts ih =>
    refine .cons (fun q hq => .inl ?_) (ih _)
    have hstart := (end_le_total hq).1
    exact (Nat.add_le_add_left (argumentBytes_bounds t.width).1 offset).trans hstart

/-- A size that has room for the last range is less than a word below the sum of all words. -/
theorem total_le_of_large {S : ℕ} (hne : types ≠ [])
    (h : ∀ p ∈ (starts offset types).zip types, p.1 + getMinBytesForWidth p.2.width ≤ S) :
    offset + total types ≤ S + 7 := by
  induction types generalizing offset with
  | nil => exact absurd rfl hne
  | cons t ts ih =>
    rw [total_cons]
    cases ts with
    | nil =>
      have hlast := h (offset, t) List.mem_cons_self
      have hbounds := (argumentBytes_bounds t.width).2
      have hzero : total [] = 0 := rfl
      dsimp only at hlast
      omega
    | cons u us =>
      rw [← Nat.add_assoc]
      exact ih (List.cons_ne_nil u us) fun p hp => h p (List.mem_cons_of_mem _ hp)

end Offsets

/-! ## The loops -/

section Loops

variable {types : List ArgumentType} {arguments : List Expr} {offset : ℕ} {os : ObjectState}

theorem foldl_addArgument (n : ℕ) (hwidths : types.map ArgumentType.width = arguments.map Expr.width) :
    arguments.foldl (addArgument 64) (n % 2 ^ 32) = (n + total types) % 2 ^ 32 := by
  induction types generalizing n arguments with
  | nil =>
    obtain rfl := List.map_eq_nil_iff.mp hwidths.symm
    rfl
  | cons t ts ih =>
    cases arguments with
    | nil => cases hwidths
    | cons e es =>
      obtain ⟨hwidth, hwidths⟩ := List.cons.inj hwidths
      have hstep : addArgument 64 (n % 2 ^ 32) e = (n + argumentBytes 64 t.width) % 2 ^ 32 := by
        unfold addArgument
        rw [Nat.mod_add_mod, hwidth]
      rw [List.foldl_cons, hstep, ih _ hwidths, total_cons, Nat.add_assoc]

/-- The loop for the size. -/
theorem varargsSize_eq (hwidths : types.map ArgumentType.width = arguments.map Expr.width) :
    varargsSize 64 arguments = total types % 2 ^ 32 := by
  have h := foldl_addArgument 0 hwidths
  rwa [Nat.zero_add] at h

theorem storeArguments_cons (os : ObjectState) (offset : ℕ) (e : Expr) (es : List Expr) :
    storeArguments 64 os offset (e :: es) = (os.writeAt true offset e).bind fun os =>
      (storeArguments 64 os (addArgument 64 offset e) es).map fun r => (r.1, offset :: r.2) :=
  if_pos (.inr rfl)

/-- What a loop that ends has written, and where. -/
theorem storeArguments_some {r : ObjectState × List ℕ}
    (hwidths : types.map ArgumentType.width = arguments.map Expr.width)
    (h : storeArguments 64 os offset arguments = some r) :
    r.2 = writeOffsets offset types ∧ ∀ e ∈ arguments, ObjectState.Writable e := by
  induction arguments generalizing os offset types r with
  | nil =>
    obtain rfl := List.map_eq_nil_iff.mp hwidths
    obtain rfl := Option.some.inj h
    exact ⟨rfl, fun e he => absurd he List.not_mem_nil⟩
  | cons e es ih =>
    cases types with
    | nil => cases hwidths
    | cons t ts =>
      obtain ⟨hwidth, hwidths⟩ := List.cons.inj hwidths
      rw [storeArguments_cons] at h
      obtain ⟨os', hwrite, h⟩ := Option.bind_eq_some_iff.mp h
      obtain ⟨r', hrest, rfl⟩ := Option.map_eq_some_iff.mp h
      obtain ⟨hoffsets, hwritable⟩ := ih hwidths hrest
      refine ⟨?_, List.forall_mem_cons.mpr ⟨?_, hwritable⟩⟩
      · rw [hoffsets, writeOffsets, addArgument, hwidth]
      · by_contra hno
        rw [ObjectState.writeAt_eq_none true hno] at hwrite
        cases hwrite

/-! ### The bytes of the arguments -/

variable {m : ByteMemory} {value : APInt}

theorem storeValue_out {x : ℕ} (hx : x < offset ∨ offset + getMinBytesForWidth value.width ≤ x) :
    ObjectState.storeValue true m offset value x = m x := by
  unfold getMinBytesForWidth at hx
  by_cases hbool : value.width = Expr.BoolWidth
  · rw [ObjectState.storeValue_bool true hbool]
    rw [hbool] at hx
    have hne : x ≠ offset := by
      rintro rfl
      obtain hx | hx := hx
      · exact absurd hx (Nat.lt_irrefl x)
      · exact absurd hx (Nat.not_succ_le_self x)
    exact Function.update_of_ne hne ..
  · rw [ObjectState.storeValue_bytes true hbool rfl]
    apply ByteMemory.store_other
    intro j hj
    show offset + j ≠ x
    omega

theorem storeValue_in {k : ℕ}
    (hwidth : value.width = Expr.BoolWidth ∨ value.width = value.width / 8 * 8)
    (hk : k < getMinBytesForWidth value.width) :
    ObjectState.storeValue true m offset value (offset + k) = valueByte value k := by
  unfold getMinBytesForWidth at hk
  by_cases hbool : value.width = Expr.BoolWidth
  · rw [ObjectState.storeValue_bool true hbool]
    rw [hbool] at hk
    obtain rfl : k = 0 := Nat.lt_one_iff.mp hk
    rw [Nat.add_zero, Function.update_self]
    apply BitVec.eq_of_getLsbD_eq
    intro i hi
    rw [BitVec.getLsbD_setWidth, valueByte, BitVec.getLsbD_extractLsb', Nat.mul_zero, Nat.zero_add]
  · rw [ObjectState.storeValue_bytes true hbool rfl]
    have hlt : k < value.width / 8 := by
      have := hwidth.resolve_left hbool
      omega
    refine ByteMemory.store_at m value.bits (fun j hj heq => ?_) hlt
    exact Nat.add_left_cancel heq

/-- The loop ends, and the arguments are at the sums of the words before them. -/
theorem storeArguments_leaves {view : Env → ByteMemory}
    (hwidths : types.map ArgumentType.width = arguments.map Expr.width)
    (htyped : ∀ e ∈ arguments, e.WellTyped)
    (hwritable : ∀ e ∈ arguments, ObjectState.Writable e)
    (hsize : offset + total types ≤ os.size) (hos : ∀ σ, os.Represents σ (view σ)) :
    ∃ (r : ObjectState × List ℕ) (view' : Env → ByteMemory),
      storeArguments 64 os offset arguments = some r
      ∧ ∀ σ, r.1.Represents σ (view' σ) ∧ (∀ x < offset, view' σ x = view σ x)
        ∧ ∀ p ∈ (starts offset types).zip arguments, ∀ k < getMinBytesForWidth p.2.width,
          view' σ (p.1 + k) = valueByte (p.2.eval σ) k := by
  induction arguments generalizing os offset types view with
  | nil =>
    obtain rfl := List.map_eq_nil_iff.mp hwidths
    exact ⟨(os, []), view, rfl, fun σ => ⟨hos σ, fun _ _ => rfl, fun p hp => absurd hp List.not_mem_nil⟩⟩
  | cons e es ih =>
    cases types with
    | nil => cases hwidths
    | cons t ts =>
      obtain ⟨hwidth, hwidths⟩ := List.cons.inj hwidths
      obtain ⟨he, hes⟩ := List.forall_mem_cons.mp htyped
      obtain ⟨hwe, hwes⟩ := List.forall_mem_cons.mp hwritable
      rw [total_cons] at hsize
      have hbytes : getMinBytesForWidth e.width ≤ argumentBytes 64 t.width := by
        rw [← hwidth]
        exact (argumentBytes_bounds t.width).1
      have hbound : offset + ObjectState.accessBytes e.width ≤ os.size := by
        show offset + getMinBytesForWidth e.width ≤ os.size
        omega
      obtain ⟨os', hwrite, -, hsize'⟩ := ObjectState.writeAt_leaves_of_writable true
        (hos fun _ _ => 0) he hwe hbound
      have hos' : ∀ σ, os'.Represents σ
          (ObjectState.storeValue true (view σ) offset (e.eval σ)) := by
        intro σ
        obtain ⟨os'', hwrite', hrep, -⟩ := ObjectState.writeAt_leaves_of_writable true
          (hos σ) he hwe hbound
        rw [hwrite] at hwrite'
        exact Option.some.inj hwrite' ▸ hrep
      have hlt := os.size_lt
      have hnext : addArgument 64 offset e = offset + argumentBytes 64 t.width := by
        rw [addArgument, ← hwidth, Nat.mod_eq_of_lt (by omega)]
      obtain ⟨r, view', hrun, hview⟩ := @ih ts (offset + argumentBytes 64 t.width) os'
        (fun σ => ObjectState.storeValue true (view σ) offset (e.eval σ)) hwidths hes hwes
        (by omega) hos'
      refine ⟨(r.1, offset :: r.2), view', ?_, fun σ => ?_⟩
      · rw [storeArguments_cons, hwrite, Option.bind_some, hnext, hrun]
        rfl
      · obtain ⟨hrep, hbelow, hthere⟩ := hview σ
        have hwidth' : (e.eval σ).width = t.width := he.eval_width.trans hwidth.symm
        refine ⟨hrep, fun x hx => ?_, fun p hp k hk => ?_⟩
        · rw [hbelow x (by omega)]
          exact storeValue_out (.inl hx)
        · obtain rfl | hp := List.mem_cons.mp hp
          · have hk' : k < getMinBytesForWidth (e.eval σ).width := by
              rw [he.eval_width]
              exact hk
            have hk'' : k < argumentBytes 64 t.width := Nat.lt_of_lt_of_le hk hbytes
            rw [hbelow (offset + k) (by omega)]
            refine storeValue_in ?_ hk'
            rw [he.eval_width]
            exact hwe.1
          · exact hthere p hp k hk

end Loops

/-! ## Every call -/

/-- A call that gets the fixed arguments and memory: its variadic arguments are where `va_arg`
looks for them if and only if they can be written, their words do not exceed an `unsigned`, and
none of them has to be moved up. -/
theorem lands_iff (malloc : BitVec 32 → BitVec 64) (id : ℕ) (tmpArr : Option KArray)
    (constArray funcArgs : ℕ) (arguments : List Expr) (types : List ArgumentType)
    (hargs : funcArgs ≤ arguments.length) (hmemory : ∀ size, malloc size ≠ 0)
    (htyped : ∀ e ∈ arguments, e.WellTyped)
    (hwidths : types.map ArgumentType.width = (arguments.drop funcArgs).map Expr.width) :
    (∃ mo os offsets, executeVarargs 64 malloc id tmpArr constArray funcArgs arguments
        = some (.entered mo os offsets) ∧ Lands types (arguments.drop funcArgs) mo os offsets)
      ↔ Fits types (arguments.drop funcArgs) := by
  let mo : MemoryObject :=
    let size := BitVec.ofNat 32 (varargsSize 64 (arguments.drop funcArgs))
    ⟨id, malloc size, size, true⟩
  let os := ObjectState.ofConcrete mo.size.toNat mo.size_toNat_lt tmpArr constArray
  have hsize : mo.size.toNat = total types % 2 ^ 32 := by
    show (BitVec.ofNat 32 (varargsSize 64 (arguments.drop funcArgs))).toNat = _
    rw [varargsSize_eq hwidths, BitVec.toNat_ofNat, Nat.mod_mod]
  have hrun : executeVarargs 64 malloc id tmpArr constArray funcArgs arguments
      = (storeArguments 64 os 0 (arguments.drop funcArgs)).map fun r => .entered mo r.1 r.2 := by
    unfold executeVarargs allocate
    rw [if_neg (Nat.not_lt.mpr hargs)]
    dsimp only
    rw [if_neg (hmemory _)]
  rw [hrun]
  constructor
  · rintro ⟨mo', os', offsets, heq, hlands⟩
    obtain ⟨r, hstore, hr⟩ := Option.map_eq_some_iff.mp heq
    obtain ⟨rfl, rfl, rfl⟩ := Outcome.entered.inj hr
    obtain ⟨hoffsets, hwritable⟩ := storeArguments_some hwidths hstore
    have hplaces := hlands.places
    rw [hoffsets] at hplaces
    obtain ⟨-, haligned, hstarts⟩ := aligned_of_writeOffsets mo.address (Nat.zero_le 0) hplaces
    refine ⟨hwritable, ?_, haligned⟩
    by_cases hne : types = []
    · rw [hne]
      exact Nat.two_pow_pos 32
    · -- the object has room for the last argument
      have hlarge := hlands.large
      rw [hoffsets] at hlarge
      change ∀ p ∈ (writeOffsets (0 % 2 ^ 32) types).zip types, _ at hlarge
      rw [hstarts, hsize] at hlarge
      have hle := total_le_of_large hne hlarge
      show total types < 2 ^ 32
      by_contra hover
      rw [Nat.mod_eq_sub_mod (Nat.le_of_not_lt hover)] at hle
      have := Nat.mod_le (total types - 2 ^ 32) (2 ^ 32)
      omega
  · intro hfits
    have htotal : total types < 2 ^ 32 := hfits.size
    rw [Nat.mod_eq_of_lt htotal] at hsize
    have hinitial : ∀ σ, os.Represents σ fun _ => 0 := fun σ =>
      ObjectState.ofConcrete_represents σ mo.size.isLt tmpArr constArray
    obtain ⟨r, view, hstore, hview⟩ := @storeArguments_leaves types _ 0 os (fun _ _ => 0) hwidths
      (fun e he => htyped e (List.mem_of_mem_drop he)) hfits.writable
      (by rw [Nat.zero_add, ← hsize]; exact le_rfl) hinitial
    have hoffsets : r.2 = starts 0 types := by
      rw [(storeArguments_some hwidths hstore).1]
      exact writeOffsets_eq_starts (by rwa [Nat.zero_add])
    refine ⟨mo, r.1, r.2, by rw [hstore]; rfl, ?_, ?_, ?_, rfl, fun σ => ?_⟩
    · intro p hp
      rw [hoffsets] at hp
      have hend := (end_le_total hp).2
      rwa [Nat.zero_add, ← hsize] at hend
    · rw [hoffsets]
      exact starts_apart 0 types
    · rw [hoffsets]
      exact starts_eq_offsets mo.address hfits.aligned
    · rw [hoffsets]
      exact ⟨view σ, (hview σ).1, (hview σ).2.2⟩

/-- `int`, `long` and `long double`. -/
def intType : ArgumentType := ⟨32, 4, 1, 0, by decide⟩

def longType : ArgumentType := ⟨64, 8, 1, 0, by decide⟩

def longDoubleType : ArgumentType := ⟨80, 16, 0, 0, by decide⟩

/-- A fixed pointer, then an `int`, a `long` and a `long double`: there are two words before
the last one. -/
theorem lands_iff_input :
    (∃ mo os offsets, executeVarargs 64 (fun _ => 4096) 0 none 0 1
        [.Constant ⟨64, 4096⟩, .Constant ⟨32, 7⟩, .Constant ⟨64, 9⟩, .Constant ⟨80, 5⟩]
          = some (.entered mo os offsets)
      ∧ Lands [intType, longType, longDoubleType]
        [.Constant ⟨32, 7⟩, .Constant ⟨64, 9⟩, .Constant ⟨80, 5⟩] mo os offsets) := by
  refine (lands_iff (fun _ => 4096) 0 none 0 1
    [.Constant ⟨64, 4096⟩, .Constant ⟨32, 7⟩, .Constant ⟨64, 9⟩, .Constant ⟨80, 5⟩]
    [intType, longType, longDoubleType] (by decide) (fun _ => by decide) ?_ rfl).mpr ?_
  · intro e he
    simp only [List.mem_cons, List.not_mem_nil, or_false] at he
    obtain rfl | rfl | rfl | rfl := he
    all_goals decide
  · refine ⟨?_, by decide, by decide, fun _ => by decide, by decide, fun _ => by decide,
      by decide, fun h => absurd rfl h, trivial⟩
    intro e he
    simp only [List.drop_succ_cons, List.drop_zero, List.mem_cons, List.not_mem_nil, or_false] at he
    obtain rfl | rfl | rfl := he
    · exact ObjectState.writable_of_isAccessWidth (by decide)
    · exact ObjectState.writable_of_isAccessWidth (by decide)
    · refine ⟨by decide, fun CE hCE hle => ?_⟩
      obtain rfl := Expr.Constant.inj hCE
      exact absurd hle (by decide)

/-- A `long double` behind one `int` is stored at 8, and `va_arg` looks at 16. -/
theorem long_double_behind_int :
    ¬∃ mo os offsets, executeVarargs 64 (fun _ => 4096) 0 none 0 1
        [.Constant ⟨64, 4096⟩, .Constant ⟨32, 7⟩, .Constant ⟨80, 5⟩]
          = some (.entered mo os offsets)
      ∧ Lands [intType, longDoubleType] [.Constant ⟨32, 7⟩, .Constant ⟨80, 5⟩] mo os offsets := by
  intro h
  have hfits := (lands_iff (fun _ => 4096) 0 none 0 1
    [.Constant ⟨64, 4096⟩, .Constant ⟨32, 7⟩, .Constant ⟨80, 5⟩] [intType, longDoubleType]
    (by decide) (fun _ => by decide) (fun e he => by
      simp only [List.mem_cons, List.not_mem_nil, or_false] at he
      obtain rfl | rfl | rfl := he
      all_goals decide) rfl).mp h
  have hdvd : 16 ∣ 8 := hfits.aligned.2.2.1
  exact absurd hdvd (by decide)

end Varargs

end Xklee
