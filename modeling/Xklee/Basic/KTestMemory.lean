/-
The memory of `kTest_fromFile` in `lib/Basic/KTest.cpp`.

Here a block of memory is its size, and reading a test case file is a run over the file and the
heap. A run has no result where a byte is stored outside a block, or a block is released that is
not there. Which calls of `malloc` and `calloc` return null is left to the C library: `refused`
says it of the calls of a run, in their order.

The only string that is too long for its block is that of 2^32 - 1 bytes, for which
`malloc(len + 1)` is `malloc(0)`. And the block of an object's bytes is not tested for null.
-/
import Mathlib.Algebra.BigOperators.Group.List.Basic
import Mathlib.Algebra.Order.Group.Multiset
import Mathlib.Tactic.Abel
import Xklee.Basic.KTest
import Xklee.Data.HeapCells

set_option autoImplicit false

namespace Xklee

open Stdio

namespace KTest

/-! ## Memory -/

/-- The rest of the file, the sizes of the blocks, and the number of calls of the allocator. -/
structure World where
  file : List Byte
  mem : Heap ℕ
  calls : ℕ

/-- `malloc(size)`, and `calloc` of `size` bytes in all. -/
def alloc (refused : ℕ → Bool) (size : ℕ) (w : World) : Option ℕ × World :=
  if refused w.calls then (none, { w with calls := w.calls + 1 })
  else (some w.mem.next, { w with mem := w.mem.alloc size, calls := w.calls + 1 })

/-- `n` bytes are stored from `offset` on. -/
def store (p : Option ℕ) (offset n : ℕ) (w : World) : Option Unit :=
  if n = 0 then some ()
  else do
    let size ← w.mem.read (← p)
    if offset + n ≤ size then some () else none

/-- `if (p) free(p)` -/
def freeIf (p : Option ℕ) (w : World) : Option World :=
  match p with
  | none => some w
  | some p => if (w.mem.read p).isSome then some { w with mem := w.mem.free p } else none

/-- `fread(ptr, size, 1, f)==1` -/
def freadInto (p : Option ℕ) (size : ℕ) (w : World) : Option (Bool × World) := do
  let (n, data, file) := fread size 1 w.file
  let _ ← store p 0 data.length w
  some (n == 1, { w with file := file })

/-! ## Reading -/

section Read

variable (refused : ℕ → Bool)

/-- `read_string`, with what it stores at `value_out`. -/
def readStringAt (w : World) : Option (Bool × Option ℕ × World) :=
  match readUint32 w.file with
  | none => some (false, none, w)
  | some (len, file) =>
      let (value, w) := alloc refused (len + 1).toNat { w with file := file }
      if value = none then some (false, none, w)
      else do
        let (ok, w) ← freadInto value len.toNat w
        if ok then do
          let _ ← store value len.toNat 1 w
          some (true, value, w)
        else some (false, value, w)

/-- A `KTestObject` in the array of objects. -/
structure ObjectCell where
  name : Option ℕ
  numBytes : BitVec 32
  bytes : Option ℕ

/-- What `calloc` makes of an object. -/
def ObjectCell.zero : ObjectCell := ⟨none, 0, none⟩

/-- The bytes of an object, after its name. -/
def readBytesAt (w : World) : Option (Bool × (BitVec 32 × Option ℕ) × World) :=
  match readUint32 w.file with
  | none => some (false, (0, none), w)
  | some (numBytes, file) => do
      let (bytes, w) := alloc refused numBytes.toNat { w with file := file }
      let (ok, w) ← freadInto bytes numBytes.toNat w
      some (ok, (numBytes, bytes), w)

/-- One turn of the loop over the objects. -/
def readObjectAt (w : World) : Option (Bool × ObjectCell × World) := do
  let (ok, name, w) ← readStringAt refused w
  if ok then do
    let (ok, (numBytes, bytes), w) ← readBytesAt refused w
    some (ok, ⟨name, numBytes, bytes⟩, w)
  else some (false, ⟨name, 0, none⟩, w)

/-- `for (i=0; i<n; i++) ...` over an array of zeroed elements at `array`. -/
def readArray {α : Type} (read : World → Option (Bool × α × World)) (zero : α) (size : ℕ)
    (array : Option ℕ) : ℕ → ℕ → World → Option (Bool × List α × World)
  | _, 0, w => some (true, [], w)
  | i, n + 1, w => do
      let (ok, x, w) ← read w
      let _ ← store array (i * size) size w
      if ok then do
        let (ok, xs, w) ← readArray read zero size array (i + 1) n w
        some (ok, x :: xs, w)
      else some (false, x :: List.replicate n zero, w)

/-- A count, and the array that it is the length of. -/
structure ArrayCell (α : Type) where
  count : BitVec 32
  array : Option ℕ
  elements : List α

/-- What `calloc` makes of it. -/
def ArrayCell.zero (α : Type) : ArrayCell α := ⟨0, none, []⟩

/-- A count and as many records, in a block from `calloc`. -/
def readBlockAt {α : Type} (read : World → Option (Bool × α × World)) (zero : α) (size : ℕ)
    (w : World) : Option (Bool × ArrayCell α × World) :=
  match readUint32 w.file with
  | none => some (false, .zero α, w)
  | some (n, file) =>
      let (array, w) := alloc refused (n.toNat * size) { w with file := file }
      if array = none then some (false, ⟨n, none, []⟩, w)
      else do
        let (ok, xs, w) ← readArray read zero size array 0 n.toNat w
        some (ok, ⟨n, array, xs⟩, w)

/-- The part of `kTest_fromFile` after the arguments. -/
def readObjectsAt (version : BitVec 32) (w : World) : Option (Bool × ArrayCell ObjectCell × World) :=
  match readSymArgs version w.file with
  | none => some (false, .zero ObjectCell, w)
  | some (_, file) => readBlockAt refused (readObjectAt refused) .zero 24 { w with file := file }

/-- The `KTest` in memory, as far as it points to something. -/
structure TestCell where
  res : ℕ
  args : ArrayCell (Option ℕ)
  objects : ArrayCell ObjectCell

/-- `kTest_fromFile` after the block at `res` is there: whether it comes to the end, and the
record as it is then. -/
def readTest (res : ℕ) (w : World) : Option (Bool × TestCell × World) :=
  match readUint32 w.file with
  | none => some (false, ⟨res, .zero _, .zero _⟩, w)
  | some (version, file) =>
      if version > currentVersion then some (false, ⟨res, .zero _, .zero _⟩, w)
      else do
        let (ok, args, w) ← readBlockAt refused (readStringAt refused) none 8 { w with file := file }
        if ok then do
          let (ok, objects, w) ← readObjectsAt refused version w
          some (ok, ⟨res, args, objects⟩, w)
        else some (false, ⟨res, args, .zero _⟩, w)

end Read

/-! ## The error exit -/

def freeAll : List (Option ℕ) → World → Option World
  | [], w => some w
  | p :: ps, w => do freeAll ps (← freeIf p w)

/-- An array and what its elements point to. -/
def freeArray (array : Option ℕ) (elements : List (Option ℕ)) (w : World) : Option World :=
  match array with
  | none => some w
  | some array => do freeIf (some array) (← freeAll elements w)

def ObjectCell.pointers (o : ObjectCell) : List (Option ℕ) := [o.name, o.bytes]

/-- The code at `error`, where `res` is not null. -/
def TestCell.free (t : TestCell) (w : World) : Option World := do
  let w ← freeArray t.args.array t.args.elements w
  let w ← freeArray t.objects.array (t.objects.elements.flatMap ObjectCell.pointers) w
  freeIf (some t.res) w

/-- `kTest_fromFile`. A `KTest` has 40 bytes. -/
def fromFileAt (refused : ℕ → Bool) (file : List Byte) : Option (Option TestCell × World) :=
  match checkHeader file with
  | none => some (none, ⟨file, Heap.empty, 0⟩)
  | some file =>
      let (res, w) := alloc refused 40 ⟨file, Heap.empty, 0⟩
      match res with
      | none => some (none, w)
      | some res => do
          let (ok, t, w) ← readTest refused res w
          if ok then some (some t, w) else do
            let w ← t.free w
            some (none, w)

/-! ## Blocks -/

/-- The heap has blocks at these places, and no place is among them twice. -/
def Owns (m : Heap ℕ) (ps : Multiset ℕ) : Prop := ∃ s, m.Holds s ∧ s.map Prod.fst = ps

/-- The place of a pointer that is not null. -/
def place (p : Option ℕ) : Multiset ℕ := p.elim 0 ({·})

theorem owns_empty : Owns Heap.empty 0 := ⟨0, Heap.holds_empty, rfl⟩

variable {m : Heap ℕ} {ps : Multiset ℕ} {w : World}

theorem Owns.alloc (h : Owns m ps) (size : ℕ) :
    Owns (m.alloc size) (m.next ::ₘ ps) := by
  obtain ⟨s, hs, rfl⟩ := h
  exact ⟨_, hs.alloc size, Multiset.map_cons ..⟩

theorem Owns.free {p : ℕ} (h : Owns m (p ::ₘ ps)) :
    (m.read p).isSome = true ∧ Owns (m.free p) ps := by
  obtain ⟨s, hs, hps⟩ := h
  obtain ⟨c, hc, hp⟩ := Multiset.mem_map.mp (hps ▸ Multiset.mem_cons_self p ps)
  obtain ⟨s', rfl⟩ := Multiset.exists_cons_of_mem hc
  obtain ⟨q, size⟩ := c
  obtain rfl : q = p := hp
  rw [Multiset.map_cons, Multiset.cons_inj_right] at hps
  refine ⟨?_, s', hs.free, hps⟩
  rw [hs.head]
  rfl

theorem freeIf_owns {p : Option ℕ} (h : Owns w.mem (place p + ps)) :
    ∃ w', freeIf p w = some w' ∧ Owns w'.mem ps := by
  cases p with
  | none =>
    rw [place, Option.elim_none, zero_add] at h
    exact ⟨w, rfl, h⟩
  | some p =>
    rw [place, Option.elim_some, Multiset.singleton_add] at h
    obtain ⟨hsome, hfree⟩ := h.free
    exact ⟨_, if_pos hsome, hfree⟩

theorem freeAll_owns {l : List (Option ℕ)} (h : Owns w.mem ((l.map place).sum + ps)) :
    ∃ w', freeAll l w = some w' ∧ Owns w'.mem ps := by
  induction l generalizing w with
  | nil =>
    rw [List.map_nil, List.sum_nil, zero_add] at h
    exact ⟨w, rfl, h⟩
  | cons p l ih =>
    rw [List.map_cons, List.sum_cons, add_assoc] at h
    obtain ⟨w₁, hw₁, h₁⟩ := freeIf_owns h
    obtain ⟨w₂, hw₂, h₂⟩ := ih h₁
    refine ⟨w₂, ?_, h₂⟩
    rw [freeAll, hw₁]
    exact hw₂

/-- The blocks of an array; there are no elements without it. -/
def blocksOf {α : Type} (f : α → Multiset ℕ) (a : ArrayCell α) : Multiset ℕ :=
  match a.array with
  | none => 0
  | some array => array ::ₘ (a.elements.map f).sum

theorem freeArray_owns {α : Type} {f : α → Multiset ℕ} (pointers : α → List (Option ℕ))
    (hf : ∀ x, f x = ((pointers x).map place).sum) {a : ArrayCell α}
    (h : Owns w.mem (blocksOf f a + ps)) :
    ∃ w', freeArray a.array (a.elements.flatMap pointers) w = some w' ∧ Owns w'.mem ps := by
  have hsum : (a.elements.map f).sum = ((a.elements.flatMap pointers).map place).sum := by
    induction a.elements with
    | nil => rfl
    | cons x xs ih =>
      rw [List.map_cons, List.sum_cons, List.flatMap_cons, List.map_append, List.sum_append, ih, hf]
  obtain ⟨count, array, elements⟩ := a
  cases array with
  | none =>
    rw [blocksOf, zero_add] at h
    exact ⟨w, rfl, h⟩
  | some array =>
    have hblocks : blocksOf f ⟨count, some array, elements⟩ + ps
        = ((elements.flatMap pointers).map place).sum + (place (some array) + ps) := by
      rw [← hsum]
      show array ::ₘ (elements.map f).sum + ps = (elements.map f).sum + ({array} + ps)
      rw [Multiset.singleton_add, Multiset.cons_add, Multiset.add_cons]
    rw [hblocks] at h
    obtain ⟨w₁, hw₁, h₁⟩ := freeAll_owns h
    obtain ⟨w₂, hw₂, h₂⟩ := freeIf_owns h₁
    refine ⟨w₂, ?_, h₂⟩
    rw [freeArray, hw₁]
    exact hw₂

def ObjectCell.blocks (o : ObjectCell) : Multiset ℕ := place o.name + place o.bytes

def TestCell.blocks (t : TestCell) : Multiset ℕ :=
  {t.res} + (blocksOf place t.args + blocksOf ObjectCell.blocks t.objects)

/-- The error exit releases every block once. -/
theorem TestCell.free_owns {t : TestCell} (h : Owns w.mem t.blocks) :
    ∃ w', t.free w = some w' ∧ Owns w'.mem 0 := by
  have hblocks : t.blocks = blocksOf place t.args
      + (blocksOf ObjectCell.blocks t.objects + (place (some t.res) + 0)) := by
    show {t.res} + (blocksOf place t.args + blocksOf ObjectCell.blocks t.objects)
      = blocksOf place t.args + (blocksOf ObjectCell.blocks t.objects + ({t.res} + 0))
    abel
  rw [hblocks] at h
  obtain ⟨w₁, hw₁, h₁⟩ := freeArray_owns (fun p => [p])
    (fun _ => List.sum_singleton.symm) h
  obtain ⟨w₂, hw₂, h₂⟩ := freeArray_owns ObjectCell.pointers
    (fun _ => List.sum_pair.symm) h₁
  obtain ⟨w₃, hw₃, h₃⟩ := freeIf_owns h₂
  refine ⟨w₃, ?_, h₃⟩
  rw [List.flatMap_singleton'] at hw₁
  rw [TestCell.free, hw₁, Option.bind_eq_bind, Option.bind_some, hw₂]
  exact hw₃

/-! ## What a part of the run does -/

section Spec

variable (refused : ℕ → Bool)

/-- The next `n` calls of the allocator give blocks. -/
def Granted (calls n : ℕ) : Prop := ∀ i < n, refused (calls + i) = false

/-- A part of the run. It has no result in the bad case; it owns the blocks of what it reads,
besides those that were there; and it comes to its end when the file allows it and the `c` calls
of the allocator are granted, with `next` left of the file. -/
structure Reads {α : Type} (w : World) (result : Option (Bool × α × World))
    (next : Option (List Byte)) (c : ℕ) (bad : Prop) (blocks : α → Multiset ℕ) : Prop where
  fault : result = none ↔ bad
  owns : ∀ {ok x w'} {ps : Multiset ℕ}, result = some (ok, x, w') → Owns w.mem ps →
    Owns w'.mem (blocks x + ps)
  keeps : ∀ {ok x w' p size}, result = some (ok, x, w') → w.mem.read p = some size →
    w'.mem.read p = some size
  ends : ∀ {x w'}, result = some (true, x, w') → Granted refused w.calls c ∧ next = some w'.file
    ∧ w'.calls = w.calls + c
  runs : ∀ {file}, Granted refused w.calls c → next = some file → ∃ x w', result = some (true, x, w')

/-- One part after another, whose result is `zero` if the first does not come to its end. -/
def followedBy {α β : Type} (result : Option (Bool × α × World))
    (read : World → Option (Bool × β × World)) (zero : β) : Option (Bool × (α × β) × World) := do
  let (ok, x, w) ← result
  if ok then do
    let (ok, y, w) ← read w
    some (ok, (x, y), w)
  else some (false, (x, zero), w)

variable {refused}

variable {calls n c size p offset : ℕ} {α β : Type} {w : World} {result : Option (Bool × α × World)}
  {next : Option (List Byte)} {bad : Prop} {blocks : α → Multiset ℕ} {file : List Byte}

theorem granted_add {m : ℕ} :
    Granted refused calls (n + m) ↔ Granted refused calls n ∧ Granted refused (calls + n) m := by
  constructor
  · intro h
    refine ⟨fun i hi => h i (by omega), fun i hi => ?_⟩
    rw [Nat.add_assoc]
    exact h (n + i) (by omega)
  · rintro ⟨hn, hm⟩ i hi
    by_cases hlt : i < n
    · exact hn i hlt
    · have hi' := hm (i - n) (by omega)
      rwa [Nat.add_assoc, Nat.add_sub_cancel' (Nat.not_lt.mp hlt)] at hi'

/-- The rule for two parts. -/
theorem Reads.followedBy (h : Reads refused w result next c bad blocks)
    {read : World → Option (Bool × β × World)} (zero : β) (next' : List Byte → Option (List Byte))
    {c' : ℕ} (bad' : List Byte → ℕ → Prop) (blocks' : β → Multiset ℕ) (hzero : blocks' zero = 0)
    (h' : ∀ x w', result = some (true, x, w') →
      Reads refused w' (read w') (next' w'.file) c' (bad' w'.file w'.calls) blocks') :
    Reads refused w (followedBy result read zero) (next.bind next') (c + c')
      (bad ∨ Granted refused w.calls c ∧ ∃ file, next = some file ∧ bad' file (w.calls + c))
      (fun xy => blocks xy.1 + blocks' xy.2) := by
  rcases result with _ | ⟨_ | _, x, w₁⟩
  · -- the first part has no result
    constructor
    · exact iff_of_true rfl (.inl (h.fault.mp rfl))
    · rintro _ _ _ _ ⟨⟩
    · rintro _ _ _ _ _ ⟨⟩
    · rintro _ _ ⟨⟩
    · rintro file hgranted hnext
      obtain ⟨file₁, hfile₁, -⟩ := Option.bind_eq_some_iff.mp hnext
      obtain ⟨_, _, heq⟩ := h.runs (granted_add.mp hgranted).1 hfile₁
      exact absurd heq (by simp)
  · -- it does not come to its end
    have hgood : ¬bad := fun hbad => absurd (h.fault.mpr hbad) (by simp)
    have hstops : ∀ file, Granted refused w.calls c → next = some file → False := by
      intro file hgranted hnext
      obtain ⟨_, _, heq⟩ := h.runs hgranted hnext
      exact absurd heq (by simp)
    constructor
    · refine iff_of_false (by simp [KTest.followedBy]) ?_
      rintro (hbad | ⟨hgranted, file, hnext, -⟩)
      · exact hgood hbad
      · exact hstops file hgranted hnext
    · rintro _ _ _ ps ⟨⟩ howns
      show Owns w₁.mem (blocks x + blocks' zero + ps)
      rw [hzero, add_zero]
      exact h.owns rfl howns
    · rintro _ _ _ _ _ ⟨⟩ hread
      exact h.keeps rfl hread
    · rintro _ _ ⟨⟩
    · rintro file hgranted hnext
      obtain ⟨file₁, hfile₁, -⟩ := Option.bind_eq_some_iff.mp hnext
      exact (hstops file₁ (granted_add.mp hgranted).1 hfile₁).elim
  · -- the second part goes on from there
    have hgood : ¬bad := fun hbad => absurd (h.fault.mpr hbad) (by simp)
    obtain ⟨hgranted, hnext, hcalls⟩ := h.ends rfl
    have h₂ := h' x w₁ rfl
    have hresult : KTest.followedBy (some (true, x, w₁)) read zero
        = (read w₁).map fun r => (r.1, (x, r.2.1), r.2.2) := by
      show (read w₁).bind _ = _
      cases read w₁ with
      | none => rfl
      | some r => rfl
    rw [hresult, hnext]
    rw [hcalls] at h₂
    constructor
    · rw [Option.map_eq_none_iff, h₂.fault]
      constructor
      · intro hbad
        exact .inr ⟨hgranted, w₁.file, rfl, hbad⟩
      · rintro (hbad | ⟨-, file, hfile, hbad⟩)
        · exact absurd hbad hgood
        · obtain rfl := Option.some.inj hfile
          exact hbad
    · intro ok xy w' ps heq howns
      obtain ⟨r, hr, hxy⟩ := Option.map_eq_some_iff.mp heq
      obtain ⟨rfl, rfl, rfl⟩ : r.1 = ok ∧ (x, r.2.1) = xy ∧ r.2.2 = w' := by
        simpa only [Prod.mk.injEq] using hxy
      have hfirst := h.owns rfl howns
      have hsecond := h₂.owns hr hfirst
      refine (congrArg (Owns _) ?_).mp hsecond
      show blocks' r.2.1 + (blocks x + ps) = blocks x + blocks' r.2.1 + ps
      abel
    · intro ok xy w' p size heq hread
      obtain ⟨r, hr, hxy⟩ := Option.map_eq_some_iff.mp heq
      obtain ⟨rfl, rfl, rfl⟩ : r.1 = ok ∧ (x, r.2.1) = xy ∧ r.2.2 = w' := by
        simpa only [Prod.mk.injEq] using hxy
      exact h₂.keeps hr (h.keeps rfl hread)
    · intro xy w' heq
      obtain ⟨⟨ok, y, w₂⟩, hr, hxy⟩ := Option.map_eq_some_iff.mp heq
      obtain ⟨rfl, rfl, rfl⟩ : ok = true ∧ (x, y) = xy ∧ w₂ = w' := by
        simpa only [Prod.mk.injEq] using hxy
      obtain ⟨hgranted', hnext', hcalls'⟩ := h₂.ends hr
      refine ⟨granted_add.mpr ⟨hgranted, ?_⟩, hnext', ?_⟩
      · rw [← hcalls]
        exact hgranted'
      · rw [hcalls', hcalls, Nat.add_assoc]
    · intro file hall hfile
      have hsecond := (granted_add.mp hall).2
      rw [← hcalls] at hsecond
      obtain ⟨y, w₂, hr⟩ := h₂.runs hsecond hfile
      exact ⟨(x, y), w₂, congrArg (Option.map _) hr⟩

/-- The same part, said otherwise. -/
theorem Reads.congr {result' : Option (Bool × α × World)} {next' : Option (List Byte)} {bad' : Prop}
    (h : Reads refused w result next c bad blocks) (hresult : result = result')
    (hnext : next = next') (hbad : bad ↔ bad') : Reads refused w result' next' c bad' blocks := by
  obtain rfl := propext hbad
  subst hresult hnext
  exact h

/-- Nothing depends on the file there was. -/
theorem Reads.of_file (h : Reads refused { w with file := file } result next c bad blocks) :
    Reads refused w result next c bad blocks :=
  ⟨h.fault, h.owns, h.keeps, h.ends, h.runs⟩

/-- The rule for what is made of the result. -/
theorem Reads.map (h : Reads refused w result next c bad blocks) (f : α → β)
    {blocks' : β → Multiset ℕ} (hblocks : ∀ x, blocks' (f x) = blocks x) :
    Reads refused w (result.map fun r => (r.1, f r.2.1, r.2.2)) next c bad blocks' := by
  constructor
  · rw [Option.map_eq_none_iff]
    exact h.fault
  · intro ok y w' ps heq howns
    obtain ⟨⟨ok₁, x, w₁⟩, hr, hxy⟩ := Option.map_eq_some_iff.mp heq
    obtain ⟨rfl, rfl, rfl⟩ : ok₁ = ok ∧ f x = y ∧ w₁ = w' := by
      simpa only [Prod.mk.injEq] using hxy
    rw [hblocks]
    exact h.owns hr howns
  · intro ok y w' p size heq hread
    obtain ⟨⟨ok₁, x, w₁⟩, hr, hxy⟩ := Option.map_eq_some_iff.mp heq
    obtain ⟨rfl, rfl, rfl⟩ : ok₁ = ok ∧ f x = y ∧ w₁ = w' := by
      simpa only [Prod.mk.injEq] using hxy
    exact h.keeps hr hread
  · intro y w' heq
    obtain ⟨⟨ok₁, x, w₁⟩, hr, hxy⟩ := Option.map_eq_some_iff.mp heq
    obtain ⟨rfl, rfl, rfl⟩ : ok₁ = true ∧ f x = y ∧ w₁ = w' := by
      simpa only [Prod.mk.injEq] using hxy
    exact h.ends hr
  · intro file hgranted hnext
    obtain ⟨x, w', hr⟩ := h.runs hgranted hnext
    exact ⟨f x, w', congrArg (Option.map _) hr⟩

/-! ### The three ways a part can go -/

variable {α : Type} {w w' : World} {x : α} {next : Option (List Byte)} {c : ℕ} {bad : Prop}
  {blocks : α → Multiset ℕ}

theorem reads_of_fault (hbad : bad) (hstops : Granted refused w.calls c → next = none) :
    Reads refused w none next c bad blocks := by
  constructor
  · exact iff_of_true rfl hbad
  · rintro _ _ _ _ ⟨⟩
  · rintro _ _ _ _ _ ⟨⟩
  · rintro _ _ ⟨⟩
  · intro file hgranted hnext
    rw [hstops hgranted] at hnext
    exact absurd hnext (by simp)

theorem reads_of_stop (hgood : ¬bad) (hstops : Granted refused w.calls c → next = none)
    (howns : ∀ ps, Owns w.mem ps → Owns w'.mem (blocks x + ps))
    (hkeeps : ∀ p size, w.mem.read p = some size → w'.mem.read p = some size) :
    Reads refused w (some (false, x, w')) next c bad blocks := by
  constructor
  · exact iff_of_false (by simp) hgood
  · rintro _ _ _ ps ⟨⟩ h
    exact howns ps h
  · rintro _ _ _ p size ⟨⟩ h
    exact hkeeps p size h
  · rintro _ _ ⟨⟩
  · intro file hgranted hnext
    rw [hstops hgranted] at hnext
    exact absurd hnext (by simp)

theorem reads_of_end (hgood : ¬bad) (hgranted : Granted refused w.calls c)
    (hnext : next = some w'.file) (hcalls : w'.calls = w.calls + c)
    (howns : ∀ ps, Owns w.mem ps → Owns w'.mem (blocks x + ps))
    (hkeeps : ∀ p size, w.mem.read p = some size → w'.mem.read p = some size) :
    Reads refused w (some (true, x, w')) next c bad blocks := by
  constructor
  · exact iff_of_false (by simp) hgood
  · rintro _ _ _ ps ⟨⟩ h
    exact howns ps h
  · rintro _ _ _ p size ⟨⟩ h
    exact hkeeps p size h
  · rintro _ _ ⟨⟩
    exact ⟨hgranted, hnext, hcalls⟩
  · intro file _ _
    exact ⟨x, w', rfl⟩

/-! ### One block -/

theorem granted_one : Granted refused calls 1 ↔ refused calls = false := by
  constructor
  · intro h
    exact h 0 (by decide)
  · intro h i hi
    obtain rfl : i = 0 := by omega
    exact h

theorem owns_alloc (size : ℕ) (ps : Multiset ℕ) (h : Owns w.mem ps) :
    Owns (w.mem.alloc size) (place (some w.mem.next) + ps) := by
  show Owns _ ({w.mem.next} + ps)
  rw [Multiset.singleton_add]
  exact h.alloc size

theorem read_alloc_of_some (size : ℕ) (p n : ℕ) (h : w.mem.read p = some n) :
    (w.mem.alloc size).read p = some n := by
  rw [Heap.read_alloc, Function.update_of_ne (Nat.ne_of_lt (Heap.lt_next h))]
  exact h

theorem store_of_le (hread : w.mem.read p = some size) (hle : offset + n ≤ size) :
    store (some p) offset n w = some () := by
  unfold store
  split
  · rfl
  · show (w.mem.read p).bind _ = _
    rw [hread, Option.bind_some, if_pos hle]

theorem store_of_lt (hread : w.mem.read p = some size) (hn : n ≠ 0) (hlt : size < offset + n) :
    store (some p) offset n w = none := by
  unfold store
  rw [if_neg hn]
  show (w.mem.read p).bind _ = _
  rw [hread, Option.bind_some, if_neg (Nat.not_le.mpr hlt)]

theorem store_null (hn : n ≠ 0) : store none offset n w = none := if_neg hn

/-- One item of `n` bytes is read, or none is. -/
theorem fread_one (n : ℕ) (f : List Byte) : ∃ k data file, fread n 1 f = (k, data, file)
    ∧ (k = 0 ∨ k = 1) ∧ data.length ≤ n ∧ (data.length = 0 ↔ n = 0 ∨ f = [])
    ∧ (data.length = 0 → k = 0) := by
  unfold fread
  split
  next hzero => exact ⟨0, [], f, rfl, .inl rfl, Nat.zero_le _, iff_of_true rfl (.inl hzero), fun _ => rfl⟩
  next hne =>
    refine ⟨_, _, _, rfl, ?_, ?_, ?_, ?_⟩
    · generalize f.length / n = q
      omega
    · rw [List.length_take, Nat.mul_one]
      exact Nat.min_le_left _ _
    · rw [List.length_take, Nat.mul_one, ← List.length_eq_zero_iff]
      omega
    · intro hlength
      rw [List.length_take, Nat.mul_one] at hlength
      have hnil : f.length = 0 := by omega
      rw [hnil, Nat.zero_div, Nat.min_zero]

theorem freadInto_eq {p : Option ℕ} {k : ℕ} {data : List Byte}
    (hread : fread n 1 w.file = (k, data, file)) :
    freadInto p n w
      = (store p 0 data.length w).map fun _ => (k == 1, { w with file := file }) := by
  unfold freadInto
  rw [hread]
  dsimp only
  cases store p 0 data.length w with
  | none => rfl
  | some u => rfl

/-! ### Strings and bytes -/

/-- What a reader leaves of the file. -/
def after {β : Type} (read : List Byte → Option (β × List Byte)) (f : List Byte) :
    Option (List Byte) := (read f).map Prod.snd

/-- There is a string of 2^32 - 1 bytes whose block of size 0 is granted, and at least one byte
of it. -/
def BadString (refused : ℕ → Bool) (f : List Byte) (calls : ℕ) : Prop :=
  refused calls = false ∧ ∃ rest, readUint32 f = some (BitVec.allOnes 32, rest) ∧ rest ≠ []

variable (refused) in
theorem readStringAt_spec (w : World) :
    Reads refused w (readStringAt refused w) (after readString w.file) 1
      (BadString refused w.file w.calls) place := by
  unfold readStringAt after readString
  cases hlen : readUint32 w.file with
  | none =>
    refine reads_of_stop ?_ (fun _ => rfl) (fun ps h => ?_) (fun _ _ h => h)
    · rintro ⟨-, rest, heq, -⟩
      rw [hlen] at heq
      exact absurd heq (by simp)
    · rw [place, Option.elim_none, zero_add]
      exact h
  | some r =>
    obtain ⟨len, file⟩ := r
    dsimp only
    have hbad : BadString refused w.file w.calls
        ↔ refused w.calls = false ∧ len = BitVec.allOnes 32 ∧ file ≠ [] := by
      unfold BadString
      rw [hlen]
      simp
    by_cases hrefused : refused w.calls = true
    · -- null
      have halloc : ∀ size, alloc refused size { w with file := file }
          = (none, { w with file := file, calls := w.calls + 1 }) := fun size => if_pos hrefused
      rw [halloc, if_pos rfl]
      refine reads_of_stop ?_ (fun h => ?_) (fun ps h => ?_) (fun _ _ h => h)
      · rw [hbad, hrefused]
        simp
      · rw [granted_one, hrefused] at h
        exact absurd h (by simp)
      · rw [place, Option.elim_none, zero_add]
        exact h
    · have hrefused : refused w.calls = false := Bool.eq_false_iff.mpr hrefused
      have halloc : ∀ size, alloc refused size { w with file := file }
          = (some w.mem.next, ⟨file, w.mem.alloc size, w.calls + 1⟩) := by
        intro size
        exact if_neg (by simp [hrefused])
      have hblock : ∀ size, (w.mem.alloc size).read w.mem.next = some size := by
        intro size
        rw [Heap.read_alloc, Function.update_self]
      rw [halloc, if_neg (by simp)]
      obtain ⟨k, data, rest, hread, hk, hdata, hempty, hnone⟩ := fread_one len.toNat file
      rw [freadInto_eq hread, hread]
      have howns : ∀ size ps, Owns w.mem ps →
          Owns (w.mem.alloc size) (place (some w.mem.next) + ps) := owns_alloc
      by_cases hones : len = BitVec.allOnes 32
      · -- `malloc(0)`
        have hsize : (len + 1).toNat = 0 := by
          rw [hones]
          rfl
        rw [hsize, if_pos (Nat.zero_le _)]
        by_cases hfile : file = []
        · have hzero : data.length = 0 := hempty.mpr (.inr hfile)
          rw [hzero, store_of_le (hblock 0) (Nat.le_refl 0), hnone hzero]
          refine reads_of_stop ?_ (fun _ => rfl) (howns 0) (read_alloc_of_some 0)
          rw [hbad]
          exact fun h => h.2.2 hfile
        · have hpos : data.length ≠ 0 := by
            rw [ne_eq, hempty, hones]
            exact fun h => h.elim (by decide) hfile
          rw [store_of_lt (hblock 0) hpos (by omega)]
          exact reads_of_fault (hbad.mpr ⟨hrefused, hones, hfile⟩) (fun _ => rfl)
      · have hsize : (len + 1).toNat = len.toNat + 1 := by
          have hlt : len.toNat ≠ 2 ^ 32 - 1 := fun h => hones (BitVec.eq_of_toNat_eq h)
          have h32 := len.isLt
          rw [BitVec.toNat_add]
          show (len.toNat + 1) % 2 ^ 32 = len.toNat + 1
          omega
        have hgood : ¬BadString refused w.file w.calls := by
          rw [hbad]
          exact fun h => hones h.2.1
        rw [hsize, if_neg (by omega), store_of_le (hblock _) (by omega)]
        rcases hk with rfl | rfl
        · exact reads_of_stop hgood (fun _ => rfl) (howns _) (read_alloc_of_some _)
        · have hlast : store (some w.mem.next) len.toNat 1
              ⟨rest, w.mem.alloc (len.toNat + 1), w.calls + 1⟩ = some () :=
            store_of_le (hblock _) (Nat.le_refl _)
          show Reads refused w ((store (some w.mem.next) len.toNat 1 _).bind _) _ _ _ _
          rw [hlast]
          exact reads_of_end hgood (granted_one.mpr hrefused) rfl rfl (howns _) (read_alloc_of_some _)

/-- There is an object whose bytes get no block, and at least one byte of it. -/
def BadBytes (refused : ℕ → Bool) (f : List Byte) (calls : ℕ) : Prop :=
  refused calls = true ∧ ∃ numBytes rest, readUint32 f = some (numBytes, rest) ∧ numBytes ≠ 0
    ∧ rest ≠ []

/-- The bytes of an object, after its name. -/
def readBytes (f : List Byte) : Option (List Byte × List Byte) :=
  match readUint32 f with
  | none => none
  | some (numBytes, f) =>
      match fread numBytes.toNat 1 f with
      | (1, bytes, f) => some (bytes, f)
      | _ => none

theorem readBytesAt_spec (w : World) :
    Reads refused w (readBytesAt refused w) (after readBytes w.file) 1
      (BadBytes refused w.file w.calls) (fun b => place b.2) := by
  unfold readBytesAt after readBytes
  cases hlen : readUint32 w.file with
  | none =>
    refine reads_of_stop ?_ (fun _ => rfl) (fun ps h => ?_) (fun _ _ h => h)
    · rintro ⟨-, n, rest, heq, -⟩
      rw [hlen] at heq
      exact absurd heq (by simp)
    · rw [place, Option.elim_none, zero_add]
      exact h
  | some r =>
    obtain ⟨len, file⟩ := r
    dsimp only
    obtain ⟨k, data, rest, hread, hk, hdata, hempty, hnone⟩ := fread_one len.toNat file
    have hbad : BadBytes refused w.file w.calls ↔ refused w.calls = true ∧ data.length ≠ 0 := by
      have hne : len ≠ 0 ↔ len.toNat ≠ 0 := by
        rw [ne_eq, ne_eq, ← BitVec.toNat_inj]
        rfl
      unfold BadBytes
      rw [hlen, ne_eq, hempty, not_or, ← ne_eq, ← hne]
      simp
    by_cases hrefused : refused w.calls = true
    · have halloc : alloc refused len.toNat { w with file := file }
          = (none, { w with file := file, calls := w.calls + 1 }) := if_pos hrefused
      rw [halloc]
      dsimp only
      rw [freadInto_eq hread, hread]
      have hdenied : ¬Granted refused w.calls 1 := by
        rw [granted_one, hrefused]
        simp
      by_cases hzero : data.length = 0
      · rw [hzero, hnone hzero]
        refine reads_of_stop ?_ (fun h => absurd h hdenied) (fun ps h => ?_) (fun _ _ h => h)
        · rw [hbad]
          exact fun h => h.2 hzero
        · rw [place, Option.elim_none, zero_add]
          exact h
      · rw [store_null hzero]
        exact reads_of_fault (hbad.mpr ⟨hrefused, hzero⟩) (fun h => absurd h hdenied)
    · have hrefused : refused w.calls = false := Bool.eq_false_iff.mpr hrefused
      have halloc : alloc refused len.toNat { w with file := file }
          = (some w.mem.next, ⟨file, w.mem.alloc len.toNat, w.calls + 1⟩) :=
        if_neg (by simp [hrefused])
      have hblock : (w.mem.alloc len.toNat).read w.mem.next = some len.toNat := by
        rw [Heap.read_alloc, Function.update_self]
      rw [halloc]
      dsimp only
      rw [freadInto_eq hread, hread, store_of_le hblock (by omega)]
      have hgood : ¬BadBytes refused w.file w.calls := by
        rw [hbad, hrefused]
        simp
      rcases hk with rfl | rfl
      · exact reads_of_stop hgood (fun _ => rfl) (owns_alloc _) (read_alloc_of_some _)
      · exact reads_of_end hgood (granted_one.mpr hrefused) rfl rfl (owns_alloc _)
          (read_alloc_of_some _)

/-! ### Objects -/

/-- Either goes wrong with the name, or with the bytes after it. -/
def BadObject (refused : ℕ → Bool) (f : List Byte) (calls : ℕ) : Prop :=
  BadString refused f calls
    ∨ Granted refused calls 1 ∧ ∃ file, after readString f = some file ∧ BadBytes refused file (calls + 1)

theorem after_readObject (f : List Byte) :
    after readObject f = (after readString f).bind (after readBytes) := by
  unfold after readObject
  cases readString f with
  | none => rfl
  | some r =>
    obtain ⟨name, f⟩ := r
    show _ = (readBytes f).map Prod.snd
    unfold readBytes
    dsimp only
    cases readUint32 f with
    | none => rfl
    | some r =>
      obtain ⟨n, f⟩ := r
      obtain ⟨k, data, rest, hread, hk, -⟩ := fread_one n.toNat f
      dsimp only
      rw [hread]
      rcases hk with rfl | rfl
      · rfl
      · rfl

variable (refused) in
theorem readObjectAt_spec (w : World) :
    Reads refused w (readObjectAt refused w) (after readObject w.file) 2
      (BadObject refused w.file w.calls) ObjectCell.blocks := by
  have heq : readObjectAt refused w
      = (followedBy (readStringAt refused w) (readBytesAt refused) (0, none)).map
        fun r => (r.1, (⟨r.2.1.1, r.2.1.2.1, r.2.1.2.2⟩ : ObjectCell), r.2.2) := by
    unfold readObjectAt KTest.followedBy
    rcases readStringAt refused w with _ | ⟨_ | _, name, w⟩
    · rfl
    · rfl
    · show (readBytesAt refused w).bind _ = ((readBytesAt refused w).bind _).map _
      cases readBytesAt refused w with
      | none => rfl
      | some r => rfl
  rw [heq, after_readObject]
  have hboth := (readStringAt_spec refused w).followedBy (0, none) (after readBytes) (BadBytes refused)
    (fun b : BitVec 32 × Option ℕ => place b.2) rfl (fun _ w' _ => readBytesAt_spec w')
  exact hboth.map (fun r => (⟨r.1, r.2.1, r.2.2⟩ : ObjectCell)) (fun _ => rfl)

/-! ### Arrays -/

/-- One of the records goes wrong, after all before it were read. -/
def BadArray {β : Type} (refused : ℕ → Bool) (read : List Byte → Option (β × List Byte)) (c : ℕ)
    (bad : List Byte → ℕ → Prop) (n : ℕ) (f : List Byte) (calls : ℕ) : Prop :=
  ∃ k < n, Granted refused calls (k * c)
    ∧ ∃ file, after (repeatedly read k) f = some file ∧ bad file (calls + k * c)

theorem after_repeatedly (read : List Byte → Option (β × List Byte)) (n : ℕ) (f : List Byte) :
    after (repeatedly read (n + 1)) f = (after read f).bind (after (repeatedly read n)) := by
  unfold after
  rw [repeatedly]
  cases read f with
  | none => rfl
  | some r =>
    obtain ⟨x, f⟩ := r
    show ((repeatedly read n f).map _).map Prod.snd = (repeatedly read n f).map Prod.snd
    rw [Option.map_map]
    rfl

theorem badArray_succ {read : List Byte → Option (β × List Byte)} {bad : List Byte → ℕ → Prop}
    {f : List Byte} :
    BadArray refused read c bad (n + 1) f calls
      ↔ bad f calls ∨ Granted refused calls c
        ∧ ∃ file, after read f = some file ∧ BadArray refused read c bad n file (calls + c) := by
  constructor
  · rintro ⟨k, hk, hgranted, file, hfile, hbad⟩
    cases k with
    | zero =>
      obtain rfl : f = file := Option.some.inj hfile
      rw [Nat.zero_mul] at hbad
      exact .inl hbad
    | succ k =>
      have hsum : (k + 1) * c = c + k * c := by rw [Nat.succ_mul, Nat.add_comm]
      rw [hsum] at hgranted hbad
      rw [after_repeatedly] at hfile
      obtain ⟨file₁, hfile₁, hrest⟩ := Option.bind_eq_some_iff.mp hfile
      obtain ⟨hfirst, hothers⟩ := granted_add.mp hgranted
      rw [← Nat.add_assoc] at hbad
      exact .inr ⟨hfirst, file₁, hfile₁, k, by omega, hothers, file, hrest, hbad⟩
  · rintro (hbad | ⟨hfirst, file₁, hfile₁, k, hk, hothers, file, hrest, hbad⟩)
    · refine ⟨0, Nat.zero_lt_succ n, ?_, f, rfl, ?_⟩
      · intro i hi
        omega
      · rw [Nat.zero_mul]
        exact hbad
    · have hsum : (k + 1) * c = c + k * c := by rw [Nat.succ_mul, Nat.add_comm]
      refine ⟨k + 1, by omega, ?_, file, ?_, ?_⟩
      · rw [hsum]
        exact granted_add.mpr ⟨hfirst, hothers⟩
      · rw [after_repeatedly, hfile₁]
        exact hrest
      · rw [hsum, ← Nat.add_assoc]
        exact hbad

section Array

variable {β : Type} {readAt : World → Option (Bool × α × World)}
  {read : List Byte → Option (β × List Byte)} {badAt : List Byte → ℕ → Prop}

theorem readArray_spec
    (hread : ∀ w, Reads refused w (readAt w) (after read w.file) c (badAt w.file w.calls) blocks)
    {zero : α} (hzero : blocks zero = 0) {size array total : ℕ} (n i : ℕ) (w : World)
    (harray : w.mem.read array = some total) (hle : (i + n) * size ≤ total) :
    Reads refused w (readArray readAt zero size (some array) i n w)
      (after (repeatedly read n) w.file) (n * c) (BadArray refused read c badAt n w.file w.calls)
      (fun xs => (xs.map blocks).sum) := by
  induction n generalizing i w with
  | zero =>
    refine reads_of_end ?_ ?_ rfl ?_ (fun ps h => ?_) (fun _ _ h => h)
    · rintro ⟨k, hk, -⟩
      omega
    · intro j hj
      omega
    · rw [Nat.zero_mul, Nat.add_zero]
    · rw [List.map_nil, List.sum_nil, zero_add]
      exact h
  | succ n ih =>
    have hfits : i * size + size ≤ total := by
      calc i * size + size = (i + 1) * size := (Nat.succ_mul i size).symm
        _ ≤ (i + (n + 1)) * size := Nat.mul_le_mul_right size (by omega)
        _ ≤ total := hle
    -- the array is still there when an element is stored
    have hstore : ∀ {ok x w'}, readAt w = some (ok, x, w') →
        store (some array) (i * size) size w' = some () := by
      intro ok x w' hr
      exact store_of_le ((hread w).keeps hr harray) hfits
    have heq : readArray readAt zero size (some array) i (n + 1) w
        = (followedBy (readAt w) (readArray readAt zero size (some array) (i + 1) n)
            (List.replicate n zero)).map fun r => (r.1, r.2.1.1 :: r.2.1.2, r.2.2) := by
      unfold readArray KTest.followedBy
      rcases hr : readAt w with _ | ⟨_ | _, x, w'⟩
      · rfl
      · show (store (some array) (i * size) size w').bind _ = _
        rw [hstore hr]
        rfl
      · show (store (some array) (i * size) size w').bind _ = _
        rw [hstore hr]
        show (readArray readAt zero size (some array) (i + 1) n w').bind _
          = ((readArray readAt zero size (some array) (i + 1) n w').bind _).map _
        cases readArray readAt zero size (some array) (i + 1) n w' with
        | none => rfl
        | some r => rfl
    have hreplicate : ((List.replicate n zero).map blocks).sum = 0 := by
      rw [List.map_replicate, hzero, List.sum_replicate, nsmul_zero]
    have hboth := (hread w).followedBy (List.replicate n zero) (after (repeatedly read n))
      (BadArray refused read c badAt n) (fun xs : List α => (xs.map blocks).sum) hreplicate
      (fun x w' hr => ih (i + 1) w' ((hread w).keeps hr harray)
        (by rwa [Nat.add_right_comm, Nat.add_assoc]))
    rw [heq, after_repeatedly, badArray_succ, Nat.succ_mul, Nat.add_comm (n * c)]
    exact hboth.map (fun r => r.1 :: r.2) (fun _ => (List.sum_cons).symm)

/-- The block is granted, and one of the records goes wrong. -/
def BadBlock (refused : ℕ → Bool) (read : List Byte → Option (β × List Byte)) (c : ℕ)
    (bad : List Byte → ℕ → Prop) (f : List Byte) (calls : ℕ) : Prop :=
  refused calls = false ∧ ∃ n file, readUint32 f = some (n, file)
    ∧ BadArray refused read c bad n.toNat file (calls + 1)

/-- The calls of the allocator for an array whose records need `c` each. -/
def blockCalls (c : ℕ) (f : List Byte) : ℕ :=
  match readUint32 f with
  | none => 0
  | some (n, _) => 1 + n.toNat * c

theorem readBlockAt_spec
    (hread : ∀ w, Reads refused w (readAt w) (after read w.file) c (badAt w.file w.calls) blocks)
    {zero : α} (hzero : blocks zero = 0) (size : ℕ) (w : World) :
    Reads refused w (readBlockAt refused readAt zero size w) (after (readBlock true read) w.file)
      (blockCalls c w.file) (BadBlock refused read c badAt w.file w.calls) (blocksOf blocks) := by
  unfold readBlockAt after readBlock blockCalls BadBlock
  cases hn : readUint32 w.file with
  | none =>
    refine reads_of_stop ?_ (fun _ => rfl) (fun ps h => ?_) (fun _ _ h => h)
    · rintro ⟨-, n, file, heq, -⟩
      exact absurd heq (by simp)
    · show Owns w.mem (0 + ps)
      rw [zero_add]
      exact h
  | some r =>
    obtain ⟨n, file⟩ := r
    dsimp only
    have hcallocs : callocs true n = true := Bool.or_true _
    rw [hcallocs, if_pos rfl]
    by_cases hrefused : refused w.calls = true
    · have halloc : alloc refused (n.toNat * size) { w with file := file }
          = (none, { w with file := file, calls := w.calls + 1 }) := if_pos hrefused
      rw [halloc, if_pos rfl]
      refine reads_of_stop ?_ (fun h => ?_) (fun ps h => ?_) (fun _ _ h => h)
      · rw [hrefused]
        exact fun h => absurd h.1 (by simp)
      · have hfirst := granted_one.mp (granted_add.mp h).1
        rw [hrefused] at hfirst
        exact absurd hfirst (by simp)
      · show Owns w.mem (0 + ps)
        rw [zero_add]
        exact h
    · have hrefused : refused w.calls = false := Bool.eq_false_iff.mpr hrefused
      have halloc : alloc refused (n.toNat * size) { w with file := file }
          = (some w.mem.next, ⟨file, w.mem.alloc (n.toNat * size), w.calls + 1⟩) :=
        if_neg (by simp [hrefused])
      have hblock : (w.mem.alloc (n.toNat * size)).read w.mem.next = some (n.toNat * size) := by
        rw [Heap.read_alloc, Function.update_self]
      rw [halloc, if_neg (by simp)]
      -- the array is there, and nothing can go wrong with it
      have hfirst : Reads refused w
          (some (true, (), ⟨file, w.mem.alloc (n.toNat * size), w.calls + 1⟩)) (some file) 1 False
          (fun _ : Unit => place (some w.mem.next)) :=
        reads_of_end not_false (granted_one.mpr hrefused) rfl rfl (owns_alloc _)
          (read_alloc_of_some _)
      have hboth := hfirst.followedBy [] (after (repeatedly read n.toNat))
        (BadArray refused read c badAt n.toNat) (fun xs : List α => (xs.map blocks).sum) rfl
        (fun x w' hr => by
          obtain ⟨rfl⟩ := (Prod.mk.inj (Prod.mk.inj (Option.some.inj hr)).2).2
          exact readArray_spec hread hzero n.toNat 0 _ hblock (by rw [Nat.zero_add]))
      have hblocks : ∀ r : Unit × List α, blocksOf blocks ⟨n, some w.mem.next, r.2⟩
          = place (some w.mem.next) + (r.2.map blocks).sum :=
        fun r => (Multiset.singleton_add _ _).symm
      refine (hboth.map _ hblocks).congr ?_ ?_ ?_
      · show ((readArray readAt zero size (some w.mem.next) 0 n.toNat _).bind _).map _
          = (readArray readAt zero size (some w.mem.next) 0 n.toNat _).bind _
        cases readArray readAt zero size (some w.mem.next) 0 n.toNat
            ⟨file, w.mem.alloc (n.toNat * size), w.calls + 1⟩ with
        | none => rfl
        | some r => rfl
      · show (repeatedly read n.toNat file).map Prod.snd
          = ((repeatedly read n.toNat file).map _).map Prod.snd
        rw [Option.map_map]
        rfl
      · rw [granted_one]
        constructor
        · rintro (h | ⟨hgranted, file', hfile, hbad⟩)
          · exact h.elim
          · obtain rfl := Option.some.inj hfile
            exact ⟨hgranted, n, file, rfl, hbad⟩
        · rintro ⟨hgranted, n', file', heq, hbad⟩
          obtain ⟨rfl, rfl⟩ := Prod.mk.inj (Option.some.inj heq)
          exact .inr ⟨hgranted, file, rfl, hbad⟩

end Array

/-! ### Test cases -/

/-- After the arguments, one of the objects goes wrong. -/
def BadObjects (refused : ℕ → Bool) (version : BitVec 32) (f : List Byte) (calls : ℕ) : Prop :=
  ∃ file, after (readSymArgs version) f = some file
    ∧ BadBlock refused readObject 2 (BadObject refused) file calls

theorem readObjectsAt_spec (version : BitVec 32) (w : World) :
    Reads refused w (readObjectsAt refused version w)
      ((after (readSymArgs version) w.file).bind (after (readBlock true readObject)))
      ((after (readSymArgs version) w.file).elim 0 (blockCalls 2))
      (BadObjects refused version w.file w.calls) (blocksOf ObjectCell.blocks) := by
  unfold readObjectsAt BadObjects after
  cases readSymArgs version w.file with
  | none =>
    refine reads_of_stop ?_ (fun _ => rfl) (fun ps h => ?_) (fun _ _ h => h)
    · rintro ⟨file, heq, -⟩
      exact absurd heq (by simp)
    · show Owns w.mem (0 + ps)
      rw [zero_add]
      exact h
  | some r =>
    obtain ⟨sym, file⟩ := r
    have hblock := readBlockAt_spec (readObjectAt_spec refused)
      (show ObjectCell.blocks .zero = 0 from rfl) 24 { w with file := file }
    refine hblock.of_file.congr rfl rfl ?_
    constructor
    · intro hbad
      exact ⟨file, rfl, hbad⟩
    · rintro ⟨file', hfile, hbad⟩
      obtain rfl := Option.some.inj hfile
      exact hbad

/-- The version is known, and one of the arguments or one of the objects goes wrong. -/
def BadTest (refused : ℕ → Bool) (f : List Byte) (calls : ℕ) : Prop :=
  ∃ version file, readUint32 f = some (version, file) ∧ ¬version > currentVersion
    ∧ (BadBlock refused readString 1 (BadString refused) file calls
      ∨ Granted refused calls (blockCalls 1 file) ∧ ∃ file', after (readBlock true readString) file = some file'
        ∧ BadObjects refused version file' (calls + blockCalls 1 file))

variable (refused) in
theorem readTest_spec (res : ℕ) (w : World) :
    ∃ next c, Reads refused w (readTest refused res w) next c (BadTest refused w.file w.calls)
      (fun t => blocksOf place t.args + blocksOf ObjectCell.blocks t.objects) := by
  have hnothing : ∀ ps, Owns w.mem ps → Owns w.mem
      (blocksOf place (.zero _) + blocksOf ObjectCell.blocks (.zero _) + ps) := by
    intro ps h
    show Owns w.mem (0 + 0 + ps)
    rw [zero_add, zero_add]
    exact h
  unfold readTest BadTest
  cases hversion : readUint32 w.file with
  | none =>
    refine ⟨none, 0, reads_of_stop ?_ (fun _ => rfl) hnothing (fun _ _ h => h)⟩
    rintro ⟨version, file, heq, -⟩
    exact absurd heq (by simp)
  | some r =>
    obtain ⟨version, file⟩ := r
    dsimp only
    by_cases hnew : version > currentVersion
    · rw [if_pos hnew]
      refine ⟨none, 0, reads_of_stop ?_ (fun _ => rfl) hnothing (fun _ _ h => h)⟩
      rintro ⟨version', file', heq, hold, -⟩
      obtain ⟨rfl, rfl⟩ := Prod.mk.inj (Option.some.inj heq)
      exact hold hnew
    · rw [if_neg hnew]
      have hargs := (readBlockAt_spec (readStringAt_spec refused)
        (show place none = 0 from rfl) 8 { w with file := file }).of_file
      let calls := (after (readBlock true readString) file).elim 0 fun file =>
        (after (readSymArgs version) file).elim 0 (blockCalls 2)
      have hrest : ∀ x w', readBlockAt refused (readStringAt refused) none 8 { w with file := file }
            = some (true, x, w') →
          Reads refused w' (readObjectsAt refused version w')
            ((after (readSymArgs version) w'.file).bind (after (readBlock true readObject))) calls
            (BadObjects refused version w'.file w'.calls) (blocksOf ObjectCell.blocks) := by
        intro x w' hr
        have hcalls : (after (readSymArgs version) w'.file).elim 0 (blockCalls 2) = calls := by
          show _ = (after (readBlock true readString) file).elim 0 _
          rw [(hargs.ends hr).2.1, Option.elim_some]
        rw [← hcalls]
        exact readObjectsAt_spec version w'
      have hboth := hargs.followedBy (.zero ObjectCell)
        (fun file => (after (readSymArgs version) file).bind (after (readBlock true readObject)))
        (BadObjects refused version) (blocksOf ObjectCell.blocks) rfl hrest
      refine ⟨_, _, (hboth.map (fun r => (⟨res, r.1, r.2⟩ : TestCell)) (fun _ => rfl)).congr ?_ rfl ?_⟩
      · unfold KTest.followedBy
        rcases readBlockAt refused (readStringAt refused) none 8 { w with file := file } with
          _ | ⟨_ | _, args, w₁⟩
        · rfl
        · rfl
        · show ((readObjectsAt refused version w₁).bind _).map _
            = (readObjectsAt refused version w₁).bind _
          cases readObjectsAt refused version w₁ with
          | none => rfl
          | some r => rfl
      · constructor
        · intro hbad
          exact ⟨version, file, rfl, hnew, hbad⟩
        · rintro ⟨version', file', heq, -, hbad⟩
          obtain ⟨rfl, rfl⟩ := Prod.mk.inj (Option.some.inj heq)
          exact hbad

theorem readTest_res {res : ℕ} {ok : Bool} {t : TestCell}
    (h : readTest refused res w = some (ok, t, w')) : t.res = res := by
  unfold readTest at h
  split at h
  next =>
    obtain ⟨-, rfl, -⟩ : _ ∧ _ ∧ _ := by simpa only [Option.some.injEq, Prod.mk.injEq] using h
    rfl
  next =>
    split at h
    next =>
      obtain ⟨-, rfl, -⟩ : _ ∧ _ ∧ _ := by simpa only [Option.some.injEq, Prod.mk.injEq] using h
      rfl
    next =>
      obtain ⟨⟨_ | _, args, w₁⟩, -, h⟩ := Option.bind_eq_some_iff.mp h
      · obtain ⟨-, rfl, -⟩ : _ ∧ _ ∧ _ := by
          simpa only [Bool.false_eq_true, if_false, Option.some.injEq, Prod.mk.injEq] using h
        rfl
      · obtain ⟨⟨ok, objects, w₂⟩, -, h⟩ := Option.bind_eq_some_iff.mp h
        obtain ⟨-, rfl, -⟩ : _ ∧ _ ∧ _ := by
          simpa only [Option.some.injEq, Prod.mk.injEq] using h
        rfl

/-- The file is a test case file, the record has a block, and one of the arguments or one of the
objects goes wrong. -/
def BadFile (refused : ℕ → Bool) (file : List Byte) : Prop :=
  refused 0 = false ∧ ∃ rest, checkHeader file = some rest ∧ BadTest refused rest 1

end Spec

/-- `kTest_fromFile` returns, without a byte outside a block and without a block released that
is not there, exactly when no string or object goes wrong. What it returns is null, and then all
blocks are released, or a test case with the blocks it points to. -/
theorem fromFileAt_iff (refused : ℕ → Bool) (file : List Byte) :
    (∃ r w, fromFileAt refused file = some (r, w) ∧ Owns w.mem (r.elim 0 TestCell.blocks))
      ↔ ¬BadFile refused file := by
  unfold fromFileAt BadFile
  cases hheader : checkHeader file with
  | none =>
    refine iff_of_true ⟨none, _, rfl, owns_empty⟩ ?_
    rintro ⟨-, rest, heq, -⟩
    exact absurd heq (by simp)
  | some rest =>
    dsimp only
    by_cases hrefused : refused 0 = true
    · have halloc : alloc refused 40 ⟨rest, Heap.empty, 0⟩ = (none, ⟨rest, Heap.empty, 1⟩) :=
        if_pos hrefused
      rw [halloc]
      refine iff_of_true ⟨none, _, rfl, owns_empty⟩ ?_
      rw [hrefused]
      exact fun h => absurd h.1 (by simp)
    · have hrefused : refused 0 = false := Bool.eq_false_iff.mpr hrefused
      have halloc : alloc refused 40 ⟨rest, Heap.empty, 0⟩
          = (some 0, ⟨rest, Heap.empty.alloc 40, 1⟩) := if_neg (by simp [hrefused])
      rw [halloc]
      dsimp only
      obtain ⟨next, c, htest⟩ :=
        readTest_spec refused 0 ⟨rest, Heap.empty.alloc 40, 1⟩
      have howns : Owns (Heap.empty.alloc 40) {0} := owns_empty.alloc 40
      have hbad : (refused 0 = false ∧ ∃ rest', some rest = some rest' ∧ BadTest refused rest' 1)
          ↔ readTest refused 0 ⟨rest, Heap.empty.alloc 40, 1⟩ = none := by
        rw [htest.fault, and_iff_right hrefused]
        simp
      rw [hbad]
      rcases hresult : readTest refused 0 ⟨rest, Heap.empty.alloc 40, 1⟩ with _ | ⟨ok, t, w⟩
      · refine iff_of_false ?_ (not_not.mpr rfl)
        rintro ⟨r, w, heq, -⟩
        exact absurd heq (by simp)
      · refine iff_of_true ?_ (by simp)
        have hblocks : Owns w.mem t.blocks := by
          have hall := htest.owns hresult howns
          rw [add_comm, ← readTest_res hresult] at hall
          exact hall
        cases ok with
        | true => exact ⟨some t, w, rfl, hblocks⟩
        | false =>
          obtain ⟨w', hw', howns'⟩ := t.free_owns hblocks
          refine ⟨none, w', ?_, howns'⟩
          show (t.free w).bind _ = _
          rw [hw']
          rfl

/-- One argument of 2^32 - 1 bytes, of which the file has one. -/
def longArgument : List Byte :=
  magic ++ (uint32Bytes 3 ++ (uint32Bytes 1 ++ (uint32Bytes (BitVec.allOnes 32) ++ [0x61])))

/-- `malloc(len + 1)` is `malloc(0)` there, and the byte is stored outside the block. -/
theorem fromFileAt_longArgument :
    ¬∀ (refused : ℕ → Bool) (file : List Byte), ∃ r w, fromFileAt refused file = some (r, w) := by
  intro hall
  obtain ⟨r, w, heq⟩ := hall (fun _ => false) longArgument
  have hnone : (fromFileAt (fun _ => false) longArgument).isNone = true := by decide +kernel
  rw [heq] at hnone
  exact absurd hnone (by simp)

end KTest

end Xklee
