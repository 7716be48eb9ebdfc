/-
Test case files: `lib/Basic/KTest.cpp`.

A `.ktest` file is a header, the version, and two sequences of length-prefixed
records, the arguments and the objects. Writer and reader test the item counts of
`fwrite` and `fread`, and an item of size zero is never counted: an empty string or an
object without bytes cannot be written.

`callocZero` says whether `calloc(0, size)` returns a pointer other than null, which is
left to the C library. Memory does not run out, and files open.
-/
import Mathlib.Algebra.Order.Ring.Int
import Xklee.Data.Stdio
import Mathlib.Data.List.TakeWhile

set_option autoImplicit false

namespace Xklee

open Stdio

/-! ## Data -/

/-- A `char*` up to its terminating NUL. -/
structure CString where
  chars : List Byte
  noNul : 0#8 ∉ chars
deriving DecidableEq

/-- The string that starts at a block of bytes. -/
def CString.ofBytes (bytes : List Byte) : CString where
  chars := bytes.takeWhile (· != 0#8)
  noNul h := by simpa using List.mem_takeWhile_imp h

structure KTestObject where
  name : CString
  numBytes : BitVec 32
  bytes : List Byte
deriving DecidableEq

structure KTest where
  version : BitVec 32
  numArgs : BitVec 32
  args : List CString
  symArgvs : BitVec 32
  symArgvLen : BitVec 32
  numObjects : BitVec 32
  objects : List KTestObject
deriving DecidableEq

/-- The counts are those of what the pointers point to. -/
structure KTest.WellFormed (bo : KTest) : Prop where
  args : bo.args.length = bo.numArgs.toNat
  objects : bo.objects.length = bo.numObjects.toNat
  bytes : ∀ o ∈ bo.objects, o.bytes.length = o.numBytes.toNat

/-! ## Words and strings -/

def readUint32 (f : List Byte) : Option (BitVec 32 × List Byte) :=
  match fread 4 1 f with
  | (1, [d₀, d₁, d₂, d₃], f) =>
      some ((((((d₀.setWidth 32 <<< 8) + d₁.setWidth 32) <<< 8) + d₂.setWidth 32) <<< 8)
        + d₃.setWidth 32, f)
  | _ => none

/-- The four bytes of a word, most significant first. -/
def uint32Bytes (value : BitVec 32) : List Byte :=
  [(value >>> 24).setWidth 8, (value >>> 16).setWidth 8, (value >>> 8).setWidth 8,
    value.setWidth 8]

def writeUint32 (value : BitVec 32) (f : List Byte) : Option (List Byte) :=
  let (n, f) := fwrite (uint32Bytes value) 1 4 f
  if n = 4 then some f else none

/-- `read_string`. The block has `len + 1` bytes in `unsigned` arithmetic; a read past
its end has no result. -/
def readString (f : List Byte) : Option (CString × List Byte) :=
  match readUint32 f with
  | none => none
  | some (len, f) =>
      if (len + 1).toNat ≤ len.toNat then none
      else
        match fread len.toNat 1 f with
        | (1, value, f) => some (.ofBytes value, f)
        | _ => none

def writeString (value : CString) (f : List Byte) : Option (List Byte) :=
  let len := BitVec.ofNat 32 value.chars.length
  match writeUint32 len f with
  | none => none
  | some f =>
      let (n, f) := fwrite value.chars len.toNat 1 f
      if n = 1 then some f else none

/-! ## Files -/

namespace KTest

def currentVersion : BitVec 32 := 3

/-- `KTEST_MAGIC` -/
def magic : List Byte := [0x4B, 0x54, 0x45, 0x53, 0x54]

/-- `BOUT_MAGIC`, "for compatibility reasons". -/
def boutMagic : List Byte := [0x42, 0x4F, 0x55, 0x54, 0x0A]

/-- `kTest_checkHeader`, with the rest of the file. -/
def checkHeader (f : List Byte) : Option (List Byte) :=
  match fread 5 1 f with
  | (1, header, f) => if header ≠ magic ∧ header ≠ boutMagic then none else some f
  | _ => none

/-- One turn of the loop over the objects in `kTest_fromFile`. -/
def readObject (f : List Byte) : Option (KTestObject × List Byte) :=
  match readString f with
  | none => none
  | some (name, f) =>
      match readUint32 f with
      | none => none
      | some (numBytes, f) =>
          match fread numBytes.toNat 1 f with
          | (1, bytes, f) => some (⟨name, numBytes, bytes⟩, f)
          | _ => none

/-- One turn of the loop over the objects in `kTest_toFile`. -/
def writeObject (o : KTestObject) (f : List Byte) : Option (List Byte) :=
  match writeString o.name f with
  | none => none
  | some f =>
      match writeUint32 o.numBytes f with
      | none => none
      | some f =>
          let (n, f) := fwrite o.bytes o.numBytes.toNat 1 f
          if n = 1 then some f else none

/-- `calloc(n, size)` does not return null. -/
def callocs (callocZero : Bool) (n : BitVec 32) : Bool := n != 0 || callocZero

/-- The two counts of symbolic arguments, which version 1 does not have. -/
def readSymArgs (version : BitVec 32) (f : List Byte) :
    Option ((BitVec 32 × BitVec 32) × List Byte) :=
  if version ≥ 2 then
    match readUint32 f with
    | none => none
    | some (symArgvs, f) =>
        (readUint32 f).map fun (symArgvLen, f) => ((symArgvs, symArgvLen), f)
  else some ((0, 0), f)

/-- A count and as many records, in a block from `calloc`. -/
def readBlock {α : Type} (callocZero : Bool) (read : List Byte → Option (α × List Byte))
    (f : List Byte) : Option ((BitVec 32 × List α) × List Byte) :=
  match readUint32 f with
  | none => none
  | some (n, f) =>
      if callocs callocZero n then
        (repeatedly read n.toNat f).map fun (xs, f) => ((n, xs), f)
      else none

/-- `kTest_fromFile`, with `none` for null. -/
def fromFile (callocZero : Bool) (f : List Byte) : Option KTest := do
  let f ← checkHeader f
  let (version, f) ← readUint32 f
  if version > currentVersion then none
  else do
    let ((numArgs, args), f) ← readBlock callocZero readString f
    let ((symArgvs, symArgvLen), f) ← readSymArgs version f
    let ((numObjects, objects), _) ← readBlock callocZero readObject f
    some { version, numArgs, args, symArgvs, symArgvLen, numObjects, objects }

/-- `kTest_toFile`: the file, when it returns 1. -/
def toFile (bo : KTest) : Option (List Byte) :=
  let (n, f) := fwrite magic magic.length 1 []
  if n ≠ 1 then none
  else do
    let f ← writeUint32 currentVersion f
    let f ← writeUint32 bo.numArgs f
    let f ← writeAll writeString (bo.args.take bo.numArgs.toNat) f
    let f ← writeUint32 bo.symArgvs f
    let f ← writeUint32 bo.symArgvLen f
    let f ← writeUint32 bo.numObjects f
    writeAll writeObject (bo.objects.take bo.numObjects.toNat) f

end KTest

/-! ## Words -/

/-- The four bytes put together again. -/
theorem uint32_of_bytes (value : BitVec 32) :
    (((((((value >>> 24).setWidth 8).setWidth 32 <<< 8)
        + ((value >>> 16).setWidth 8).setWidth 32) <<< 8)
        + ((value >>> 8).setWidth 8).setWidth 32) <<< 8) + (value.setWidth 8).setWidth 32
      = value := by
  apply BitVec.eq_of_toNat_eq
  have hlt := value.isLt
  simp only [BitVec.toNat_add, BitVec.toNat_shiftLeft, BitVec.toNat_setWidth,
    BitVec.toNat_ushiftRight, Nat.shiftLeft_eq, Nat.shiftRight_eq_div_pow]
  omega

theorem readUint32_append (value : BitVec 32) (rest : List Byte) :
    readUint32 (uint32Bytes value ++ rest) = some (value, rest) := by
  have hread : fread 4 1 (uint32Bytes value ++ rest) = (1, uint32Bytes value, rest) :=
    fread_append (n := 4) (by decide) rfl rest
  rw [readUint32, hread]
  exact congrArg (fun v => some (v, rest)) (uint32_of_bytes value)

theorem writeUint32_eq (value : BitVec 32) (f : List Byte) :
    writeUint32 value f = some (f ++ uint32Bytes value) := rfl

/-! ## Strings -/

namespace CString

variable (s : CString)

/-- `(unsigned) strlen(s)` -/
def len : BitVec 32 := BitVec.ofNat 32 s.chars.length

/-- What `write_string` writes of the string. -/
def bytes : List Byte := uint32Bytes s.len ++ s.chars.take s.len.toNat

/-- The string cut to its length as an `unsigned`. -/
def truncate : CString where
  chars := s.chars.take s.len.toNat
  noNul h := s.noNul (List.mem_of_mem_take h)

/-- A string that `read_string` has a block for. -/
def Readable : Prop := s.len ≠ BitVec.allOnes 32

instance : Decidable s.Readable := inferInstanceAs (Decidable (_ ≠ _))

/-- What `read_string` makes of the bytes of the string. -/
def reread : Option CString := if s.Readable then some s.truncate else none

/-- The strings that come back as they were: not empty, and shorter than the largest
`unsigned`. -/
def Storable : Prop := 0 < s.chars.length ∧ s.chars.length < 2 ^ 32 - 1

instance : Decidable s.Storable := inferInstanceAs (Decidable (_ ∧ _))

theorem len_toNat_le : s.len.toNat ≤ s.chars.length := by
  rw [len, BitVec.toNat_ofNat]
  exact Nat.mod_le _ _

theorem length_truncate : s.truncate.chars.length = s.len.toNat := by
  change (s.chars.take s.len.toNat).length = s.len.toNat
  rw [List.length_take, Nat.min_eq_left s.len_toNat_le]

/-- A string without NULs is the string in its own bytes. -/
theorem ofBytes_chars : CString.ofBytes s.chars = s := by
  obtain ⟨chars, noNul⟩ := s
  have hall : chars.takeWhile (· != 0#8) = chars := by
    rw [List.takeWhile_eq_self_iff]
    intro x hx
    simp only [bne_iff_ne, ne_eq]
    rintro rfl
    exact noNul hx
  exact CString.mk.injEq _ _ _ _ ▸ hall

/-- Cutting changes nothing when the length is an `unsigned`. -/
theorem truncate_eq_self_iff : s.truncate = s ↔ s.chars.length < 2 ^ 32 := by
  constructor
  · intro h
    have hlen := s.length_truncate
    rw [h] at hlen
    rw [hlen]
    exact s.len.isLt
  · intro h
    obtain ⟨chars, noNul⟩ := s
    have htake : chars.take (BitVec.ofNat 32 chars.length).toNat = chars := by
      rw [BitVec.toNat_ofNat, Nat.mod_eq_of_lt h, List.take_length]
    exact CString.mk.injEq _ _ _ _ ▸ htake

/-- A string is written and read back exactly when it is storable. -/
theorem storable_iff : s.Storable ↔ s.len ≠ 0 ∧ s.reread = some s := by
  have hzero : s.len = 0 ↔ s.chars.length % 2 ^ 32 = 0 := by
    rw [← BitVec.toNat_inj, len, BitVec.toNat_ofNat]
    rfl
  have hones : s.Readable ↔ s.chars.length % 2 ^ 32 ≠ 2 ^ 32 - 1 := by
    rw [Readable, ne_eq, ← BitVec.toNat_inj, len, BitVec.toNat_ofNat, BitVec.toNat_allOnes]
  have hreread : s.reread = some s ↔ s.Readable ∧ s.chars.length < 2 ^ 32 := by
    rw [reread, Option.ite_none_right_eq_some, Option.some.injEq, truncate_eq_self_iff]
  rw [hreread, hones, ne_eq, hzero, Storable]
  omega

end CString

theorem writeString_eq (s : CString) (f : List Byte) :
    writeString s f = if s.len ≠ 0 then some (f ++ s.bytes) else none := by
  simp only [writeString, writeUint32_eq]
  change (if (fwrite s.chars s.len.toNat 1 (f ++ uint32Bytes s.len)).1 = 1 then
    some (fwrite s.chars s.len.toNat 1 (f ++ uint32Bytes s.len)).2 else none) = _
  by_cases h : s.len = 0
  · rw [h]
    rfl
  · have hne : s.len.toNat ≠ 0 := fun h0 => h (BitVec.eq_of_toNat_eq h0)
    rw [fwrite_all hne, if_pos h, Nat.mul_one, CString.bytes, List.append_assoc]
    rfl

theorem readString_bytes {s : CString} (h : s.len ≠ 0) (rest : List Byte) :
    readString (s.bytes ++ rest)
      = s.reread.map fun s => (s, rest) := by
  have hne : s.len.toNat ≠ 0 := fun h0 => h (BitVec.eq_of_toNat_eq h0)
  have hblock : (s.len + 1).toNat ≤ s.len.toNat ↔ ¬s.Readable := by
    rw [CString.Readable, not_not, ← BitVec.toNat_inj, BitVec.toNat_allOnes, BitVec.toNat_add]
    have hlt := s.len.isLt
    change (s.len.toNat + 1) % 2 ^ 32 ≤ s.len.toNat ↔ s.len.toNat = 2 ^ 32 - 1
    omega
  rw [readString, CString.bytes, List.append_assoc, readUint32_append, CString.reread]
  simp only [hblock]
  by_cases hr : s.Readable
  · have hread : fread s.len.toNat 1 (s.chars.take s.len.toNat ++ rest)
        = (1, s.chars.take s.len.toNat, rest) := fread_append hne s.length_truncate rest
    rw [if_neg (not_not.mpr hr), if_pos hr, hread]
    change some (CString.ofBytes s.truncate.chars, rest) = _
    rw [CString.ofBytes_chars]
    rfl
  · rw [if_pos hr, if_neg hr]
    rfl

/-! ## Objects -/

namespace KTestObject

variable (o : KTestObject)

/-- What the loop of `kTest_toFile` writes of the object. -/
def fileBytes : List Byte :=
  o.name.bytes ++ (uint32Bytes o.numBytes ++ o.bytes.take o.numBytes.toNat)

/-- An object that the loop writes. -/
def Written : Prop := o.name.len ≠ 0 ∧ o.numBytes ≠ 0

instance : Decidable o.Written := inferInstanceAs (Decidable (_ ∧ _))

/-- What the loop of `kTest_fromFile` makes of the bytes of the object. -/
def reread : Option KTestObject := o.name.reread.map fun name => { o with name := name }

end KTestObject

namespace KTest

theorem writeObject_eq (o : KTestObject) (f : List Byte) :
    writeObject o f = if o.Written then some (f ++ o.fileBytes) else none := by
  rw [writeObject, writeString_eq]
  by_cases hname : o.name.len = 0
  · rw [if_neg (not_not.mpr hname), if_neg (fun h : o.Written => h.1 hname)]
  · rw [if_pos hname]
    simp only [writeUint32_eq]
    by_cases hbytes : o.numBytes = 0
    · rw [if_neg (fun h : o.Written => h.2 hbytes), hbytes]
      rfl
    · have hne : o.numBytes.toNat ≠ 0 := fun h0 => hbytes (BitVec.eq_of_toNat_eq h0)
      have hwritten : o.Written := ⟨hname, hbytes⟩
      simp only [fwrite_all hne, if_true, if_pos hwritten, Nat.mul_one, KTestObject.fileBytes,
        List.append_assoc]

theorem readObject_fileBytes {o : KTestObject} (h : o.Written)
    (hlen : o.bytes.length = o.numBytes.toNat) (rest : List Byte) :
    readObject (o.fileBytes ++ rest) = o.reread.map fun o => (o, rest) := by
  have hne : o.numBytes.toNat ≠ 0 := fun h0 => h.2 (BitVec.eq_of_toNat_eq h0)
  have htake : o.bytes.take o.numBytes.toNat = o.bytes := by rw [← hlen, List.take_length]
  rw [readObject, KTestObject.fileBytes, List.append_assoc, readString_bytes h.1,
    KTestObject.reread, htake]
  cases o.name.reread with
  | none => rfl
  | some name =>
    simp only [Option.map_some, List.append_assoc, readUint32_append,
      fread_append hne hlen rest]

/-! ## Files -/

/-- The file that `kTest_toFile` writes. -/
def fileBytes (bo : KTest) : List Byte :=
  magic ++ (uint32Bytes currentVersion ++ (uint32Bytes bo.numArgs
    ++ (bo.args.flatMap CString.bytes ++ (uint32Bytes bo.symArgvs ++ (uint32Bytes bo.symArgvLen
      ++ (uint32Bytes bo.numObjects ++ bo.objects.flatMap KTestObject.fileBytes))))))

variable {bo : KTest} {α : Type} {callocZero : Bool} {n : BitVec 32} {xs : List α}

theorem toFile_eq (h : bo.WellFormed) :
    bo.toFile = if (∀ s ∈ bo.args, s.len ≠ 0) ∧ ∀ o ∈ bo.objects, o.Written
      then some bo.fileBytes else none := by
  have hargs : bo.args.take bo.numArgs.toNat = bo.args := by rw [← h.args, List.take_length]
  have hobjects : bo.objects.take bo.numObjects.toNat = bo.objects := by
    rw [← h.objects, List.take_length]
  have hmagic : bo.toFile = (do
      let f ← writeUint32 currentVersion magic
      let f ← writeUint32 bo.numArgs f
      let f ← writeAll writeString (bo.args.take bo.numArgs.toNat) f
      let f ← writeUint32 bo.symArgvs f
      let f ← writeUint32 bo.symArgvLen f
      let f ← writeUint32 bo.numObjects f
      writeAll writeObject (bo.objects.take bo.numObjects.toNat) f) := rfl
  simp only [hmagic, hargs, hobjects, writeUint32_eq, Option.bind_eq_bind,
    Option.bind_some, writeAll_eq writeString_eq, writeAll_eq writeObject_eq]
  by_cases ha : ∀ s ∈ bo.args, s.len ≠ 0
  · by_cases ho : ∀ o ∈ bo.objects, o.Written
    · rw [if_pos ha, Option.bind_some, if_pos ho, if_pos ⟨ha, ho⟩]
      simp only [fileBytes, List.append_assoc]
    · rw [if_pos ha, Option.bind_some, if_neg ho, if_neg (fun hboth => ho hboth.2)]
  · rw [if_neg ha, Option.bind_none, if_neg (fun hboth => ha hboth.1)]

theorem readBlock_append (callocZero : Bool) {read : List Byte → Option (α × List Byte)}
    {enc : α → List Byte} {g : α → Option α} (hn : xs.length = n.toNat)
    (h : ∀ x ∈ xs, ∀ rest, read (enc x ++ rest) = (g x).map fun y => (y, rest)) (rest : List Byte) :
    readBlock callocZero read (uint32Bytes n ++ (xs.flatMap enc ++ rest))
      = if callocs callocZero n then (xs.mapM g).map fun ys => ((n, ys), rest) else none := by
  rw [readBlock, readUint32_append]
  simp only
  rw [← hn, repeatedly_flatMap h, Option.map_map]
  rfl

theorem fromFile_fileBytes (callocZero : Bool) (h : bo.WellFormed)
    (hargs : ∀ s ∈ bo.args, s.len ≠ 0) (hobjects : ∀ o ∈ bo.objects, o.Written) :
    fromFile callocZero bo.fileBytes
      = if callocs callocZero bo.numArgs ∧ callocs callocZero bo.numObjects then
          (bo.args.mapM CString.reread).bind fun args =>
            (bo.objects.mapM KTestObject.reread).map fun objects =>
              { bo with version := currentVersion, args := args, objects := objects }
        else none := by
  have hheader : ∀ rest, checkHeader (magic ++ rest) = some rest := by
    intro rest
    have hread : fread 5 1 (magic ++ rest) = (1, magic, rest) :=
      fread_append (n := 5) (by decide) rfl rest
    rw [checkHeader, hread]
    exact if_neg (fun hne => hne.1 rfl)
  have hversion : ¬currentVersion > currentVersion := BitVec.lt_irrefl _
  have hblock₁ := fun rest => readBlock_append callocZero h.args
    (fun s hs rest => readString_bytes (hargs s hs) rest) rest
  have hblock₂ := readBlock_append callocZero h.objects
    (fun o ho rest => readObject_fileBytes (hobjects o ho) (h.bytes o ho) rest) []
  rw [List.append_nil] at hblock₂
  have hsym : ∀ rest, readSymArgs currentVersion (uint32Bytes bo.symArgvs
      ++ (uint32Bytes bo.symArgvLen ++ rest)) = some ((bo.symArgvs, bo.symArgvLen), rest) := by
    intro rest
    rw [readSymArgs, if_pos (by decide), readUint32_append]
    simp only [readUint32_append, Option.map_some]
  simp only [fromFile, fileBytes, hheader, readUint32_append, if_neg hversion, hblock₁,
    Option.bind_eq_bind, Option.bind_some]
  by_cases hca : callocs callocZero bo.numArgs
  · rw [if_pos hca]
    cases bo.args.mapM CString.reread with
    | none => simp
    | some args =>
      simp only [Option.map_some, Option.bind_some, hsym, hblock₂, hca, true_and]
      by_cases hco : callocs callocZero bo.numObjects
      · rw [if_pos hco, if_pos hco]
        cases bo.objects.mapM KTestObject.reread <;> rfl
      · rw [if_neg hco, if_neg hco]
        rfl
  · rw [if_neg hca, if_neg (fun hboth => hca hboth.1)]
    rfl

/-! ## Round trips -/

/-- `kTest_toFile` succeeds, and `kTest_fromFile` on the file gives the test case back,
in the current version. -/
def RoundTrips (callocZero : Bool) (bo : KTest) : Prop :=
  ∃ file, bo.toFile = some file
    ∧ fromFile callocZero file = some { bo with version := currentVersion }

/-- No string is empty or has the length of the largest `unsigned` or more, no object
is without bytes, and a list without elements has a block. -/
structure Storable (callocZero : Bool) (bo : KTest) : Prop where
  args : ∀ s ∈ bo.args, s.Storable
  names : ∀ o ∈ bo.objects, o.name.Storable
  bytes : ∀ o ∈ bo.objects, o.bytes ≠ []
  blocks : callocZero = true ∨ (bo.args ≠ [] ∧ bo.objects ≠ [])

theorem callocs_iff (hn : xs.length = n.toNat) :
    callocs callocZero n = true ↔ callocZero = true ∨ xs ≠ [] := by
  have hzero : n = 0 ↔ xs = [] := by
    rw [← List.length_eq_zero_iff, hn, ← BitVec.toNat_inj]
    rfl
  rw [callocs, Bool.or_eq_true, bne_iff_ne, ne_eq, hzero, or_comm]

/-- What the reader makes of an object is the object when its name comes back. -/
theorem reread_object_iff (o : KTestObject) :
    o.reread = some o ↔ o.name.reread = some o.name := by
  obtain ⟨name, numBytes, bytes⟩ := o
  rw [KTestObject.reread, Option.map_eq_some_iff]
  constructor
  · rintro ⟨name', hname', heq⟩
    obtain ⟨rfl, -, -⟩ := KTestObject.mk.inj heq
    exact hname'
  · intro h
    exact ⟨name, h, rfl⟩

/-- Storable test cases are those whose parts are all written and come back. -/
theorem storable_iff (h : bo.WellFormed) :
    bo.Storable callocZero ↔
      ((∀ s ∈ bo.args, s.len ≠ 0) ∧ ∀ o ∈ bo.objects, o.Written)
      ∧ (callocs callocZero bo.numArgs ∧ callocs callocZero bo.numObjects)
      ∧ (∀ s ∈ bo.args, s.reread = some s) ∧ ∀ o ∈ bo.objects, o.reread = some o := by
  have hbytes : ∀ o ∈ bo.objects, (o.bytes ≠ [] ↔ o.numBytes ≠ 0) := by
    intro o ho
    rw [ne_eq, ne_eq, ← List.length_eq_zero_iff, h.bytes o ho, ← BitVec.toNat_inj]
    rfl
  rw [callocs_iff h.args, callocs_iff h.objects]
  constructor
  · rintro ⟨hargs, hnames, hobjects, hblocks⟩
    refine ⟨⟨fun s hs => (s.storable_iff.mp (hargs s hs)).1, fun o ho =>
      ⟨(o.name.storable_iff.mp (hnames o ho)).1, (hbytes o ho).mp (hobjects o ho)⟩⟩,
      ⟨hblocks.imp_right And.left, hblocks.imp_right And.right⟩,
      fun s hs => (s.storable_iff.mp (hargs s hs)).2, fun o ho => ?_⟩
    exact (reread_object_iff o).mpr (o.name.storable_iff.mp (hnames o ho)).2
  · rintro ⟨⟨hargs, hwritten⟩, ⟨hca, hco⟩, hreread, hrereads⟩
    refine ⟨fun s hs => s.storable_iff.mpr ⟨hargs s hs, hreread s hs⟩, fun o ho =>
      o.name.storable_iff.mpr ⟨(hwritten o ho).1, (reread_object_iff o).mp (hrereads o ho)⟩,
      fun o ho => (hbytes o ho).mpr (hwritten o ho).2, ?_⟩
    cases hca with
    | inl hz => exact .inl hz
    | inr hargs => exact hco.imp_right (fun hobjects => ⟨hargs, hobjects⟩)

/-- A test case survives the round trip exactly when it is storable. -/
theorem roundTrips_iff (callocZero : Bool) {bo : KTest} (h : bo.WellFormed) :
    bo.RoundTrips callocZero ↔ bo.Storable callocZero := by
  rw [storable_iff h, RoundTrips, toFile_eq h]
  by_cases hwritten : (∀ s ∈ bo.args, s.len ≠ 0) ∧ ∀ o ∈ bo.objects, o.Written
  · simp only [if_pos hwritten, Option.some.injEq, exists_eq_left', and_iff_right hwritten]
    rw [fromFile_fileBytes callocZero h hwritten.1 hwritten.2, ← mapM_eq_self_iff,
      ← mapM_eq_self_iff, Option.ite_none_right_eq_some]
    refine and_congr_right fun _ => ?_
    rw [Option.bind_eq_some_iff]
    constructor
    · rintro ⟨args, hargs, hobjects⟩
      obtain ⟨objects, hobjects, heq⟩ := Option.map_eq_some_iff.mp hobjects
      obtain ⟨-, -, hargs', -, -, -, hobjects'⟩ := KTest.mk.inj heq
      rw [hargs'] at hargs
      rw [hobjects'] at hobjects
      exact ⟨hargs, hobjects⟩
    · rintro ⟨hargs, hobjects⟩
      exact ⟨bo.args, hargs, Option.map_eq_some_iff.mpr ⟨bo.objects, hobjects, rfl⟩⟩
  · rw [if_neg hwritten]
    constructor
    · rintro ⟨file, hfile, -⟩
      exact absurd hfile.symm (Option.some_ne_none file)
    · intro hstorable
      exact absurd hstorable.1 hwritten

/-- The program's name and a symbolic byte. -/
def oneByte : KTest where
  version := 3
  numArgs := 1
  args := [⟨[0x61], by decide⟩]
  symArgvs := 0
  symArgvLen := 0
  numObjects := 1
  objects := [⟨⟨[0x78], by decide⟩, 1, [0]⟩]

theorem roundTrips_iff_oneByte : oneByte.RoundTrips false :=
  (roundTrips_iff false ⟨by decide, by decide, by decide⟩).mpr
    ⟨by decide, by decide, by decide, .inr ⟨by decide, by decide⟩⟩

/-- The program's name and a symbolic object of size zero. -/
def emptyObject : KTest where
  version := 3
  numArgs := 1
  args := [⟨[0x61], by decide⟩]
  symArgvs := 0
  symArgvLen := 0
  numObjects := 1
  objects := [⟨⟨[0x78], by decide⟩, 0, []⟩]

/-- `fwrite` of an object of size zero counts no item, and `kTest_toFile` gives up. -/
theorem emptyObject_lost :
    emptyObject.WellFormed ∧ ∀ callocZero, ¬emptyObject.RoundTrips callocZero := by
  refine ⟨⟨by decide, by decide, by decide⟩, fun callocZero h => ?_⟩
  obtain ⟨file, hfile, -⟩ := h
  have hnone : emptyObject.toFile = none := by decide
  rw [hnone] at hfile
  exact absurd hfile (Option.some_ne_none file).symm

end KTest

end Xklee
