/-
Descriptors of symbolic files: `read`, `write` and `__fd_lseek` of `runtime/POSIX/fd.c`.

The offset is a signed number of 64 bits, a count an unsigned one, and the size an unsigned one of
32 bits. Where they are added or compared in C both sides become unsigned numbers of 64 bits, and
the sum of the offset and a count wraps around. A sum of two signed numbers wraps around as well.

The calls are those on one open descriptor of a symbolic file. Calls may be made to fail by their
number, which the test harness chooses. A failed assertion and an access to the file outside its
buffer are `none`.
-/
import Mathlib.Algebra.Order.Ring.Int
import Xklee.Data.ByteFile
import Xklee.Data.Run

set_option autoImplicit false

namespace Xklee

/-- `exe_disk_file_t`: the buffer has as many bytes as the size says. -/
structure DiskFile where
  size : BitVec 32
  contents : List (BitVec 8)
  length_eq : contents.length = size.toNat

/-- The errors. -/
inductive Errno where
  | EFAULT | EIO | EINVAL
deriving DecidableEq, Repr

/-- The descriptor, its file, and what the calls read of `__exe_fs` and `__exe_env`. The counts of
calls are the static variables `n_calls`. -/
structure SymbolicFile where
  off : BitVec 64
  dfile : DiskFile
  isStdout : Bool
  save_all_writes : Bool
  stdout_writes : BitVec 32
  max_failures : BitVec 32
  read_fail : BitVec 32
  write_fail : BitVec 32
  readCalls : BitVec 32
  writeCalls : BitVec 32

/-- A call. A buffer that is written from is given by the bytes that follow its address, one that
is read into by whether its address is not null. -/
inductive FileCall where
  | read (buf : Bool) (count : BitVec 64)
  | write (buf : ℕ → BitVec 8) (count : BitVec 64)
  | lseek (offset : BitVec 64) (whence : BitVec 32)

/-- The value that is returned, the error if `errno` is set, and the bytes stored at the buffer. -/
structure FileAnswer where
  value : BitVec 64
  errno : Option Errno
  data : List (BitVec 8)

namespace SymbolicFile

open Errno

/-- `errno = e; return -1;`. -/
def fail (f : SymbolicFile) (e : Errno) : Option (FileAnswer × SymbolicFile) :=
  some (⟨-1, some e, []⟩, f)

def succeed (f : SymbolicFile) (value : BitVec 64) (data : List (BitVec 8)) :
    Option (FileAnswer × SymbolicFile) :=
  some (⟨value, none, data⟩, f)

/-- `f->dfile->size` as a number of 64 bits. -/
def size64 (f : SymbolicFile) : BitVec 64 := f.dfile.size.setWidth 64

/-- `memcpy(buf, f->dfile->contents + f->off, count)`. -/
def copyOut (f : SymbolicFile) (count : BitVec 64) : Option (List (BitVec 8)) :=
  if f.off.toNat + count.toNat ≤ f.dfile.contents.length then
    some ((f.dfile.contents.drop f.off.toNat).take count.toNat)
  else none

/-- `memcpy(f->dfile->contents + f->off, buf, count)`. -/
def copyIn (f : SymbolicFile) (buf : ℕ → BitVec 8) (count : BitVec 64) : Option DiskFile :=
  if h : f.off.toNat + count.toNat ≤ f.dfile.contents.length then
    some { size := f.dfile.size
           contents := f.dfile.contents.take f.off.toNat ++ (List.range count.toNat).map buf
             ++ f.dfile.contents.drop (f.off.toNat + count.toNat)
           length_eq := by
             rw [ByteFile.splice_eq_overlay buf h, ByteFile.length_overlay, f.dfile.length_eq] }
  else none

/-- `read` from where it uses the symbolic file. -/
def readContents (f : SymbolicFile) (count : BitVec 64) : Option (FileAnswer × SymbolicFile) :=
  if f.off.slt 0 then none
  else if f.size64.slt f.off then f.succeed 0 []
  else do
    let count := if f.size64.ult (f.off + count) then f.size64 - f.off else count
    let data ← f.copyOut count
    { f with off := f.off + count }.succeed count data

/-- `read`. -/
def read (f : SymbolicFile) (buf : Bool) (count : BitVec 64) :
    Option (FileAnswer × SymbolicFile) :=
  let f := { f with readCalls := f.readCalls + 1 }
  if count = 0 then f.succeed 0 []
  else if !buf then f.fail EFAULT
  else if f.max_failures ≠ 0 ∧ f.read_fail = f.readCalls then
    { f with max_failures := f.max_failures - 1 }.fail EIO
  else f.readContents count

/-- `actual_count`: how much of the count is stored. -/
def actual_count (f : SymbolicFile) (count : BitVec 64) : Option (BitVec 64) :=
  if (f.off + count).ule f.size64 then some count
  else if f.save_all_writes then none
  else if f.off.slt f.size64 then some (f.size64 - f.off)
  else some 0

/-- `if (actual_count) memcpy(...)`. -/
def store (f : SymbolicFile) (buf : ℕ → BitVec 8) (actual_count : BitVec 64) : Option DiskFile :=
  if actual_count = 0 then some f.dfile else f.copyIn buf actual_count

/-- `write` from where it uses the symbolic file. -/
def writeContents (f : SymbolicFile) (buf : ℕ → BitVec 8) (count : BitVec 64) :
    Option (FileAnswer × SymbolicFile) := do
  let actual_count ← f.actual_count count
  let dfile ← f.store buf actual_count
  let stdout_writes :=
    if f.isStdout then f.stdout_writes + actual_count.setWidth 32 else f.stdout_writes
  { f with dfile := dfile, stdout_writes := stdout_writes, off := f.off + count }.succeed count []

/-- `write`. -/
def write (f : SymbolicFile) (buf : ℕ → BitVec 8) (count : BitVec 64) :
    Option (FileAnswer × SymbolicFile) :=
  let f := { f with writeCalls := f.writeCalls + 1 }
  if f.max_failures ≠ 0 ∧ f.write_fail = f.writeCalls then
    { f with max_failures := f.max_failures - 1 }.fail EIO
  else f.writeContents buf count

/-- The offset that `__fd_lseek` computes: `SEEK_SET`, `SEEK_CUR` and `SEEK_END`. -/
def new_off (f : SymbolicFile) (offset : BitVec 64) (whence : BitVec 32) : Option (BitVec 64) :=
  if whence = 0 then some offset
  else if whence = 1 then some (f.off + offset)
  else if whence = 2 then some (f.size64 + offset)
  else none

/-- `__fd_lseek`. -/
def lseek (f : SymbolicFile) (offset : BitVec 64) (whence : BitVec 32) :
    Option (FileAnswer × SymbolicFile) :=
  match f.new_off offset whence with
  | none => f.fail EINVAL
  | some new_off =>
      if new_off.slt 0 then f.fail EINVAL else { f with off := new_off }.succeed new_off []

def step (f : SymbolicFile) : FileCall → Option (FileAnswer × SymbolicFile)
  | .read buf count => f.read buf count
  | .write buf count => f.write buf count
  | .lseek offset whence => f.lseek offset whence

/-! ## What is expected of a call -/

/-- The file that the descriptor stands for. -/
def file (f : SymbolicFile) : ByteFile (BitVec 8) := ⟨f.off.toNat, f.dfile.contents⟩

/-- The harness makes this call fail. -/
def readFails (f : SymbolicFile) : Prop := f.max_failures ≠ 0 ∧ f.read_fail = f.readCalls + 1

def writeFails (f : SymbolicFile) : Prop := f.max_failures ≠ 0 ∧ f.write_fail = f.writeCalls + 1

instance (f : SymbolicFile) : Decidable f.readFails := inferInstanceAs (Decidable (_ ∧ _))

instance (f : SymbolicFile) : Decidable f.writeFails := inferInstanceAs (Decidable (_ ∧ _))

/-- The exact offset that a seek asks for. -/
def seekSum (f : SymbolicFile) (offset : BitVec 64) (whence : BitVec 32) : Option ℤ :=
  if whence = 0 then some offset.toInt
  else if whence = 1 then some (f.file.offset + offset.toInt)
  else if whence = 2 then some (f.file.contents.length + offset.toInt)
  else none

/-- What a call that does not fail does to the file, and what it answers. -/
def Succeeds (f : SymbolicFile) (a : FileAnswer) (f' : SymbolicFile) : FileCall → Prop
  | .read _ count => a.data = f.file.next count.toNat ∧ a.value.toNat = a.data.length
      ∧ f'.file = f.file.read count.toNat
  | .write buf count => a.value = count ∧ f'.file = f.file.write buf count.toNat
  | .lseek offset whence => a.value = f'.off
      ∧ ∃ sum, f.seekSum offset whence = some sum ∧ f.file.seek sum = some f'.file

/-- When a call fails: a null buffer, a failure of the harness, and an offset that is unknown,
negative or not a number of 64 bits. -/
def Refuses (f : SymbolicFile) : FileCall → Prop
  | .read buf count => count ≠ 0 ∧ (buf = false ∨ f.readFails)
  | .write _ _ => f.writeFails
  | .lseek offset whence => ∀ sum, f.seekSum offset whence = some sum → sum < 0 ∨ 2 ^ 63 ≤ sum

/-- The call returns, without an access outside the buffer. The offset is not negative, and the
file keeps its size. The call fails when it is refused, and then the file is as it was; else the
file is read, written or sought. -/
def Meets (f : SymbolicFile) (c : FileCall) : Prop :=
  ∃ a f', f.step c = some (a, f') ∧ 0 ≤ f'.off.toInt ∧ f'.dfile.size = f.dfile.size
    ∧ (a.errno ≠ none ↔ f.Refuses c)
    ∧ (a.errno ≠ none → a.value = -1 ∧ f'.file = f.file)
    ∧ (a.errno = none → f.Succeeds a f' c)

/-- The sum of the offset and the count does not wrap around where it is computed: for a read up
to the end below `2 ^ 64`, for a write, which moves the offset by all of it, below `2 ^ 63`. With
`save_all_writes` no write goes past the end. -/
def Within (f : SymbolicFile) : FileCall → Prop
  | .read buf count => count = 0 ∨ buf = false ∨ f.readFails ∨ f.dfile.size.toNat < f.off.toNat
      ∨ f.off.toNat + count.toNat < 2 ^ 64
  | .write _ count => f.writeFails ∨ (f.off.toNat + count.toNat < 2 ^ 63
      ∧ (f.save_all_writes = true → f.off.toNat + count.toNat ≤ f.dfile.size.toNat))
  | .lseek _ _ => True

/-! ## One call -/

section Call

variable {f : SymbolicFile}

theorem toInt_eq_toNat {x : BitVec 64} (h : x.toNat < 2 ^ 63) : x.toInt = x.toNat :=
  BitVec.toInt_eq_toNat_of_lt (by omega)

theorem toNat_lt_of_nonneg {x : BitVec 64} (h : 0 ≤ x.toInt) : x.toNat < 2 ^ 63 := by
  rw [BitVec.toInt_eq_toNat_cond] at h
  split at h
  · omega
  · have := x.isLt
    omega

/-- A sum that is a signed number. -/
theorem toNat_add_of_lt {x y : BitVec 64} (h : x.toNat + y.toNat < 2 ^ 63) :
    (x + y).toNat = x.toNat + y.toNat ∧ 0 ≤ (x + y).toInt := by
  have hadd : (x + y).toNat = x.toNat + y.toNat := by
    rw [BitVec.toNat_add, Nat.mod_eq_of_lt (by omega)]
  rw [toInt_eq_toNat (by omega)]
  exact ⟨hadd, Int.natCast_nonneg _⟩

/-- The sum of two signed numbers of which one is not negative. -/
theorem toInt_add_cases {x y : BitVec 64} (h : 0 ≤ x.toInt) :
    (x + y).toInt = x.toInt + y.toInt
      ∨ (2 ^ 63 ≤ x.toInt + y.toInt ∧ (x + y).toInt < 0) := by
  have hx := x.toInt_lt
  have hy := y.toInt_lt
  have hy' := y.le_toInt
  have hx' := x.le_toInt
  rw [BitVec.toInt_add, Int.bmod]
  split <;> omega

theorem toNat_size64 (f : SymbolicFile) : f.size64.toNat = f.dfile.size.toNat := by
  have := f.dfile.size.isLt
  rw [size64, BitVec.toNat_setWidth, Nat.mod_eq_of_lt (by omega)]

theorem length_contents (f : SymbolicFile) : f.file.contents.length = f.dfile.size.toNat :=
  f.dfile.length_eq

variable (hoff : 0 ≤ f.off.toInt)

include hoff

theorem off_not_slt_zero : f.off.slt 0 = false := by
  rw [BitVec.slt_eq_decide]
  simpa using hoff

theorem size_slt_off : f.size64.slt f.off = true ↔ f.dfile.size.toNat < f.off.toNat := by
  have hsize := f.dfile.size.isLt
  rw [BitVec.slt_iff_toInt_lt, toInt_eq_toNat (toNat_lt_of_nonneg hoff),
    toInt_eq_toNat (by rw [toNat_size64]; omega), toNat_size64]
  omega

theorem off_slt_size : f.off.slt f.size64 = true ↔ f.off.toNat < f.dfile.size.toNat := by
  have hsize := f.dfile.size.isLt
  rw [BitVec.slt_iff_toInt_lt, toInt_eq_toNat (toNat_lt_of_nonneg hoff),
    toInt_eq_toNat (by rw [toNat_size64]; omega), toNat_size64]
  omega

/-- A call that is refused and leaves the file. -/
theorem meets_of_fails {c : FileCall} {e : Errno} {f' : SymbolicFile}
    (hstep : f.step c = some (⟨-1, some e, []⟩, f')) (hrefuses : f.Refuses c) (hfoff : f'.off = f.off)
    (hdfile : f'.dfile = f.dfile) : f.Meets c := by
  refine ⟨_, f', hstep, by rwa [hfoff], by rw [hdfile], by simpa using hrefuses, fun _ => ⟨rfl, ?_⟩,
    by simp⟩
  rw [file, file, hfoff, hdfile]

omit hoff in
/-- Where the sum does not wrap around, the count is cut to what is left. -/
theorem toNat_readCount {count : BitVec 64} (hle : f.off.toNat ≤ f.dfile.size.toNat)
    (hsum : f.off.toNat + count.toNat < 2 ^ 64) :
    (if f.size64.ult (f.off + count) then f.size64 - f.off else count).toNat
      = min count.toNat (f.dfile.size.toNat - f.off.toNat) := by
  have hsize := toNat_size64 f
  have hadd : (f.off + count).toNat = f.off.toNat + count.toNat := by
    rw [BitVec.toNat_add, Nat.mod_eq_of_lt hsum]
  have hlt : f.size64.ult (f.off + count) = true
      ↔ f.dfile.size.toNat < f.off.toNat + count.toNat := by
    rw [BitVec.ult_iff_lt, BitVec.lt_def, hsize, hadd]
  split
  next h =>
    have := hlt.mp h
    rw [BitVec.toNat_sub_of_le (by rw [BitVec.le_def, hsize]; exact hle), hsize]
    omega
  next h =>
    have := mt hlt.mpr h
    omega

theorem readContents_spec {count : BitVec 64} (h : f.dfile.size.toNat < f.off.toNat
      ∨ f.off.toNat + count.toNat < 2 ^ 64) :
    ∃ n : BitVec 64, n.toNat = (f.file.next count.toNat).length
      ∧ f.readContents count
        = some (⟨n, none, f.file.next count.toNat⟩, { f with off := f.off + n }) := by
  have hlength := f.file.length_next count.toNat
  rw [length_contents f] at hlength
  rw [readContents, off_not_slt_zero hoff, if_neg (by simp)]
  by_cases hpast : f.dfile.size.toNat < f.off.toNat
  · rw [if_pos ((size_slt_off hoff).mpr hpast)]
    have hnil : f.file.next count.toNat = [] := by
      refine List.length_eq_zero_iff.mp (hlength.trans ?_)
      change min count.toNat (f.dfile.size.toNat - f.off.toNat) = 0
      omega
    refine ⟨0, by rw [hnil]; rfl, ?_⟩
    have hsame : f.off + 0 = f.off := BitVec.add_zero f.off
    rw [hnil, hsame]
    rfl
  · have hle := Nat.le_of_not_lt hpast
    have hcount := toNat_readCount hle (h.resolve_left hpast)
    rw [if_neg fun h => hpast ((size_slt_off hoff).mp h)]
    generalize (if f.size64.ult (f.off + count) then f.size64 - f.off else count) = n at hcount
    have hfits : f.off.toNat + n.toNat ≤ f.dfile.contents.length := by
      rw [f.dfile.length_eq]
      omega
    have hdata : f.copyOut n = some (f.file.next count.toNat) := by
      rw [copyOut, if_pos hfits, hcount, ByteFile.next]
      refine congrArg some (List.take_eq_take_iff.mpr ?_)
      rw [List.length_drop, f.dfile.length_eq, Nat.min_assoc, Nat.min_self]
    refine ⟨n, ?_, ?_⟩
    · rw [hlength]
      exact hcount
    · simp only [hdata, Option.bind_eq_bind, Option.bind_some]
      rfl

/-- A sum that wraps around leaves the count as it is, and that leads out of the buffer. -/
theorem readContents_none {count : BitVec 64} (hle : f.off.toNat ≤ f.dfile.size.toNat)
    (hsum : 2 ^ 64 ≤ f.off.toNat + count.toNat) : f.readContents count = none := by
  have hoffLt := toNat_lt_of_nonneg hoff
  have hsize := f.dfile.size.isLt
  have hcount := count.isLt
  have hadd : (f.off + count).toNat = f.off.toNat + count.toNat - 2 ^ 64 := by
    rw [BitVec.toNat_add]
    omega
  have hnot : f.size64.ult (f.off + count) = false := by
    rw [← Bool.not_eq_true, BitVec.ult_iff_lt, BitVec.lt_def, toNat_size64, hadd]
    omega
  have hcopy : f.copyOut count = none := by
    refine if_neg ?_
    rw [f.dfile.length_eq]
    omega
  rw [readContents, off_not_slt_zero hoff, if_neg (by simp),
    if_neg fun h => by have := (size_slt_off hoff).mp h; omega, hnot]
  simp only [Bool.false_eq_true, if_false, hcopy, Option.bind_eq_bind, Option.bind_none]

omit hoff in
theorem step_read (buf : Bool) (count : BitVec 64) :
    f.step (.read buf count)
      = if count = 0 then { f with readCalls := f.readCalls + 1 }.succeed 0 []
        else if !buf then { f with readCalls := f.readCalls + 1 }.fail EFAULT
        else if f.readFails then
          { f with readCalls := f.readCalls + 1, max_failures := f.max_failures - 1 }.fail EIO
        else { f with readCalls := f.readCalls + 1 }.readContents count := rfl

theorem read_meets_iff (buf : Bool) (count : BitVec 64) :
    f.Meets (.read buf count) ↔ f.Within (.read buf count) := by
  have hstep := @step_read f buf count
  by_cases hzero : count = 0
  · refine iff_of_true ?_ (.inl hzero)
    subst hzero
    rw [if_pos rfl] at hstep
    refine ⟨_, _, hstep, hoff, rfl, by simp [Refuses], by simp, fun _ => ⟨rfl, rfl, ?_⟩⟩
    simp [file, ByteFile.read, ByteFile.next]
  rw [if_neg hzero] at hstep
  by_cases hbuf : buf = false
  · rw [if_pos (by simp [hbuf])] at hstep
    exact iff_of_true (meets_of_fails hoff hstep ⟨hzero, .inl hbuf⟩ rfl rfl) (.inr (.inl hbuf))
  rw [if_neg (by simpa using hbuf)] at hstep
  by_cases hfails : f.readFails
  · rw [if_pos hfails] at hstep
    exact iff_of_true (meets_of_fails hoff hstep ⟨hzero, .inr hfails⟩ rfl rfl)
      (.inr (.inr (.inl hfails)))
  rw [if_neg hfails] at hstep
  have hwithin : f.Within (.read buf count) ↔ f.dfile.size.toNat < f.off.toNat
      ∨ f.off.toNat + count.toNat < 2 ^ 64 := by
    exact (or_iff_right hzero).trans ((or_iff_right hbuf).trans (or_iff_right hfails))
  rw [hwithin]
  constructor
  · rintro ⟨a, f', hmeets, -⟩
    by_contra hnot
    rw [not_or, Nat.not_lt, Nat.not_lt] at hnot
    have hnone := @readContents_none { f with readCalls := f.readCalls + 1 } hoff count hnot.1 hnot.2
    rw [hstep, hnone] at hmeets
    cases hmeets
  · intro h
    obtain ⟨n, hn, hread⟩ :=
      @readContents_spec { f with readCalls := f.readCalls + 1 } hoff count h
    have hlength := f.file.length_next count.toNat
    rw [length_contents f] at hlength
    have hnext : n.toNat = (f.file.next count.toNat).length := hn
    have hsum : f.off.toNat + n.toNat < 2 ^ 63 := by
      have hoffLt := toNat_lt_of_nonneg hoff
      have hsize := f.dfile.size.isLt
      have hleft : n.toNat ≤ f.dfile.size.toNat - f.off.toNat := by
        rw [hnext, hlength]
        exact Nat.min_le_right ..
      omega
    obtain ⟨hnew, hnonneg⟩ := toNat_add_of_lt hsum
    refine ⟨_, _, hstep.trans hread, hnonneg, rfl, ?_, by simp, fun _ => ⟨rfl, hn, ?_⟩⟩
    · simp [Refuses, hbuf, hfails]
    · rw [file, ByteFile.read, ← hnext]
      exact congrArg (ByteFile.mk · _) hnew

omit hoff in
theorem step_write (buf : ℕ → BitVec 8) (count : BitVec 64) :
    f.step (.write buf count)
      = if f.writeFails then
          { f with writeCalls := f.writeCalls + 1, max_failures := f.max_failures - 1 }.fail EIO
        else { f with writeCalls := f.writeCalls + 1 }.writeContents buf count := rfl

/-- The count that is copied, where the sum does not wrap around. -/
theorem actual_count_eq {count : BitVec 64} (hsum : f.off.toNat + count.toNat < 2 ^ 63)
    (hsave : f.save_all_writes = true → f.off.toNat + count.toNat ≤ f.dfile.size.toNat) :
    ∃ n : BitVec 64, n.toNat = min count.toNat (f.dfile.size.toNat - f.off.toNat)
      ∧ f.actual_count count = some n := by
  have hsize := toNat_size64 f
  have hadd := (toNat_add_of_lt hsum).1
  have hule : (f.off + count).ule f.size64 = true
      ↔ f.off.toNat + count.toNat ≤ f.dfile.size.toNat := by
    rw [BitVec.ule_iff_le, BitVec.le_def, hsize, hadd]
  by_cases hle : f.off.toNat + count.toNat ≤ f.dfile.size.toNat
  · exact ⟨count, by omega, if_pos (hule.mpr hle)⟩
  · have hnot : f.save_all_writes ≠ true := fun h => hle (hsave h)
    rw [actual_count, if_neg fun h => hle (hule.mp h), if_neg hnot]
    by_cases hlt : f.off.toNat < f.dfile.size.toNat
    · refine ⟨f.size64 - f.off, ?_, if_pos ((off_slt_size hoff).mpr hlt)⟩
      rw [BitVec.toNat_sub_of_le (by rw [BitVec.le_def, hsize]; omega), hsize]
      omega
    · refine ⟨0, ?_, if_neg fun h => hlt ((off_slt_size hoff).mp h)⟩
      change 0 = _
      omega

omit hoff in
/-- With `save_all_writes` a write past the end fails an assertion. -/
theorem actual_count_none {count : BitVec 64} (hsum : f.off.toNat + count.toNat < 2 ^ 63)
    (hsave : f.save_all_writes = true) (hpast : f.dfile.size.toNat < f.off.toNat + count.toNat) :
    f.actual_count count = none := by
  have hnot : ¬(f.off + count).ule f.size64 = true := by
    rw [BitVec.ule_iff_le, BitVec.le_def, toNat_size64, (toNat_add_of_lt hsum).1]
    omega
  rw [actual_count, if_neg hnot, if_pos hsave]

omit hoff in
/-- Copying what fits into the buffer. -/
theorem store_spec (buf : ℕ → BitVec 8) {count n : BitVec 64}
    (hn : n.toNat = min count.toNat (f.dfile.size.toNat - f.off.toNat)) :
    ∃ dfile, f.store buf n = some dfile
      ∧ dfile.size = f.dfile.size
      ∧ dfile.contents = ByteFile.overlay f.dfile.contents f.off.toNat buf count.toNat := by
  have hoverlay : ByteFile.overlay f.dfile.contents f.off.toNat buf n.toNat
      = ByteFile.overlay f.dfile.contents f.off.toNat buf count.toNat := by
    rw [hn, ← f.dfile.length_eq, ByteFile.overlay_min]
  by_cases hzero : n = 0
  · refine ⟨f.dfile, if_pos hzero, rfl, ?_⟩
    rw [← hoverlay, hzero]
    exact (ByteFile.overlay_zero ..).symm
  · have hpos : n.toNat ≠ 0 := fun h => hzero (BitVec.eq_of_toNat_eq h)
    have hfits : f.off.toNat + n.toNat ≤ f.dfile.contents.length := by
      rw [f.dfile.length_eq]
      omega
    refine ⟨_, (if_neg hzero).trans (dif_pos hfits), rfl, ?_⟩
    exact (ByteFile.splice_eq_overlay buf hfits).trans hoverlay

theorem writeContents_spec (buf : ℕ → BitVec 8) {count : BitVec 64}
    (hsum : f.off.toNat + count.toNat < 2 ^ 63)
    (hsave : f.save_all_writes = true → f.off.toNat + count.toNat ≤ f.dfile.size.toNat) :
    ∃ f', f.writeContents buf count = some (⟨count, none, []⟩, f') ∧ f'.off = f.off + count
      ∧ f'.dfile.size = f.dfile.size
      ∧ f'.dfile.contents = ByteFile.overlay f.dfile.contents f.off.toNat buf count.toNat := by
  obtain ⟨n, hn, hactual⟩ := actual_count_eq hoff hsum hsave
  obtain ⟨dfile, hdfile, hsize, hcontents⟩ := store_spec buf hn
  have hwrite : f.writeContents buf count = some (⟨count, none, []⟩, { f with
      dfile := dfile
      stdout_writes := if f.isStdout then f.stdout_writes + n.setWidth 32 else f.stdout_writes
      off := f.off + count }) := by
    simp only [writeContents, hactual, Option.bind_eq_bind, Option.bind_some, hdfile]
    rfl
  exact ⟨_, hwrite, rfl, hsize, hcontents⟩

omit hoff in
/-- A write that returns moves the offset by the count, which may wrap around. -/
theorem writeContents_off {buf : ℕ → BitVec 8} {count : BitVec 64} {a : FileAnswer}
    {f' : SymbolicFile} (h : f.writeContents buf count = some (a, f')) :
    f'.off = f.off + count ∧ a.errno = none := by
  obtain ⟨n, -, h⟩ := Option.bind_eq_some_iff.mp h
  obtain ⟨dfile, -, h⟩ := Option.bind_eq_some_iff.mp h
  obtain ⟨rfl, rfl⟩ := Prod.mk.inj (Option.some.inj h)
  exact ⟨rfl, rfl⟩

theorem write_meets_iff (buf : ℕ → BitVec 8) (count : BitVec 64) :
    f.Meets (.write buf count) ↔ f.Within (.write buf count) := by
  have hstep := @step_write f buf count
  by_cases hfails : f.writeFails
  · rw [if_pos hfails] at hstep
    exact iff_of_true (meets_of_fails hoff hstep hfails rfl rfl) (.inl hfails)
  rw [if_neg hfails] at hstep
  have hwithin : f.Within (.write buf count) ↔ (f.off.toNat + count.toNat < 2 ^ 63
      ∧ (f.save_all_writes = true → f.off.toNat + count.toNat ≤ f.dfile.size.toNat)) := by
    simp [Within, hfails]
  rw [hwithin]
  constructor
  · rintro ⟨a, f', hmeets, hnonneg, -, -, -, hsucceeds⟩
    rw [hstep] at hmeets
    obtain ⟨hnew, herrno⟩ := writeContents_off hmeets
    have hfile := (hsucceeds herrno).2
    have hoffset : f'.off.toNat = f.off.toNat + count.toNat := congrArg ByteFile.offset hfile
    have hlt := toNat_lt_of_nonneg hnonneg
    rw [hoffset] at hlt
    refine ⟨hlt, fun hsave => ?_⟩
    by_contra hnot
    have hnone := @actual_count_none { f with writeCalls := f.writeCalls + 1 } count hlt hsave
      (Nat.lt_of_not_le hnot)
    rw [writeContents, hnone] at hmeets
    cases hmeets
  · rintro ⟨hsum, hsave⟩
    obtain ⟨f', hwrite, hnew, hsize, hcontents⟩ :=
      @writeContents_spec { f with writeCalls := f.writeCalls + 1 } hoff buf count hsum hsave
    obtain ⟨htoNat, hnonneg⟩ := toNat_add_of_lt hsum
    refine ⟨_, f', hstep.trans hwrite, by rw [hnew]; exact hnonneg, hsize, ?_, by simp,
      fun _ => ⟨rfl, ?_⟩⟩
    · simpa [Refuses] using hfails
    · rw [file, hnew, hcontents]
      exact congrArg (ByteFile.mk · _) htoNat

theorem new_off_spec {offset : BitVec 64} {whence : BitVec 32} {new : BitVec 64}
    (h : f.new_off offset whence = some new) : ∃ sum, f.seekSum offset whence = some sum
      ∧ (new.toInt = sum ∨ (2 ^ 63 ≤ sum ∧ new.toInt < 0)) := by
  unfold new_off at h
  unfold seekSum
  split at h
  next h0 =>
    obtain rfl := Option.some.inj h
    exact ⟨_, if_pos h0, .inl rfl⟩
  next h0 =>
    rw [if_neg h0]
    split at h
    next h1 =>
      obtain rfl := Option.some.inj h
      refine ⟨_, if_pos h1, ?_⟩
      have hcases := toInt_add_cases (y := offset) hoff
      rwa [toInt_eq_toNat (toNat_lt_of_nonneg hoff)] at hcases
    next h1 =>
      rw [if_neg h1]
      split at h
      next h2 =>
        obtain rfl := Option.some.inj h
        refine ⟨_, if_pos h2, ?_⟩
        have hsize := f.dfile.size.isLt
        have hlt : f.size64.toNat < 2 ^ 63 := by
          rw [toNat_size64]
          omega
        have hnat : f.size64.toInt = (f.file.contents.length : ℤ) := by
          rw [toInt_eq_toNat hlt, toNat_size64, length_contents]
        have hcases := @toInt_add_cases f.size64 offset (by omega)
        rwa [hnat] at hcases
      next => cases h

omit hoff in
theorem seekSum_none {offset : BitVec 64} {whence : BitVec 32}
    (h : f.new_off offset whence = none) : f.seekSum offset whence = none := by
  unfold new_off at h
  unfold seekSum
  split_ifs at h ⊢
  rfl

theorem lseek_meets (offset : BitVec 64) (whence : BitVec 32) :
    f.Meets (.lseek offset whence) := by
  have hstep : f.step (.lseek offset whence) = f.lseek offset whence := rfl
  unfold lseek at hstep
  cases hnew : f.new_off offset whence with
  | none =>
    rw [hnew] at hstep
    refine meets_of_fails hoff hstep ?_ rfl rfl
    intro sum hsum
    rw [seekSum_none hnew] at hsum
    cases hsum
  | some new =>
    obtain ⟨sum, hsum, hcases⟩ := new_off_spec hoff hnew
    have hlt := new.toInt_lt
    rw [hnew] at hstep
    dsimp only at hstep
    have hslt : new.slt 0 = true ↔ new.toInt < 0 := by
      rw [BitVec.slt_iff_toInt_lt]
      rfl
    by_cases hneg : new.toInt < 0
    · rw [if_pos (hslt.mpr hneg)] at hstep
      refine meets_of_fails hoff hstep ?_ rfl rfl
      intro sum' hsum'
      obtain rfl := Option.some.inj (hsum.symm.trans hsum')
      omega
    · rw [if_neg (mt hslt.mp hneg)] at hstep
      have heq : new.toInt = sum := by omega
      refine ⟨_, _, hstep, by simpa using hneg, rfl, ?_, by simp, fun _ => ⟨rfl, sum, hsum, ?_⟩⟩
      · refine iff_of_false (by simp) fun hrefuses => ?_
        have := hrefuses sum hsum
        omega
      · have hnat := toInt_eq_toNat (toNat_lt_of_nonneg (Int.not_lt.mp hneg))
        have hsumNat : sum.toNat = new.toNat := by omega
        rw [ByteFile.seek, if_pos (by omega), hsumNat]
        rfl

theorem meets_iff (c : FileCall) : f.Meets c ↔ f.Within c := by
  cases c with
  | read buf count => exact read_meets_iff hoff buf count
  | write buf count => exact write_meets_iff hoff buf count
  | lseek offset whence => exact iff_of_true (lseek_meets hoff offset whence) trivial

/-- A call within the limits keeps the offset and the size. -/
theorem step_keeps {c : FileCall} {a : FileAnswer} {f' : SymbolicFile} (hc : f.Within c)
    (h : f.step c = some (a, f')) : 0 ≤ f'.off.toInt ∧ f'.dfile.size = f.dfile.size := by
  obtain ⟨a', f'', hstep, hnonneg, hsize, -⟩ := (meets_iff hoff c).mpr hc
  obtain ⟨-, rfl⟩ := Prod.mk.inj (Option.some.inj (hstep.symm.trans h))
  exact ⟨hnonneg, hsize⟩

end Call

/-! ## Runs -/

/-- In every run of calls that stay within the limits the offset is not negative and the size is
that of the file, and a next call does what is expected of it just when it stays within them. -/
theorem meets_of_reaches {init f : SymbolicFile} (hinit : 0 ≤ init.off.toInt)
    (h : Reaches step Within init f) :
    0 ≤ f.off.toInt ∧ f.dfile.size = init.dfile.size ∧ ∀ c, f.Meets c ↔ f.Within c := by
  let Inv : SymbolicFile → Prop := fun f => 0 ≤ f.off.toInt ∧ f.dfile.size = init.dfile.size
  have hinv : Inv f := by
    have hstart : Inv init := ⟨hinit, rfl⟩
    refine h.invariant hstart fun s c a s' hs hc hstep => ?_
    obtain ⟨hnonneg, hsize⟩ := step_keeps hs.1 hc hstep
    exact ⟨hnonneg, hsize.trans hs.2⟩
  exact ⟨hinv.1, hinv.2, meets_iff hinv.1⟩

/-- A file of four zeros, just opened. -/
def fourBytes : SymbolicFile where
  off := 0
  dfile := ⟨4, [0, 0, 0, 0], rfl⟩
  isStdout := false
  save_all_writes := false
  stdout_writes := 0
  max_failures := 0
  read_fail := 0
  write_fail := 0
  readCalls := 0
  writeCalls := 0

/-- A seek past the end, and then any call. -/
theorem meets_of_reaches_fourBytes :
    ∃ f, Reaches step Within fourBytes f ∧ f.off = 6
      ∧ ∀ c, f.Meets c ↔ f.Within c := by
  have hreach : Reaches step Within fourBytes { fourBytes with off := 6 } :=
    .step (c := .lseek 6 0) .init trivial rfl
  exact ⟨_, hreach, rfl, (meets_of_reaches (show 0 ≤ fourBytes.off.toInt by decide) hreach).2.2⟩

/-- A write of `SIZE_MAX` bytes leaves a negative offset, and a read of as many after a read of
one byte leads out of the buffer. -/
theorem fourBytes_wraps :
    (∃ f, Reaches step (fun _ _ => True) fourBytes f ∧ f.off.toInt < 0)
      ∧ ∃ f, Reaches step (fun _ _ => True) fourBytes f ∧ ¬f.Meets (.read true (-1)) := by
  have hwrite : ∃ a f, fourBytes.step (.write (fun _ => 7) (-1)) = some (a, f)
      ∧ f.off.toInt < 0 := ⟨_, _, rfl, by decide⟩
  have hread : ∃ a f, fourBytes.step (.read true 1) = some (a, f)
      ∧ f.step (.read true (-1)) = none := ⟨_, _, rfl, rfl⟩
  constructor
  · obtain ⟨a, f, hstep, hneg⟩ := hwrite
    exact ⟨f, .step .init trivial hstep, hneg⟩
  · obtain ⟨a, f, hstep, hnone⟩ := hread
    refine ⟨f, .step .init trivial hstep, ?_⟩
    rintro ⟨a', f', hmeets, -⟩
    rw [hnone] at hmeets
    cases hmeets

end SymbolicFile

end Xklee
