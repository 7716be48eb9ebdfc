/-
`__fd_getdents` of `runtime/POSIX/fd.c`.

A directory of the operating system is listed with the symbolic files before its own entries. The
offsets below 4096 stand for the symbolic files, those from 4096 on for the positions in the
directory. What the operating system answers is a parameter. A failed assertion is `none`.
-/
import Mathlib.Algebra.Order.Ring.Int
import Mathlib.Data.List.Forall2
import Xklee.Data.Run
import Xklee.POSIX.FileTable

set_option autoImplicit false

namespace Xklee

/-- `struct dirent64`. The name is without the zero that ends it. -/
structure Dirent where
  d_ino : BitVec 64
  d_off : BitVec 64
  d_reclen : BitVec 16
  d_type : BitVec 8
  d_name : List (BitVec 8)
deriving DecidableEq, Repr

/-- `sizeof(struct dirent64)`. -/
def sizeof_dirent : ℕ := 280

/-- How many bytes from the start of a record its fields take: those before the name, the name and
the zero. -/
def Dirent.stored (r : Dirent) : ℕ := 19 + r.d_name.length + 1

/-- A directory of the operating system: whether `lseek` sets a position, and what `getdents64`
returns from a position with a size of the buffer, which is an error, or the number of bytes, the
records and the next position. -/
structure OsDirectory where
  lseek : BitVec 64 → Bool
  getdents64 : BitVec 64 → BitVec 32 → Option (BitVec 32 × List Dirent × BitVec 64)

/-- What a call returns, `errno` if it is set, and what it does to the buffer: how much it clears,
and the records it stores with their places. `padding` is what the length of the last record is
before it is stored in 16 bits. -/
structure GetdentsAnswer where
  value : BitVec 32
  errno : Option FdErrno
  cleared : ℕ
  padding : Option ℤ
  records : List (ℕ × Dirent)

namespace Getdents

/-- `errno = e; return -1;`. -/
def fail (e : FdErrno) : GetdentsAnswer := ⟨-1, some e, 0, none, []⟩

/-- `IFTODT`. -/
def IFTODT (mode : BitVec 32) : BitVec 8 := ((mode &&& 0o170000) >>> 12).setWidth 8

/-- The record of a symbolic file. -/
def entry (st : Stat64) (i : ℕ) : Dirent :=
  { d_ino := st.st_ino
    d_off := BitVec.ofNat 64 ((i + 1) * sizeof_dirent)
    d_reclen := BitVec.ofNat 16 sizeof_dirent
    d_type := IFTODT st.st_mode
    d_name := [BitVec.ofNat 8 ('A'.toNat + i)] }

/-- The record that jumps to those of the operating system. -/
def deleted (padding : ℤ) : Dirent :=
  { d_ino := 0
    d_off := 4096
    d_reclen := BitVec.ofInt 16 padding
    d_type := 0
    d_name := [] }

/-- The loop over the symbolic files: the records with their places, and at the end the place after
them and `bytes`. -/
def entries : List Stat64 → ℕ → ℕ → ℕ → List (ℕ × Dirent) × ℕ × ℕ
  | [], _, dirp, bytes => ([], dirp, bytes)
  | st :: rest, i, dirp, bytes =>
      let df := entry st i
      let (records, end') := entries rest (i + 1) (dirp + sizeof_dirent) (bytes + df.d_reclen.toNat)
      ((dirp, df) :: records, end')

/-- The records below 4096, and the next offset. -/
def own (sym_files : List Stat64) (off count : ℕ) : GetdentsAnswer × Option ℕ :=
  let i := off / sizeof_dirent
  if i * sizeof_dirent ≠ off ∨ i > sym_files.length then (fail .EINVAL, none)
  else
    let (records, dirp, bytes) := entries (sym_files.drop i) i 0 0
    let pad := if count ≥ 4096 then 4096 else count
    let padding : ℤ := pad - bytes
    let last := deleted padding
    (⟨BitVec.ofNat 32 (bytes + last.d_reclen.toNat), none, 0, some padding,
      records ++ [(dirp, last)]⟩, some pad)

/-- The loop that patches the offsets of the records that the operating system stored, as long as
they start below `res`. -/
def patch : List Dirent → ℕ → ℕ → List (ℕ × Dirent)
  | [], _, _ => []
  | dp :: rest, pos, res =>
      let dp' := if pos < res then { dp with d_off := dp.d_off + 4096 } else dp
      (pos, dp') :: patch rest (pos + dp.d_reclen.toNat) res

/-- The records of the operating system, and the next offset. -/
def fromOs (os : OsDirectory) (off : BitVec 64) (count : BitVec 32) :
    Option (GetdentsAnswer × Option (BitVec 64)) :=
  let os_pos := off - 4096
  if os.lseek os_pos then
    match os.getdents64 os_pos count with
    | none => some (⟨-1, some .klee_get_errno, count.toNat, none, []⟩, none)
    | some (res, records, pos) =>
        some (⟨res, none, count.toNat, none, patch records 0 res.toNat⟩, some (pos + 4096))
  else none

/-- `f->off = off;`, if there is one. -/
def setOff (fds : Fds) (f : Fin MAX_FDS) (off : Option (BitVec 64)) : Fds :=
  match off with
  | none => fds
  | some off => Function.update fds f { fds f with off := off }

/-- `__fd_getdents`. -/
def fd_getdents (sym_files : List Stat64) (os : OsDirectory) (fd : ℤ) (fds : Fds)
    (count : BitVec 32) : Option (GetdentsAnswer × Fds) :=
  match fds.get_file fd with
  | none => some (fail .EBADF, fds)
  | some f =>
      if (fds f).dfile.isSome then some (fail .EINVAL, fds)
      else if (fds f).off.toNat < 4096 then
        let (a, off) := own sym_files (fds f).off.toNat count.toNat
        some (a, setOff fds f (off.map (BitVec.ofNat 64 ·)))
      else (fromOs os (fds f).off count).map fun (a, off) => (a, setOff fds f off)

/-! ## What is expected of a sequence of calls -/

/-- What the operating system promises: it accepts the positions that it returns, which are not
negative, and stores whole records in the buffer, as many bytes as it returns. -/
structure Documented (os : OsDirectory) : Prop where
  lseek_zero : os.lseek 0 = true
  lseek : ∀ pos count res records pos', os.getdents64 pos count = some (res, records, pos') →
    os.lseek pos' = true ∧ pos'.toNat < 2 ^ 63
  res : ∀ pos count res records pos', os.getdents64 pos count = some (res, records, pos') →
    res.toNat = (records.map (·.d_reclen.toNat)).sum ∧ res.toNat ≤ count.toNat
      ∧ res.toNat < 2 ^ 31
  stored : ∀ pos count res records pos', os.getdents64 pos count = some (res, records, pos') →
    ∀ r ∈ records, r.stored ≤ r.d_reclen.toNat

/-- Records one after the other, each as long as it says, as a reader of the buffer finds them. -/
def placed : List Dirent → ℕ → List (ℕ × Dirent)
  | [], _ => []
  | r :: rest, pos => (pos, r) :: placed rest (pos + r.d_reclen.toNat)

/-- The answer keeps to the buffer, no length is negative, and a reader finds the records that were
stored. The value is negative only when the operating system refuses. -/
structure Proper (count : BitVec 32) (a : GetdentsAnswer) : Prop where
  cleared : a.cleared ≤ count.toNat
  inside : ∀ x ∈ a.records, x.1 + x.2.stored ≤ count.toNat
  padding : ∀ p ∈ a.padding, 0 ≤ p
  walk : a.records = placed (a.records.map (·.2)) 0
  value : a.value = -1 ∧ a.errno = some .klee_get_errno ∧ a.records = []
    ∨ 0 ≤ a.value.toInt ∧ a.value.toNat = (a.records.map (·.2.d_reclen.toNat)).sum
      ∧ a.errno = none

/-- What the operating system lists, from a position on, when it is asked with these sizes. -/
def osListing (os : OsDirectory) : BitVec 64 → List (BitVec 32) → List Dirent
  | _, [] => []
  | pos, count :: counts =>
      match os.getdents64 pos count with
      | none => osListing os pos counts
      | some (_, records, pos') => records ++ osListing os pos' counts

/-- The records of the symbolic files, in their order. -/
def symListing (sym_files : List Stat64) : List Dirent := sym_files.mapIdx fun i st => entry st i

/-- The record of the operating system with its offset among those of the directory. -/
def shifted (r : Dirent) : Dirent := { r with d_off := r.d_off + 4096 }

/-- Every answer is proper. Together they list every symbolic file once, a deleted file, and then
what the operating system lists. -/
def Lists (sym_files : List Stat64) (os : OsDirectory) (counts : List (BitVec 32))
    (answers : List GetdentsAnswer) : Prop :=
  List.Forall₂ Proper counts answers
    ∧ (counts ≠ [] → ∃ last : Dirent, last.d_ino = 0
      ∧ answers.flatMap (fun a => a.records.map (·.2))
        = symListing sym_files ++ last :: (osListing os 0 counts.tail).map shifted)

/-- The first buffer holds a record for every symbolic file and the fields of the last one, and the
records of the symbolic files end below 4096. If there is another call, the first one comes to
4096. -/
def Fits (n : ℕ) : List (BitVec 32) → Prop
  | [] => True
  | count :: counts => sizeof_dirent * n + 20 ≤ count.toNat ∧ sizeof_dirent * n ≤ 4096
      ∧ (counts ≠ [] → 4096 ≤ count.toNat)

end Getdents

end Xklee
