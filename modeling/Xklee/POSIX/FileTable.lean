/-
The table of descriptors of `runtime/POSIX`: the fields of `exe_file_t` and the `fds` of
`exe_sym_env_t` in `fd.h`, and `__get_file` of `fd.c`.

An entry is in use when its flag `eOpen` is set. It stands for a descriptor of the operating
system, whose number is `fd`, or for a symbolic file, which `dfile` points to.
-/
import Mathlib.Data.Nat.Notation
import Mathlib.Data.Int.Notation
import Mathlib.Logic.Function.Basic

set_option autoImplicit false

namespace Xklee

/-- What `errno` is set to: one of the errors of the model, or what the operating system says. -/
inductive FdErrno where
  | EBADF | EMFILE | EEXIST | EACCES | ENOENT | EINVAL | EIO | EISDIR | EPERM
  | klee_get_errno
deriving DecidableEq, Repr

/-- The fields of `struct stat64` that the model reads. -/
structure Stat64 where
  st_ino : BitVec 64
  st_mode : BitVec 32
deriving DecidableEq, Repr

/-- A pointer to an `exe_disk_file_t` of `__exe_fs`. -/
inductive DiskFilePtr where
  | sym_stdin | sym_stdout
  | sym_files (i : ℕ)
  | cp_files (k : ℕ)
deriving DecidableEq, Repr

/-- A set of `exe_file_flag_t` values. -/
structure FileFlags where
  eOpen : Bool
  eCloseOnExec : Bool
  eReadable : Bool
  eWriteable : Bool
deriving DecidableEq, Repr

/-- `exe_file_t`. -/
structure ExeFile where
  fd : ℕ
  flags : FileFlags
  off : BitVec 64
  dfile : Option DiskFilePtr
deriving DecidableEq, Repr

/-- `memset(f, 0, sizeof *f)`. -/
def ExeFile.zero : ExeFile := ⟨0, ⟨false, false, false, false⟩, 0, none⟩

def MAX_FDS : ℕ := 32

/-- `__exe_env.fds`. -/
abbrev Fds := Fin MAX_FDS → ExeFile

namespace Fds

theorem toNat_lt {fd : ℤ} (h : 0 ≤ fd ∧ fd < MAX_FDS) : fd.toNat < MAX_FDS := by omega

/-- `__get_file`, with the index of the entry in place of its address. -/
def get_file (fds : Fds) (fd : ℤ) : Option (Fin MAX_FDS) :=
  if h : 0 ≤ fd ∧ fd < MAX_FDS then
    let f : Fin MAX_FDS := ⟨fd.toNat, by omega⟩
    if (fds f).flags.eOpen then some f else none
  else none

/-- What `__get_file` finds is the entry of the number, and in use. -/
theorem get_file_eq_some {fds : Fds} {fd : ℤ} {f : Fin MAX_FDS} :
    fds.get_file fd = some f ↔ fd = f.val ∧ (fds f).flags.eOpen = true := by
  unfold get_file
  by_cases h : 0 ≤ fd ∧ fd < MAX_FDS
  · rw [dif_pos h]
    constructor
    · intro hf
      dsimp only at hf
      split at hf
      next hopen =>
        obtain rfl := Option.some.inj hf
        exact ⟨(Int.toNat_of_nonneg h.1).symm, hopen⟩
      next => cases hf
    · rintro ⟨rfl, hopen⟩
      simp only [Int.toNat_natCast, Fin.eta]
      rw [if_pos hopen]
  · rw [dif_neg h]
    constructor
    · intro hf
      cases hf
    · rintro ⟨rfl, -⟩
      have hlt : f.val < MAX_FDS := f.isLt
      omega

end Fds

end Xklee
