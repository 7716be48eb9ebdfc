/-
Calls on the table of descriptors: `__xqx_get_sym_file`, `has_permission`, `__fd_open`,
`__fd_openat`, `close`, `dup2`, `dup` and `unlink` of `runtime/POSIX/fd.c`.

What a call gets from outside is part of its arguments: the result of the system call that opens a
file, the file that `klee_create_cp_file` reads, the stat of the directory, and whether the first
character of the path is symbolic. So is the value of the variable `c` of `__xqx_get_sym_file`,
which is compared and never set. `none` is undefined behaviour of `klee_create_cp_file`.
-/
import Mathlib.Data.Fin.Basic
import Xklee.POSIX.FileTable
import Xklee.POSIX.MakeFileSymbolic

set_option autoImplicit false

namespace Xklee

/-- `__exe_env`, `__exe_fs` and `__sym_parts`, with the static variable `n_calls` of `close`. -/
structure FdState where
  fds : Fds
  umask : BitVec 32
  sym_files : List Stat64
  cp_files : List (Option (CpFile × Stat64))
  sym_parts : XqxMakeSym
  max_failures : BitVec 32
  close_fail : BitVec 32
  n_calls : BitVec 32

/-- The arguments of `__fd_open`, and what the call gets from outside. -/
structure OpenArgs where
  pathname : List Char
  is_symbolic : Bool
  c : BitVec 8
  flags : BitVec 32
  mode : BitVec 32
  os_fd : Option ℕ
  os_file : Option OsFile
  junk : ℕ → BitVec 8
  dot : Stat64

/-- A call. `c` is the variable of the first lookup. -/
inductive FdCall where
  | fd_open (args : OpenArgs)
  | fd_openat (basefd : ℤ) (c : BitVec 8) (args : OpenArgs)
  | close (fd : ℤ)
  | dup2 (oldfd newfd : ℤ)
  | dup (oldfd : ℤ)
  | unlink (pathname : List Char) (c : BitVec 8)

/-- The value that is returned, and the error if `errno` is set. -/
structure FdAnswer where
  value : ℤ
  errno : Option FdErrno
deriving DecidableEq, Repr

def O_RDONLY : BitVec 32 := 0
def O_WRONLY : BitVec 32 := 1
def O_RDWR : BitVec 32 := 2
def O_ACCMODE : BitVec 32 := 3
def O_CREAT : BitVec 32 := 0x40
def O_EXCL : BitVec 32 := 0x80
def O_TRUNC : BitVec 32 := 0x200

def AT_FDCWD : ℤ := -100

/-- `flags & flag` as a condition. -/
def hasFlag (flags flag : BitVec 32) : Bool := flags &&& flag != 0

/-- `f2->flags &= ~eCloseOnExec`. -/
def ExeFile.keepOnExec (f : ExeFile) : ExeFile :=
  { f with flags := { f.flags with eCloseOnExec := false } }

namespace FdState

open FdErrno

/-- `errno = e; return -1;`. -/
def fail (s : FdState) (e : FdErrno) : FdAnswer × FdState := (⟨-1, some e⟩, s)

/-- `__exe_env.fds[fd] = f`. -/
def setFd (s : FdState) (fd : Fin MAX_FDS) (f : ExeFile) : FdState :=
  { s with fds := Function.update s.fds fd f }

/-- The loop for the first descriptor that is not open. -/
def free_fd (s : FdState) : Option (Fin MAX_FDS) :=
  Fin.find? fun fd => !(s.fds fd).flags.eOpen

/-! ## The files -/

/-- `dfile->stat`. -/
def stat (s : FdState) : DiskFilePtr → Option Stat64
  | .sym_files i => s.sym_files[i]?
  | .cp_files k => (s.cp_files[k]?.bind id).map Prod.snd
  | .sym_stdin | .sym_stdout => none

def setStat (s : FdState) (st : Stat64) : DiskFilePtr → FdState
  | .sym_files i => { s with sym_files := s.sym_files.set i st }
  | .cp_files k =>
      { s with cp_files := s.cp_files.modify k fun f => f.map fun f => (f.1, st) }
  | .sym_stdin | .sym_stdout => s

/-- `c == 'A' + (char) i`. -/
def isLetter (c : BitVec 8) (i : ℕ) : Bool := c.toInt == 65 + (BitVec.ofNat 8 i).toInt

/-- The loop over the symbolic files. -/
def sym_file (s : FdState) (c : BitVec 8) : Option DiskFilePtr :=
  ((List.range s.sym_files.length).find? (isLetter c)).bind fun i =>
    s.sym_files[i]?.bind fun st => if st.st_ino = 0 then none else some (.sym_files i)

/-- `__get_sym_file`. -/
def get_sym_file (s : FdState) (pathname : List Char) (c : BitVec 8) : Option DiskFilePtr :=
  if pathname = [] then none else s.sym_file c

/-- The file of a path that is concrete. It is found only when it is not there yet. -/
def cp_file (s : FdState) (a : OpenArgs) : Option (Option DiskFilePtr × FdState) :=
  if s.sym_parts.path ≠ some a.pathname then some (none, s)
  else if s.cp_files.any fun f => f.any fun f => f.1.path = a.pathname then some (none, s)
  else
    (MakeSymbolic.klee_create_cp_file a.os_file a.junk (s.cp_files.map Option.isSome) s.sym_parts
      a.pathname).map fun
    | none => (none, s)
    | some (k, file) =>
        (some (.cp_files k), { s with cp_files := s.cp_files.set k (some (file, a.dot)) })

/-- `__xqx_get_sym_file` with `cp_sym`. -/
def xqx_get_sym_file (s : FdState) (a : OpenArgs) : Option (Option DiskFilePtr × FdState) :=
  if a.pathname = [] then some (none, s)
  else if !a.is_symbolic then s.cp_file a
  else some (s.sym_file a.c, s)

/-! ## `open` -/

def R_ANY : BitVec 32 := 0x124
def W_ANY : BitVec 32 := 0x92

/-- `has_permission`. -/
def has_permission (flags : BitVec 32) (st : Stat64) : Bool :=
  let read_access := hasFlag flags O_RDONLY || hasFlag flags O_RDWR
  let write_access := hasFlag flags O_WRONLY || hasFlag flags O_RDWR
  if read_access && st.st_mode &&& R_ANY != 0 then false
  else if write_access && !(st.st_mode &&& W_ANY != 0) then false
  else true

/-- The flags of an entry that is opened. -/
def openFlags (flags : BitVec 32) : FileFlags :=
  if flags &&& O_ACCMODE = O_RDONLY then ⟨true, false, true, false⟩
  else if flags &&& O_ACCMODE = O_WRONLY then ⟨true, false, false, true⟩
  else ⟨true, false, true, true⟩

/-- `st_mode` after the file is opened. -/
def openMode (umask mode st_mode : BitVec 32) : BitVec 32 :=
  (st_mode &&& ~~~0x1FF) ||| (mode &&& ~~~umask)

/-- `__fd_open` for a file of the operating system. -/
def open_os (s : FdState) (a : OpenArgs) (fd : Fin MAX_FDS) : FdAnswer × FdState :=
  match a.os_fd with
  | none => s.fail klee_get_errno
  | some os_fd =>
      (⟨fd.val, none⟩, s.setFd fd { ExeFile.zero with fd := os_fd, flags := openFlags a.flags })

/-- `__fd_open` for a symbolic file. -/
def open_sym (s : FdState) (a : OpenArgs) (fd : Fin MAX_FDS) (df : DiskFilePtr) (st : Stat64) :
    FdAnswer × FdState :=
  let f : ExeFile := { ExeFile.zero with dfile := some df }
  let s := s.setFd fd f
  if hasFlag a.flags O_CREAT && hasFlag a.flags O_EXCL then s.fail EEXIST
  else if hasFlag a.flags O_TRUNC && hasFlag a.flags O_RDONLY then s.fail EACCES
  else if hasFlag a.flags O_EXCL && !hasFlag a.flags O_CREAT then s.fail EACCES
  else if !has_permission a.flags st then s.fail EACCES
  else
    let s := s.setStat { st with st_mode := openMode s.umask a.mode st.st_mode } df
    (⟨fd.val, none⟩, s.setFd fd { f with flags := openFlags a.flags })

/-- `__fd_open`. -/
def fd_open (s : FdState) (a : OpenArgs) : Option (FdAnswer × FdState) :=
  match s.free_fd with
  | none => some (s.fail EMFILE)
  | some fd =>
      ((s.setFd fd ExeFile.zero).xqx_get_sym_file a).bind fun (df, s) =>
        match df with
        | none => some (s.open_os a fd)
        | some df => (s.stat df).map fun st => s.open_sym a fd df st

/-- The rest of `__fd_openat`, after the base and the symbolic files. -/
def openat_os (s : FdState) (a : OpenArgs) : FdAnswer × FdState :=
  match s.free_fd with
  | none => s.fail EMFILE
  | some fd => (s.setFd fd ExeFile.zero).open_os a fd

/-- `__fd_openat`. -/
def fd_openat (s : FdState) (basefd : ℤ) (c : BitVec 8) (a : OpenArgs) :
    Option (FdAnswer × FdState) :=
  let rest : Option (FdAnswer × FdState) :=
    if (s.get_sym_file a.pathname c).isSome then s.fd_open a else some (s.openat_os a)
  if basefd = AT_FDCWD then rest
  else
    match s.fds.get_file basefd with
    | none => some (s.fail EBADF)
    | some bf => if (s.fds bf).dfile.isSome then some (s.fail ENOENT) else rest

/-! ## `close`, `dup2`, `dup` and `unlink` -/

/-- The call of `close` that is made to fail. -/
def closeFails (s : FdState) : Bool := s.max_failures != 0 && s.close_fail == s.n_calls

/-- `close`. -/
def close (s : FdState) (fd : ℤ) : FdAnswer × FdState :=
  let s := { s with n_calls := s.n_calls + 1 }
  match s.fds.get_file fd with
  | none => s.fail EBADF
  | some f =>
      if s.closeFails then { s with max_failures := s.max_failures - 1 }.fail EIO
      else (⟨0, none⟩, s.setFd f ExeFile.zero)

/-- `dup2`. The source is read after the target is closed. -/
def dup2 (s : FdState) (oldfd newfd : ℤ) : FdAnswer × FdState :=
  match s.fds.get_file oldfd with
  | none => s.fail EBADF
  | some f =>
      if h : 0 ≤ newfd ∧ newfd < MAX_FDS then
        let f2 : Fin MAX_FDS := ⟨newfd.toNat, Fds.toNat_lt h⟩
        let s := if (s.fds f2).flags.eOpen then (s.close newfd).2 else s
        (⟨newfd, none⟩, s.setFd f2 (s.fds f).keepOnExec)
      else s.fail EBADF

/-- `dup`. -/
def dup (s : FdState) (oldfd : ℤ) : FdAnswer × FdState :=
  match s.fds.get_file oldfd with
  | none => s.fail EBADF
  | some _ =>
      match s.free_fd with
      | none => s.fail EMFILE
      | some fd => s.dup2 oldfd fd.val

/-- `st_mode & S_IFMT`. -/
def fileType (st : Stat64) : BitVec 32 := st.st_mode &&& 0xF000

/-- `unlink`. -/
def unlink (s : FdState) (pathname : List Char) (c : BitVec 8) : FdAnswer × FdState :=
  match (s.get_sym_file pathname c).bind fun df => (s.stat df).map fun st => (df, st) with
  | none => s.fail EPERM
  | some (df, st) =>
      if fileType st = 0x8000 then (⟨0, none⟩, s.setStat { st with st_ino := 0 } df)
      else if fileType st = 0x4000 then s.fail EISDIR
      else s.fail EPERM

/-- One call. -/
def call (s : FdState) : FdCall → Option (FdAnswer × FdState)
  | .fd_open a => s.fd_open a
  | .fd_openat basefd c a => s.fd_openat basefd c a
  | .close fd => some (s.close fd)
  | .dup2 oldfd newfd => some (s.dup2 oldfd newfd)
  | .dup oldfd => some (s.dup oldfd)
  | .unlink pathname c => some (s.unlink pathname c)

end FdState

/-- `__exe_env.fds` at the start. `klee_init_fds` may make the first two symbolic. -/
def startFds (symStdin symStdout : Bool) : Fds := fun fd =>
  match fd.val with
  | 0 => ⟨0, ⟨true, false, true, false⟩, 0, if symStdin then some .sym_stdin else none⟩
  | 1 => ⟨1, ⟨true, false, false, true⟩, 0, if symStdout then some .sym_stdout else none⟩
  | 2 => ⟨2, ⟨true, false, true, true⟩, 0, none⟩
  | _ => ExeFile.zero

def XQX_CP_FILES : ℕ := 10

/-- The state that `klee_init_fds` leaves. -/
def FdState.init (symStdin symStdout : Bool) (sym_files : List Stat64) (sym_parts : XqxMakeSym)
    (max_failures close_fail : BitVec 32) : FdState :=
  { fds := startFds symStdin symStdout
    umask := 0x12
    sym_files := sym_files
    cp_files := List.replicate XQX_CP_FILES none
    sym_parts := sym_parts
    max_failures := max_failures
    close_fail := close_fail
    n_calls := 0 }

end Xklee
