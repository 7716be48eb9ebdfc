/-
What is expected of `__fd_open`, and the check of the access rights.

The file that an open is served by is what the lookup finds. It is expected to be the symbolic file
that the path names, and for the configured path the one that served it before. The condition on a
call is stated over what the call is given: the path, whether its first character is symbolic, the
variable `c` that is never set, the flags, and the modes of the files.
-/
import Xklee.POSIX.DescriptorTable

set_option autoImplicit false

namespace Xklee.FdState

/-! ## What is expected -/

/-- The letter that names a symbolic file. -/
def letter (i : ℕ) : Char := Char.ofNat ((65 + i) % 256)

/-- The symbolic file that a path names. -/
def named (s : FdState) (pathname : List Char) : Option ℕ :=
  (List.range s.sym_files.length).find? fun i => pathname = [letter i]

/-- The symbolic file is there, and not unlinked. -/
def Linked (s : FdState) (i : ℕ) : Prop := ∃ st, s.sym_files[i]? = some st ∧ st.st_ino ≠ 0

/-- The path is the configured one. -/
def Configured (s : FdState) (pathname : List Char) : Prop := s.sym_parts.path = some pathname

instance (s : FdState) (pathname : List Char) : Decidable (s.Configured pathname) :=
  inferInstanceAs (Decidable (_ = _))

def reads (flags : BitVec 32) : Prop := flags &&& O_ACCMODE ≠ O_WRONLY

def writes (flags : BitVec 32) : Prop := flags &&& O_ACCMODE ≠ O_RDONLY

/-- Some class of users may read the file. -/
def Readable (st : Stat64) : Prop := st.st_mode &&& R_ANY ≠ 0

/-- Some class of users may write the file. -/
def Writeable (st : Stat64) : Prop := st.st_mode &&& W_ANY ≠ 0

/-- The access that is asked for is allowed. -/
def Allowed (flags : BitVec 32) (st : Stat64) : Prop :=
  (reads flags → Readable st) ∧ (writes flags → Writeable st)

/-- No stat that is there changes. -/
def StatsKept (s s' : FdState) : Prop := ∀ f st, s.stat f = some st → s'.stat f = some st

/-- What is expected of `__fd_open` with a result, where `contents` is the file that has served the
configured path before. -/
structure OpenRight (s : FdState) (contents : Option DiskFilePtr) (a : OpenArgs) (r : FdAnswer)
    (s' : FdState) : Prop where
  served : s.free_fd.isSome = true → ∃ df s₁, s.xqx_get_sym_file a = some (df, s₁)
    ∧ (∀ i, df = some (.sym_files i) ↔ s.named a.pathname = some i ∧ s.Linked i)
    ∧ (s.Configured a.pathname → ∀ o, contents = some o → df = some o)
    ∧ (∀ f st, df = some f → s₁.stat f = some st → hasFlag a.flags O_EXCL = false →
      (r.value ≠ -1 ↔ Allowed a.flags st))
    ∧ (r.value ≠ -1 → ∃ e, s'.entry r.value = some e ∧ e.dfile = df)
  failed : r.value = -1 → (∀ d, s'.entry d = s.entry d) ∧ StatsKept s s'
  table : ∀ d, d ≠ r.value → s'.entry d = s.entry d
  kept : hasFlag a.flags O_CREAT = false → StatsKept s s'

/-! ## The condition -/

/-- The symbolic file whose letter the variable `c` holds. -/
def found (s : FdState) (c : BitVec 8) : Option ℕ :=
  (List.range s.sym_files.length).find? (isLetter c)

/-- Where the check of the access rights is right: a file is opened for writing only, or for
reading only when it is readable, or for both when it is not writeable. -/
def CheckRight (flags : BitVec 32) (st : Stat64) : Prop :=
  flags &&& O_ACCMODE = O_WRONLY ∨ (flags &&& O_ACCMODE = O_RDONLY ∧ Readable st)
    ∨ (reads flags ∧ writes flags ∧ ¬Writeable st)

/-- The mode asked for, less the umask, has no bit that the mode of the file lacks, and all its
permission bits. -/
def SameMode (umask mode st_mode : BitVec 32) : Prop :=
  (mode &&& ~~~umask) &&& ~~~st_mode = 0 ∧ (st_mode &&& 0x1FF) &&& ~~~(mode &&& ~~~umask) = 0

/-- An open of a file that is there. -/
def AccessOk (s : FdState) (a : OpenArgs) (st : Stat64) : Prop :=
  hasFlag a.flags O_EXCL = true ∨ (CheckRight a.flags st
    ∧ (Allowed a.flags st → hasFlag a.flags O_CREAT = false → SameMode s.umask a.mode st.st_mode))

/-- The path names no symbolic file that is linked. -/
def Unnamed (s : FdState) (pathname : List Char) : Prop :=
  ∀ i, s.named pathname = some i → ¬s.Linked i

/-- The configured path has not been served yet. -/
def Unserved (s : FdState) (contents : Option DiskFilePtr) (pathname : List Char) : Prop :=
  s.Configured pathname → contents = none

/-- The condition on an open. -/
def OpenOk (s : FdState) (contents : Option DiskFilePtr) (a : OpenArgs) : Prop :=
  s.free_fd.isSome = true →
    if a.pathname = [] then Unserved s contents a.pathname
    else if a.is_symbolic = true then
      (∀ i, s.found a.c = some i ∧ s.Linked i ↔ s.named a.pathname = some i ∧ s.Linked i)
        ∧ (s.Configured a.pathname → ∀ o, contents = some o →
          ∃ i, o = .sym_files i ∧ s.found a.c = some i ∧ s.Linked i)
        ∧ ∀ i st, s.found a.c = some i → s.sym_files[i]? = some st → st.st_ino ≠ 0 → AccessOk s a st
    else if s.Configured a.pathname
        ∧ (s.cp_files.any fun f => f.any fun f => f.1.path = a.pathname) = false then
      ∀ created, MakeSymbolic.klee_create_cp_file a.os_file a.junk (s.cp_files.map Option.isSome)
          s.sym_parts a.pathname = some created →
        s.Unnamed a.pathname ∧ s.Unserved contents a.pathname
          ∧ (created.isSome = true → hasFlag a.flags O_EXCL = true ∨ CheckRight a.flags a.dot)
    else s.Unnamed a.pathname ∧ s.Unserved contents a.pathname

/-! ## Access rights -/

/-- The two lower bits say the access that is asked for. -/
theorem accmode_cases (flags : BitVec 32) :
    (flags &&& O_ACCMODE = O_RDONLY ∧ hasFlag flags O_WRONLY = false
        ∧ hasFlag flags O_RDWR = false)
      ∨ (flags &&& O_ACCMODE = O_WRONLY ∧ hasFlag flags O_WRONLY = true
        ∧ hasFlag flags O_RDWR = false)
      ∨ (reads flags ∧ writes flags ∧ hasFlag flags O_RDWR = true) := by
  have hlow : ∀ flag : BitVec 32, O_ACCMODE &&& flag = flag →
      flags &&& flag = flags &&& O_ACCMODE &&& flag := by
    intro flag hflag
    rw [BitVec.and_assoc, hflag]
  have h1 := hlow O_WRONLY (by decide)
  have h2 := hlow O_RDWR (by decide)
  have hlt : (flags &&& O_ACCMODE).toNat < 4 := by
    have hmod : (flags &&& O_ACCMODE).toNat = flags.toNat % 4 :=
      (BitVec.toNat_and ..).trans (Nat.and_two_pow_sub_one_eq_mod flags.toNat 2)
    omega
  unfold reads writes hasFlag
  rw [h1, h2]
  generalize flags &&& O_ACCMODE = acc at hlt
  obtain ⟨n, rfl⟩ : ∃ n : Fin 4, acc = BitVec.ofNat 32 n.val := by
    refine ⟨⟨acc.toNat, hlt⟩, BitVec.eq_of_toNat_eq ?_⟩
    rw [BitVec.toNat_ofNat]
    exact (Nat.mod_eq_of_lt (Nat.lt_trans hlt (by decide))).symm
  clear h1 h2 hlt
  revert n
  decide

theorem hasFlag_RDONLY (flags : BitVec 32) : hasFlag flags O_RDONLY = false := by
  simp [hasFlag, O_RDONLY]

/-- What the check tests: reading only when also writing, and then the wrong way around. -/
theorem has_permission_iff (flags : BitVec 32) (st : Stat64) : has_permission flags st = true
    ↔ (reads flags → writes flags → ¬Readable st) ∧ (writes flags → Writeable st) := by
  unfold has_permission Readable Writeable
  rw [hasFlag_RDONLY]
  rcases accmode_cases flags with ⟨hacc, h1, h2⟩ | ⟨hacc, h1, h2⟩ | ⟨hr, hw, h2⟩
  · have hw : ¬writes flags := fun h => h hacc
    simp [h1, h2, hw]
  · have hr : ¬reads flags := fun h => h hacc
    have hw : writes flags := by
      unfold writes
      rw [hacc]
      decide
    simp [h1, h2, hr, hw]
  · simp [h2, hr, hw]

/-- Where the check is right. -/
theorem checkRight_iff (flags : BitVec 32) (st : Stat64) :
    (has_permission flags st = true ↔ Allowed flags st) ↔ CheckRight flags st := by
  rw [has_permission_iff]
  unfold Allowed CheckRight
  rcases accmode_cases flags with ⟨hacc, -, -⟩ | ⟨hacc, -, -⟩ | ⟨hr, hw, -⟩
  · have hw : ¬writes flags := fun h => h hacc
    have hr : reads flags := by
      unfold reads
      rw [hacc]
      decide
    have hne : O_RDONLY ≠ O_WRONLY := by decide
    simp [hacc, hw, hr, hne]
  · have hr : ¬reads flags := fun h => h hacc
    have hw : writes flags := by
      unfold writes
      rw [hacc]
      decide
    simp [hacc, hw, hr]
  · have hne : flags &&& O_ACCMODE ≠ O_WRONLY := hr
    have hne' : flags &&& O_ACCMODE ≠ O_RDONLY := hw
    simp only [hr, hw, hne, hne', true_implies, false_or, false_and, true_and]
    by_cases hR : Readable st <;> by_cases hW : Writeable st <;> simp [hR, hW]

/-- When the mode stays as it is. -/
theorem sameMode_iff (umask mode st_mode : BitVec 32) :
    openMode umask mode st_mode = st_mode ↔ SameMode umask mode st_mode := by
  unfold openMode SameMode
  generalize mode &&& ~~~umask = x
  have hbit : ∀ m c x : Bool, (m && !c || x) = m ↔ (x && !m) = false ∧ (m && c && !x) = false := by
    decide
  have hbits : ∀ i (hi : i < 32), ((st_mode &&& ~~~0x1FF) ||| x)[i] = st_mode[i]
      ↔ (x &&& ~~~st_mode)[i] = (0 : BitVec 32)[i]
        ∧ ((st_mode &&& 0x1FF) &&& ~~~x)[i] = (0 : BitVec 32)[i] := by
    intro i hi
    simp only [BitVec.getElem_and, BitVec.getElem_or, BitVec.getElem_not, BitVec.getElem_zero,
      BitVec.ofNat_eq_ofNat]
    exact hbit _ _ _
  constructor
  · intro h
    exact ⟨BitVec.eq_of_getElem_eq fun i hi => ((hbits i hi).mp (by rw [h])).1,
      BitVec.eq_of_getElem_eq fun i hi => ((hbits i hi).mp (by rw [h])).2⟩
  · rintro ⟨h1, h2⟩
    exact BitVec.eq_of_getElem_eq fun i hi => (hbits i hi).mpr ⟨by rw [h1], by rw [h2]⟩

end Xklee.FdState
