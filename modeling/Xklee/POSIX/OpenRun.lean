/-
Runs of opens, closes, duplicates and unlinks: each open finds the right file and respects its
permissions exactly on the condition of `OpenAccess`.

Beside the state stands the file that has served the configured path. Files that are made stay.
-/
import Xklee.POSIX.OpenFile

set_option autoImplicit false

namespace Xklee.FdState

variable {s s₁ s₂ s' : FdState} {a : OpenArgs}

/-! ## The machine -/

/-- The call of `__fd_open` that a call makes. -/
def openCall (s : FdState) : FdCall → Option OpenArgs
  | .fd_open a => some a
  | .fd_openat basefd c a =>
      let rest := if (s.get_sym_file a.pathname c).isSome then some a else none
      if basefd = AT_FDCWD then rest
      else
        match s.fds.get_file basefd with
        | none => none
        | some bf => if (s.fds bf).dfile.isSome then none else rest
  | _ => none

/-- The file that serves an open of the configured path. -/
def serving (s : FdState) (c : FdCall) : Option DiskFilePtr :=
  (s.openCall c).bind fun a =>
    if s.free_fd.isSome = true ∧ s.Configured a.pathname then
      (s.xqx_get_sym_file a).bind Prod.fst
    else none

/-- A call, with the first file that has served the configured path. -/
def serve (x : FdState × Option DiskFilePtr) (c : FdCall) :
    Option (FdAnswer × (FdState × Option DiskFilePtr)) :=
  (x.1.call c).map fun r => (r.1, (r.2, x.2.or (x.1.serving c)))

/-- The call of `__fd_open`, if there is one and it comes to its end, does what is expected. -/
def OpensRight (x : FdState × Option DiskFilePtr) (c : FdCall) : Prop :=
  ∀ a, x.1.openCall c = some a → ∀ r s', x.1.call c = some (r, s') → OpenRight x.1 x.2 a r s'

/-- The call of `__fd_open`, if there is one, meets the condition. -/
def OpensOk (x : FdState × Option DiskFilePtr) (c : FdCall) : Prop :=
  ∀ a, x.1.openCall c = some a → OpenOk x.1 x.2 a

variable {c : FdCall} {df : Option DiskFilePtr} {fd : Fin MAX_FDS} {r : FdAnswer}

theorem call_eq_fd_open (h : s.openCall c = some a) : s.call c = s.fd_open a := by
  cases c with
  | fd_open a' =>
      cases h
      rfl
  | fd_openat basefd c a' =>
      unfold openCall at h
      show s.fd_openat basefd c a' = _
      unfold fd_openat
      dsimp only at h ⊢
      have hrest : (if (s.get_sym_file a'.pathname c).isSome = true then some a' else none) = some a →
          (if (s.get_sym_file a'.pathname c).isSome = true then s.fd_open a'
            else some (s.openat_os a')) = s.fd_open a := by
        intro h
        split at h
        next hsome =>
          cases h
          rw [if_pos hsome]
        next => cases h
      split at h
      next hcwd =>
        rw [if_pos hcwd]
        exact hrest h
      next hcwd =>
        rw [if_neg hcwd]
        cases hbf : s.fds.get_file basefd with
        | none =>
            rw [hbf] at h
            cases h
        | some bf =>
            rw [hbf] at h
            dsimp only at h ⊢
            split at h
            · cases h
            next hdfile =>
              rw [if_neg hdfile]
              exact hrest h
  | close | dup2 | dup | unlink => cases h

/-! ## Files that are made stay -/

/-- The configured path is the same, and the files that are there stay. -/
def FilesKept (s s' : FdState) : Prop :=
  s'.sym_parts = s.sym_parts ∧ ∀ (k : ℕ) (file : CpFile) (st : Stat64),
    s.cp_files[k]? = some (some (file, st)) → ∃ st', s'.cp_files[k]? = some (some (file, st'))

theorem filesKept_of_eq (hparts : s'.sym_parts = s.sym_parts) (hfiles : s'.cp_files = s.cp_files) :
    FilesKept s s' := by
  refine ⟨hparts, fun k file st h => ⟨st, ?_⟩⟩
  rw [hfiles]
  exact h

theorem FilesKept.trans (h₁ : FilesKept s s₁) (h₂ : FilesKept s₁ s₂) : FilesKept s s₂ := by
  refine ⟨h₂.1.trans h₁.1, fun k file st h => ?_⟩
  obtain ⟨st₁, h⟩ := h₁.2 k file st h
  exact h₂.2 k file st₁ h

theorem setStat_filesKept (s : FdState) (st : Stat64) (f : DiskFilePtr) :
    FilesKept s (s.setStat st f) := by
  cases f with
  | cp_files k =>
      refine ⟨rfl, fun j file st' h => ?_⟩
      show ∃ st'', (s.cp_files.modify k _)[j]? = _
      by_cases hjk : k = j
      · subst hjk
        refine ⟨st, ?_⟩
        rw [List.getElem?_modify_eq, h]
        rfl
      · refine ⟨st', ?_⟩
        rw [List.getElem?_modify_ne _ _ hjk]
        exact h
  | sym_stdin | sym_stdout | sym_files => exact filesKept_of_eq rfl rfl

theorem lookup_filesKept (hget : s.xqx_get_sym_file a = some (df, s₁)) :
    FilesKept s s₁ := by
  rcases lookup_cases hget with ⟨rfl, -⟩ | ⟨k, file, -, hk, -, rfl⟩
  · exact filesKept_of_eq rfl rfl
  · refine ⟨rfl, fun j file' st h => ⟨st, ?_⟩⟩
    have hne : k ≠ j := by
      rintro rfl
      rw [hk] at h
      cases h
    exact (List.getElem?_set_ne hne).trans h

theorem open_os_filesKept (s : FdState) (a : OpenArgs) (fd : Fin MAX_FDS) :
    FilesKept s (s.open_os a fd).2 := by
  unfold open_os
  cases a.os_fd <;> exact filesKept_of_eq rfl rfl

theorem open_sym_filesKept (s : FdState) (a : OpenArgs) (fd : Fin MAX_FDS) (f : DiskFilePtr)
    (st : Stat64) : FilesKept s (s.open_sym a fd f st).2 := by
  by_cases hfails : hasFlag a.flags O_EXCL = true ∨ has_permission a.flags st = false
  · obtain ⟨e, heq⟩ := open_sym_fails s fd f hfails
    rw [heq]
    exact filesKept_of_eq rfl rfl
  · push Not at hfails
    rw [open_sym_succeeds s fd f ((Bool.not_eq_true _).mp hfails.1) (by simpa using hfails.2)]
    let f' : ExeFile := { ExeFile.zero with dfile := some f }
    have hset : FilesKept s (s.setFd fd f') := filesKept_of_eq rfl rfl
    exact hset.trans ((setStat_filesKept _ _ f).trans (filesKept_of_eq rfl rfl))

/-- After the lookup a call of `__fd_open` keeps the files. -/
theorem fd_open_filesKept (hfree : s.free_fd = some fd)
    (hget : s.xqx_get_sym_file a = some (df, s₁)) (hopen : s.fd_open a = some (r, s')) :
    FilesKept s₁ s' := by
  have hset : FilesKept s₁ (s₁.setFd fd ExeFile.zero) := filesKept_of_eq rfl rfl
  cases df with
  | none =>
      rw [fd_open_os hfree hget] at hopen
      obtain ⟨rfl, rfl⟩ := eq_of_some hopen
      exact hset.trans (open_os_filesKept ..)
  | some f =>
      rw [fd_open_sym hfree hget] at hopen
      obtain ⟨st, -, heq⟩ := Option.map_eq_some_iff.mp hopen
      obtain ⟨rfl, rfl⟩ := eq_of_some (congrArg some heq)
      exact hset.trans (open_sym_filesKept ..)

/-- What a call of `__fd_open` looks up. -/
theorem exists_lookup (hfree : s.free_fd = some fd) (hopen : s.fd_open a = some (r, s')) :
    ∃ df s₁, s.xqx_get_sym_file a = some (df, s₁) := by
  unfold fd_open at hopen
  rw [hfree] at hopen
  obtain ⟨x, hx, -⟩ := Option.bind_eq_some_iff.mp hopen
  rw [xqx_get_sym_file_setFd] at hx
  obtain ⟨⟨df, s₁⟩, hget, -⟩ := Option.map_eq_some_iff.mp hx
  exact ⟨df, s₁, hget⟩

theorem close_filesKept (s : FdState) (fd : ℤ) : FilesKept s (s.close fd).2 := by
  unfold close
  dsimp only
  split
  · exact filesKept_of_eq rfl rfl
  · split <;> exact filesKept_of_eq rfl rfl

theorem dup2_filesKept (s : FdState) (oldfd newfd : ℤ) : FilesKept s (s.dup2 oldfd newfd).2 := by
  unfold dup2
  split
  · exact filesKept_of_eq rfl rfl
  · split
    · dsimp only
      split
      · exact (close_filesKept s newfd).trans (filesKept_of_eq rfl rfl)
      · exact filesKept_of_eq rfl rfl
    · exact filesKept_of_eq rfl rfl

/-- Every call keeps the files. -/
theorem call_filesKept (h : s.call c = some (r, s')) :
    FilesKept s s' := by
  have hrefl : FilesKept s s := filesKept_of_eq rfl rfl
  have hopen : ∀ {a : OpenArgs}, s.fd_open a = some (r, s') → FilesKept s s' := by
    intro a hopen
    cases hfree : s.free_fd with
    | none =>
        unfold fd_open at hopen
        rw [hfree] at hopen
        obtain ⟨rfl, rfl⟩ := eq_of_some hopen
        exact hrefl
    | some fd =>
        obtain ⟨df, s₁, hget⟩ := exists_lookup hfree hopen
        exact (lookup_filesKept hget).trans (fd_open_filesKept hfree hget hopen)
  cases c with
  | fd_open a => exact hopen h
  | fd_openat basefd c a =>
      have hrest : (if (s.get_sym_file a.pathname c).isSome = true then s.fd_open a
          else some (s.openat_os a)) = some (r, s') → FilesKept s s' := by
        intro heq
        split at heq
        · exact hopen heq
        · obtain ⟨rfl, rfl⟩ := eq_of_some heq
          unfold openat_os
          split
          · exact hrefl
          next fd _ =>
            have hset : FilesKept s (s.setFd fd ExeFile.zero) := filesKept_of_eq rfl rfl
            exact hset.trans (open_os_filesKept ..)
      have hopenat : s.fd_openat basefd c a = some (r, s') := h
      unfold fd_openat at hopenat
      dsimp only at hopenat
      split at hopenat
      · exact hrest hopenat
      · split at hopenat
        · obtain ⟨rfl, rfl⟩ := eq_of_some hopenat
          exact hrefl
        · split at hopenat
          · obtain ⟨rfl, rfl⟩ := eq_of_some hopenat
            exact hrefl
          · exact hrest hopenat
  | close fd =>
      obtain ⟨rfl, rfl⟩ := eq_of_some h
      exact close_filesKept s fd
  | dup2 oldfd newfd =>
      obtain ⟨rfl, rfl⟩ := eq_of_some h
      exact dup2_filesKept s oldfd newfd
  | dup oldfd =>
      obtain ⟨rfl, rfl⟩ := eq_of_some h
      unfold dup
      split
      · exact hrefl
      · split
        · exact hrefl
        · exact dup2_filesKept ..
  | unlink pathname c =>
      obtain ⟨rfl, rfl⟩ := eq_of_some h
      unfold unlink
      split
      · exact hrefl
      · split
        · exact setStat_filesKept ..
        · split <;> exact hrefl

/-! ## Runs -/

/-- A call keeps the record of the configured path. -/
theorem recorded_serve {x x' : FdState × Option DiskFilePtr} (hx : Recorded x.1 x.2)
    (h : serve x c = some (r, x')) : Recorded x'.1 x'.2 := by
  obtain ⟨s, contents⟩ := x
  obtain ⟨⟨r', s'⟩, hcall, heq⟩ := Option.map_eq_some_iff.mp h
  cases heq
  have hkept := call_filesKept hcall
  have hstay : ∀ (k : ℕ) (file : CpFile) (st : Stat64), s.cp_files[k]? = some (some (file, st)) →
      s.Configured file.path →
        ∃ file st, s'.cp_files[k]? = some (some (file, st)) ∧ s'.Configured file.path := by
    intro k file st hk hconf
    obtain ⟨st', hst'⟩ := hkept.2 k file st hk
    refine ⟨file, st', hst', ?_⟩
    unfold Configured
    rw [hkept.1]
    exact hconf
  intro k hcontents
  dsimp only at hcontents hx ⊢
  cases contents with
  | some f =>
      obtain ⟨file, st, hk, hconf⟩ := hx k hcontents
      exact hstay k file st hk hconf
  | none =>
      -- The call itself serves the path, and makes the file.
      have hserving : s.serving c = some (.cp_files k) := hcontents
      obtain ⟨a, ha, hserving⟩ := Option.bind_eq_some_iff.mp hserving
      split at hserving
      next hif =>
        obtain ⟨fd, hfree⟩ := Option.isSome_iff_exists.mp hif.1
        obtain ⟨⟨df, s₁⟩, hget, rfl : df = _⟩ := Option.bind_eq_some_iff.mp hserving
        rw [call_eq_fd_open ha] at hcall
        have hkept₁ := fd_open_filesKept hfree hget hcall
        rcases lookup_cases hget with ⟨-, hne⟩ | ⟨k', file, hk', hunused, hpath, rfl⟩
        · exact absurd rfl (hne k)
        · obtain rfl := DiskFilePtr.cp_files.inj (Option.some.inj hk')
          obtain ⟨hlt, -⟩ := List.getElem?_eq_some_iff.mp hunused
          obtain ⟨st', hst'⟩ := hkept₁.2 k file a.dot (List.getElem?_set_self hlt)
          refine ⟨file, st', hst', ?_⟩
          unfold Configured
          rw [hkept₁.1, hpath]
          exact hif.2
      next => cases hserving

/-- Along a run every open does what is expected exactly when every open meets the condition. -/
theorem opens_right_iff (s : FdState) (cs : List FdCall) :
    AllCalls serve OpensRight (s, none) cs ↔ AllCalls serve OpensOk (s, none) cs := by
  have hiff : ∀ (x : FdState × Option DiskFilePtr) (c : FdCall), Recorded x.1 x.2 →
      (OpensRight x c ↔ OpensOk x c) := by
    intro x c hx
    refine forall_congr' fun a => forall_congr' fun ha => ?_
    rw [call_eq_fd_open ha]
    exact openRight_iff hx
  have hstart : Recorded s none := by
    intro k h
    cases h
  exact allCalls_congr hiff (fun x c r x' hx _ h => recorded_serve hx h) hstart cs

/-- The path `A` names the first symbolic file, and is not found. -/
theorem not_opens_right_A : ¬ AllCalls serve OpensRight
    (init false false [⟨1, 0x81A4⟩] ⟨none, 0, .fill_sym, fun _ => ⟨0, 0⟩⟩ 0 0, none)
    [.fd_open ⟨['A'], false, 0, O_RDONLY, 0, none, none, fun _ => 0, ⟨2, 0x41ED⟩⟩] := by
  rintro ⟨hright, -⟩
  obtain ⟨df, s₁, hget, hnamed, -⟩ := (hright _ rfl _ _ rfl).served (by decide)
  have hdf : df = some (.sym_files 0) := (hnamed 0).mpr ⟨by decide, _, rfl, by decide⟩
  subst hdf
  cases hget

end Xklee.FdState
