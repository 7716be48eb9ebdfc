/-
The table of descriptors over whole runs.

A call changes at most one entry of an open descriptor, which its spec lemma names. The one call
that goes wrong is `dup2` of a descriptor on itself: the entry is closed before it is copied.
-/
import Mathlib.Data.Fin.Tuple.Basic
import Mathlib.Tactic.Common
import Xklee.Data.Run
import Xklee.POSIX.Descriptors

set_option autoImplicit false

namespace Xklee

namespace FdState

/-! ## What is expected -/

/-- The entry of a descriptor that is open. -/
def entry (s : FdState) (d : ℤ) : Option ExeFile := (s.fds.get_file d).map s.fds

/-- The descriptors that are open after some calls with their results, the last one first. -/
def Opened : List (FdCall × ℤ) → ℤ → Prop
  | [], d => d = 0 ∨ d = 1 ∨ d = 2
  | (c, r) :: history, d =>
      if r = -1 then Opened history d
      else
        match c with
        | .close fd => Opened history d ∧ d ≠ fd
        | .unlink _ _ => Opened history d
        | _ => Opened history d ∨ d = r

/-- The calls that return a new descriptor. -/
def isOpening : FdCall → Bool
  | .fd_open _ | .fd_openat _ _ _ | .dup _ => true
  | _ => false

/-- Two entries are on the same file at the same offset. -/
def SameFile (f g : ExeFile) : Prop := f.fd = g.fd ∧ f.dfile = g.dfile ∧ f.off = g.off

/-- What is expected of a call that takes the table from `s` to `s'` with a result. -/
structure CallRight (s s' : FdState) (history : List (FdCall × ℤ)) (c : FdCall) (r : ℤ) : Prop where
  opened : ∀ d, (s'.entry d).isSome = true ↔ Opened ((c, r) :: history) d
  lowest : isOpening c = true → r ≠ -1 →
    0 ≤ r ∧ r < MAX_FDS ∧ s.entry r = none ∧ ∀ d, 0 ≤ d → d < r → (s.entry d).isSome = true
  duplicated : ∀ oldfd newfd, c = .dup2 oldfd newfd → r ≠ -1 → r = newfd
    ∧ ∃ f g h, s.entry oldfd = some f ∧ s'.entry oldfd = some g ∧ s'.entry newfd = some h
      ∧ SameFile g f ∧ SameFile h f
  failed : r = -1 → ∀ d, s'.entry d = s.entry d

/-- A call, and its result added to the history. -/
def record (x : FdState × List (FdCall × ℤ)) (c : FdCall) :
    Option (FdAnswer × (FdState × List (FdCall × ℤ))) :=
  (x.1.call c).map fun r => (r.1, (r.2, (c, r.1.value) :: x.2))

/-- The call, if it comes to its end, does what is expected. -/
def Right (x : FdState × List (FdCall × ℤ)) (c : FdCall) : Prop :=
  ∀ r s', x.1.call c = some (r, s') → CallRight x.1 s' x.2 c r.value

/-- The call is no `dup2` of an open descriptor on itself, or the call of `close` in it fails. -/
def Safe (s : FdState) : FdCall → Prop
  | .dup2 oldfd newfd => oldfd = newfd → (s.entry oldfd).isSome = true →
      { s with n_calls := s.n_calls + 1 }.closeFails = true
  | _ => True

/-! ## Entries -/

variable {s s' : FdState} {d : ℤ} {f : ExeFile}

theorem entry_congr (h : s'.fds = s.fds) (d : ℤ) : s'.entry d = s.entry d := by
  unfold entry
  rw [h]

theorem entry_eq_some : s.entry d = some f
    ↔ ∃ i : Fin MAX_FDS, d = i.val ∧ s.fds i = f ∧ f.flags.eOpen = true := by
  unfold entry
  rw [Option.map_eq_some_iff]
  constructor
  · rintro ⟨i, hi, rfl⟩
    obtain ⟨hd, hopen⟩ := Fds.get_file_eq_some.mp hi
    exact ⟨i, hd, rfl, hopen⟩
  · rintro ⟨i, hd, rfl, hopen⟩
    exact ⟨i, Fds.get_file_eq_some.mpr ⟨hd, hopen⟩, rfl⟩

/-- The entry of a number in the table. -/
theorem entry_val (s : FdState) (i : Fin MAX_FDS) :
    s.entry i.val = if (s.fds i).flags.eOpen = true then some (s.fds i) else none := by
  by_cases hopen : (s.fds i).flags.eOpen = true
  · rw [if_pos hopen]
    exact entry_eq_some.mpr ⟨i, rfl, rfl, hopen⟩
  · rw [if_neg hopen]
    refine Option.eq_none_iff_forall_ne_some.mpr fun f hf => hopen ?_
    obtain ⟨j, hj, rfl, hfopen⟩ := entry_eq_some.mp hf
    obtain rfl : i = j := Fin.ext (by omega)
    exact hfopen

/-- One entry is replaced. -/
theorem entry_setFd (s : FdState) (i : Fin MAX_FDS) (f : ExeFile) (d : ℤ) :
    (s.setFd i f).entry d
      = if d = i.val then (if f.flags.eOpen = true then some f else none) else s.entry d := by
  by_cases hd : d = i.val
  · rw [if_pos hd, hd, entry_val]
    unfold setFd
    simp only [Function.update_self]
  · rw [if_neg hd]
    refine Option.ext fun g => ?_
    rw [entry_eq_some, entry_eq_some]
    refine exists_congr fun j => and_congr_right fun hj => ?_
    have hne : j ≠ i := by
      rintro rfl
      exact hd hj
    show Function.update s.fds i f j = g ∧ _ ↔ _
    rw [Function.update_of_ne hne]

variable {i fd : Fin MAX_FDS} {r : FdAnswer} {a : OpenArgs} {df : Option DiskFilePtr} {s₁ : FdState}
  {oldfd newfd : ℤ}

/-- An entry that is not open is replaced by another one. -/
theorem entry_setFd_closed (hfree : (s.fds i).flags.eOpen = false) (hf : f.flags.eOpen = false)
    (d : ℤ) : (s.setFd i f).entry d = s.entry d := by
  rw [entry_setFd]
  by_cases hd : d = i.val
  · rw [if_pos hd, hd, entry_val, if_neg (by rw [hf]; decide), if_neg (by rw [hfree]; decide)]
  · rw [if_neg hd]

/-- The first descriptor that is not open. -/
theorem free_fd_eq_some (h : s.free_fd = some fd) :
    (s.fds fd).flags.eOpen = false ∧ ∀ i < fd, (s.fds i).flags.eOpen = true := by
  obtain ⟨hfree, hless⟩ := Fin.find?_eq_some_iff.mp h
  refine ⟨by simpa using hfree, fun i hi => ?_⟩
  simpa using hless i hi

/-! ## The calls -/

theorem eq_of_some {x : FdAnswer × FdState} (h : some x = some (r, s')) :
    r = x.1 ∧ s' = x.2 := by
  cases h
  exact ⟨rfl, rfl⟩

/-- What a call that opens a descriptor does to the table. -/
def OpenSpec (s : FdState) (r : FdAnswer) (s' : FdState) : Prop :=
  (r.value = -1 ∧ ∀ d, s'.entry d = s.entry d)
    ∨ ∃ fd : Fin MAX_FDS, s.free_fd = some fd ∧ r.value = fd.val ∧ ∃ f, f.flags.eOpen = true
      ∧ ∀ d, s'.entry d = if d = fd.val then some f else s.entry d

theorem cp_file_fds (h : s.cp_file a = some (df, s')) :
    s'.fds = s.fds := by
  unfold cp_file at h
  split at h
  · cases h
    rfl
  · split at h
    · cases h
      rfl
    · obtain ⟨r, -, hr⟩ := Option.map_eq_some_iff.mp h
      cases r with
      | none =>
          cases hr
          rfl
      | some r =>
          cases hr
          rfl

/-- The lookup leaves the table as it is. -/
theorem xqx_get_sym_file_fds (h : s.xqx_get_sym_file a = some (df, s')) : s'.fds = s.fds := by
  unfold xqx_get_sym_file at h
  split at h
  · cases h
    rfl
  · split at h
    · exact cp_file_fds h
    · cases h
      rfl

theorem setStat_fds (s : FdState) (st : Stat64) (df : DiskFilePtr) :
    (s.setStat st df).fds = s.fds := by
  cases df <;> rfl

theorem openFlags_open (flags : BitVec 32) : (openFlags flags).eOpen = true := by
  unfold openFlags
  split
  · rfl
  · split <;> rfl

/-- A file of the operating system on a descriptor that was free. -/
theorem open_os_spec (hfree : s.free_fd = some fd)
    (hfds : s₁.fds = Function.update s.fds fd ExeFile.zero) (a : OpenArgs) :
    OpenSpec s (s₁.open_os a fd).1 (s₁.open_os a fd).2 := by
  have hentry : ∀ d, s₁.entry d = s.entry d := fun d =>
    (entry_congr (s := s.setFd fd ExeFile.zero) hfds d).trans
      (entry_setFd_closed (free_fd_eq_some hfree).1 rfl d)
  unfold open_os
  cases a.os_fd with
  | none => exact Or.inl ⟨rfl, hentry⟩
  | some os_fd =>
      let f : ExeFile := { ExeFile.zero with fd := os_fd, flags := openFlags a.flags }
      have hopen : f.flags.eOpen = true := openFlags_open a.flags
      refine Or.inr ⟨fd, hfree, rfl, f, hopen, fun d => ?_⟩
      show (s₁.setFd fd f).entry d = _
      rw [entry_setFd, if_pos hopen, hentry]

/-- A symbolic file on a descriptor that was free. -/
theorem open_sym_spec (hfree : s.free_fd = some fd)
    (hfds : s₁.fds = Function.update s.fds fd ExeFile.zero) (a : OpenArgs) (df : DiskFilePtr)
    (st : Stat64) : OpenSpec s (s₁.open_sym a fd df st).1 (s₁.open_sym a fd df st).2 := by
  let f : ExeFile := { ExeFile.zero with dfile := some df }
  have hfail : ∀ d, (s₁.setFd fd f).entry d = s.entry d := by
    intro d
    have hzero : (s₁.fds fd).flags.eOpen = false := by
      rw [hfds, Function.update_self]
      rfl
    rw [entry_setFd_closed hzero rfl, entry_congr (s := s.setFd fd ExeFile.zero) hfds,
      entry_setFd_closed (free_fd_eq_some hfree).1 rfl]
  unfold open_sym
  dsimp only
  split
  · exact Or.inl ⟨rfl, hfail⟩
  split
  · exact Or.inl ⟨rfl, hfail⟩
  split
  · exact Or.inl ⟨rfl, hfail⟩
  split
  · exact Or.inl ⟨rfl, hfail⟩
  · let g : ExeFile := { f with flags := openFlags a.flags }
    have hopen : g.flags.eOpen = true := openFlags_open a.flags
    refine Or.inr ⟨fd, hfree, rfl, g, hopen, fun d => ?_⟩
    rw [entry_setFd, if_pos hopen, entry_congr (setStat_fds _ _ df), hfail]

/-- `__fd_open`. -/
theorem fd_open_spec (h : s.fd_open a = some (r, s')) :
    OpenSpec s r s' := by
  unfold fd_open at h
  cases hfree : s.free_fd with
  | none =>
      rw [hfree] at h
      cases h
      exact Or.inl ⟨rfl, fun _ => rfl⟩
  | some fd =>
      rw [hfree] at h
      obtain ⟨⟨df, s₁⟩, hget, h⟩ := Option.bind_eq_some_iff.mp h
      have hfds := xqx_get_sym_file_fds hget
      cases df with
      | none =>
          obtain ⟨rfl, rfl⟩ := eq_of_some h
          exact open_os_spec hfree hfds a
      | some df =>
          obtain ⟨st, -, h⟩ := Option.map_eq_some_iff.mp h
          obtain ⟨rfl, rfl⟩ := eq_of_some (congrArg some h)
          exact open_sym_spec hfree hfds a df st

/-- `__fd_openat`. -/
theorem fd_openat_spec {basefd : ℤ} {c : BitVec 8} (h : s.fd_openat basefd c a = some (r, s')) :
    OpenSpec s r s' := by
  have hfail : ∀ e, some (s.fail e) = some (r, s') → OpenSpec s r s' := by
    intro e heq
    cases heq
    exact Or.inl ⟨rfl, fun _ => rfl⟩
  have hrest : (if (s.get_sym_file a.pathname c).isSome = true then s.fd_open a
      else some (s.openat_os a)) = some (r, s') → OpenSpec s r s' := by
    intro heq
    split at heq
    · exact fd_open_spec heq
    · unfold openat_os at heq
      cases hfree : s.free_fd with
      | none =>
          rw [hfree] at heq
          exact hfail _ heq
      | some fd =>
          rw [hfree] at heq
          obtain ⟨rfl, rfl⟩ := eq_of_some heq
          exact open_os_spec hfree rfl a
  unfold fd_openat at h
  dsimp only at h
  split at h
  · exact hrest h
  · split at h
    · exact hfail _ h
    · split at h
      · exact hfail _ h
      · exact hrest h

/-- `close`. -/
theorem close_spec (s : FdState) (fd : ℤ) :
    ((s.close fd).1.value = -1 ∧ ∀ d, (s.close fd).2.entry d = s.entry d)
      ∨ (s.close fd).1.value = 0 ∧ ∀ d, (s.close fd).2.entry d = if d = fd then none else s.entry d := by
  unfold close
  dsimp only
  cases hget : s.fds.get_file fd with
  | none => exact Or.inl ⟨rfl, fun _ => rfl⟩
  | some i =>
      obtain ⟨rfl, -⟩ := Fds.get_file_eq_some.mp hget
      dsimp only
      split
      · exact Or.inl ⟨rfl, fun _ => rfl⟩
      · refine Or.inr ⟨rfl, fun d => ?_⟩
        show (setFd _ i ExeFile.zero).entry d = _
        rw [entry_setFd]
        rfl

/-- `close` of an entry that is open: it is cleared, or the call is one that fails. -/
theorem close_fds (hopen : (s.fds i).flags.eOpen = true) :
    (s.close i.val).2.fds = if { s with n_calls := s.n_calls + 1 }.closeFails = true then s.fds
      else Function.update s.fds i ExeFile.zero := by
  have hget : s.fds.get_file i.val = some i := Fds.get_file_eq_some.mpr ⟨rfl, hopen⟩
  unfold close
  simp only [hget]
  split
  · rfl
  · rfl

/-- `dup2` of an open descriptor on a number of the table. -/
theorem dup2_spec (hf : s.entry oldfd = some f) (hnew : 0 ≤ newfd ∧ newfd < MAX_FDS) :
    (s.dup2 oldfd newfd).1.value = newfd
      ∧ (Safe s (.dup2 oldfd newfd) → ∀ d, (s.dup2 oldfd newfd).2.entry d
          = if d = newfd then some f.keepOnExec else s.entry d)
      ∧ (¬ Safe s (.dup2 oldfd newfd) → (s.dup2 oldfd newfd).2.entry newfd = none) := by
  obtain ⟨i, rfl, rfl, hopen⟩ := entry_eq_some.mp hf
  have hget : s.fds.get_file i.val = some i := Fds.get_file_eq_some.mpr ⟨rfl, hopen⟩
  obtain ⟨j, rfl⟩ : ∃ j : Fin MAX_FDS, newfd = j.val :=
    ⟨⟨newfd.toNat, by omega⟩, (Int.toNat_of_nonneg hnew.1).symm⟩
  -- The table after the target is closed, if it was open.
  let s₁ : FdState := if (s.fds j).flags.eOpen = true then (s.close j.val).2 else s
  have heq : s.dup2 i.val j.val = (⟨j.val, none⟩, s₁.setFd j (s₁.fds i).keepOnExec) := by
    unfold dup2
    rw [hget]
    simp only [dif_pos hnew, Int.toNat_natCast, Fin.eta]
    rfl
  have hother : ∀ k, k ≠ j → s₁.fds k = s.fds k := by
    intro k hk
    show (if _ then _ else s : FdState).fds k = _
    split
    next hj =>
      rw [close_fds hj]
      split
      · rfl
      · exact Function.update_of_ne hk _ _
    next => rfl
  have hentry : ∀ d : ℤ, d ≠ j.val → s₁.entry d = s.entry d := by
    intro d hd
    refine Option.ext fun g => ?_
    rw [entry_eq_some, entry_eq_some]
    refine exists_congr fun k => and_congr_right fun hk => ?_
    rw [hother k (by rintro rfl; exact hd hk)]
  rw [heq]
  refine ⟨rfl, fun hsafe d => ?_, fun hbad => ?_⟩
  · have hsource : s₁.fds i = s.fds i := by
      by_cases hij : i = j
      · subst hij
        have hfails := hsafe rfl (by rw [hf]; rfl)
        show (if _ then _ else s : FdState).fds i = _
        rw [if_pos hopen, close_fds hopen, if_pos hfails]
      · exact hother i hij
    show (s₁.setFd j (s₁.fds i).keepOnExec).entry d = _
    rw [entry_setFd, hsource]
    by_cases hd : d = j.val
    · rw [if_pos hd, if_pos hd]
      exact if_pos hopen
    · rw [if_neg hd, if_neg hd, hentry d hd]
  · unfold Safe at hbad
    push Not at hbad
    obtain ⟨hij, -, hfails⟩ := hbad
    obtain rfl : i = j := Fin.ext (by omega)
    have hzero : s₁.fds i = ExeFile.zero := by
      show (if _ then _ else s : FdState).fds i = _
      rw [if_pos hopen, close_fds hopen, if_neg hfails, Function.update_self]
    show (s₁.setFd i (s₁.fds i).keepOnExec).entry i.val = _
    rw [entry_setFd, hzero, if_pos rfl]
    rfl

/-- `dup2` that fails. -/
theorem dup2_fails (h : s.entry oldfd = none ∨ ¬ (0 ≤ newfd ∧ newfd < MAX_FDS)) :
    s.dup2 oldfd newfd = s.fail .EBADF := by
  unfold dup2
  cases hget : s.fds.get_file oldfd with
  | none => rfl
  | some i =>
      have hnone : s.entry oldfd ≠ none := by
        unfold entry
        rw [hget]
        simp
      exact dif_neg (h.resolve_left hnone)

/-- `dup`. The new descriptor is free, and so not the old one. -/
theorem dup_spec (s : FdState) (oldfd : ℤ) : OpenSpec s (s.dup oldfd).1 (s.dup oldfd).2 := by
  unfold dup
  cases hget : s.fds.get_file oldfd with
  | none => exact Or.inl ⟨rfl, fun _ => rfl⟩
  | some i =>
      cases hfree : s.free_fd with
      | none => exact Or.inl ⟨rfl, fun _ => rfl⟩
      | some fd =>
          obtain ⟨rfl, hopen⟩ := Fds.get_file_eq_some.mp hget
          have hf : s.entry i.val = some (s.fds i) := entry_eq_some.mpr ⟨i, rfl, rfl, hopen⟩
          have hlt : fd.val < MAX_FDS := fd.isLt
          have hsafe : Safe s (.dup2 i.val fd.val) := by
            intro hij
            obtain rfl : i = fd := Fin.ext (by omega)
            rw [(free_fd_eq_some hfree).1] at hopen
            cases hopen
          have hrange : 0 ≤ (fd.val : ℤ) ∧ (fd.val : ℤ) < MAX_FDS := by omega
          obtain ⟨hvalue, hentry, -⟩ := dup2_spec hf hrange
          exact Or.inr ⟨fd, hfree, hvalue, (s.fds i).keepOnExec, hopen, hentry hsafe⟩

/-- `unlink` leaves the table as it is. -/
theorem unlink_fds (s : FdState) (pathname : List Char) (c : BitVec 8) :
    (s.unlink pathname c).2.fds = s.fds := by
  unfold unlink
  split
  · rfl
  · split
    · exact setStat_fds _ _ _
    · split <;> rfl

theorem unlink_value (s : FdState) (pathname : List Char) (c : BitVec 8) :
    (s.unlink pathname c).1.value = -1 ∨ (s.unlink pathname c).1.value = 0 := by
  unfold unlink
  split
  · exact Or.inl rfl
  · split
    · exact Or.inr rfl
    · split <;> exact Or.inl rfl

/-! ## Runs -/

/-- The history tells which descriptors are open. -/
def Matches (x : FdState × List (FdCall × ℤ)) : Prop :=
  ∀ d, (x.1.entry d).isSome = true ↔ Opened x.2 d

section Calls

variable {history : List (FdCall × ℤ)} {c : FdCall} {r : FdAnswer}

theorem opened_cons (c : FdCall) (r : ℤ) (history : List (FdCall × ℤ)) (d : ℤ) :
    Opened ((c, r) :: history) d = if r = -1 then Opened history d
      else
        match c with
        | .close fd => Opened history d ∧ d ≠ fd
        | .unlink _ _ => Opened history d
        | _ => Opened history d ∨ d = r := rfl

theorem opened_failed (hr : r.value = -1) (d : ℤ) :
    Opened ((c, r.value) :: history) d ↔ Opened history d := by
  rw [opened_cons, if_pos hr]

/-- A call that fails and leaves the table as it is. -/
theorem callRight_failed (hmatch : Matches (s, history)) (hr : r.value = -1)
    (hentry : ∀ d, s'.entry d = s.entry d) : CallRight s s' history c r.value where
  opened d := by
    rw [hentry, opened_failed hr]
    exact hmatch d
  lowest _ h := absurd hr h
  duplicated _ _ _ h := absurd hr h
  failed _ := hentry

/-- A call that opens a descriptor. -/
theorem callRight_opening (hmatch : Matches (s, history)) (hc : isOpening c = true)
    (h : OpenSpec s r s') : CallRight s s' history c r.value := by
  rcases h with ⟨hr, hentry⟩ | ⟨fd, hfree, hr, f, hf, hentry⟩
  · exact callRight_failed hmatch hr hentry
  · obtain ⟨hclosed, hless⟩ := free_fd_eq_some hfree
    have hlt : fd.val < MAX_FDS := fd.isLt
    refine ⟨fun d => ?_, fun _ _ => ⟨by omega, by omega, ?_, fun d hd hdlt => ?_⟩, ?_, fun h => ?_⟩
    · have hopened : Opened ((c, r.value) :: history) d ↔ Opened history d ∨ d = r.value := by
        rw [opened_cons, if_neg (by omega)]
        cases c with
        | fd_open | fd_openat | dup => exact Iff.rfl
        | close | dup2 | unlink => cases hc
      rw [hopened, hentry, hr, ← hmatch d]
      by_cases hd : d = fd.val
      · rw [if_pos hd]
        exact iff_of_true rfl (Or.inr hd)
      · rw [if_neg hd, or_iff_left hd]
    · rw [hr, entry_val, if_neg (by rw [hclosed]; decide)]
    · have hd' : (⟨d.toNat, by omega⟩ : Fin MAX_FDS) < fd := by
        show d.toNat < fd.val
        omega
      have hentryd := entry_val s ⟨d.toNat, by omega⟩
      rw [if_pos (hless _ hd')] at hentryd
      rw [← Int.toNat_of_nonneg hd, hentryd]
      rfl
    · rintro oldfd newfd rfl
      cases hc
    · omega

/-- One call is right exactly when it is safe. -/
theorem callRight_iff (hmatch : Matches (s, history)) (h : s.call c = some (r, s')) :
    CallRight s s' history c r.value ↔ Safe s c := by
  cases c with
  | fd_open a => exact iff_of_true (callRight_opening hmatch rfl (fd_open_spec h)) trivial
  | fd_openat basefd c a =>
      exact iff_of_true (callRight_opening hmatch rfl (fd_openat_spec h)) trivial
  | dup oldfd =>
      obtain ⟨rfl, rfl⟩ := eq_of_some h
      exact iff_of_true (callRight_opening hmatch rfl (dup_spec s oldfd)) trivial
  | unlink pathname c =>
      obtain ⟨rfl, rfl⟩ := eq_of_some h
      have hentry : ∀ d, (s.unlink pathname c).2.entry d = s.entry d :=
        entry_congr (unlink_fds s pathname c)
      refine iff_of_true ?_ trivial
      rcases unlink_value s pathname c with hr | hr
      · exact callRight_failed hmatch hr hentry
      · refine ⟨fun d => ?_, fun hc => (nomatch hc), fun _ _ hc => (nomatch hc), fun _ => hentry⟩
        rw [hentry, opened_cons, if_neg (by omega)]
        exact hmatch d
  | close fd =>
      obtain ⟨rfl, rfl⟩ := eq_of_some h
      refine iff_of_true ?_ trivial
      rcases close_spec s fd with ⟨hr, hentry⟩ | ⟨hr, hentry⟩
      · exact callRight_failed hmatch hr hentry
      · refine ⟨fun d => ?_, fun hc => (nomatch hc), fun _ _ hc => (nomatch hc), fun h => ?_⟩
        · rw [opened_cons, if_neg (by omega), hentry]
          by_cases hd : d = fd
          · rw [if_pos hd]
            exact iff_of_false (by decide) fun h => h.2 hd
          · rw [if_neg hd]
            exact (hmatch d).trans (and_iff_left hd).symm
        · omega
  | dup2 oldfd newfd =>
      obtain ⟨rfl, rfl⟩ := eq_of_some h
      by_cases hfail : s.entry oldfd = none ∨ ¬ (0 ≤ newfd ∧ newfd < MAX_FDS)
      · rw [dup2_fails hfail]
        refine iff_of_true (callRight_failed hmatch rfl fun _ => rfl) ?_
        rintro rfl hopen
        rcases hfail with hnone | hrange
        · rw [hnone] at hopen
          cases hopen
        · obtain ⟨f, hf⟩ := Option.isSome_iff_exists.mp hopen
          obtain ⟨i, rfl, -, -⟩ := entry_eq_some.mp hf
          have hlt : i.val < MAX_FDS := i.isLt
          omega
      · push Not at hfail
        obtain ⟨f, hf⟩ := Option.ne_none_iff_exists'.mp hfail.1
        obtain ⟨hr, hsafe, hclosed⟩ := dup2_spec hf hfail.2
        have hopened : ∀ d, Opened ((FdCall.dup2 oldfd newfd, (s.dup2 oldfd newfd).1.value) :: history) d
            ↔ Opened history d ∨ d = newfd := by
          intro d
          rw [opened_cons, hr, if_neg (by omega)]
        constructor
        · intro hright
          by_contra hbad
          have hopen := (hright.opened newfd).mpr ((hopened newfd).mpr (Or.inr rfl))
          rw [hclosed hbad] at hopen
          cases hopen
        · intro hok
          have hentry := hsafe hok
          have hfopen : f.flags.eOpen = true := by
            obtain ⟨i, -, -, hopen⟩ := entry_eq_some.mp hf
            exact hopen
          refine ⟨fun d => ?_, fun hc => (nomatch hc), ?_, fun h => ?_⟩
          · rw [hopened, hentry, ← hmatch d]
            by_cases hd : d = newfd
            · rw [if_pos hd]
              exact iff_of_true rfl (Or.inr hd)
            · rw [if_neg hd, or_iff_left hd]
          · rintro oldfd' newfd' heq -
            cases heq
            refine ⟨hr, f, ?_⟩
            by_cases hold : oldfd = newfd
            · refine ⟨f.keepOnExec, f.keepOnExec, hf, ?_, ?_, ⟨rfl, rfl, rfl⟩, ⟨rfl, rfl, rfl⟩⟩
              · rw [hentry, if_pos hold]
              · rw [hentry, if_pos rfl]
            · refine ⟨f, f.keepOnExec, hf, ?_, ?_, ⟨rfl, rfl, rfl⟩, ⟨rfl, rfl, rfl⟩⟩
              · rw [hentry, if_neg hold, hf]
              · rw [hentry, if_pos rfl]
          · omega

end Calls

/-- The descriptors at the start. -/
theorem matches_start (s : FdState) (symStdin symStdout : Bool) :
    Matches ({ s with fds := startFds symStdin symStdout }, []) := by
  intro d
  show _ ↔ d = 0 ∨ d = 1 ∨ d = 2
  rw [Option.isSome_iff_exists]
  constructor
  · rintro ⟨f, hf⟩
    obtain ⟨i, rfl, rfl, hopen⟩ := entry_eq_some.mp hf
    obtain ⟨i, hi⟩ := i
    match i with
    | 0 | 1 | 2 => simp
    | i + 3 => cases hopen
  · rintro (rfl | rfl | rfl)
    · exact ⟨_, entry_eq_some.mpr ⟨⟨0, by decide⟩, rfl, rfl, rfl⟩⟩
    · exact ⟨_, entry_eq_some.mpr ⟨⟨1, by decide⟩, rfl, rfl, rfl⟩⟩
    · exact ⟨_, entry_eq_some.mpr ⟨⟨2, by decide⟩, rfl, rfl, rfl⟩⟩

/-- Along a run from the start every call does what is expected exactly when no call is a `dup2` of
an open descriptor on itself whose `close` succeeds. -/
theorem descriptors_consistent_iff (s : FdState) (symStdin symStdout : Bool) (cs : List FdCall) :
    AllCalls record Right ({ s with fds := startFds symStdin symStdout }, []) cs
      ↔ AllCalls record (fun x c => Safe x.1 c)
          ({ s with fds := startFds symStdin symStdout }, []) cs := by
  have hiff : ∀ x c, Matches x → (Right x c ↔ Safe x.1 c) := by
    intro x c hmatch
    constructor
    · intro hright
      cases c with
      | dup2 oldfd newfd => exact (callRight_iff hmatch rfl).mp (hright _ _ rfl)
      | fd_open | fd_openat | close | dup | unlink => trivial
    · intro hsafe r s' hcall
      exact (callRight_iff hmatch hcall).mpr hsafe
  refine allCalls_congr hiff ?_ (matches_start s symStdin symStdout) cs
  intro x c r x' hmatch hsafe hrecord
  obtain ⟨⟨r', s'⟩, hcall, heq⟩ := Option.map_eq_some_iff.mp hrecord
  cases heq
  exact ((hiff x c hmatch).mpr hsafe r' s' hcall).opened

/-- A descriptor that is duplicated on itself is closed. -/
theorem not_descriptors_consistent_dup2 : ¬ AllCalls record Right
    (init false false [] ⟨none, 0, .fill_sym, fun _ => ⟨0, 0⟩⟩ 0 0, []) [.dup2 1 1] := by
  rintro ⟨hright, -⟩
  obtain ⟨-, f, g, h, -, hg, -⟩ := (hright _ _ rfl).duplicated 1 1 rfl (by decide)
  cases hg

end FdState

end Xklee
