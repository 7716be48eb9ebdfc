/-
When `__fd_open` finds the right file, checks its access rights and keeps its stat.

The lookup has three ends, by the path. What the call then does depends on the file it is served by
alone, and the condition is read off case by case. Over a run the file that served the configured
path is kept beside the state.
-/
import Xklee.POSIX.OpenAccess

set_option autoImplicit false

namespace Xklee.FdState

variable {s s₁ s' : FdState} {a : OpenArgs} {fd : Fin MAX_FDS} {contents : Option DiskFilePtr}
  {r : FdAnswer}

/-! ## The lookup -/

variable {f : DiskFilePtr} {k : ℕ} {df : Option DiskFilePtr} {st : Stat64}

/-- The symbolic file of a letter. -/
theorem sym_file_eq_some {c : BitVec 8} : s.sym_file c = some f
    ↔ ∃ i, f = .sym_files i ∧ s.found c = some i ∧ s.Linked i := by
  unfold sym_file found Linked
  rw [Option.bind_eq_some_iff]
  constructor
  · rintro ⟨i, hi, h⟩
    obtain ⟨st, hst, h⟩ := Option.bind_eq_some_iff.mp h
    split at h
    · cases h
    next hino => exact ⟨i, (Option.some.inj h).symm, hi, st, hst, hino⟩
  · rintro ⟨i, rfl, hi, st, hst, hino⟩
    refine ⟨i, hi, Option.bind_eq_some_iff.mpr ⟨st, hst, ?_⟩⟩
    rw [if_neg hino]

theorem cp_file_setFd (s : FdState) (fd : Fin MAX_FDS) (f : ExeFile) (a : OpenArgs) :
    (s.setFd fd f).cp_file a = (s.cp_file a).map fun x => (x.1, x.2.setFd fd f) := by
  unfold cp_file
  by_cases hpath : s.sym_parts.path ≠ some a.pathname
  · rw [if_pos hpath, if_pos (show (s.setFd fd f).sym_parts.path ≠ _ from hpath)]
    rfl
  · rw [if_neg hpath, if_neg (show ¬(s.setFd fd f).sym_parts.path ≠ _ from hpath)]
    by_cases hany : (s.cp_files.any fun f => f.any fun f => f.1.path = a.pathname) = true
    · rw [if_pos hany, if_pos (show ((s.setFd fd f).cp_files.any _) = true from hany)]
      rfl
    · rw [if_neg hany, if_neg (show ¬((s.setFd fd f).cp_files.any _) = true from hany),
        Option.map_map]
      refine Option.map_congr fun created _ => ?_
      cases created <;> rfl

/-- The lookup does not depend on the table of descriptors. -/
theorem xqx_get_sym_file_setFd (s : FdState) (fd : Fin MAX_FDS) (f : ExeFile) (a : OpenArgs) :
    (s.setFd fd f).xqx_get_sym_file a
      = (s.xqx_get_sym_file a).map fun x => (x.1, x.2.setFd fd f) := by
  unfold xqx_get_sym_file
  split
  · rfl
  · split
    · exact cp_file_setFd s fd f a
    · rfl

/-- The call, when a descriptor is free and the lookup finds no file. -/
theorem fd_open_os (hfree : s.free_fd = some fd) (hget : s.xqx_get_sym_file a = some (none, s₁)) :
    s.fd_open a = some ((s₁.setFd fd ExeFile.zero).open_os a fd) := by
  unfold fd_open
  rw [hfree]
  show ((s.setFd fd ExeFile.zero).xqx_get_sym_file a).bind _ = _
  rw [xqx_get_sym_file_setFd, hget]
  rfl

/-- The call, when a descriptor is free and the lookup finds a file. -/
theorem fd_open_sym (hfree : s.free_fd = some fd) (hget : s.xqx_get_sym_file a = some (some f, s₁))
    : s.fd_open a
      = (s₁.stat f).map fun st => (s₁.setFd fd ExeFile.zero).open_sym a fd f st := by
  unfold fd_open
  rw [hfree]
  show ((s.setFd fd ExeFile.zero).xqx_get_sym_file a).bind _ = _
  rw [xqx_get_sym_file_setFd, hget]
  cases f <;> rfl

/-- What `klee_create_cp_file` makes goes to a free entry. -/
theorem created_spec {os : Option OsFile} {junk : ℕ → BitVec 8} {used : List Bool}
    {parts : XqxMakeSym} {path : List Char} {file : CpFile}
    (h : MakeSymbolic.klee_create_cp_file os junk used parts path = some (some (k, file))) :
    used[k]? = some false ∧ file.path = path := by
  unfold MakeSymbolic.klee_create_cp_file at h
  obtain ⟨x, -, h⟩ := Option.bind_eq_some_iff.mp h
  match x with
  | none => cases h
  | some (buf, fsize) =>
      dsimp only at h
      split at h
      · cases h
      · cases hfind : used.findIdx? (!·) with
        | none =>
            rw [hfind] at h
            cases h
        | some j =>
            rw [hfind] at h
            dsimp only at h
            split at h
            · obtain ⟨filled, -, h⟩ := Option.map_eq_some_iff.mp h
              cases h
              obtain ⟨hlt, hunused, -⟩ := List.findIdx?_eq_some_iff_getElem.mp hfind
              refine ⟨?_, rfl⟩
              rw [List.getElem?_eq_getElem hlt]
              simpa using hunused
            · cases h

/-- The lookup leaves the state as it is, or makes the file of the configured path. -/
theorem lookup_cases (hget : s.xqx_get_sym_file a = some (df, s₁)) :
    (s₁ = s ∧ ∀ k, df ≠ some (.cp_files k))
      ∨ ∃ k file, df = some (.cp_files k) ∧ s.cp_files[k]? = some none ∧ file.path = a.pathname
        ∧ s₁ = { s with cp_files := s.cp_files.set k (some (file, a.dot)) } := by
  unfold xqx_get_sym_file at hget
  split at hget
  · cases hget
    exact Or.inl ⟨rfl, fun k h => nomatch h⟩
  split at hget
  · unfold cp_file at hget
    split at hget
    · cases hget
      exact Or.inl ⟨rfl, fun k h => nomatch h⟩
    split at hget
    · cases hget
      exact Or.inl ⟨rfl, fun k h => nomatch h⟩
    obtain ⟨created, hcreated, heq⟩ := Option.map_eq_some_iff.mp hget
    match created with
    | none =>
        cases heq
        exact Or.inl ⟨rfl, fun k h => nomatch h⟩
    | some (k, file) =>
        cases heq
        obtain ⟨hfree, hpath⟩ := created_spec hcreated
        refine Or.inr ⟨k, file, rfl, ?_, hpath, rfl⟩
        rw [List.getElem?_map] at hfree
        obtain ⟨x, hx, hnone⟩ := Option.map_eq_some_iff.mp hfree
        rw [hx, Option.isNone_iff_eq_none.mp (Option.isSome_eq_false_iff.mp hnone)]
  · cases hget
    refine Or.inl ⟨rfl, fun k h => ?_⟩
    obtain ⟨i, hi, -⟩ := sym_file_eq_some.mp h
    cases hi

/-! ## The stats -/

theorem stat_setFd (s : FdState) (fd : Fin MAX_FDS) (f : ExeFile) (df : DiskFilePtr) :
    (s.setFd fd f).stat df = s.stat df := by
  cases df <;> rfl

/-- One stat is replaced. -/
theorem stat_setStat {st₀ : Stat64} (hstat : s.stat f = some st₀) (st : Stat64) (g : DiskFilePtr) :
    (s.setStat st f).stat g = if g = f then some st else s.stat g := by
  cases f with
  | sym_stdin | sym_stdout => cases hstat
  | sym_files i =>
      obtain ⟨hlt, -⟩ := List.getElem?_eq_some_iff.mp hstat
      cases g with
      | sym_files j =>
          show (s.sym_files.set i st)[j]? = _
          by_cases hij : j = i
          · rw [hij, if_pos rfl, List.getElem?_set_self hlt]
          · rw [if_neg (fun h => hij (DiskFilePtr.sym_files.inj h)),
              List.getElem?_set_ne (fun h => hij h.symm)]
            rfl
      | sym_stdin | sym_stdout | cp_files => rfl
  | cp_files k =>
      cases g with
      | cp_files j =>
          show ((s.cp_files.modify k _)[j]?.bind id).map Prod.snd = _
          by_cases hjk : j = k
          · obtain ⟨x, hx, -⟩ := Option.map_eq_some_iff.mp hstat
            obtain ⟨y, hy, rfl : y = some x⟩ := Option.bind_eq_some_iff.mp hx
            rw [hjk, if_pos rfl, List.getElem?_modify_eq, hy]
            rfl
          · rw [if_neg (fun h => hjk (DiskFilePtr.cp_files.inj h)),
              List.getElem?_modify_ne _ _ (fun h => hjk h.symm)]
            rfl
      | sym_stdin | sym_stdout | sym_files => rfl

/-- The file that is made is a new one. -/
theorem stat_created (hk : s.cp_files[k]? = some none) (file : CpFile) (st : Stat64)
    (g : DiskFilePtr) :
    ({ s with cp_files := s.cp_files.set k (some (file, st)) } : FdState).stat g
      = if g = .cp_files k then some st else s.stat g := by
  obtain ⟨hlt, -⟩ := List.getElem?_eq_some_iff.mp hk
  cases g with
  | cp_files j =>
      show ((s.cp_files.set k _)[j]?.bind id).map Prod.snd = _
      by_cases hjk : j = k
      · rw [hjk, if_pos rfl, List.getElem?_set_self hlt]
        rfl
      · rw [if_neg (fun h => hjk (DiskFilePtr.cp_files.inj h)),
          List.getElem?_set_ne (fun h => hjk h.symm)]
        rfl
  | sym_stdin | sym_stdout | sym_files => rfl

/-- An entry without a file has no stat. -/
theorem stat_unused (hk : s.cp_files[k]? = some none) : s.stat (.cp_files k) = none := by
  show (s.cp_files[k]?.bind id).map Prod.snd = none
  rw [hk]
  rfl

theorem lookup_statsKept (hget : s.xqx_get_sym_file a = some (df, s₁)) : StatsKept s s₁ := by
  intro g st hst
  rcases lookup_cases hget with ⟨rfl, -⟩ | ⟨k, file, -, hk, -, rfl⟩
  · exact hst
  · rw [stat_created hk, if_neg ?_]
    · exact hst
    · rintro rfl
      rw [stat_unused hk] at hst
      cases hst

/-! ## One open -/

/-- What the table of descriptors shows. -/
theorem OpenSpec.frame (h : OpenSpec s r s') :
    (r.value = -1 → ∀ d, s'.entry d = s.entry d) ∧ ∀ d, d ≠ r.value → s'.entry d = s.entry d := by
  rcases h with ⟨-, hentry⟩ | ⟨fd, -, hr, f, -, hentry⟩
  · exact ⟨fun _ => hentry, fun d _ => hentry d⟩
  · refine ⟨fun h => ?_, fun d hd => ?_⟩
    · have hpos := fd.isLt
      omega
    · rw [hentry, if_neg (by omega)]

/-- An open that is served by the operating system. -/
theorem openRight_os_iff (hfree : s.free_fd = some fd)
    (hget : s.xqx_get_sym_file a = some (none, s₁)) (hopen : s.fd_open a = some (r, s')) :
    OpenRight s contents a r s' ↔ s.Unnamed a.pathname ∧ s.Unserved contents a.pathname := by
  have hframe := (fd_open_spec hopen).frame
  rw [fd_open_os hfree hget] at hopen
  obtain ⟨rfl, rfl⟩ := eq_of_some hopen
  have hkept : StatsKept s ((s₁.setFd fd ExeFile.zero).open_os a fd).2 := by
    intro g st hst
    have hst₁ := lookup_statsKept hget g st hst
    unfold open_os
    cases a.os_fd with
    | none => exact (stat_setFd ..).trans hst₁
    | some os_fd => exact (stat_setFd ..).trans ((stat_setFd ..).trans hst₁)
  constructor
  · intro hright
    obtain ⟨df, s₂, hget', hnamed, hserved, -⟩ := hright.served (by rw [hfree]; rfl)
    rw [hget] at hget'
    obtain ⟨rfl, rfl⟩ := Prod.mk.inj (Option.some.inj hget')
    refine ⟨fun i hi hlinked => ?_, fun hconf => ?_⟩
    · cases (hnamed i).mpr ⟨hi, hlinked⟩
    · refine Option.eq_none_iff_forall_ne_some.mpr fun o ho => ?_
      cases hserved hconf o ho
  · rintro ⟨hunnamed, hunserved⟩
    refine ⟨fun _ => ⟨none, s₁, hget, fun i => ?_, fun hconf o ho => ?_, ?_, fun hr => ?_⟩,
      fun hr => ⟨hframe.1 hr, hkept⟩, hframe.2, fun _ => hkept⟩
    · exact iff_of_false (fun h => nomatch h) fun h => hunnamed i h.1 h.2
    · rw [hunserved hconf] at ho
      cases ho
    · intro f st hf
      cases hf
    · revert hr
      unfold open_os
      cases a.os_fd with
      | none => exact fun h => absurd rfl h
      | some os_fd =>
          intro _
          refine ⟨{ ExeFile.zero with fd := os_fd, flags := openFlags a.flags }, ?_, rfl⟩
          show (setFd _ fd _).entry fd.val = _
          rw [entry_setFd, if_pos rfl, if_pos (openFlags_open a.flags)]

/-- The open of a symbolic file that is refused. -/
theorem open_sym_fails (s : FdState) (fd : Fin MAX_FDS) (f : DiskFilePtr)
    (h : hasFlag a.flags O_EXCL = true ∨ has_permission a.flags st = false) :
    ∃ e, s.open_sym a fd f st = (s.setFd fd { ExeFile.zero with dfile := some f }).fail e := by
  unfold open_sym
  dsimp only
  split
  · exact ⟨_, rfl⟩
  next hexcl =>
    split
    · exact ⟨_, rfl⟩
    · split
      · exact ⟨_, rfl⟩
      next hcreat =>
        have hflag : hasFlag a.flags O_EXCL = false := by
          cases hE : hasFlag a.flags O_EXCL <;> cases hC : hasFlag a.flags O_CREAT <;>
            simp [hE, hC] at hexcl hcreat ⊢
        rcases h with h | h
        · rw [h] at hflag
          cases hflag
        · rw [if_pos (by rw [h]; rfl)]
          exact ⟨_, rfl⟩

/-- The open of a symbolic file that is granted. -/
theorem open_sym_succeeds (s : FdState) (fd : Fin MAX_FDS) (f : DiskFilePtr)
    (hexcl : hasFlag a.flags O_EXCL = false) (hperm : has_permission a.flags st = true) :
    s.open_sym a fd f st
      = (⟨fd.val, none⟩, ((s.setFd fd { ExeFile.zero with dfile := some f }).setStat
        { st with st_mode := openMode s.umask a.mode st.st_mode } f).setFd fd
          { ExeFile.zero with dfile := some f, flags := openFlags a.flags }) := by
  unfold open_sym
  simp only [hexcl, hperm, hasFlag_RDONLY, Bool.and_false, Bool.false_and, Bool.false_eq_true,
    if_false, Bool.not_true]
  rfl

/-- An open that is served by a symbolic file. -/
theorem openRight_sym_iff (hfree : s.free_fd = some fd)
    (hget : s.xqx_get_sym_file a = some (some f, s₁)) (hst : s₁.stat f = some st)
    (hopen : s.fd_open a = some (r, s')) :
    OpenRight s contents a r s'
      ↔ (∀ i, f = .sym_files i ↔ s.named a.pathname = some i ∧ s.Linked i)
        ∧ (s.Configured a.pathname → ∀ o, contents = some o → f = o)
        ∧ (hasFlag a.flags O_EXCL = true ∨ (CheckRight a.flags st
          ∧ ((s.stat f).isSome = true → Allowed a.flags st → hasFlag a.flags O_CREAT = false →
            SameMode s₁.umask a.mode st.st_mode))) := by
  have hframe := (fd_open_spec hopen).frame
  rw [fd_open_sym hfree hget, hst] at hopen
  obtain ⟨rfl, rfl⟩ := eq_of_some hopen
  let s₂ : FdState := s₁.setFd fd ExeFile.zero
  -- The parts that no flag decides.
  have hsplit : ∀ {r : FdAnswer} {s' : FdState}, OpenRight s contents a r s'
      ↔ (∀ i, f = .sym_files i ↔ s.named a.pathname = some i ∧ s.Linked i)
        ∧ (s.Configured a.pathname → ∀ o, contents = some o → f = o)
        ∧ (hasFlag a.flags O_EXCL = false → (r.value ≠ -1 ↔ Allowed a.flags st))
        ∧ (r.value ≠ -1 → ∃ e, s'.entry r.value = some e ∧ e.dfile = some f)
        ∧ (r.value = -1 → (∀ d, s'.entry d = s.entry d) ∧ StatsKept s s')
        ∧ (∀ d, d ≠ r.value → s'.entry d = s.entry d)
        ∧ (hasFlag a.flags O_CREAT = false → StatsKept s s') := by
    intro r s'
    constructor
    · intro hright
      obtain ⟨df, s₃, hget', hnamed, hserved, haccess, hentry⟩ :=
        hright.served (by rw [hfree]; rfl)
      rw [hget] at hget'
      obtain ⟨rfl, rfl⟩ := Prod.mk.inj (Option.some.inj hget')
      exact ⟨fun i => (Option.some.injEq _ _ ▸ hnamed i),
        fun hconf o ho => Option.some.inj (hserved hconf o ho), haccess f st rfl hst, hentry,
        hright.failed, hright.table, hright.kept⟩
    · rintro ⟨hnamed, hserved, haccess, hentry, hfailed, htable, hkept⟩
      refine ⟨fun _ => ⟨some f, s₁, hget, fun i => ?_, ?_, ?_, hentry⟩, hfailed, htable, hkept⟩
      · rw [Option.some.injEq]
        exact hnamed i
      · exact fun hconf o ho => congrArg some (hserved hconf o ho)
      · rintro f' st' hf' hst'
        obtain rfl := Option.some.inj hf'
        rw [hst] at hst'
        obtain rfl := Option.some.inj hst'
        exact haccess
  rw [hsplit]
  refine and_congr_right fun _ => and_congr_right fun _ => ?_
  have hcheck := checkRight_iff a.flags st
  by_cases hfails : hasFlag a.flags O_EXCL = true ∨ has_permission a.flags st = false
  · obtain ⟨e, heq⟩ := open_sym_fails s₂ fd f hfails
    have hvalue : (s₂.open_sym a fd f st).1.value = -1 := by rw [heq]; rfl
    have hkept : StatsKept s (s₂.open_sym a fd f st).2 := by
      intro g st' hst'
      rw [heq]
      exact (stat_setFd ..).trans ((stat_setFd ..).trans (lookup_statsKept hget g st' hst'))
    constructor
    · rintro ⟨haccess, -⟩
      by_cases hexcl : hasFlag a.flags O_EXCL = true
      · exact Or.inl hexcl
      · have hdenied : ¬Allowed a.flags st := fun h =>
          (haccess ((Bool.not_eq_true _).mp hexcl)).mpr h hvalue
        refine Or.inr ⟨hcheck.mp ?_, fun _ h => absurd h hdenied⟩
        rw [hfails.resolve_left hexcl]
        exact iff_of_false (by decide) hdenied
    · intro hok
      refine ⟨fun hexcl => ?_, fun h => absurd hvalue h, fun hr => ⟨hframe.1 hr, hkept⟩, hframe.2,
        fun _ => hkept⟩
      have hperm : has_permission a.flags st = false :=
        hfails.resolve_left (by rw [hexcl]; decide)
      rcases hok with h | ⟨hright, -⟩
      · rw [hexcl] at h
        cases h
      · have hiff := hcheck.mpr hright
        rw [hperm] at hiff
        exact iff_of_false (fun h => h hvalue) fun h => Bool.noConfusion (hiff.mpr h)
  · push Not at hfails
    have hexcl : hasFlag a.flags O_EXCL = false := (Bool.not_eq_true _).mp hfails.1
    have hperm : has_permission a.flags st = true := by
      simpa using hfails.2
    let st' : Stat64 := { st with st_mode := openMode s₁.umask a.mode st.st_mode }
    have heq := open_sym_succeeds s₂ fd f hexcl hperm
    have hvalue : (s₂.open_sym a fd f st).1.value = fd.val := by rw [heq]
    have hne : (s₂.open_sym a fd f st).1.value ≠ -1 := by omega
    have hstat : ∀ g, (s₂.open_sym a fd f st).2.stat g = if g = f then some st' else s₁.stat g := by
      intro g
      rw [heq]
      refine (stat_setFd ..).trans ?_
      have hold : (s₂.setFd fd { ExeFile.zero with dfile := some f }).stat f = some st :=
        (stat_setFd ..).trans ((stat_setFd ..).trans hst)
      refine (stat_setStat hold st' g).trans ?_
      rw [stat_setFd, stat_setFd]
    have hkept : StatsKept s (s₂.open_sym a fd f st).2
        ↔ ((s.stat f).isSome = true → SameMode s₁.umask a.mode st.st_mode) := by
      have hsame : ∀ st₀, s.stat f = some st₀ → st₀ = st := fun st₀ h =>
        Option.some.inj ((lookup_statsKept hget f st₀ h).symm.trans hst)
      constructor
      · intro h hsome
        obtain ⟨st₀, hst₀⟩ := Option.isSome_iff_exists.mp hsome
        have hnew := h f st₀ hst₀
        rw [hstat, if_pos rfl, hsame st₀ hst₀] at hnew
        exact (sameMode_iff ..).mp (congrArg Stat64.st_mode (Option.some.inj hnew))
      · intro h g st₀ hst₀
        rw [hstat]
        by_cases hg : g = f
        · subst hg
          have hmode := (sameMode_iff ..).mpr (h (by rw [hst₀]; rfl))
          rw [if_pos rfl, hsame st₀ hst₀]
          show some { st with st_mode := openMode s₁.umask a.mode st.st_mode } = _
          rw [hmode]
        · rw [if_neg hg]
          exact lookup_statsKept hget g st₀ hst₀
    have hentry : ∃ e, (s₂.open_sym a fd f st).2.entry (s₂.open_sym a fd f st).1.value = some e
        ∧ e.dfile = some f := by
      refine ⟨{ ExeFile.zero with dfile := some f, flags := openFlags a.flags }, ?_, rfl⟩
      rw [hvalue, heq, entry_setFd, if_pos rfl, if_pos (openFlags_open a.flags)]
    rw [hkept]
    constructor
    · rintro ⟨haccess, -, -, -, hmode⟩
      have hallowed := (haccess hexcl).mp hne
      exact Or.inr ⟨hcheck.mp (iff_of_true hperm hallowed), fun hsome _ hcreat => hmode hcreat hsome⟩
    · intro hok
      obtain ⟨hright, hmode⟩ := hok.resolve_left (by rw [hexcl]; decide)
      have hallowed := (hcheck.mpr hright).mp hperm
      exact ⟨fun _ => iff_of_true hne hallowed, fun _ => hentry, fun h => absurd h hne, hframe.2,
        fun hcreat hsome => hmode hsome hallowed hcreat⟩

/-- A result of the call is the only one. -/
theorem forall_result {x : FdAnswer × FdState} (h : s.fd_open a = some x)
    {P : FdAnswer → FdState → Prop} :
    (∀ r s', s.fd_open a = some (r, s') → P r s') ↔ P x.1 x.2 := by
  constructor
  · intro hall
    exact hall x.1 x.2 h
  · intro hx r s' heq
    obtain ⟨rfl, rfl⟩ := eq_of_some (h.symm.trans heq)
    exact hx

/-- The configured path was served by its file, if it was not by a symbolic one. -/
def Recorded (s : FdState) (contents : Option DiskFilePtr) : Prop :=
  ∀ k, contents = some (.cp_files k) → ∃ file st, s.cp_files[k]? = some (some (file, st))
    ∧ s.Configured file.path

section Condition

variable (hfree : s.free_fd = some fd)
include hfree

theorem os_iff (hget : s.xqx_get_sym_file a = some (none, s₁)) :
    (∀ r s', s.fd_open a = some (r, s') → OpenRight s contents a r s')
      ↔ s.Unnamed a.pathname ∧ s.Unserved contents a.pathname := by
  have heq := fd_open_os hfree hget
  rw [forall_result heq]
  exact openRight_os_iff hfree hget heq

theorem sym_iff {f : DiskFilePtr} {st : Stat64}
    (hget : s.xqx_get_sym_file a = some (some f, s₁)) (hst : s₁.stat f = some st) :
    (∀ r s', s.fd_open a = some (r, s') → OpenRight s contents a r s')
      ↔ (∀ i, f = .sym_files i ↔ s.named a.pathname = some i ∧ s.Linked i)
        ∧ (s.Configured a.pathname → ∀ o, contents = some o → f = o)
        ∧ (hasFlag a.flags O_EXCL = true ∨ (CheckRight a.flags st
          ∧ ((s.stat f).isSome = true → Allowed a.flags st → hasFlag a.flags O_CREAT = false →
            SameMode s₁.umask a.mode st.st_mode))) := by
  have heq : s.fd_open a = some ((s₁.setFd fd ExeFile.zero).open_sym a fd f st) := by
    rw [fd_open_sym hfree hget, hst]
    rfl
  rw [forall_result heq]
  exact openRight_sym_iff hfree hget hst heq

/-- A path whose first character is symbolic. -/
theorem symbolic_iff (hpath : a.pathname ≠ []) (hsym : a.is_symbolic = true) :
    (∀ r s', s.fd_open a = some (r, s') → OpenRight s contents a r s')
      ↔ (∀ i, s.found a.c = some i ∧ s.Linked i ↔ s.named a.pathname = some i ∧ s.Linked i)
        ∧ (s.Configured a.pathname → ∀ o, contents = some o →
          ∃ i, o = .sym_files i ∧ s.found a.c = some i ∧ s.Linked i)
        ∧ ∀ i st, s.found a.c = some i → s.sym_files[i]? = some st → st.st_ino ≠ 0 →
          AccessOk s a st := by
  have hget : s.xqx_get_sym_file a = some (s.sym_file a.c, s) := by
    unfold xqx_get_sym_file
    rw [if_neg hpath, hsym]
    rfl
  cases hfile : s.sym_file a.c with
  | none =>
      have hnone : ∀ i, ¬(s.found a.c = some i ∧ s.Linked i) := by
        intro i hi
        rw [sym_file_eq_some.mpr ⟨i, rfl, hi⟩] at hfile
        cases hfile
      rw [hfile] at hget
      rw [os_iff hfree hget]
      constructor
      · rintro ⟨hunnamed, hunserved⟩
        refine ⟨fun i => iff_of_false (hnone i) fun h => hunnamed i h.1 h.2, fun hconf o ho => ?_,
          fun i st hi hst hino => absurd ⟨hi, st, hst, hino⟩ (hnone i)⟩
        rw [hunserved hconf] at ho
        cases ho
      · rintro ⟨hnamed, hserved, -⟩
        refine ⟨fun i hi hlinked => hnone i ((hnamed i).mpr ⟨hi, hlinked⟩), fun hconf => ?_⟩
        refine Option.eq_none_iff_forall_ne_some.mpr fun o ho => ?_
        obtain ⟨i, -, hi⟩ := hserved hconf o ho
        exact hnone i hi
  | some f =>
      obtain ⟨i, rfl, hi, hlinked⟩ := sym_file_eq_some.mp hfile
      obtain ⟨st, hst, hino⟩ := hlinked
      have honly : ∀ j, s.found a.c = some j ∧ s.Linked j ↔ DiskFilePtr.sym_files i = .sym_files j := by
        intro j
        constructor
        · rintro ⟨hj, -⟩
          rw [Option.some.inj (hi.symm.trans hj)]
        · intro h
          obtain rfl := DiskFilePtr.sym_files.inj h
          exact ⟨hi, st, hst, hino⟩
      rw [hfile] at hget
      rw [sym_iff hfree hget hst]
      refine and_congr (forall_congr' fun j => ?_) (and_congr ?_ ?_)
      · rw [honly]
      · refine forall_congr' fun _ => forall_congr' fun o => imp_congr_right fun _ => ?_
        constructor
        · rintro rfl
          exact ⟨i, rfl, hi, st, hst, hino⟩
        · rintro ⟨j, rfl, hj⟩
          exact (honly j).mp hj
      · have hsome : (s.stat (.sym_files i)).isSome = true := by
          show (s.sym_files[i]?).isSome = true
          rw [hst]
          rfl
        constructor
        · intro h j st' hj hst' _
          obtain rfl := Option.some.inj (hi.symm.trans hj)
          obtain rfl := Option.some.inj (hst.symm.trans hst')
          exact h.imp_right fun h => ⟨h.1, h.2 hsome⟩
        · intro h
          exact (h i st hi hst hino).imp_right fun h => ⟨h.1, fun _ => h.2⟩

/-- A path that is concrete and has no file yet. -/
theorem created_iff (hrecorded : Recorded s contents) (hpath : a.pathname ≠ [])
    (hsym : a.is_symbolic = false) (hconf : s.Configured a.pathname)
    (hany : (s.cp_files.any fun f => f.any fun f => f.1.path = a.pathname) = false) :
    (∀ r s', s.fd_open a = some (r, s') → OpenRight s contents a r s')
      ↔ ∀ created, MakeSymbolic.klee_create_cp_file a.os_file a.junk (s.cp_files.map Option.isSome)
          s.sym_parts a.pathname = some created →
        s.Unnamed a.pathname ∧ s.Unserved contents a.pathname
          ∧ (created.isSome = true → hasFlag a.flags O_EXCL = true ∨ CheckRight a.flags a.dot) := by
  obtain ⟨found, hget, hget_none, hget_some⟩ : ∃ found, s.xqx_get_sym_file a =
      (MakeSymbolic.klee_create_cp_file a.os_file a.junk (s.cp_files.map Option.isSome)
        s.sym_parts a.pathname).map found
      ∧ found none = (none, s)
      ∧ ∀ k file, found (some (k, file)) =
        (some (.cp_files k), { s with cp_files := s.cp_files.set k (some (file, a.dot)) }) := by
    have hsame : s.sym_parts.path = some a.pathname := hconf
    unfold xqx_get_sym_file cp_file
    rw [if_neg hpath, hsym, Bool.not_false, if_pos rfl, if_neg (not_not_intro hsame), hany]
    exact ⟨_, if_neg Bool.false_ne_true, rfl, fun _ _ => rfl⟩
  cases hcreate : MakeSymbolic.klee_create_cp_file a.os_file a.junk
      (s.cp_files.map Option.isSome) s.sym_parts a.pathname with
  | none =>
      -- The run ends in the call.
      refine iff_of_true (fun r s' hopen => ?_) fun created h => (nomatch h)
      rw [hcreate] at hget
      unfold fd_open at hopen
      rw [hfree] at hopen
      simp only [xqx_get_sym_file_setFd, hget, Option.map_none, Option.bind_none] at hopen
      cases hopen
  | some created =>
      rw [hcreate] at hget
      have hall : (∀ created', some created = some created' →
          s.Unnamed a.pathname ∧ s.Unserved contents a.pathname
            ∧ (created'.isSome = true → hasFlag a.flags O_EXCL = true ∨ CheckRight a.flags a.dot))
          ↔ s.Unnamed a.pathname ∧ s.Unserved contents a.pathname
            ∧ (created.isSome = true → hasFlag a.flags O_EXCL = true ∨ CheckRight a.flags a.dot) := by
        constructor
        · intro h
          exact h created rfl
        · rintro h created' heq
          obtain rfl := Option.some.inj heq
          exact h
      rw [hall]
      rw [Option.map_some] at hget
      rcases created with _ | ⟨k, file⟩
      · rw [hget_none] at hget
        rw [os_iff hfree hget]
        exact ⟨fun h => ⟨h.1, h.2, fun h => (nomatch h)⟩, fun h => ⟨h.1, h.2.1⟩⟩
      · rw [hget_some] at hget
        obtain ⟨hunused, -⟩ := created_spec hcreate
        have hk : s.cp_files[k]? = some none := by
          rw [List.getElem?_map] at hunused
          obtain ⟨x, hx, hnone⟩ := Option.map_eq_some_iff.mp hunused
          rw [hx, Option.isNone_iff_eq_none.mp (Option.isSome_eq_false_iff.mp hnone)]
        have hst : ({ s with cp_files := s.cp_files.set k (some (file, a.dot)) } : FdState).stat
            (.cp_files k) = some a.dot := by
          rw [stat_created hk, if_pos rfl]
        rw [sym_iff hfree hget hst, stat_unused hk]
        refine and_congr ?_ (and_congr ?_ ?_)
        · constructor
          · intro h i hi hlinked
            cases (h i).mpr ⟨hi, hlinked⟩
          · intro h i
            exact iff_of_false (fun h => nomatch h) fun hi => h i hi.1 hi.2
        · constructor
          · intro h hconf
            refine Option.eq_none_iff_forall_ne_some.mpr fun o ho => ?_
            obtain rfl := h hconf o ho
            obtain ⟨file', st, hfile, -⟩ := hrecorded k ho
            rw [hk] at hfile
            cases hfile
          · intro h hconf o ho
            rw [h hconf] at ho
            cases ho
        · constructor
          · intro h _
            exact h.imp_right fun h => h.1
          · intro h
            exact (h rfl).imp_right fun h => ⟨h, fun h => nomatch h⟩

end Condition

/-- An open does what is expected exactly on its condition. -/
theorem openRight_iff (hrecorded : Recorded s contents) :
    (∀ r s', s.fd_open a = some (r, s') → OpenRight s contents a r s')
      ↔ OpenOk s contents a := by
  unfold OpenOk
  cases hfree : s.free_fd with
  | none =>
      have heq : s.fd_open a = some (s.fail .EMFILE) := by
        unfold fd_open
        rw [hfree]
      refine iff_of_true ((forall_result heq).mpr ⟨fun h => ?_, fun _ => ⟨fun _ => rfl, ?_⟩,
        fun _ _ => rfl, fun _ => ?_⟩) fun h => (nomatch h)
      · rw [hfree] at h
        cases h
      · exact fun _ _ h => h
      · exact fun _ _ h => h
  | some fd =>
      simp only [Option.isSome_some, true_implies]
      by_cases hpath : a.pathname = []
      · have hget : s.xqx_get_sym_file a = some (none, s) := by
          unfold xqx_get_sym_file
          rw [if_pos hpath]
        have hunnamed : s.Unnamed a.pathname := by
          intro i hi
          have := List.find?_some hi
          rw [hpath] at this
          simp at this
        rw [if_pos hpath, os_iff hfree hget]
        exact and_iff_right hunnamed
      · rw [if_neg hpath]
        by_cases hsym : a.is_symbolic = true
        · rw [if_pos hsym]
          exact symbolic_iff hfree hpath hsym
        · rw [if_neg hsym]
          have hconcrete : a.is_symbolic = false := (Bool.not_eq_true _).mp hsym
          by_cases hnew : s.Configured a.pathname
              ∧ (s.cp_files.any fun f => f.any fun f => f.1.path = a.pathname) = false
          · rw [if_pos hnew]
            exact created_iff hfree hrecorded hpath hconcrete hnew.1 hnew.2
          · rw [if_neg hnew]
            have hget : s.xqx_get_sym_file a = some (none, s) := by
              unfold xqx_get_sym_file cp_file
              rw [if_neg hpath, hconcrete, Bool.not_false, if_pos rfl]
              by_cases hconf : s.sym_parts.path = some a.pathname
              · rw [if_neg (not_not_intro hconf), if_pos]
                by_contra hany
                exact hnew ⟨hconf, (Bool.not_eq_true _).mp hany⟩
              · rw [if_pos hconf]
            exact os_iff hfree hget

end Xklee.FdState
