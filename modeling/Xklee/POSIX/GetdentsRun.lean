/-
When `__fd_getdents` lists a directory.

The first call stores the records of all symbolic files, whatever the size of the buffer, and one
more that is as long as the rest of the buffer or of the 4096 bytes. From there on the offset stands
for a position in the directory, if the rest came to 4096, and for nothing otherwise.
-/
import Mathlib.Tactic.Ring
import Xklee.POSIX.Getdents

set_option autoImplicit false

namespace Xklee.Getdents

/-! ## Records one after the other -/

/-- The bytes of some records. -/
def total (records : List Dirent) : ℕ := (records.map (·.d_reclen.toNat)).sum

theorem total_cons (r : Dirent) (rest : List Dirent) :
    total (r :: rest) = r.d_reclen.toNat + total rest := List.sum_cons

theorem placed_cons (r : Dirent) (rest : List Dirent) (pos : ℕ) :
    placed (r :: rest) pos = (pos, r) :: placed rest (pos + r.d_reclen.toNat) := rfl

theorem map_snd_placed (records : List Dirent) (pos : ℕ) :
    (placed records pos).map (·.2) = records := by
  induction records generalizing pos with
  | nil => rfl
  | cons r rest ih =>
    rw [placed_cons, List.map_cons, ih]

theorem placed_append (records records' : List Dirent) (pos : ℕ) :
    placed (records ++ records') pos
      = placed records pos ++ placed records' (pos + total records) := by
  induction records generalizing pos with
  | nil => rfl
  | cons r rest ih =>
    rw [List.cons_append, placed_cons, placed_cons, ih, total_cons, Nat.add_assoc, List.cons_append]

variable {pos off count : ℕ} {records : List Dirent} {sym_files : List Stat64}

/-- A record ends where the next one starts, or before. -/
theorem placed_end_le {x : ℕ × Dirent} (hx : x ∈ placed records pos) :
    x.2 ∈ records ∧ x.1 + x.2.d_reclen.toNat ≤ pos + total records := by
  induction records generalizing pos with
  | nil => cases hx
  | cons r rest ih =>
    rw [total_cons]
    rw [placed_cons] at hx
    rcases List.mem_cons.mp hx with rfl | hx
    · exact ⟨List.mem_cons_self, by dsimp only; omega⟩
    · have hrest := ih hx
      exact ⟨List.mem_cons_of_mem _ hrest.1, by omega⟩

theorem sum_reclen_eq (records : List Dirent) (pos : ℕ) :
    ((placed records pos).map (·.2.d_reclen.toNat)).sum = total records := by
  have hmap := List.map_map (f := (·.2)) (g := fun r : Dirent => r.d_reclen.toNat)
    (l := placed records pos)
  rw [map_snd_placed] at hmap
  exact congrArg List.sum hmap.symm

/-! ## The records of the symbolic files -/

@[simp] theorem entry_reclen (st : Stat64) (i : ℕ) :
    (entry st i).d_reclen.toNat = sizeof_dirent := rfl

theorem entry_stored (st : Stat64) (i : ℕ) : (entry st i).stored = 21 := rfl

theorem total_mapIdx (sym_files : List Stat64) (f : ℕ → Stat64 → Dirent)
    (hf : ∀ i st, (f i st).d_reclen.toNat = sizeof_dirent) :
    total (sym_files.mapIdx f) = sizeof_dirent * sym_files.length := by
  induction sym_files generalizing f with
  | nil => rfl
  | cons st rest ih =>
    rw [List.mapIdx_cons, total_cons, hf, ih _ fun i st => hf _ st, List.length_cons]
    ring

/-- The loop stores the records one after the other. -/
theorem entries_eq (sym_files : List Stat64) (i dirp bytes : ℕ) :
    entries sym_files i dirp bytes
      = (placed (sym_files.mapIdx fun k st => entry st (i + k)) dirp,
          dirp + sizeof_dirent * sym_files.length, bytes + sizeof_dirent * sym_files.length) := by
  induction sym_files generalizing i dirp bytes with
  | nil => rfl
  | cons st rest ih =>
    show ((dirp, entry st i) :: (entries rest (i + 1) (dirp + sizeof_dirent)
      (bytes + (entry st i).d_reclen.toNat)).1, (entries rest (i + 1) (dirp + sizeof_dirent)
      (bytes + (entry st i).d_reclen.toNat)).2) = _
    rw [ih, List.mapIdx_cons, placed_cons]
    have hidx : (fun k st => entry st (i + 1 + k)) = fun k st => entry st (i + (k + 1)) := by
      funext k st
      rw [Nat.add_assoc, Nat.add_comm 1 k]
    have hlen : ∀ m, m + sizeof_dirent + sizeof_dirent * rest.length
        = m + sizeof_dirent * (st :: rest).length := by
      intro m
      rw [List.length_cons]
      ring
    rw [hidx]
    simp only [entry_reclen, hlen, Nat.add_zero]

/-- What the code takes for the rest of the buffer. -/
def pad (count : BitVec 32) : ℕ := if count.toNat ≥ 4096 then 4096 else count.toNat

theorem total_symListing (sym_files : List Stat64) :
    total (symListing sym_files) = sizeof_dirent * sym_files.length :=
  total_mapIdx sym_files _ fun _ _ => rfl

/-- The length of the last record of the first call. -/
def padding (sym_files : List Stat64) (count : BitVec 32) : ℤ :=
  (pad count : ℤ) - (sizeof_dirent * sym_files.length : ℕ)

theorem mapIdx_zero_add (sym_files : List Stat64) :
    (sym_files.mapIdx fun k st => entry st (0 + k)) = symListing sym_files := by
  have hfun : (fun k st => entry st (0 + k)) = fun k st => entry st k := by
    funext k st
    rw [Nat.zero_add]
  rw [hfun]
  rfl

/-- An offset where the record of a symbolic file may start. -/
theorem own_of_le {i : ℕ} (hi : off / sizeof_dirent = i) (hoff : i * sizeof_dirent = off)
    (hle : i ≤ sym_files.length) :
    own sym_files off count
      = (let e := entries (sym_files.drop i) i 0 0
         let pad := if count ≥ 4096 then 4096 else count
         let last := deleted (pad - e.2.2 : ℤ)
         (⟨BitVec.ofNat 32 (e.2.2 + last.d_reclen.toNat), none, 0, some (pad - e.2.2 : ℤ),
            e.1 ++ [(e.2.1, last)]⟩, some pad)) := by
  unfold own
  have hbound : ¬(off / sizeof_dirent * sizeof_dirent ≠ off
      ∨ off / sizeof_dirent > sym_files.length) := by
    rw [hi]
    omega
  rw [if_neg hbound, hi]

/-- The first call. -/
theorem own_zero (sym_files : List Stat64) (count : BitVec 32) :
    own sym_files 0 count.toNat
      = (⟨BitVec.ofNat 32 (sizeof_dirent * sym_files.length
            + (deleted (padding sym_files count)).d_reclen.toNat), none, 0,
          some (padding sym_files count),
          placed (symListing sym_files ++ [deleted (padding sym_files count)]) 0⟩,
        some (pad count)) := by
  rw [own_of_le (Nat.zero_div _) (Nat.zero_mul _) (Nat.zero_le _), List.drop_zero, entries_eq,
    mapIdx_zero_add, placed_append, total_symListing, Nat.zero_add]
  rfl

/-- An offset between the symbolic files and the directory is refused. -/
theorem own_of_lt (h : sizeof_dirent * sym_files.length + 20 ≤ off) :
    own sym_files off count = (fail .EINVAL, none) := by
  unfold own
  have hbound : off / sizeof_dirent * sizeof_dirent ≠ off
      ∨ off / sizeof_dirent > sym_files.length := by
    unfold sizeof_dirent at h ⊢
    omega
  rw [if_pos hbound]

/-! ## The first call -/

theorem pad_le (count : BitVec 32) : pad count ≤ 4096 ∧ pad count ≤ count.toNat := by
  unfold pad
  split <;> omega

/-- The length of the last record is what is left, if that is not negative. -/
theorem deleted_reclen {p : ℤ} (h : 0 ≤ p) (hp : p ≤ 4096) :
    (deleted p).d_reclen.toNat = p.toNat := by
  show (BitVec.ofInt 16 p).toNat = p.toNat
  rw [BitVec.toNat_ofInt]
  omega

/-- The answer of the first call is proper when the records fit. -/
theorem proper_own_iff (sym_files : List Stat64) (count : BitVec 32) :
    Proper count (own sym_files 0 count.toNat).1
      ↔ sizeof_dirent * sym_files.length + 20 ≤ count.toNat
        ∧ sizeof_dirent * sym_files.length ≤ 4096 := by
  rw [own_zero]
  have hpad := pad_le count
  constructor
  · intro h
    -- the last record starts after those of the symbolic files
    have hmem : (sizeof_dirent * sym_files.length, deleted (padding sym_files count))
        ∈ placed (symListing sym_files ++ [deleted (padding sym_files count)]) 0 := by
      rw [placed_append, total_symListing, Nat.zero_add]
      exact List.mem_append_right _ List.mem_cons_self
    have hinside := h.inside _ hmem
    have hstored : (deleted (padding sym_files count)).stored = 20 := rfl
    have hpadding : 0 ≤ padding sym_files count := h.padding _ rfl
    unfold padding at hpadding
    dsimp only at hinside
    rw [hstored] at hinside
    exact ⟨hinside, by omega⟩
  · rintro ⟨hfit, hlow⟩
    have hle : sizeof_dirent * sym_files.length ≤ pad count := by
      unfold pad
      split <;> omega
    have hpadding : 0 ≤ padding sym_files count ∧ padding sym_files count ≤ 4096 := by
      unfold padding
      omega
    have hreclen := deleted_reclen hpadding.1 hpadding.2
    have hsum : sizeof_dirent * sym_files.length
        + (deleted (padding sym_files count)).d_reclen.toNat = pad count := by
      rw [hreclen]
      unfold padding
      omega
    refine ⟨Nat.zero_le _, ?_, ?_, ?_, .inr ⟨?_, ?_, rfl⟩⟩
    · intro x hx
      dsimp only at hx
      rw [placed_append, total_symListing, Nat.zero_add] at hx
      rcases List.mem_append.mp hx with hx | hx
      · obtain ⟨hmem, hend⟩ := placed_end_le hx
        rw [total_symListing] at hend
        obtain ⟨i, hi, heq⟩ := List.mem_mapIdx.mp hmem
        rw [← heq, entry_reclen] at hend
        rw [← heq, entry_stored]
        unfold sizeof_dirent at *
        omega
      · obtain rfl := List.mem_singleton.mp hx
        exact hfit
    · intro p hp
      obtain rfl := Option.some.inj hp
      exact hpadding.1
    · show placed _ 0 = placed ((placed _ 0).map _) 0
      rw [map_snd_placed]
    · show 0 ≤ (BitVec.ofNat 32 _).toInt
      rw [hsum, BitVec.toInt_eq_toNat_of_lt]
      · exact Int.natCast_nonneg _
      · rw [BitVec.toNat_ofNat]
        omega
    · show (BitVec.ofNat 32 _).toNat = _
      rw [sum_reclen_eq, hsum, BitVec.toNat_ofNat]
      unfold total
      rw [List.map_append, List.sum_append]
      have htotal := total_symListing sym_files
      unfold total at htotal
      rw [htotal, List.map_singleton, List.sum_singleton, hsum]
      omega

/-! ## The directory -/

@[simp] theorem shifted_reclen (r : Dirent) : (shifted r).d_reclen = r.d_reclen := by
  unfold shifted
  rfl

@[simp] theorem shifted_stored (r : Dirent) : (shifted r).stored = r.stored := by
  unfold shifted Dirent.stored
  rfl

theorem patch_cons (r : Dirent) (rest : List Dirent) (pos res : ℕ) :
    patch (r :: rest) pos res
      = (pos, if pos < res then shifted r else r) :: patch rest (pos + r.d_reclen.toNat) res := rfl

theorem patch_eq {res : ℕ} (hres : pos + total records ≤ res)
    (hstored : ∀ r ∈ records, r.stored ≤ r.d_reclen.toNat) :
    patch records pos res = placed (records.map shifted) pos := by
  induction records generalizing pos with
  | nil => rfl
  | cons r rest ih =>
    rw [total_cons] at hres
    -- a record has a positive length, and so starts below the end
    have hpos : 20 ≤ r.d_reclen.toNat := by
      have hr := hstored r List.mem_cons_self
      unfold Dirent.stored at hr
      omega
    rw [patch_cons, List.map_cons, placed_cons, if_pos (by omega), shifted_reclen,
      ih (by omega) fun r' hr' => hstored r' (List.mem_cons_of_mem _ hr')]

theorem total_map_shifted (records : List Dirent) :
    total (records.map shifted) = total records := by
  unfold total
  rw [List.map_map]
  refine congrArg List.sum (List.map_congr_left fun r _ => ?_)
  rw [Function.comp_apply, shifted_reclen]

/-- A call that comes to the directory. -/
theorem fromOs_spec {os : OsDirectory} (hos : Documented os) {pos : BitVec 64}
    (hseek : os.lseek pos = true) (count : BitVec 32) :
    ∃ a off, fromOs os (pos + 4096) count = some (a, off) ∧ Proper count a
      ∧ (off = none ∧ (∀ counts, osListing os pos (count :: counts) = osListing os pos counts)
          ∧ a.records = []
        ∨ ∃ pos' records, off = some (pos' + 4096) ∧ os.lseek pos' = true ∧ pos'.toNat < 2 ^ 63
          ∧ (∀ counts, osListing os pos (count :: counts) = records ++ osListing os pos' counts)
          ∧ a.records.map (·.2) = records.map shifted) := by
  unfold fromOs
  rw [BitVec.add_sub_cancel]
  simp only [hseek, if_true]
  cases hget : os.getdents64 pos count with
  | none =>
    refine ⟨_, _, rfl, ⟨Nat.le_refl _, ?_, ?_, rfl, .inl ⟨rfl, rfl, rfl⟩⟩, .inl ⟨rfl, ?_, rfl⟩⟩
    · intro x hx
      cases hx
    · intro p hp
      cases hp
    · intro counts
      simp only [osListing, hget]
  | some answer =>
    obtain ⟨res, records, pos'⟩ := answer
    obtain ⟨hres, hfits, hpositive⟩ := hos.res _ _ _ _ _ hget
    obtain ⟨hseek', hpos'⟩ := hos.lseek _ _ _ _ _ hget
    have hstored := hos.stored _ _ _ _ _ hget
    have htotal : total records = res.toNat := hres.symm
    have hpatch : patch records 0 res.toNat = placed (records.map shifted) 0 :=
      patch_eq (by omega) hstored
    refine ⟨_, _, rfl, ⟨Nat.le_refl _, ?_, ?_, ?_, .inr ⟨?_, ?_, rfl⟩⟩,
      .inr ⟨pos', records, rfl, hseek', hpos', ?_, ?_⟩⟩
    · intro x hx
      dsimp only at hx
      rw [hpatch] at hx
      obtain ⟨hmem, hend⟩ := placed_end_le hx
      rw [total_map_shifted] at hend
      obtain ⟨r, hr, heq⟩ := List.mem_map.mp hmem
      have hr' : x.2.stored ≤ x.2.d_reclen.toNat := by
        rw [← heq, shifted_stored, shifted_reclen]
        exact hstored r hr
      omega
    · intro p hp
      cases hp
    · show patch records 0 res.toNat = placed ((patch records 0 res.toNat).map _) 0
      rw [hpatch, map_snd_placed]
    · show 0 ≤ res.toInt
      rw [BitVec.toInt_eq_toNat_of_lt (by omega)]
      exact Int.natCast_nonneg _
    · show res.toNat = _
      rw [hpatch, sum_reclen_eq, total_map_shifted, htotal]
    · intro counts
      simp only [osListing, hget]
    · show (patch records 0 res.toNat).map _ = _
      rw [hpatch, map_snd_placed]

/-! ## The descriptor -/

section Descriptor

variable {fds : Fds} {fd : ℤ} {f : Fin MAX_FDS}

theorem setOff_some (fds : Fds) (f : Fin MAX_FDS) (off : BitVec 64) :
    setOff fds f (some off) f = { fds f with off := off } := Function.update_self ..

/-- Setting the offset leaves the descriptor open. -/
theorem get_file_setOff (hf : fds.get_file fd = some f) (off : Option (BitVec 64)) :
    (setOff fds f off).get_file fd = some f := by
  cases off with
  | none => exact hf
  | some off =>
    obtain ⟨hfd, hopen⟩ := Fds.get_file_eq_some.mp hf
    apply Fds.get_file_eq_some.mpr
    rw [setOff_some]
    exact ⟨hfd, hopen⟩

theorem dfile_setOff (hd : (fds f).dfile.isSome = false) (off : Option (BitVec 64)) :
    (setOff fds f off f).dfile.isSome = false := by
  cases off with
  | none => exact hd
  | some off =>
    rw [setOff_some]
    exact hd

/-- A call below 4096. -/
theorem fd_getdents_own (hf : fds.get_file fd = some f) (hd : (fds f).dfile.isSome = false)
    (hoff : (fds f).off.toNat < 4096) (sym_files : List Stat64) (os : OsDirectory)
    (count : BitVec 32) :
    fd_getdents sym_files os fd fds count
      = some ((own sym_files (fds f).off.toNat count.toNat).1,
          setOff fds f ((own sym_files (fds f).off.toNat count.toNat).2.map (BitVec.ofNat 64 ·))) := by
  unfold fd_getdents
  simp only [hf, hd, Bool.false_eq_true, if_false, if_pos hoff]

/-- A call from 4096 on. -/
theorem fd_getdents_fromOs (hf : fds.get_file fd = some f) (hd : (fds f).dfile.isSome = false)
    {pos : BitVec 64} (hoff : (fds f).off = pos + 4096) (hpos : pos.toNat < 2 ^ 63)
    (sym_files : List Stat64) (os : OsDirectory) (count : BitVec 32) :
    fd_getdents sym_files os fd fds count
      = (fromOs os (pos + 4096) count).map fun x => (x.1, setOff fds f x.2) := by
  have hge : ¬(pos + 4096).toNat < 4096 := by
    rw [BitVec.toNat_add]
    have h4096 : (4096 : BitVec 64).toNat = 4096 := by decide
    omega
  unfold fd_getdents
  simp only [hf, hd, Bool.false_eq_true, if_false, hoff, if_neg hge]

/-- The calls from 4096 on. -/
theorem run_fromOs {os : OsDirectory} (hos : Documented os) (sym_files : List Stat64)
    (counts : List (BitVec 32)) (hf : fds.get_file fd = some f)
    (hd : (fds f).dfile.isSome = false) {pos : BitVec 64} (hoff : (fds f).off = pos + 4096)
    (hseek : os.lseek pos = true) (hpos : pos.toNat < 2 ^ 63) :
    ∃ answers fds', runOption (fd_getdents sym_files os fd) fds counts = some (answers, fds')
      ∧ List.Forall₂ Proper counts answers
      ∧ answers.flatMap (fun a => a.records.map (·.2)) = (osListing os pos counts).map shifted := by
  induction counts generalizing fds pos with
  | nil => exact ⟨[], fds, rfl, .nil, rfl⟩
  | cons count counts ih =>
    obtain ⟨a, off, hcall, hproper, hnext⟩ := fromOs_spec hos hseek count
    have hstep : fd_getdents sym_files os fd fds count = some (a, setOff fds f off) := by
      rw [fd_getdents_fromOs hf hd hoff hpos, hcall]
      rfl
    have hf' := get_file_setOff hf off
    have hd' := dfile_setOff hd off
    rcases hnext with ⟨rfl, hlisting, hnone⟩ | ⟨pos', records, rfl, hseek', hpos', hlisting, hrecs⟩
    · obtain ⟨answers, fds', hrun, hall, hflat⟩ := ih hf' hd' hoff hseek hpos
      refine ⟨a :: answers, fds', runOption_cons hstep hrun, .cons hproper hall, ?_⟩
      rw [List.flatMap_cons, hnone, hflat, hlisting]
      rfl
    · have hoff' : (setOff fds f (some (pos' + 4096)) f).off = pos' + 4096 := by
        rw [setOff_some]
      obtain ⟨answers, fds', hrun, hall, hflat⟩ := ih hf' hd' hoff' hseek' hpos'
      refine ⟨a :: answers, fds', runOption_cons hstep hrun, .cons hproper hall, ?_⟩
      rw [List.flatMap_cons, hrecs, hflat, hlisting, List.map_append]

theorem not_proper_einval (count : BitVec 32) : ¬Proper count (fail .EINVAL) := by
  intro h
  rcases h.value with ⟨-, h, -⟩ | ⟨-, -, h⟩
  · cases h
  · cases h

/-- Calls of `__fd_getdents` on a directory of the operating system, from offset 0 on, keep to
their buffers and list every symbolic file and then the directory, exactly when the sizes of the
buffers fit. -/
theorem getdents_lists_iff {os : OsDirectory} (hos : Documented os) (sym_files : List Stat64)
    (hf : fds.get_file fd = some f) (hd : (fds f).dfile.isSome = false) (hoff : (fds f).off = 0)
    (counts : List (BitVec 32)) :
    (∃ answers fds', runOption (fd_getdents sym_files os fd) fds counts = some (answers, fds')
      ∧ Lists sym_files os counts answers) ↔ Fits sym_files.length counts := by
  cases counts with
  | nil => exact ⟨fun _ => trivial, fun _ => ⟨[], fds, rfl, .nil, fun h => absurd rfl h⟩⟩
  | cons count counts =>
    have hzero : (fds f).off.toNat = 0 := by rw [hoff]; rfl
    have hstep := fd_getdents_own hf hd (by omega) sym_files os count
    rw [hzero] at hstep
    set a := (own sym_files 0 count.toNat).1 with ha
    set fds₁ := setOff fds f ((own sym_files 0 count.toNat).2.map (BitVec.ofNat 64 ·)) with hfds₁
    have hnext : fds₁ = setOff fds f (some (BitVec.ofNat 64 (pad count))) := by
      rw [hfds₁, own_zero]
      rfl
    have hf₁ : fds₁.get_file fd = some f := by rw [hnext]; exact get_file_setOff hf _
    have hd₁ : (fds₁ f).dfile.isSome = false := by rw [hnext]; exact dfile_setOff hd _
    have hoff₁ : (fds₁ f).off = BitVec.ofNat 64 (pad count) := by rw [hnext, setOff_some]
    have hrecords : a.records.map (·.2)
        = symListing sym_files ++ [deleted (padding sym_files count)] := by
      rw [ha, own_zero]
      exact map_snd_placed _ _
    constructor
    · rintro ⟨answers, fds', hrun, hlists⟩
      rw [runOption, hstep] at hrun
      obtain ⟨⟨answers', fds''⟩, hrest, heq⟩ := Option.map_eq_some_iff.mp hrun
      obtain ⟨rfl, rfl⟩ := Prod.mk.inj heq
      obtain ⟨hproper, hothers⟩ := List.forall₂_cons.mp hlists.1
      obtain ⟨hfit, hlow⟩ := (proper_own_iff sym_files count).mp hproper
      refine ⟨hfit, hlow, fun hne => ?_⟩
      -- another call finds an offset that stands for nothing, unless the first one came to 4096
      by_contra hsmall
      have hpad : pad count = count.toNat := if_neg hsmall
      obtain ⟨count', counts', rfl⟩ := List.exists_cons_of_ne_nil hne
      have hoff' : (fds₁ f).off.toNat = count.toNat := by
        rw [hoff₁, hpad, BitVec.toNat_ofNat]
        omega
      have hstep' := fd_getdents_own hf₁ hd₁ (by omega) sym_files os count'
      rw [hoff', own_of_lt hfit] at hstep'
      rw [runOption, hstep'] at hrest
      obtain ⟨⟨answers'', fdsEnd⟩, -, heq⟩ := Option.map_eq_some_iff.mp hrest
      obtain ⟨rfl, rfl⟩ := Prod.mk.inj heq
      exact not_proper_einval _ (List.forall₂_cons.mp hothers).1
    · rintro ⟨hfit, hlow, hlarge⟩
      have hproper : Proper count a := (proper_own_iff sym_files count).mpr ⟨hfit, hlow⟩
      -- the first call is the only one, or leads to the start of the directory
      have hrest : ∃ answers fds', runOption (fd_getdents sym_files os fd) fds₁ counts
            = some (answers, fds') ∧ List.Forall₂ Proper counts answers
          ∧ answers.flatMap (fun a => a.records.map (·.2))
            = (osListing os 0 counts).map shifted := by
        by_cases hne : counts = []
        · subst hne
          exact ⟨[], fds₁, rfl, .nil, rfl⟩
        · have hpad : pad count = 4096 := if_pos (hlarge hne)
          have hoff' : (fds₁ f).off = 0 + 4096 := by
            rw [hoff₁, hpad]
            decide
          exact run_fromOs hos sym_files counts hf₁ hd₁ hoff' hos.lseek_zero (by decide)
      obtain ⟨answers, fds', hrun, hall, hflat⟩ := hrest
      refine ⟨a :: answers, fds', runOption_cons hstep hrun, .cons hproper hall, fun _ =>
        ⟨deleted (padding sym_files count), rfl, ?_⟩⟩
      rw [List.flatMap_cons, hrecords, hflat, List.append_assoc]
      rfl

end Descriptor

/-! ## One symbolic file -/

/-- A table in which descriptor 0 is a directory of the operating system, and the only one. -/
def directoryFds : Fds := fun i =>
  if i.val = 0 then ⟨7, ⟨true, false, true, false⟩, 0, none⟩ else .zero

/-- A directory without entries. -/
def emptyDirectory : OsDirectory := ⟨fun pos => pos = 0, fun _ _ => some (0, [], 0)⟩

theorem emptyDirectory_documented : Documented emptyDirectory := by
  refine ⟨rfl, ?_, ?_, ?_⟩
  · rintro pos count res records pos' ⟨⟩
    exact ⟨rfl, by decide⟩
  · rintro pos count res records pos' ⟨⟩
    exact ⟨rfl, Nat.zero_le _, by decide⟩
  · rintro pos count res records pos' ⟨⟩ r hr
    cases hr

/-- The file `A`. -/
def fileA : Stat64 := ⟨1, 0o100600⟩

/-- A buffer of 4096 bytes, -/
theorem getdents_lists_iff_4096 :
    ∃ answers fds', runOption (fd_getdents [fileA] emptyDirectory 0) directoryFds [4096, 4096]
        = some (answers, fds')
      ∧ Lists [fileA] emptyDirectory [4096, 4096] answers := by
  have hf : directoryFds.get_file 0 = some ⟨0, by decide⟩ := rfl
  refine (getdents_lists_iff emptyDirectory_documented [fileA] hf rfl rfl _).mpr ?_
  exact ⟨by decide, by decide, fun _ => by decide⟩

/-- and one of 280: the last record is stored behind its end. -/
theorem not_getdents_lists_280 :
    ¬∃ answers fds', runOption (fd_getdents [fileA] emptyDirectory 0) directoryFds [280]
        = some (answers, fds')
      ∧ Lists [fileA] emptyDirectory [280] answers := by
  rintro ⟨answers, fds', hrun, hlists⟩
  have hf : directoryFds.get_file 0 = some ⟨0, by decide⟩ := rfl
  rw [runOption, fd_getdents_own hf rfl (by decide)] at hrun
  obtain ⟨⟨answers', fds''⟩, -, heq⟩ := Option.map_eq_some_iff.mp hrun
  obtain ⟨rfl, rfl⟩ := Prod.mk.inj heq
  have hfits := (proper_own_iff [fileA] 280).mp (List.forall₂_cons.mp hlists.1).1
  exact absurd hfits.1 (by decide)

end Xklee.Getdents
