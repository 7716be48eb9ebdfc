/-
When `klee_create_cp_file` creates the file that it should.

The contents are read in as many pieces as the operating system likes, and are those of the file as
long as its size is an `int`. The methods then decide what is symbolic.
-/
import Xklee.POSIX.SymbolicParts

set_option autoImplicit false

namespace Xklee.MakeSymbolic

variable {data : List (BitVec 8)} {p : XqxMakeSym} {path name : List Char}

/-! ## Reading the file -/

variable {f : OsFile} {size : BitVec 32} {free : ℕ → Prop}

/-- The pieces make up the file. -/
theorem readLoop_eq (hdoc : Documented f) (hint : f.data.length < 2 ^ 31) (fuel cnt : ℕ)
    (buf : List (BitVec 8)) (hfuel : f.data.length ≤ cnt + fuel) (hcnt : cnt ≤ f.data.length)
    (hlen : buf.length = f.data.length) (hread : ∀ j < cnt, buf[j]? = f.data[j]?) :
    readLoop f fuel cnt buf = some f.data := by
  induction fuel generalizing cnt buf with
  | zero =>
    refine congrArg some (List.ext_getElem? fun j => ?_)
    by_cases hj : j < cnt
    · exact hread j hj
    · rw [List.getElem?_eq_none (by omega), List.getElem?_eq_none (by omega)]
  | succ fuel ih =>
    unfold readLoop
    by_cases hend : cnt < f.data.length
    · obtain ⟨hpos, hle⟩ := hdoc cnt hend
      obtain ⟨buf', hcopy⟩ := Buffer.exists_copy buf cnt f.data cnt (f.read cnt).toNat (by omega)
      simp only [if_pos hend, if_neg (by omega : ¬f.read cnt ≤ 0), hcopy, Option.bind_some,
        if_pos (by omega : cnt + (f.read cnt).toNat < 2 ^ 31)]
      refine ih _ _ (by omega) (by omega) ((Buffer.length_copy hcopy).trans hlen) fun j hj => ?_
      rw [Buffer.getElem?_copy hcopy]
      by_cases hnew : cnt ≤ j
      · rw [if_pos ⟨hnew, hj⟩, Nat.add_sub_cancel' hnew]
      · rw [if_neg (by omega)]
        exact hread j (by omega)
    · rw [if_neg hend]
      refine congrArg some (List.ext_getElem? fun j => ?_)
      by_cases hj : j < cnt
      · exact hread j hj
      · rw [List.getElem?_eq_none (by omega), List.getElem?_eq_none (by omega)]

/-- A file that is too large makes `cnt` overflow. -/
theorem readLoop_eq_none (hdoc : Documented f) (hint : 2 ^ 31 ≤ f.data.length) (fuel cnt : ℕ)
    (buf : List (BitVec 8)) (hfuel : f.data.length ≤ cnt + fuel) (hcnt : cnt < 2 ^ 31)
    (hlen : buf.length = f.data.length) : readLoop f fuel cnt buf = none := by
  induction fuel generalizing cnt buf with
  | zero => omega
  | succ fuel ih =>
    have hend : cnt < f.data.length := by omega
    obtain ⟨hpos, hle⟩ := hdoc cnt hend
    obtain ⟨buf', hcopy⟩ := Buffer.exists_copy buf cnt f.data cnt (f.read cnt).toNat (by omega)
    unfold readLoop
    simp only [if_pos hend, if_neg (by omega : ¬f.read cnt ≤ 0), hcopy, Option.bind_some]
    by_cases hnext : cnt + (f.read cnt).toNat < 2 ^ 31
    · rw [if_pos hnext]
      exact ih _ _ (by omega) hnext ((Buffer.length_copy hcopy).trans hlen)
    · rw [if_neg hnext]

theorem length_junk (f : OsFile) (junk : ℕ → BitVec 8) :
    ((List.range f.data.length).map junk).length = f.data.length := by
  rw [List.length_map, List.length_range]

theorem native_read_file_eq (hdoc : Documented f) (hint : f.data.length < 2 ^ 31)
    (hopen : f.canOpen = true) (junk : ℕ → BitVec 8) :
    native_read_file (some f) junk = some (some (f.data, BitVec.ofNat 32 f.data.length)) := by
  unfold native_read_file
  simp only [hopen, if_true]
  rw [readLoop_eq hdoc hint _ 0 _ (by omega) (Nat.zero_le _) (length_junk f junk)
    fun j hj => absurd hj (Nat.not_lt_zero j)]
  rfl

theorem native_read_file_eq_none (hdoc : Documented f) (hint : 2 ^ 31 ≤ f.data.length)
    (hopen : f.canOpen = true) (junk : ℕ → BitVec 8) :
    native_read_file (some f) junk = none := by
  unfold native_read_file
  simp only [hopen, if_true]
  rw [readLoop_eq_none hdoc hint _ 0 _ (by omega) (by omega) (length_junk f junk)]
  rfl

/-! ## Filling the file -/

theorem symbolised_concrete (data : List (BitVec 8)) :
    Symbolised data (fun _ => False) ⟨data.map .concrete, []⟩ :=
  ⟨List.length_map .., fun _ _ hget => ⟨False.elim, fun _ => .inl (getElem?_data hget)⟩⟩

/-- A copy of the whole file. -/
theorem copy_data (hsize : size.toNat = data.length) {dst src : List MemByte}
    (hsrc : src = data.map .concrete) (hdst : dst.length = data.length) :
    Buffer.copy dst 0 src 0 size.toNat = some (data.map .concrete) := by
  subst hsrc
  have hall := Buffer.copy_all dst
    (((List.length_map ..).trans hdst.symm) : (data.map MemByte.concrete).length = dst.length)
  rwa [hdst, ← hsize] at hall

/-- A result that is not rejected is right when its free bytes are the covered ones. -/
theorem right_filled_iff {c : FileBytes} (h : Symbolised data free c) :
    Right data p ⟨false, c⟩ ↔ ∀ j < data.length, Covered p j ↔ free j :=
  (right_of_not_rejected rfl).trans (symbolised_iff h)

/-- A method that has one result when a condition holds and none otherwise. -/
theorem exists_right_iff {x : Option Filled} {cond : Prop}
    (hsome : cond → ∃ c, x = some ⟨false, c⟩ ∧ Symbolised data free c) (hnone : ¬cond → x = none) :
    (∃ r, x = some r ∧ Right data p r)
      ↔ cond ∧ ∀ j < data.length, Covered p j ↔ free j := by
  by_cases hcond : cond
  · obtain ⟨c, hx, hfree⟩ := hsome hcond
    rw [hx]
    constructor
    · rintro ⟨r, hr, hright⟩
      obtain rfl := Option.some.inj hr
      exact ⟨hcond, (right_filled_iff hfree).mp hright⟩
    · rintro ⟨-, hiff⟩
      exact ⟨_, rfl, (right_filled_iff hfree).mpr hiff⟩
  · rw [hnone hcond]
    refine iff_of_false ?_ fun h => hcond h.1
    rintro ⟨r, hr, -⟩
    cases hr

/-- The body of the loop over `sym_info`, for the first of them. -/
theorem fill_right_iff (hsize : size.toNat = data.length) (hint : data.length < 2 ^ 31)
    (hnum : p.num.toNat ≤ SYM_BUF_SIZE) :
    (∃ r, fill path name size (data.map .concrete) p 0 ⟨data.map .concrete, []⟩ = some r
      ∧ Right data p r) ↔ Fillable data.length name p := by
  obtain ⟨part, hpart⟩ := part_eq_some (p := p) (k := 0) (by decide)
  have hfillable : Fillable data.length name p ↔ _ :=
    ⟨fun h => h part hpart, fun h part' hpart' => by
      rw [hpart] at hpart'
      obtain rfl := Option.some.inj hpart'
      exact h⟩
  rw [hfillable]
  unfold fill
  rw [hpart, Option.bind_some]
  by_cases hbound : outOfBound part size = true
  · -- a part 0 out of bounds is rejected
    have hlt := outOfBound_iff.mp hbound
    rw [hsize] at hlt
    cases p.fill_method with
    | fill_concrete =>
      dsimp only
      unfold fill_concrete
      rw [klee_make_symbolic_eq hsize, Option.bind_some, if_pos hbound, if_pos hlt,
        ← right_rejected_iff p path]
      exact ⟨fun ⟨r, hr, h⟩ => Option.some.inj hr ▸ h, fun h => ⟨_, rfl, h⟩⟩
    | fill_assume =>
      dsimp only
      unfold fill_assume
      rw [klee_make_symbolic_eq hsize, Option.bind_some]
      dsimp only
      rw [if_pos hbound, if_pos hlt, ← right_rejected_iff p path]
      exact ⟨fun ⟨r, hr, h⟩ => Option.some.inj hr ▸ h, fun h => ⟨_, rfl, h⟩⟩
    | fill_sym =>
      dsimp only
      refine iff_of_true ?_ (.inl hlt)
      unfold fill_sym
      rw [copy_data hsize rfl (List.length_map ..), Option.bind_some, if_pos hbound]
      refine ⟨_, rfl, ?_⟩
      unfold Right
      rw [if_pos rfl]
  · have hnlt : ¬data.length < (part.offset.toNat + part.length.toNat) % 2 ^ 32 := by
      rw [← hsize]
      exact fun h => hbound (outOfBound_iff.mpr h)
    cases p.fill_method with
    | fill_concrete =>
      dsimp only
      have hspec := fill_concrete_spec path hsize hint hbound
      rw [hsize] at hspec
      rw [if_neg hnlt, exists_right_iff hspec.1 hspec.2, and_assoc]
    | fill_assume =>
      dsimp only
      have hspec := fill_assume_spec path hsize hbound
      rw [hsize] at hspec
      rw [if_neg hnlt, exists_right_iff hspec.1 hspec.2]
    | fill_sym =>
      dsimp only
      unfold fill_sym
      rw [copy_data hsize rfl (List.length_map ..), Option.bind_some, if_neg hbound]
      have hspec := fillParts_spec p name (symbolised_concrete data) p.num.toNat hnum
      constructor
      · rintro ⟨r, hr, -⟩
        refine .inr ?_
        by_contra hnot
        rw [hspec.2 hnot] at hr
        cases hr
      · rintro (hlt | hall)
        · exact absurd hlt hnlt
        · obtain ⟨contents, hfold, hsym⟩ := hspec.1 hall
          refine ⟨⟨false, ⟨contents, []⟩⟩, ?_, (right_of_not_rejected rfl).mpr hsym⟩
          rw [hfold]
          rfl

/-! ## The whole call -/

/-- `__xqx_create_new_dfile` comes to the loop over one element of `sym_info`. -/
theorem create_new_dfile_eq (hsize : size.toNat = data.length) (hpath : path.length + 6 ≤ 256)
    (hname : getBaseName path = some name) (p : XqxMakeSym) :
    create_new_dfile path size (data.map .concrete) [p]
      = fill path name size (data.map .concrete) p 0 ⟨data.map .concrete, []⟩ := by
  unfold create_new_dfile
  rw [if_pos hpath, copy_data hsize rfl (by rw [List.length_replicate, hsize]), Option.bind_some,
    if_neg (List.cons_ne_nil p [])]
  unfold make_file_symbolic
  rw [hname, Option.bind_some]
  show (fill path name size (data.map .concrete) p 0 ⟨data.map .concrete, []⟩).bind _ = _
  cases fill path name size (data.map .concrete) p 0 ⟨data.map .concrete, []⟩ with
  | none => rfl
  | some r =>
    rw [Option.bind_some]
    rcases r with ⟨_ | _, bytes⟩
    · rfl
    · rfl

/-- `__xqx_create_new_dfile` and what it calls. -/
theorem create_right_iff (path : List Char) (hsize : size.toNat = data.length)
    (hint : data.length < 2 ^ 31) (hnum : p.num.toNat ≤ SYM_BUF_SIZE) :
    (∃ r, create_new_dfile path size (data.map .concrete) [p] = some r ∧ Right data p r)
      ↔ path.length + 6 ≤ 256
        ∧ ∃ name, getBaseName path = some name ∧ Fillable data.length name p := by
  by_cases hpath : path.length + 6 ≤ 256
  · cases hname : getBaseName path with
    | none =>
      refine iff_of_false ?_ ?_
      · rintro ⟨r, hr, -⟩
        unfold create_new_dfile make_file_symbolic at hr
        rw [if_pos hpath, copy_data hsize rfl (by rw [List.length_replicate, hsize]),
          Option.bind_some, if_neg (List.cons_ne_nil p []), hname] at hr
        cases hr
      · rintro ⟨-, name, hname', -⟩
        cases hname'
    | some name =>
      rw [create_new_dfile_eq hsize hpath hname, fill_right_iff hsize hint hnum]
      constructor
      · exact fun h => ⟨hpath, name, rfl, h⟩
      · rintro ⟨-, name', hname', h⟩
        exact Option.some.inj hname' ▸ h
  · unfold create_new_dfile
    rw [if_neg hpath]
    refine iff_of_false ?_ fun h => hpath h.1
    rintro ⟨r, hr, -⟩
    cases hr

theorem findIdx?_not_eq_none {used : List Bool} :
    used.findIdx? (!·) = none ↔ false ∉ used := by
  rw [List.findIdx?_eq_none_iff]
  constructor
  · exact fun h hmem => absurd (h false hmem) (by decide)
  · intro h b hb
    cases b with
    | false => exact absurd hb h
    | true => rfl

/-- A file that is read at once. -/
def smallFile : OsFile := ⟨[1, 2, 3, 4], true, fun p => 4 - p⟩

theorem smallFile_documented : Documented smallFile := by
  intro p hp
  have hp' : p < 4 := hp
  show 0 < (4 : ℤ) - p ∧ (4 : ℤ) - p ≤ (4 - p : ℕ)
  omega

/-- One part of two bytes. -/
def onePart (method : FillMethod) (offset : BitVec 32) : XqxMakeSym :=
  ⟨none, 1, method, fun _ => ⟨offset, 2⟩⟩

end Xklee.MakeSymbolic
