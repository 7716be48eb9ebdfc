/-
The runs of `klee_init_env`: exactly those whose rounds are safe stay within the tables.

The loop of `--xqx-args` either has all its parameters in front of it, or fills one of its tables
first, or reads past the last argument. This is read off its rounds, from the last parameter
backwards. For the run the rounds are counted by the arguments that they take.
-/
import Xklee.POSIX.InitEnvBounds

set_option autoImplicit false

namespace Xklee.InitEnv

variable {argv : List (List Char)} {choose : ℕ → ℤ} {s s' : EnvState} {a : List Char}

/-! ## `--xqx-args` -/

variable {b : Bool} {x : Xargs} {n k : ℕ} {t : List Char}

theorem stopIf_eq_ok (h : b = false) (e : Stop) : stopIf b e = .ok () := by
  rw [h]
  rfl

theorem stopIf_eq_error (h : b = true) (e : Stop) : stopIf b e = .error e := by
  rw [h]
  rfl

/-- The number of entries of the table for the arguments of `m` characters. -/
def Xargs.count (x : Xargs) (m : ℕ) : ℕ :=
  if m = 1 then x.xarg0 else if m = 2 then x.xarg1 else x.xarg2

/-- No table is full. -/
def Xargs.Few (x : Xargs) : Prop := x.xarg0 ≤ 9 ∧ x.xarg1 ≤ 9 ∧ x.xarg2 ≤ 9

theorem Xargs.Few.count_le (h : x.Few) (m : ℕ) : x.count m ≤ 9 := by
  obtain ⟨h0, h1, h2⟩ := h
  unfold Xargs.count
  split
  · exact h0
  · split
    · exact h1
    · exact h2

/-- A character goes to the next entry of a table. The tenth entry is written before the error. -/
theorem setXarg_stopIf (xargv : List Char) {i : ℕ} (c : Char) (hi : i ≤ 9) (msg : String)
    (f : List Char → Xargs) :
    (setXarg xargv i c >>= fun xargv' => stopIf (i + 1 > 9) (.error msg) >>= fun _ =>
      Except.ok (f xargv'))
      = if i = 9 then .error (.error msg) else .ok (f (xargv.set i c)) := by
  unfold setXarg
  rw [if_pos (by omega)]
  by_cases hfull : i = 9
  · rw [if_pos hfull]
    show (stopIf _ _ >>= _) = _
    rw [stopIf_eq_error (decide_eq_true (by omega))]
    rfl
  · rw [if_neg hfull]
    show (stopIf _ _ >>= _) = _
    rw [stopIf_eq_ok (decide_eq_false (by omega))]
    rfl

/-- An argument fills a table, or it is counted with those of its length. -/
theorem xqx_arg_spec (a : List Char) (hx : x.Few) :
    (∃ m msg, (m = 1 ∨ m = 2 ∨ m = 3) ∧ a.length = m ∧ x.count m = 9
        ∧ xqx_arg a x = .error (.error msg))
      ∨ ∃ x', xqx_arg a x = .ok x' ∧ x'.Few ∧ ∀ m, m = 1 ∨ m = 2 ∨ m = 3 →
        x'.count m = x.count m + if a.length = m then 1 else 0 := by
  obtain ⟨h0, h1, h2⟩ := hx
  match a with
  | [] =>
      refine Or.inr ⟨x, rfl, ⟨h0, h1, h2⟩, fun m hm => ?_⟩
      rw [if_neg (by rw [List.length_nil]; omega), Nat.add_zero]
  | [c] =>
      have heq : xqx_arg [c] x = _ := setXarg_stopIf x.xargv0 c h0 "xarg0 must be less than 10"
        fun xargv0 => { x with xargv0 := xargv0, xarg0 := x.xarg0 + 1 }
      by_cases hfull : x.xarg0 = 9
      · rw [if_pos hfull] at heq
        exact Or.inl ⟨1, _, Or.inl rfl, rfl, hfull, heq⟩
      · rw [if_neg hfull] at heq
        refine Or.inr ⟨_, heq, ⟨by show x.xarg0 + 1 ≤ 9; omega, h1, h2⟩, ?_⟩
        rintro m (rfl | rfl | rfl) <;> rfl
  | [c, d] =>
      have heq : xqx_arg [c, d] x = _ := setXarg_stopIf x.xargv1 c h1 "xarg1 must be less than 10"
        fun xargv1 => { x with xargv1 := xargv1, xarg1 := x.xarg1 + 1 }
      by_cases hfull : x.xarg1 = 9
      · rw [if_pos hfull] at heq
        exact Or.inl ⟨2, _, Or.inr (Or.inl rfl), rfl, hfull, heq⟩
      · rw [if_neg hfull] at heq
        refine Or.inr ⟨_, heq, ⟨h0, by show x.xarg1 + 1 ≤ 9; omega, h2⟩, ?_⟩
        rintro m (rfl | rfl | rfl) <;> rfl
  | [c, d, e] =>
      have heq : xqx_arg [c, d, e] x = _ :=
        setXarg_stopIf x.xargv2 c h2 "xarg2 must be less than 10"
          fun xargv2 => { x with xargv2 := xargv2, xarg2 := x.xarg2 + 1 }
      by_cases hfull : x.xarg2 = 9
      · rw [if_pos hfull] at heq
        exact Or.inl ⟨3, _, Or.inr (Or.inr rfl), rfl, hfull, heq⟩
      · rw [if_neg hfull] at heq
        refine Or.inr ⟨_, heq, ⟨h0, h1, by show x.xarg2 + 1 ≤ 9; omega⟩, ?_⟩
        rintro m (rfl | rfl | rfl) <;> rfl
  | c :: d :: e :: f :: rest =>
      refine Or.inr ⟨x, rfl, ⟨h0, h1, h2⟩, fun m hm => ?_⟩
      rw [if_neg (by simp only [List.length_cons]; omega), Nat.add_zero]

/-- From an argument on there are `n` arguments, or enough of one length to fill its table. -/
def Fits (argv : List (List Char)) (n k : ℕ) (x : Xargs) : Prop :=
  k + n ≤ argv.length ∨ ∃ m, (m = 1 ∨ m = 2 ∨ m = 3)
    ∧ 10 ≤ x.count m + (argv.drop k).countP fun a => decide (a.length = m)

/-- An argument that is counted is one of those in front of the loop. -/
theorem fits_succ {x' : Xargs} (hget : argv[k]? = some a) (hcount : ∀ m, m = 1 ∨ m = 2 ∨ m = 3 →
      x'.count m = x.count m + if a.length = m then 1 else 0) :
    Fits argv (n + 1) k x ↔ Fits argv n (k + 1) x' := by
  obtain ⟨hk, rfl⟩ := List.getElem?_eq_some_iff.mp hget
  have hdrop : ∀ m, m = 1 ∨ m = 2 ∨ m = 3 →
      x.count m + (argv.drop k).countP (fun a => decide (a.length = m))
        = x'.count m + (argv.drop (k + 1)).countP fun a => decide (a.length = m) := by
    intro m hm
    rw [hcount m hm, List.drop_eq_getElem_cons hk, List.countP_cons]
    simp only [decide_eq_true_eq]
    omega
  unfold Fits
  rw [show k + (n + 1) = k + 1 + n by omega]
  refine or_congr_right (exists_congr fun m => and_congr_right fun hm => ?_)
  rw [hdrop m hm]

theorem arg_eq_error (h : argv.length ≤ k) : arg argv k = .error .outOfBounds := by
  unfold arg
  rw [List.getElem?_eq_none h]

/-- The loop of `--xqx-args` stays among the arguments when they fit, and only then. -/
theorem xqx_collect_spec (n : ℕ) : ∀ {k : ℕ} {x : Xargs}, k ≤ argv.length → x.Few →
    (Fits argv n k x → Within (xqx_collect argv n k x) fun _ => k + n ≤ argv.length)
      ∧ (¬ Fits argv n k x → xqx_collect argv n k x = .error .outOfBounds) := by
  induction n with
  | zero =>
      intro k x hk hx
      exact ⟨fun _ => within_ok hk, fun h => absurd (Or.inl hk) h⟩
  | succ n ih =>
      intro k x hk hx
      by_cases hend : k = argv.length
      · -- Nothing is left to be counted, and no table is full.
        have hnone : ¬ Fits argv (n + 1) k x := by
          rintro (hle | ⟨m, -, hm⟩)
          · omega
          · have hle := hx.count_le m
            rw [hend, List.drop_length, List.countP_nil] at hm
            omega
        refine ⟨fun h => absurd h hnone, fun _ => ?_⟩
        unfold xqx_collect
        rw [arg_eq_error (by omega)]
        rfl
      · have hget : argv[k]? = some argv[k] := List.getElem?_eq_getElem (by omega)
        have heq : xqx_collect argv (n + 1) k x
            = (xqx_arg argv[k] x >>= fun x => xqx_collect argv n (k + 1) x) := by
          show (arg argv k >>= _) = _
          rw [arg_eq_ok hget]
          rfl
        rw [heq]
        rcases xqx_arg_spec argv[k] hx with ⟨m, msg, hm, hlen, hfull, herr⟩ | ⟨x', hok, hx', hcount⟩
        · rw [herr]
          refine ⟨fun _ => within_error (by simp), fun h => absurd (Or.inr ⟨m, hm, ?_⟩) h⟩
          rw [List.drop_eq_getElem_cons (by omega), List.countP_cons, if_pos (decide_eq_true hlen)]
          omega
        · rw [hok, fits_succ hget hcount, show k + (n + 1) = k + 1 + n by omega]
          exact ih (by omega) hx'

theorem add_xargv0_within (hlen : s.new_argv.length ≤ 1024) :
    Within (add_xargv0 s) fun s' => s'.k = s.k ∧ s'.new_argv.length ≤ 1024
      ∧ ∃ first, (first = [] ∨ ∃ name assumed, first = [.symbolic name 3 assumed])
        ∧ s'.new_argv = s.new_argv ++ first := by
  unfold add_xargv0
  by_cases hc : s.xargv0.getD 0 '\x00' ≠ '\x00'
  · simp only [if_pos hc]
    apply Within.mono (add_symbolic_within hlen 3 _)
    rintro s' ⟨hk, hlen', name, hnew⟩
    exact ⟨hk, hlen', _, Or.inr ⟨name, _, rfl⟩, hnew⟩
  · simp only [if_neg hc]
    exact within_ok ⟨rfl, hlen, [], Or.inl rfl, (List.append_nil _).symm⟩

/-- The tables before the loop of `--xqx-args`. -/
def noXargs (s : EnvState) : Xargs := ⟨s.xargv0, s.xargv1, s.xargv2, 0, 0, 0⟩

theorem noXargs_few (s : EnvState) : (noXargs s).Few :=
  ⟨Nat.zero_le 9, Nat.zero_le 9, Nat.zero_le 9⟩

/-- What is asked of `--xqx-args` is that its parameters fit. -/
theorem fits_noXargs : Fits argv n k (noXargs s)
    ↔ k + n ≤ argv.length ∨ ∃ m, (m = 1 ∨ m = 2 ∨ m = 3)
      ∧ 10 ≤ (argv.drop k).countP fun a => decide (a.length = m) := by
  unfold Fits
  refine or_congr_right (exists_congr fun m => and_congr_right fun hm => ?_)
  have hzero : (noXargs s).count m = 0 := by
    rcases hm with rfl | rfl | rfl <;> rfl
  rw [hzero, Nat.zero_add]

theorem xqx_args_within (hlen : s.new_argv.length ≤ 1024) (hget : argv[s.k]? = some a)
    (ha : isOption a "xqx-args" = true) (hsafe : SafeStep argv s) :
    Within (xqx_args argv s) (Advance argv s) := by
  unfold xqx_args
  apply Within.bind (stopIf_within _ _)
  intro _ hmore
  have hk2 : s.k + 2 < argv.length := by
    have := of_decide_eq_false hmore
    omega
  apply Within.bind (number_within (by omega) _)
  rintro n ⟨t, ht, hn⟩
  apply Within.bind (stopIf_within _ _)
  intro _ hmany
  have hfew : (2 + n).toNat < argv.length := by
    have := of_decide_eq_false hmany
    omega
  have hfits : Fits argv n.toNat (s.k + 2) (noXargs s) :=
    fits_noXargs.mpr ((hsafe a hget).1 ha t n ht hn hk2 hfew)
  apply Within.bind ((xqx_collect_spec n.toNat (by omega) (noXargs_few s)).1 hfits)
  intro x hend
  let s₀ : EnvState := { s with
    k := s.k + 2 + n.toNat
    xargv0 := x.xargv0
    xargv1 := x.xargv1
    xargv2 := x.xargv2 }
  show Within (add_xargv0 s₀ >>= _) _
  apply Within.bind (add_xargv0_within (s := s₀) hlen)
  rintro s₁ ⟨hk₁, hlen₁, first, hfirst, hnew₁⟩
  apply Within.bind (add_symbolic_within hlen₁ 3 _)
  rintro s₂ ⟨hk₂, hlen₂, name₂, hnew₂⟩
  apply Within.mono (add_symbolic_within hlen₂ 4 _)
  rintro s₃ ⟨hk₃, hlen₃, name₃, hnew₃⟩
  have hk : s₃.k = s.k + 2 + n.toNat := hk₃.trans (hk₂.trans hk₁)
  have hparams : ((argv.drop (s.k + 2)).take n.toNat).length = n.toNat := by
    rw [List.length_take, List.length_drop]
    omega
  apply advance hget (m := n.toNat + 1) (by omega) (by omega) ?_ ?_ hlen₃
  · exact first ++ [.symbolic name₂ 3 (xargv1_assumed s₁.xargv1), .symbolic name₃ 4 [(3, ['\x00'])]]
  · rw [take_drop_succ ht]
    exact .xqx_args ha hn hparams hfirst
  · rw [hnew₃, hnew₂, hnew₁, List.append_assoc, List.append_assoc]
    rfl

/-- A round of `--xqx-args` whose parameters do not fit. -/
theorem xqx_args_outOfBounds {n : BitVec 32} (ht : argv[s.k + 1]? = some t)
    (hn : toNumber t = some n) (hk : s.k + 2 < argv.length) (hfew : (2 + n).toNat < argv.length)
    (hfits : ¬ Fits argv n.toNat (s.k + 2) (noXargs s)) :
    xqx_args argv s = .error .outOfBounds := by
  have hcollect : xqx_collect argv n.toNat (s.k + 2) (noXargs s) = .error .outOfBounds :=
    (xqx_collect_spec n.toNat (by omega) (noXargs_few s)).2 hfits
  unfold xqx_args
  rw [stopIf_eq_ok (decide_eq_false (by omega)), number_eq_ok ht hn]
  show (stopIf _ _ >>= _) = _
  rw [stopIf_eq_ok (decide_eq_false (by omega))]
  show (xqx_collect argv n.toNat (s.k + 2) (noXargs s) >>= _) = _
  rw [hcollect]
  rfl

/-! ## `--xqx-offlen` -/

theorem xqx_offlen_within (hlen : s.new_argv.length ≤ 1024) (hget : argv[s.k]? = some a)
    (ha : isOption a "xqx-offlen" = true) (hsafe : SafeStep argv s) :
    Within (xqx_offlen argv s) (Advance argv s) := by
  unfold xqx_offlen
  apply Within.bind (stopIf_within _ _)
  intro _ hmore
  have hk2 : s.k + 2 < argv.length := by
    have := of_decide_eq_false hmore
    omega
  apply Within.bind (stopIf_within _ _)
  intro _ hcheck
  have hnum : s.sym_parts.num ≠ 0 := fun h => of_decide_eq_false hcheck (Or.inl h)
  apply Within.bind (number_within (by omega) _)
  rintro offset ⟨t, ht, hoffset⟩
  have hn : s.n_sym_file.toNat < SYM_BUF_SIZE :=
    (hsafe a hget).2 ha t offset ht hoffset hk2 hnum
  apply Within.bind (setPart_within hn _ _)
  intro _ _
  apply Within.bind (number_within hk2 _)
  intro length _
  apply Within.bind (setPart_within hn _ _)
  intro _ _
  exact within_ok (advance_silent (x := ("xqx-offlen", 2)) (by decide) hget ha hk2 rfl rfl hlen)

/-- A round of `--xqx-offlen` with a full table of parts. -/
theorem xqx_offlen_outOfBounds {n : BitVec 32} (ht : argv[s.k + 1]? = some t)
    (hn : toNumber t = some n) (hk : s.k + 2 < argv.length) (hnum : s.sym_parts.num ≠ 0)
    (hfull : ¬ s.n_sym_file.toNat < SYM_BUF_SIZE) : xqx_offlen argv s = .error .outOfBounds := by
  have hcheck : ¬ (s.sym_parts.num = 0 ∨ s.n_sym_file.toNat > s.n_sym_file.toNat) := by
    rintro (h | h)
    · exact hnum h
    · omega
  unfold xqx_offlen
  rw [stopIf_eq_ok (decide_eq_false (by omega)), stopIf_eq_ok (decide_eq_false hcheck),
    number_eq_ok ht hn]
  show (setPart _ _ _ >>= _) = _
  unfold setPart
  rw [dif_neg hfull]
  rfl

/-! ## A round -/

theorem ite_within {α : Type} {x y : Except Stop α} {Q : α → Prop} (hx : b = true → Within x Q)
    (hy : b = false → Within y Q) :
    Within (if b = true then x else y) Q := by
  cases b with
  | false => exact hy rfl
  | true => exact hx rfl

theorem body_within (hlen : s.new_argv.length ≤ 1024) (hget : argv[s.k]? = some a)
    (hsafe : SafeStep argv s) : Within (body argv choose s a) (Advance argv s) := by
  obtain ⟨hk, -⟩ := List.getElem?_eq_some_iff.mp hget
  unfold body
  refine ite_within (sym_arg_within hlen hget) fun h1 => ?_
  refine ite_within (sym_args_within choose hlen hget) fun h2 => ?_
  refine ite_within (sym_files_within hlen hget) fun h3 => ?_
  refine ite_within (fun ha => within_ok ?_) fun h4 => ?_
  · exact advance_silent (x := ("sym-stdout", 0)) (by decide) hget ha hk rfl rfl hlen
  refine ite_within (fun ha => within_ok ?_) fun h5 => ?_
  · exact advance_silent (x := ("save-all-writes", 0)) (by decide) hget ha hk rfl rfl hlen
  refine ite_within (fun ha => within_ok ?_) fun h6 => ?_
  · exact advance_silent (x := ("fd-fail", 0)) (by decide) hget ha hk rfl rfl hlen
  refine ite_within (max_fail_within hlen hget) fun h7 => ?_
  refine ite_within (fun ha => xqx_args_within hlen hget ha hsafe) fun h8 => ?_
  refine ite_within (xqx_sym_file_within hlen hget) fun h9 => ?_
  refine ite_within (xqx_confile_within hlen hget) fun h10 => ?_
  refine ite_within (fun ha => xqx_offlen_within hlen hget ha hsafe) fun h11 => ?_
  apply copy_within hlen hget
  refine ⟨h1, h2, h8, ?_⟩
  simp only [silentOptions, List.forall_mem_cons, List.not_mem_nil, false_implies, implies_true]
  exact ⟨h3, h4, h5, h6, h7, h9, h10, h11, trivial⟩

theorem step_within (hlen : s.new_argv.length ≤ 1024) (hk : s.k < argv.length)
    (hsafe : SafeStep argv s) : Within (step argv choose s) (Advance argv s) := by
  apply Within.bind (arg_within hk)
  intro a hget
  exact body_within hlen hget hsafe

/-- The texts of two dashes and of one in front of a name are the only ones of this option. -/
theorem isOption_iff {name : String} :
    isOption a name = true ↔ a = '-' :: '-' :: name.toList ∨ a = '-' :: name.toList := by
  have hstreq : ∀ x y : List Char, streq x y = true ↔ x = y := by
    intro x
    induction x with
    | nil =>
        intro y
        cases y <;> simp [streq]
    | cons c x ih =>
        intro y
        cases y with
        | nil => simp [streq]
        | cons d y =>
            unfold streq
            by_cases hcd : c = d
            · rw [if_pos hcd, ih, hcd, List.cons.injEq, and_iff_right rfl]
            · rw [if_neg hcd]
              simp [hcd]
  unfold isOption
  rw [Bool.or_eq_true, hstreq, hstreq]

theorem body_xqx_args (ha : isOption a "xqx-args" = true) :
    body argv choose s a = xqx_args argv s := by
  rcases isOption_iff.mp ha with rfl | rfl <;> rfl

theorem body_xqx_offlen (ha : isOption a "xqx-offlen" = true) :
    body argv choose s a = xqx_offlen argv s := by
  rcases isOption_iff.mp ha with rfl | rfl <;> rfl

/-- A round that is not safe reads or writes out of bounds. -/
theorem step_outOfBounds (hbad : ¬ SafeStep argv s) :
    step argv choose s = .error .outOfBounds := by
  unfold SafeStep at hbad
  push Not at hbad
  obtain ⟨a, hget, hbad⟩ := hbad
  have hstep : step argv choose s = body argv choose s a := by
    unfold step
    rw [arg_eq_ok hget]
    rfl
  rw [hstep]
  rcases Classical.em (isOption a "xqx-args" = true → ∀ t n, argv[s.k + 1]? = some t →
      toNumber t = some n → s.k + 2 < argv.length → (2 + n).toNat < argv.length →
        s.k + 2 + n.toNat ≤ argv.length ∨ ∃ m, (m = 1 ∨ m = 2 ∨ m = 3)
          ∧ 10 ≤ (argv.drop (s.k + 2)).countP fun a => decide (a.length = m)) with hargs | hargs
  · obtain ⟨ha, t, n, ht, hn, hk, hnum, hfull⟩ := hbad hargs
    rw [body_xqx_offlen ha]
    exact xqx_offlen_outOfBounds ht hn hk hnum (by omega)
  · push Not at hargs
    obtain ⟨ha, t, n, ht, hn, hk, hfew, hmore, hnone⟩ := hargs
    rw [body_xqx_args ha]
    apply xqx_args_outOfBounds ht hn hk hfew
    rw [fits_noXargs]
    rintro (h | ⟨m, hm, h⟩)
    · omega
    · have := hnone m hm
      omega

/-! ## The loop -/

/-- The arguments in front of `k` are expanded. -/
def Expanded (argv : List (List Char)) (s : EnvState) : Prop :=
  s.k ≤ argv.length ∧ s.new_argv.length ≤ 1024 ∧ Expands (argv.take s.k) s.new_argv

theorem Advance.expanded (h : Advance argv s s') (hs : Expanded argv s) : Expanded argv s' := by
  obtain ⟨-, hle, hlen, piece, created, hpiece, htake, hnew⟩ := h
  refine ⟨hle, hlen, ?_⟩
  rw [htake, hnew]
  exact .snoc hs.2.2 hpiece

/-- A round that comes to its end was safe, and has advanced. -/
theorem step_advance (hlen : s.new_argv.length ≤ 1024) (hk : s.k < argv.length)
    (hs : step argv choose s = .ok s') : Advance argv s s' := by
  have hsafe : SafeStep argv s := by
    by_contra hbad
    rw [step_outOfBounds hbad] at hs
    cases hs
  exact (step_within hlen hk hsafe).2 s' hs

theorem Reaches.expanded (h : Reaches argv choose s) : Expanded argv s := by
  induction h with
  | start => exact ⟨Nat.zero_le _, Nat.zero_le _, .nil⟩
  | step h hk hs ih => exact (step_advance ih.2.1 hk hs).expanded ih

/-- The rounds up to a state are as many as the arguments taken, at most. -/
theorem Reaches.loop_eq (h : Reaches argv choose s) :
    ∃ n, n ≤ s.k ∧ ∀ fuel,
      loop argv choose (n + fuel) InitEnv.start = loop argv choose fuel s := by
  induction h with
  | start => exact ⟨0, Nat.le_refl 0, fun fuel => by rw [Nat.zero_add]⟩
  | step h hk hs ih =>
      obtain ⟨n, hn, hloop⟩ := ih
      have hadvance := (step_advance h.expanded.2.1 hk hs).1
      refine ⟨n + 1, by omega, fun fuel => ?_⟩
      rw [Nat.add_right_comm, Nat.add_assoc, hloop (fuel + 1)]
      conv_lhs => unfold loop
      rw [if_pos hk, hs]
      rfl

/-- The loop takes all arguments when its rounds are safe. -/
theorem loop_within (hsafe : ∀ s, Reaches argv choose s → s.k < argv.length → SafeStep argv s)
    (fuel : ℕ) : ∀ {s : EnvState}, Reaches argv choose s → argv.length ≤ s.k + fuel →
      Within (loop argv choose fuel s) fun s' => Expands argv s'.new_argv := by
  have hend : ∀ {s : EnvState}, Reaches argv choose s → argv.length ≤ s.k →
      Expands argv s.new_argv := by
    intro s hs hk
    have := hs.expanded.2.2
    rwa [List.take_of_length_le hk] at this
  induction fuel with
  | zero =>
      intro s hs hfuel
      exact within_ok (hend hs hfuel)
  | succ fuel ih =>
      intro s hs hfuel
      unfold loop
      by_cases hk : s.k < argv.length
      · rw [if_pos hk]
        have hstep : Within (step argv choose s) fun s' =>
            Reaches argv choose s' ∧ s.k < s'.k := by
          obtain ⟨hbounds, hresult⟩ :=
            step_within hs.expanded.2.1 hk (hsafe s hs hk)
          exact ⟨hbounds, fun s' hs' => ⟨.step hs hk hs', (hresult s' hs').1⟩⟩
        apply Within.bind hstep
        rintro s' ⟨hs', hlt⟩
        exact ih hs' (by omega)
      · rw [if_neg hk]
        exact within_ok (hend hs (by omega))

/-- `klee_init_env` stays within its tables and expands the arguments when it shows its usage, and
otherwise exactly when each round of the loop is safe. -/
theorem klee_init_env_meets_iff (argv : List (List Char)) (choose : ℕ → ℤ) :
    Meets argv choose ↔ help argv = true
      ∨ ∀ s, Reaches argv choose s → s.k < argv.length → SafeStep argv s := by
  by_cases hhelp : help argv = true
  · have heq : klee_init_env argv choose = .error (.error usage) := by
      unfold klee_init_env
      rw [stopIf_eq_error hhelp]
      rfl
    refine ⟨fun _ => Or.inl hhelp, fun _ => ⟨?_, fun r hr => ?_⟩⟩
    · rw [heq]
      simp
    · rw [heq] at hr
      cases hr
  · have heq : klee_init_env argv choose = loop argv choose argv.length start >>= fun s =>
        .ok ⟨s.new_argv.length, s.new_argv.map some ++ [none], s.sym_parts, s.sym_files,
          s.sym_file_len, s.sym_stdout_flag, s.save_all_writes_flag, s.fd_fail⟩ := by
      unfold klee_init_env
      rw [stopIf_eq_ok ((Bool.not_eq_true _).mp hhelp)]
      rfl
    rw [or_iff_right hhelp]
    constructor
    · intro hmeets s hs hk
      by_contra hbad
      -- The loop comes to this round with an argument left, and hence with fuel.
      obtain ⟨n, hn, hloop⟩ := hs.loop_eq
      have hstop : loop argv choose argv.length start = .error .outOfBounds := by
        obtain ⟨fuel, hfuel⟩ := Nat.exists_eq_add_of_lt (Nat.lt_of_le_of_lt hn hk)
        rw [hfuel, Nat.add_assoc, hloop (fuel + 1)]
        unfold loop
        rw [if_pos hk, step_outOfBounds hbad]
        rfl
      apply hmeets.1
      rw [heq, hstop]
      rfl
    · intro hsafe
      have hwithin : Within (klee_init_env argv choose) fun r => ∃ new_argv,
          Expands argv new_argv ∧ r.argc = new_argv.length
            ∧ r.argv = new_argv.map some ++ [none] := by
        rw [heq]
        apply Within.bind (loop_within hsafe argv.length .start (by omega))
        intro s hs
        exact within_ok ⟨s.new_argv, hs, rfl, rfl⟩
      exact hwithin

/-- Two parameters announced, and one left. -/
theorem not_klee_init_env_meets_xqx_args : ¬ Meets
    ["prog".toList, "x".toList, "--xqx-args".toList, "2".toList, "a".toList] (fun _ => 0) := by
  rintro ⟨hbounds, -⟩
  exact hbounds rfl

end Xklee.InitEnv
