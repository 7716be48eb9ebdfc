/-
When `klee_init_env` stays within its tables, and what it makes of the arguments.

Each round of the loop takes an option with its parameters, or one other argument, and adds the
arguments that it stands for. Two options may go too far. `--xqx-args` compares the number of its
parameters with the number of all arguments, and not with what is left of them. `--xqx-offlen`
compares the number of parts with itself.
-/
import Mathlib.Tactic.Common
import Xklee.POSIX.InitEnv

set_option autoImplicit false

namespace Xklee.InitEnv

/-! ## What is expected -/

/-- The number that a text stands for. -/
def toNumber (t : List Char) : Option (BitVec 32) :=
  if t = [] then none else (digits t 0).map fun res => res.setWidth 32

/-- The options that create no argument, with the numbers of their parameters. -/
def silentOptions : List (String × ℕ) :=
  [("sym-files", 2), ("sym-stdout", 0), ("save-all-writes", 0), ("fd-fail", 0), ("max-fail", 1),
    ("xqx-sym-file", 4), ("xqx-confile", 3), ("xqx-offlen", 2)]

def isCopied (a : List Char) : Prop :=
  isOption a "sym-arg" = false ∧ isOption a "sym-args" = false ∧ isOption a "xqx-args" = false
    ∧ ∀ x ∈ silentOptions, isOption a x.1 = false

/-- An option with its parameters, or another argument, and what it is replaced by. -/
inductive Piece : List (List Char) → List NewArg → Prop
  | sym_arg {a t : List Char} {n : BitVec 32} {name : List Char} (ha : isOption a "sym-arg" = true)
      (ht : toNumber t = some n) : Piece [a, t] [.symbolic name n.toNat []]
  | sym_args {a tmin tmax tlen : List Char} {min max len : BitVec 32} {n : ℤ}
      {created : List NewArg} (ha : isOption a "sym-args" = true) (hmin : toNumber tmin = some min)
      (hmax : toNumber tmax = some max) (hlen : toNumber tlen = some len)
      (hn : min.toInt ≤ n ∧ n < (max + 1).toInt) (hcount : created.length = n.toNat)
      (hsym : ∀ x ∈ created, ∃ name, x = .symbolic name len.toNat []) :
      Piece [a, tmin, tmax, tlen] created
  | xqx_args {a t : List Char} {n : BitVec 32} {params : List (List Char)} {first : List NewArg}
      {name name' : List Char} {assumed assumed' : List (ℕ × List Char)}
      (ha : isOption a "xqx-args" = true) (ht : toNumber t = some n)
      (hparams : params.length = n.toNat)
      (hfirst : first = [] ∨ ∃ name assumed, first = [.symbolic name 3 assumed]) :
      Piece (a :: t :: params) (first ++ [.symbolic name 3 assumed, .symbolic name' 4 assumed'])
  | silent {a : List Char} {x : String × ℕ} {params : List (List Char)} (hx : x ∈ silentOptions)
      (ha : isOption a x.1 = true) (hparams : params.length = x.2) : Piece (a :: params) []
  | copied {a : List Char} (ha : isCopied a) : Piece [a] [.copied a]

/-- The arguments, option by option, and what they are replaced by, in order. -/
inductive Expands : List (List Char) → List NewArg → Prop
  | nil : Expands [] []
  | snoc {argv piece : List (List Char)} {out created : List NewArg} (h : Expands argv out)
      (hpiece : Piece piece created) : Expands (argv ++ piece) (out ++ created)

/-- The run reads no argument and writes no entry out of bounds. When it comes to its end, the
arguments are expanded and a null pointer is at their end. -/
def Meets (argv : List (List Char)) (choose : ℕ → ℤ) : Prop :=
  klee_init_env argv choose ≠ .error .outOfBounds
    ∧ ∀ r, klee_init_env argv choose = .ok r → ∃ new_argv, Expands argv new_argv
      ∧ r.argc = new_argv.length ∧ r.argv = new_argv.map some ++ [none]

/-- The states that the loop comes to. -/
inductive Reaches (argv : List (List Char)) (choose : ℕ → ℤ) : EnvState → Prop
  | start : Reaches argv choose start
  | step {s s' : EnvState} (h : Reaches argv choose s) (hk : s.k < argv.length)
      (hs : step argv choose s = .ok s') : Reaches argv choose s'

/-- What is asked of a round. Where `--xqx-args` comes to its parameters, these are there, or there
are ten of one length, which end the run before. Where `--xqx-offlen` comes to its entry, there are
less than 1024 parts. -/
def SafeStep (argv : List (List Char)) (s : EnvState) : Prop :=
  ∀ a, argv[s.k]? = some a →
    (isOption a "xqx-args" = true → ∀ t n, argv[s.k + 1]? = some t → toNumber t = some n →
      s.k + 2 < argv.length → (2 + n).toNat < argv.length →
        s.k + 2 + n.toNat ≤ argv.length
          ∨ ∃ m, (m = 1 ∨ m = 2 ∨ m = 3)
            ∧ 10 ≤ (argv.drop (s.k + 2)).countP fun a => decide (a.length = m))
    ∧ (isOption a "xqx-offlen" = true → ∀ t n, argv[s.k + 1]? = some t → toNumber t = some n →
      s.k + 2 < argv.length → s.sym_parts.num ≠ 0 → s.n_sym_file.toNat < SYM_BUF_SIZE)

/-! ## Computations within bounds -/

/-- A computation that does not go out of bounds, and what holds of its result. -/
def Within {α : Type} (x : Except Stop α) (Q : α → Prop) : Prop :=
  x ≠ .error .outOfBounds ∧ ∀ a, x = .ok a → Q a

section Rules

variable {α β : Type} {x : Except Stop α} {f : α → Except Stop β} {P : α → Prop} {Q : β → Prop}

theorem within_ok {a : α} (h : P a) : Within (.ok a) P := by
  constructor
  · intro heq
    cases heq
  · intro b hb
    rw [← Except.ok.inj hb]
    exact h

theorem within_error {e : Stop} (h : e ≠ .outOfBounds) : Within (.error e) P := by
  constructor
  · intro heq
    exact h (Except.error.inj heq)
  · intro b hb
    cases hb

theorem Within.bind (hx : Within x P) (hf : ∀ a, P a → Within (f a) Q) : Within (x >>= f) Q := by
  cases x with
  | error e => exact within_error fun h => hx.1 (h ▸ rfl)
  | ok a => exact hf a (hx.2 a rfl)

theorem Within.mono {P' : α → Prop} (hx : Within x P) (h : ∀ a, P a → P' a) : Within x P' :=
  ⟨hx.1, fun a ha => h a (hx.2 a ha)⟩

end Rules

theorem stopIf_within (b : Bool) (msg : String) :
    Within (stopIf b (.error msg)) fun _ => b = false := by
  unfold stopIf
  cases b with
  | false => exact within_ok rfl
  | true => exact within_error (by simp)

variable {argv : List (List Char)} {k : ℕ}

theorem arg_eq_ok {a : List Char} (h : argv[k]? = some a) :
    arg argv k = .ok a := by
  unfold arg
  rw [h]

theorem str_to_int_within (t : List Char) (msg : String) :
    Within (str_to_int t msg) fun res => toNumber t = some (res.setWidth 32) := by
  unfold str_to_int toNumber
  by_cases ht : t = []
  · rw [if_pos ht]
    exact within_error (by simp)
  · rw [if_neg ht, if_neg ht]
    cases digits t 0 with
    | none => exact within_error (by simp)
    | some res => exact within_ok rfl

theorem arg_within (hk : k < argv.length) :
    Within (arg argv k) fun a => argv[k]? = some a := by
  have hget : argv[k]? = some argv[k] := List.getElem?_eq_getElem hk
  rw [arg_eq_ok hget]
  exact within_ok hget

theorem number_within (hk : k < argv.length) (msg : String) :
    Within (number argv k msg) fun n => ∃ t, argv[k]? = some t ∧ toNumber t = some n := by
  unfold number
  apply Within.bind (arg_within hk)
  intro a ha
  apply Within.bind (str_to_int_within a msg)
  intro res hres
  exact within_ok ⟨a, ha, hres⟩

/-- Where a number is read. -/
theorem number_eq_ok {t : List Char} {n : BitVec 32} (hget : argv[k]? = some t)
    (hn : toNumber t = some n) (msg : String) :
    number argv k msg = .ok n := by
  have ht : t ≠ [] := by
    rintro rfl
    cases hn
  unfold toNumber at hn
  rw [if_neg ht] at hn
  obtain ⟨res, hres, rfl⟩ := Option.map_eq_some_iff.mp hn
  have hparse : str_to_int t msg = .ok res := by
    unfold str_to_int
    rw [if_neg ht, hres]
  unfold number
  rw [arg_eq_ok hget]
  show (str_to_int t msg >>= fun res => .ok (res.setWidth 32)) = _
  rw [hparse]
  rfl

theorem add_arg_within {new_argv : List NewArg} (h : new_argv.length ≤ 1024) (x : NewArg) :
    Within (add_arg new_argv x 1024) fun r => r = new_argv ++ [x] ∧ r.length ≤ 1024 := by
  unfold add_arg
  by_cases hfull : new_argv.length = 1024
  · rw [if_pos hfull]
    exact within_error (by simp)
  · rw [if_neg hfull, if_pos (by omega)]
    exact within_ok ⟨rfl, by rw [List.length_append, List.length_singleton]; omega⟩

theorem add_symbolic_within {s : EnvState} (h : s.new_argv.length ≤ 1024) (n : BitVec 32)
    (assumed : List (ℕ × List Char)) :
    Within (add_symbolic s n assumed) fun s' =>
      s'.k = s.k ∧ s'.new_argv.length ≤ 1024
        ∧ ∃ name, s'.new_argv = s.new_argv ++ [.symbolic name n.toNat assumed] := by
  have hstr : Within (get_sym_str n (sym_arg_name s.sym_arg_num) assumed)
      fun x => x = .symbolic (sym_arg_name s.sym_arg_num) n.toNat assumed := by
    unfold get_sym_str
    by_cases hn : n.toNat + 1 < 2 ^ 31
    · rw [if_pos hn]
      exact within_ok rfl
    · rw [if_neg hn]
      exact within_error (by simp)
  unfold add_symbolic
  refine Within.bind hstr fun x hx => Within.bind (add_arg_within h x) fun r hr => ?_
  exact within_ok ⟨rfl, hr.2, _, hx ▸ hr.1⟩

/-! ## The options -/

/-- A round takes a piece of the arguments, and adds what this is replaced by. -/
def Advance (argv : List (List Char)) (s s' : EnvState) : Prop :=
  s.k < s'.k ∧ s'.k ≤ argv.length ∧ s'.new_argv.length ≤ 1024
    ∧ ∃ piece created, Piece piece created ∧ argv.take s'.k = argv.take s.k ++ piece
      ∧ s'.new_argv = s.new_argv ++ created

section Options

variable {argv : List (List Char)} {s s' : EnvState} {a : List Char}

theorem take_drop_succ {k : ℕ} (hget : argv[k]? = some a) (m : ℕ) :
    (argv.drop k).take (m + 1) = a :: (argv.drop (k + 1)).take m := by
  obtain ⟨hk, rfl⟩ := List.getElem?_eq_some_iff.mp hget
  rw [List.drop_eq_getElem_cons hk, List.take_succ_cons]

/-- An option with `m` parameters. -/
theorem advance {m : ℕ} {created : List NewArg} (hget : argv[s.k]? = some a)
    (hm : s.k + m < argv.length) (hk : s'.k = s.k + (m + 1))
    (hpiece : Piece (a :: (argv.drop (s.k + 1)).take m) created)
    (hnew : s'.new_argv = s.new_argv ++ created) (hlen : s'.new_argv.length ≤ 1024) :
    Advance argv s s' := by
  refine ⟨by omega, by omega, hlen, _, created, hpiece, ?_, hnew⟩
  rw [hk, List.take_add, take_drop_succ hget]

/-- An option that creates no argument. -/
theorem advance_silent {x : String × ℕ} (hx : x ∈ silentOptions) (hget : argv[s.k]? = some a)
    (ha : isOption a x.1 = true) (hm : s.k + x.2 < argv.length) (hk : s'.k = s.k + (x.2 + 1))
    (hnew : s'.new_argv = s.new_argv) (hlen : s.new_argv.length ≤ 1024) : Advance argv s s' := by
  have hparams : ((argv.drop (s.k + 1)).take x.2).length = x.2 := by
    rw [List.length_take, List.length_drop]
    omega
  apply advance hget hm hk (.silent hx ha hparams)
  · rw [hnew, List.append_nil]
  · rw [hnew]
    exact hlen

theorem sym_arg_within (hlen : s.new_argv.length ≤ 1024) (hget : argv[s.k]? = some a)
    (ha : isOption a "sym-arg" = true) : Within (sym_arg argv s) (Advance argv s) := by
  obtain ⟨hk, -⟩ := List.getElem?_eq_some_iff.mp hget
  unfold sym_arg
  apply Within.bind (stopIf_within _ _)
  intro _ hmore
  have hk1 : s.k + 1 < argv.length := by
    have := of_decide_eq_false hmore
    omega
  apply Within.bind (number_within hk1 _)
  rintro n ⟨t, ht, hn⟩
  apply Within.mono (add_symbolic_within (s := { s with k := s.k + 2 }) hlen n [])
  rintro s' ⟨hk', hlen', name, hnew⟩
  apply advance hget hk1 hk' ?_ hnew hlen'
  rw [take_drop_succ ht]
  exact .sym_arg ha hn

theorem klee_range_within (start stop x : ℤ) :
    Within (klee_range start stop x) fun n => start ≤ n ∧ n < stop := by
  unfold klee_range
  by_cases hempty : start ≥ stop
  · rw [if_pos hempty]
    exact within_error (by simp)
  · rw [if_neg hempty]
    by_cases hone : start + 1 = stop
    · rw [if_pos hone]
      exact within_ok ⟨by omega, by omega⟩
    · rw [if_neg hone]
      by_cases hx : start ≤ x ∧ x < stop
      · rw [if_pos hx]
        exact within_ok hx
      · rw [if_neg hx]
        exact within_error (by simp)

/-- The loop of `--sym-args` adds one argument a round. -/
theorem add_symbolics_within (len : BitVec 32) (n : ℕ) :
    ∀ {s : EnvState}, s.new_argv.length ≤ 1024 → Within (add_symbolics n len s) fun s' =>
      s'.k = s.k ∧ s'.new_argv.length ≤ 1024 ∧ ∃ created, s'.new_argv = s.new_argv ++ created
        ∧ created.length = n ∧ ∀ x ∈ created, ∃ name, x = .symbolic name len.toNat [] := by
  induction n with
  | zero =>
      intro s hlen
      exact within_ok ⟨rfl, hlen, [], (List.append_nil _).symm, rfl, fun x hx => nomatch hx⟩
  | succ n ih =>
      intro s hlen
      unfold add_symbolics
      apply Within.bind (add_symbolic_within hlen len [])
      rintro s₁ ⟨hk₁, hlen₁, name, hnew₁⟩
      apply Within.mono (ih hlen₁)
      rintro s₂ ⟨hk₂, hlen₂, created, hnew₂, hcount, hsym⟩
      refine ⟨hk₂.trans hk₁, hlen₂, .symbolic name len.toNat [] :: created, ?_, ?_, ?_⟩
      · rw [hnew₂, hnew₁, List.append_assoc, List.singleton_append]
      · rw [List.length_cons, hcount]
      · intro x hx
        rcases List.mem_cons.mp hx with rfl | hx
        · exact ⟨name, rfl⟩
        · exact hsym x hx

theorem sym_args_within (choose : ℕ → ℤ) (hlen : s.new_argv.length ≤ 1024)
    (hget : argv[s.k]? = some a) (ha : isOption a "sym-args" = true) :
    Within (sym_args argv choose s) (Advance argv s) := by
  unfold sym_args
  apply Within.bind (stopIf_within _ _)
  intro _ hmore
  have hk3 : s.k + 3 < argv.length := by
    have := of_decide_eq_false hmore
    omega
  apply Within.bind (number_within (by omega) _)
  rintro min ⟨tmin, hgetmin, hmin⟩
  apply Within.bind (number_within (by omega) _)
  rintro max ⟨tmax, hgetmax, hmax⟩
  apply Within.bind (number_within hk3 _)
  rintro len ⟨tlen, hgetlen, hnumlen⟩
  apply Within.bind (klee_range_within _ _ _)
  intro n hn
  apply Within.mono (add_symbolics_within len n.toNat (s := { s with k := s.k + 4 }) hlen)
  rintro s' ⟨hk', hlen', created, hnew, hcount, hsym⟩
  apply advance hget hk3 hk' ?_ hnew hlen'
  rw [take_drop_succ hgetmin, take_drop_succ hgetmax, take_drop_succ hgetlen]
  exact .sym_args ha hmin hmax hnumlen hn hcount hsym

theorem sym_files_within (hlen : s.new_argv.length ≤ 1024) (hget : argv[s.k]? = some a)
    (ha : isOption a "sym-files" = true) : Within (sym_files argv s) (Advance argv s) := by
  unfold sym_files
  apply Within.bind (stopIf_within _ _)
  intro _ hmore
  have hk2 : s.k + 2 < argv.length := by
    have := of_decide_eq_false hmore
    omega
  apply Within.bind (number_within (by omega) _)
  intro _ _
  apply Within.bind (number_within hk2 _)
  intro _ _
  exact within_ok
    (advance_silent (x := ("sym-files", 2)) (by decide) hget ha hk2 rfl rfl hlen)

theorem max_fail_within (hlen : s.new_argv.length ≤ 1024) (hget : argv[s.k]? = some a)
    (ha : isOption a "max-fail" = true) : Within (max_fail argv s) (Advance argv s) := by
  obtain ⟨hk, -⟩ := List.getElem?_eq_some_iff.mp hget
  unfold max_fail
  apply Within.bind (stopIf_within _ _)
  intro _ hmore
  have hk1 : s.k + 1 < argv.length := by
    have := of_decide_eq_false hmore
    omega
  apply Within.bind (number_within hk1 _)
  intro _ _
  exact within_ok (advance_silent (x := ("max-fail", 1)) (by decide) hget ha hk1 rfl rfl hlen)

/-- A part below 1024 is in the table. -/
theorem setPart_within {n : ℕ} (hn : n < SYM_BUF_SIZE) (p : SymParts) (f : XqxSymBuf → XqxSymBuf) :
    Within (setPart p n f) fun p' => p'.num = p.num := by
  unfold setPart
  rw [dif_pos hn]
  exact within_ok rfl

theorem xqx_sym_file_within (hlen : s.new_argv.length ≤ 1024) (hget : argv[s.k]? = some a)
    (ha : isOption a "xqx-sym-file" = true) : Within (xqx_sym_file argv s) (Advance argv s) := by
  unfold xqx_sym_file
  apply Within.bind (stopIf_within _ _)
  intro _ hmore
  have hk4 : s.k + 4 < argv.length := by
    have := of_decide_eq_false hmore
    omega
  apply Within.bind (stopIf_within _ _)
  intro _ hfew
  have hn : s.n_sym_file.toNat < SYM_BUF_SIZE := by
    have := of_decide_eq_false hfew
    unfold SYM_BUF_SIZE
    omega
  apply Within.bind (arg_within (by omega))
  intro path _
  apply Within.bind (number_within (by omega) _)
  intro offset _
  apply Within.bind (setPart_within hn _ _)
  intro _ _
  apply Within.bind (number_within (by omega) _)
  intro length _
  apply Within.bind (setPart_within hn _ _)
  intro _ _
  apply Within.bind (number_within hk4 _)
  intro fill_method _
  exact within_ok
    (advance_silent (x := ("xqx-sym-file", 4)) (by decide) hget ha hk4 rfl rfl hlen)

theorem xqx_confile_within (hlen : s.new_argv.length ≤ 1024) (hget : argv[s.k]? = some a)
    (ha : isOption a "xqx-confile" = true) : Within (xqx_confile argv s) (Advance argv s) := by
  unfold xqx_confile
  apply Within.bind (stopIf_within _ _)
  intro _ hmore
  have hk3 : s.k + 3 < argv.length := by
    have := of_decide_eq_false hmore
    omega
  apply Within.bind (arg_within (by omega))
  intro path _
  apply Within.bind (number_within (by omega) _)
  intro num _
  apply Within.bind (number_within hk3 _)
  intro fill_method _
  exact within_ok (advance_silent (x := ("xqx-confile", 3)) (by decide) hget ha hk3 rfl rfl hlen)

theorem copy_within (hlen : s.new_argv.length ≤ 1024) (hget : argv[s.k]? = some a)
    (ha : isCopied a) : Within (copy a s) (Advance argv s) := by
  obtain ⟨hk, -⟩ := List.getElem?_eq_some_iff.mp hget
  unfold copy
  apply Within.bind (add_arg_within hlen _)
  rintro r ⟨hr, hlen'⟩
  exact within_ok (advance hget (m := 0) hk rfl (.copied ha) hr hlen')

end Options

end Xklee.InitEnv
