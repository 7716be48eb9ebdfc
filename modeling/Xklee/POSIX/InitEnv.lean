/-
`klee_init_env` of `runtime/POSIX/klee_init_env.c`: the arguments of the modelled program.

A text is the list of its characters without the zero that ends it. An argument is read, and an
entry of a table written, through a check of its index. `__emit_error` ends the run, and so does a
choice of the number of arguments that `klee_range` rules out, and a symbolic text whose length is
no positive `int`. The call of `klee_init_fds` at the end is left as its arguments.
-/
import Mathlib.Algebra.Order.Ring.Int
import Mathlib.Logic.Function.Basic
import Xklee.POSIX.MakeFileSymbolic

set_option autoImplicit false

namespace Xklee

/-- What ends a run before its end. -/
inductive Stop where
  | error (msg : String)
  | infeasible
  | badString
  | outOfBounds
deriving DecidableEq, Repr

/-- An argument of the program: one that is copied, or a symbolic text of so many characters, some
of which are assumed to be one of a few. -/
inductive NewArg where
  | copied (arg : List Char)
  | symbolic (name : List Char) (numChars : ℕ) (assumed : List (ℕ × List Char))
deriving DecidableEq, Repr

/-- `xqx_make_sym_t`, with any number for the method. -/
structure SymParts where
  path : Option (List Char)
  num : BitVec 32
  fill_method : BitVec 32
  sym_buf : Fin SYM_BUF_SIZE → XqxSymBuf

/-- The variables of the loop, and `__sym_parts`. -/
structure EnvState where
  k : ℕ
  new_argv : List NewArg
  sym_arg_num : BitVec 32
  sym_files : BitVec 32
  sym_file_len : BitVec 32
  sym_stdout_flag : Bool
  save_all_writes_flag : Bool
  fd_fail : BitVec 32
  xargv0 : List Char
  xargv1 : List Char
  xargv2 : List Char
  n_sym_file : BitVec 32
  sym_parts : SymParts

/-- The results: `*argcPtr`, `*argvPtr` with its last entry, `__sym_parts` and the arguments of
`klee_init_fds`. -/
structure InitEnvResult where
  argc : ℕ
  argv : List (Option NewArg)
  sym_parts : SymParts
  sym_files : BitVec 32
  sym_file_len : BitVec 32
  sym_stdout_flag : Bool
  save_all_writes_flag : Bool
  fd_fail : BitVec 32

namespace InitEnv

/-! ## Helpers -/

/-- `if (b) stop`. -/
def stopIf (b : Bool) (e : Stop) : Except Stop Unit := if b then .error e else .ok ()

/-- `argv[k]`. -/
def arg (argv : List (List Char)) (k : ℕ) : Except Stop (List Char) :=
  match argv[k]? with
  | some a => .ok a
  | none => .error .outOfBounds

/-- `__streq`. -/
def streq : List Char → List Char → Bool
  | [], [] => true
  | a :: as, b :: bs => if a = b then streq as bs else false
  | _, _ => false

/-- The loop of `__str_to_int`. -/
def digits : List Char → BitVec 64 → Option (BitVec 64)
  | [], res => some res
  | c :: s, res =>
      if '0' ≤ c ∧ c ≤ '9' then digits s (res * 10 + BitVec.ofNat 64 (c.toNat - '0'.toNat))
      else none

/-- `__str_to_int`. -/
def str_to_int (s : List Char) (error_msg : String) : Except Stop (BitVec 64) :=
  if s = [] then .error (.error error_msg)
  else
    match digits s 0 with
    | some res => .ok res
    | none => .error (.error error_msg)

/-- `__str_to_int(argv[k], msg)` as an unsigned number of 32 bits. -/
def number (argv : List (List Char)) (k : ℕ) (msg : String) : Except Stop (BitVec 32) := do
  let a ← arg argv k
  let res ← str_to_int a msg
  .ok (res.setWidth 32)

/-- `__get_sym_str`. -/
def get_sym_str (numChars : BitVec 32) (name : List Char) (assumed : List (ℕ × List Char)) :
    Except Stop NewArg :=
  if numChars.toNat + 1 < 2 ^ 31 then .ok (.symbolic name numChars.toNat assumed)
  else .error .badString

/-- `__add_arg`. -/
def add_arg (argv : List NewArg) (arg : NewArg) (argcMax : ℕ) : Except Stop (List NewArg) :=
  if argv.length = argcMax then .error (.error "too many arguments for klee_init_env")
  else if argv.length < 1024 then .ok (argv ++ [arg])
  else .error .outOfBounds

/-- `sym_arg_name` after `sym_arg_name[3] = '0' + sym_arg_num`. -/
def sym_arg_name (sym_arg_num : BitVec 32) : List Char :=
  let c := ('0'.toNat + sym_arg_num.toNat) % 256
  if c = 0 then ['a', 'r', 'g'] else ['a', 'r', 'g', Char.ofNat c]

/-- A symbolic argument under the next name. -/
def add_symbolic (s : EnvState) (numChars : BitVec 32) (assumed : List (ℕ × List Char)) :
    Except Stop EnvState := do
  let str ← get_sym_str numChars (sym_arg_name s.sym_arg_num) assumed
  let new_argv ← add_arg s.new_argv str 1024
  .ok { s with sym_arg_num := s.sym_arg_num + 1, new_argv := new_argv }

/-- `klee_range`. `x` is the value of the symbolic variable. -/
def klee_range (start stop x : ℤ) : Except Stop ℤ :=
  if start ≥ stop then .error (.error "invalid range")
  else if start + 1 = stop then .ok start
  else if start ≤ x ∧ x < stop then .ok x
  else .error .infeasible

/-! ## The options -/

def sym_arg_msg : String := "--sym-arg expects an integer argument <max-len>"

def sym_args_msg : String :=
  "--sym-args expects three integer arguments <min-argvs> <max-argvs> <max-len>"

def sym_files_msg : String :=
  "--sym-files expects two integer arguments <no-sym-files> <sym-file-len>"

def max_fail_msg : String := "--max-fail expects an integer argument <max-failures>"

def xqx_args_msg : String :=
  "--xqx-args expects more than two arguments <args-num> <argv1> <argv2> <...>"

def xqx_sym_file_msg : String :=
  "--xqx-sym-file expects three integer arguments name offset len method"

def xqx_confile_msg : String :=
  "--xqx-confile expects three integer arguments name [filepath] [num] [method]"

def xqx_offlen_msg : String := "--xqx-offlen expects two integer arguments name [off] [len] "

variable (argv : List (List Char))

/-- `--sym-arg`. -/
def sym_arg (s : EnvState) : Except Stop EnvState := do
  stopIf (s.k + 1 = argv.length) (.error sym_arg_msg)
  let max_len ← number argv (s.k + 1) sym_arg_msg
  add_symbolic { s with k := s.k + 2 } max_len []

/-- The loop of `--sym-args`. -/
def add_symbolics : ℕ → BitVec 32 → EnvState → Except Stop EnvState
  | 0, _, s => .ok s
  | n + 1, max_len, s => do
      let s ← add_symbolic s max_len []
      add_symbolics n max_len s

/-- `--sym-args`. `choose` is the number of arguments that an option at a place gets. -/
def sym_args (choose : ℕ → ℤ) (s : EnvState) : Except Stop EnvState := do
  stopIf (s.k + 3 ≥ argv.length) (.error sym_args_msg)
  let min_argvs ← number argv (s.k + 1) sym_args_msg
  let max_argvs ← number argv (s.k + 2) sym_args_msg
  let max_len ← number argv (s.k + 3) sym_args_msg
  let n_args ← klee_range min_argvs.toInt (max_argvs + 1).toInt (choose s.k)
  add_symbolics n_args.toNat max_len { s with k := s.k + 4 }

/-- `--sym-files`. -/
def sym_files (s : EnvState) : Except Stop EnvState := do
  stopIf (s.k + 2 ≥ argv.length) (.error sym_files_msg)
  let sym_files ← number argv (s.k + 1) sym_files_msg
  let sym_file_len ← number argv (s.k + 2) sym_files_msg
  .ok { s with sym_files := sym_files, sym_file_len := sym_file_len, k := s.k + 3 }

/-- `--max-fail`. -/
def max_fail (s : EnvState) : Except Stop EnvState := do
  stopIf (s.k + 1 = argv.length) (.error max_fail_msg)
  let fd_fail ← number argv (s.k + 1) max_fail_msg
  .ok { s with fd_fail := fd_fail, k := s.k + 2 }

/-- The tables of the arguments of one, two and three characters, with the numbers of entries. -/
structure Xargs where
  xargv0 : List Char
  xargv1 : List Char
  xargv2 : List Char
  xarg0 : ℕ
  xarg1 : ℕ
  xarg2 : ℕ

/-- `xargv[i] = c`, for a table of 10 entries. -/
def setXarg (xargv : List Char) (i : ℕ) (c : Char) : Except Stop (List Char) :=
  if i < 10 then .ok (xargv.set i c) else .error .outOfBounds

/-- The body of the loop of `--xqx-args`: where the argument goes is said by its length. -/
def xqx_arg (a : List Char) (x : Xargs) : Except Stop Xargs :=
  match a with
  | [c] => do
      let xargv0 ← setXarg x.xargv0 x.xarg0 c
      stopIf (x.xarg0 + 1 > 9) (.error "xarg0 must be less than 10")
      .ok { x with xargv0 := xargv0, xarg0 := x.xarg0 + 1 }
  | [c, _] => do
      let xargv1 ← setXarg x.xargv1 x.xarg1 c
      stopIf (x.xarg1 + 1 > 9) (.error "xarg1 must be less than 10")
      .ok { x with xargv1 := xargv1, xarg1 := x.xarg1 + 1 }
  | [c, _, _] => do
      let xargv2 ← setXarg x.xargv2 x.xarg2 c
      stopIf (x.xarg2 + 1 > 9) (.error "xarg2 must be less than 10")
      .ok { x with xargv2 := xargv2, xarg2 := x.xarg2 + 1 }
  | _ => .ok x

/-- The loop of `--xqx-args` from an argument on. -/
def xqx_collect : ℕ → ℕ → Xargs → Except Stop Xargs
  | 0, _, x => .ok x
  | n + 1, k, x => do
      let a ← arg argv k
      let x ← xqx_arg a x
      xqx_collect n (k + 1) x

/-- The argument for the options without a parameter, if there is such an option. -/
def add_xargv0 (s : EnvState) : Except Stop EnvState :=
  let c := s.xargv0.getD 0 '\x00'
  if c ≠ '\x00' then add_symbolic s 3 [(0, ['-']), (1, [c]), (2, ['\x00'])] else .ok s

/-- The argument for the options with a parameter: its second character is one of the first five,
if there are two. -/
def xargv1_assumed (xargv1 : List Char) : List (ℕ × List Char) :=
  if xargv1.getD 0 '\x00' ≠ '\x00' ∧ xargv1.getD 1 '\x00' ≠ '\x00' then
    [(0, ['-']), (1, xargv1.take 5), (2, ['\x00'])]
  else [(0, ['-']), (2, ['\x00'])]

/-- `--xqx-args`. -/
def xqx_args (s : EnvState) : Except Stop EnvState := do
  stopIf (s.k + 2 ≥ argv.length) (.error xqx_args_msg)
  let xargs_num ← number argv (s.k + 1) xqx_args_msg
  stopIf ((2 + xargs_num).toNat ≥ argv.length) (.error xqx_args_msg)
  let x ← xqx_collect argv xargs_num.toNat (s.k + 2) ⟨s.xargv0, s.xargv1, s.xargv2, 0, 0, 0⟩
  let s := { s with
    k := s.k + 2 + xargs_num.toNat
    xargv0 := x.xargv0
    xargv1 := x.xargv1
    xargv2 := x.xargv2 }
  let s ← add_xargv0 s
  let s ← add_symbolic s 3 (xargv1_assumed s.xargv1)
  add_symbolic s 4 [(3, ['\x00'])]

/-- `__sym_parts.sym_buf[n].offset = offset` and the same for the length. -/
def setPart (p : SymParts) (n : ℕ) (f : XqxSymBuf → XqxSymBuf) : Except Stop SymParts :=
  if h : n < SYM_BUF_SIZE then
    .ok { p with
      sym_buf := Function.update p.sym_buf ⟨n, h⟩ (f (p.sym_buf ⟨n, h⟩)) }
  else .error .outOfBounds

/-- `--xqx-sym-file`. -/
def xqx_sym_file (s : EnvState) : Except Stop EnvState := do
  stopIf (s.k + 4 ≥ argv.length) (.error xqx_sym_file_msg)
  stopIf (s.n_sym_file.toNat > 1023) (.error "too many sym in file")
  let path ← arg argv (s.k + 1)
  let p := { s.sym_parts with path := some path }
  let offset ← number argv (s.k + 2) xqx_sym_file_msg
  let p ← setPart p s.n_sym_file.toNat fun part => { part with offset := offset }
  let length ← number argv (s.k + 3) xqx_sym_file_msg
  let p ← setPart p s.n_sym_file.toNat fun part => { part with length := length }
  let fill_method ← number argv (s.k + 4) xqx_sym_file_msg
  .ok { s with
    k := s.k + 5
    n_sym_file := s.n_sym_file + 1
    sym_parts := { p with fill_method := fill_method, num := s.n_sym_file + 1 } }

/-- `--xqx-confile`. -/
def xqx_confile (s : EnvState) : Except Stop EnvState := do
  stopIf (s.k + 3 ≥ argv.length) (.error xqx_confile_msg)
  let path ← arg argv (s.k + 1)
  let num ← number argv (s.k + 2) xqx_confile_msg
  let fill_method ← number argv (s.k + 3) xqx_confile_msg
  .ok { s with
    k := s.k + 4
    sym_parts := { s.sym_parts with path := some path, num := num, fill_method := fill_method } }

/-- `--xqx-offlen`. Its check compares `n_sym_file` with itself. -/
def xqx_offlen (s : EnvState) : Except Stop EnvState := do
  stopIf (s.k + 2 ≥ argv.length) (.error xqx_offlen_msg)
  stopIf (s.sym_parts.num = 0 ∨ s.n_sym_file.toNat > s.n_sym_file.toNat)
    (.error "--xqx-offlen must after --xqx-confile and less than its num")
  let offset ← number argv (s.k + 1) xqx_offlen_msg
  let p ← setPart s.sym_parts s.n_sym_file.toNat fun part => { part with offset := offset }
  let length ← number argv (s.k + 2) xqx_offlen_msg
  let p ← setPart p s.n_sym_file.toNat fun part => { part with length := length }
  .ok { s with k := s.k + 3, n_sym_file := s.n_sym_file + 1, sym_parts := p }

/-- An argument that is copied. -/
def copy (a : List Char) (s : EnvState) : Except Stop EnvState := do
  let new_argv ← add_arg s.new_argv (.copied a) 1024
  .ok { s with k := s.k + 1, new_argv := new_argv }

/-! ## The loop -/

/-- An option is spelled with one or two dashes. -/
def isOption (a : List Char) (name : String) : Bool :=
  streq a ('-' :: '-' :: name.toList) || streq a ('-' :: name.toList)

/-- The body of the loop. -/
def body (choose : ℕ → ℤ) (s : EnvState) (a : List Char) : Except Stop EnvState :=
  if isOption a "sym-arg" then sym_arg argv s
  else if isOption a "sym-args" then sym_args argv choose s
  else if isOption a "sym-files" then sym_files argv s
  else if isOption a "sym-stdout" then .ok { s with sym_stdout_flag := true, k := s.k + 1 }
  else if isOption a "save-all-writes" then
    .ok { s with save_all_writes_flag := true, k := s.k + 1 }
  else if isOption a "fd-fail" then .ok { s with fd_fail := 1, k := s.k + 1 }
  else if isOption a "max-fail" then max_fail argv s
  else if isOption a "xqx-args" then xqx_args argv s
  else if isOption a "xqx-sym-file" then xqx_sym_file argv s
  else if isOption a "xqx-confile" then xqx_confile argv s
  else if isOption a "xqx-offlen" then xqx_offlen argv s
  else copy a s

/-- One round of the loop. -/
def step (choose : ℕ → ℤ) (s : EnvState) : Except Stop EnvState := do
  let a ← arg argv s.k
  body argv choose s a

/-- The loop. The fuel is the number of rounds that it may take at most. -/
def loop (choose : ℕ → ℤ) : ℕ → EnvState → Except Stop EnvState
  | 0, s => .ok s
  | fuel + 1, s =>
      if s.k < argv.length then do
        let s ← step argv choose s
        loop choose fuel s
      else .ok s

/-- The variables before the loop. The first part is that of the static variable. -/
def start : EnvState :=
  { k := 0
    new_argv := []
    sym_arg_num := 0
    sym_files := 0
    sym_file_len := 0
    sym_stdout_flag := false
    save_all_writes_flag := false
    fd_fail := 0
    xargv0 := List.replicate 10 '\x00'
    xargv1 := List.replicate 10 '\x00'
    xargv2 := List.replicate 10 '\x00'
    n_sym_file := 0
    sym_parts := ⟨none, 0, 2, fun i => if i.val = 0 then ⟨0x103, 0x12⟩ else ⟨0, 0⟩⟩ }

def usage : String :=
  "klee_init_env

usage: (klee_init_env) [options] [program arguments]
  -sym-arg <N>              - Replace by a symbolic argument with length N
  -sym-args <MIN> <MAX> <N> - Replace by at least MIN arguments and at most
                              MAX arguments, each with maximum length N
  -sym-files <NUM> <N>      - Make stdin and up to NUM symbolic files, each
                              with maximum size N.
  -sym-stdout               - Make stdout symbolic.
  -max-fail <N>             - Allow up to <N> injected failures
  -fd-fail                  - Shortcut for '-max-fail 1'

"

/-- `--help` as the only argument. -/
def help : Bool :=
  argv.length = 2 && streq (argv.getD 1 []) "--help".toList

/-- `klee_init_env`. -/
def klee_init_env (choose : ℕ → ℤ) : Except Stop InitEnvResult := do
  stopIf (help argv) (.error usage)
  let s ← loop argv choose argv.length start
  .ok {
    argc := s.new_argv.length
    argv := s.new_argv.map some ++ [none]
    sym_parts := s.sym_parts
    sym_files := s.sym_files
    sym_file_len := s.sym_file_len
    sym_stdout_flag := s.sym_stdout_flag
    save_all_writes_flag := s.save_all_writes_flag
    fd_fail := s.fd_fail }

end InitEnv

end Xklee
