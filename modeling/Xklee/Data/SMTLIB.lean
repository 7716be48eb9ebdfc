/-
The part of SMT-LIB 2 that talks about bit vectors and arrays of them.

Terms are the abstract syntax of the concrete ones: one constructor for each
number of arguments, over the function symbols with that many. A term has a sort
in a context of symbols (`Term.sort`) and a value in an interpretation of them
(`Term.eval`); both are partial, and `Term.sort_eval` says that they are defined
together. `let` binds in parallel and stands only on top of an assertion.

The zero divisor has the meaning the standard gives it. The equality of arrays
and the commands that set options are left out.
-/
import Xklee.Data.APInt

set_option autoImplicit false

namespace SMTLIB

/-! ## Sorts and values -/

inductive Srt where
  | bool
  | bitVec (width : ℕ)
  | array (domain range : ℕ)
deriving DecidableEq, Repr

inductive Value where
  | bool (b : Bool)
  | bitVec (x : APInt)
  | array (domain range : ℕ) (f : BitVec domain → BitVec range)

namespace Value

def sort : Value → Srt
  | .bool _ => .bool
  | .bitVec x => .bitVec x.width
  | .array d r _ => .array d r

@[simp] theorem sort_bool (b : Bool) : (Value.bool b).sort = .bool := rfl
@[simp] theorem sort_bitVec (x : APInt) : (Value.bitVec x).sort = .bitVec x.width := rfl
@[simp] theorem sort_array (d r : ℕ) (f : BitVec d → BitVec r) :
    (Value.array d r f).sort = .array d r := rfl

end Value

/-! ## Function symbols -/

inductive BoolFn where
  | and | or | xor
deriving DecidableEq, Repr

inductive BitVecFn where
  | bvand | bvor | bvxor | bvadd | bvsub | bvmul | bvudiv | bvsdiv | bvurem | bvsrem
  | bvshl | bvlshr | bvashr
deriving DecidableEq, Repr

inductive BitVecRel where
  | bvult | bvule | bvugt | bvuge | bvslt | bvsle | bvsgt | bvsge
deriving DecidableEq, Repr

inductive Fn₁ where
  | not | bvnot
  | extract (high low : ℕ)
  | zero_extend (n : ℕ)
  | sign_extend (n : ℕ)
deriving DecidableEq, Repr

inductive Fn₂ where
  | bool (f : BoolFn)
  | bitVec (f : BitVecFn)
  | rel (f : BitVecRel)
  | eq | concat | select
deriving DecidableEq, Repr

inductive Fn₃ where
  | ite | store
deriving DecidableEq, Repr

def BoolFn.apply : BoolFn → Bool → Bool → Bool
  | .and, a, b => a && b
  | .or, a, b => a || b
  | .xor, a, b => a ^^ b

def BitVecFn.apply {w : ℕ} : BitVecFn → BitVec w → BitVec w → BitVec w
  | .bvand, x, y => x &&& y
  | .bvor, x, y => x ||| y
  | .bvxor, x, y => x ^^^ y
  | .bvadd, x, y => x + y
  | .bvsub, x, y => x - y
  | .bvmul, x, y => x * y
  | .bvudiv, x, y => x.smtUDiv y
  | .bvsdiv, x, y => x.smtSDiv y
  | .bvurem, x, y => x.umod y
  | .bvsrem, x, y => x.srem y
  | .bvshl, x, y => x <<< y
  | .bvlshr, x, y => x >>> y
  | .bvashr, x, y => x.sshiftRight' y

def BitVecRel.apply {w : ℕ} : BitVecRel → BitVec w → BitVec w → Bool
  | .bvult, x, y => x.ult y
  | .bvule, x, y => x.ule y
  | .bvugt, x, y => y.ult x
  | .bvuge, x, y => y.ule x
  | .bvslt, x, y => x.slt y
  | .bvsle, x, y => x.sle y
  | .bvsgt, x, y => y.slt x
  | .bvsge, x, y => y.sle x

namespace Fn₁

def sort : Fn₁ → Srt → Option Srt
  | .not, .bool => some .bool
  | .bvnot, .bitVec w => some (.bitVec w)
  | .extract high low, .bitVec w =>
      if low ≤ high ∧ high < w then some (.bitVec (high - low + 1)) else none
  | .zero_extend n, .bitVec w => some (.bitVec (w + n))
  | .sign_extend n, .bitVec w => some (.bitVec (w + n))
  | _, _ => none

def apply : Fn₁ → Value → Option Value
  | .not, .bool b => some (.bool !b)
  | .bvnot, .bitVec x => some (.bitVec x.not)
  | .extract high low, .bitVec x =>
      if low ≤ high ∧ high < x.width then some (.bitVec (x.extract low (high - low + 1))) else none
  | .zero_extend n, .bitVec x => some (.bitVec (x.zextOrTrunc (x.width + n)))
  | .sign_extend n, .bitVec x => some (.bitVec (x.sextOrTrunc (x.width + n)))
  | _, _ => none

theorem sort_apply (f : Fn₁) (v : Value) : (f.apply v).map Value.sort = f.sort v.sort := by
  cases f <;> cases v <;> simp only [apply, sort, Value.sort, Option.map_some, Option.map_none,
    APInt.not, APInt.zextOrTrunc, APInt.sextOrTrunc]
  split <;> rfl

end Fn₁

namespace Fn₂

def sort : Fn₂ → Srt → Srt → Option Srt
  | .bool _, .bool, .bool => some .bool
  | .bitVec _, .bitVec w, .bitVec w' => if w = w' then some (.bitVec w) else none
  | .rel _, .bitVec w, .bitVec w' => if w = w' then some .bool else none
  | .eq, .bool, .bool => some .bool
  | .eq, .bitVec w, .bitVec w' => if w = w' then some .bool else none
  | .concat, .bitVec w, .bitVec w' => some (.bitVec (w + w'))
  | .select, .array d r, .bitVec w => if w = d then some (.bitVec r) else none
  | _, _, _ => none

def apply : Fn₂ → Value → Value → Option Value
  | .bool f, .bool a, .bool b => some (.bool (f.apply a b))
  | .bitVec f, .bitVec x, .bitVec y =>
      if x.width = y.width then some (.bitVec (APInt.lift₂ f.apply x y)) else none
  | .rel f, .bitVec x, .bitVec y =>
      if x.width = y.width then some (.bool (f.apply x.bits (y.bits.setWidth x.width))) else none
  | .eq, .bool a, .bool b => some (.bool (a == b))
  | .eq, .bitVec x, .bitVec y =>
      if x.width = y.width then some (.bool (x.bits == y.bits.setWidth x.width)) else none
  | .concat, .bitVec x, .bitVec y => some (.bitVec (x.concat y))
  | .select, .array d r f, .bitVec x =>
      if x.width = d then some (.bitVec ⟨r, f (x.bits.setWidth d)⟩) else none
  | _, _, _ => none

theorem sort_apply (f : Fn₂) (v v' : Value) :
    (f.apply v v').map Value.sort = f.sort v.sort v'.sort := by
  cases f <;> cases v <;> cases v' <;> simp only [apply, sort, Value.sort, Option.map_some,
    Option.map_none, APInt.concat] <;> split <;> rfl

end Fn₂

namespace Fn₃

def sort : Fn₃ → Srt → Srt → Srt → Option Srt
  | .ite, .bool, s, s' => if s = s' then some s else none
  | .store, .array d r, .bitVec w, .bitVec w' =>
      if w = d ∧ w' = r then some (.array d r) else none
  | _, _, _, _ => none

def apply : Fn₃ → Value → Value → Value → Option Value
  | .ite, .bool b, v, v' => if v.sort = v'.sort then some (if b then v else v') else none
  | .store, .array d r f, .bitVec x, .bitVec y =>
      if x.width = d ∧ y.width = r then
        some (.array d r (Function.update f (x.bits.setWidth d) (y.bits.setWidth r)))
      else none
  | _, _, _, _ => none

theorem sort_apply (f : Fn₃) (v v' v'' : Value) :
    (f.apply v v' v'').map Value.sort = f.sort v.sort v'.sort v''.sort := by
  cases f with
  | ite =>
    cases v with
    | bool b =>
      simp only [apply, sort, Value.sort_bool]
      split
      next h => cases b <;> simp [h]
      next => rfl
    | bitVec x => rfl
    | array d r f => rfl
  | store =>
    cases v <;> cases v' <;> cases v'' <;> simp only [apply, sort, Value.sort, Option.map_none]
    split <;> rfl

end Fn₃

/-! ## Literals -/

/-- A bit-vector literal; digits stand most significant first. -/
inductive Literal where
  /-- `(_ bv<value> <width>)` -/
  | dec (value width : ℕ)
  /-- `#b<digits>` -/
  | bin (digits : List ℕ)
  /-- `#x<digits>` -/
  | hex (digits : List ℕ)
deriving DecidableEq, Repr

namespace Literal

/-- What the literal stands for, when it stands for something. -/
def value : Literal → Option APInt
  | .dec value width => if 0 < width ∧ value < 2 ^ width then some (.ofNat width value) else none
  | .bin digits =>
      if digits ≠ [] ∧ ∀ d ∈ digits, d < 2 then
        some (.ofNat digits.length (Nat.ofDigits 2 digits.reverse))
      else none
  | .hex digits =>
      if digits ≠ [] ∧ ∀ d ∈ digits, d < 16 then
        some (.ofNat (4 * digits.length) (Nat.ofDigits 16 digits.reverse))
      else none

/-- The decimal literal of a number of that many bits stands for the number. -/
theorem value_dec {c : APInt} (h : 0 < c.width) : (Literal.dec c.toNat c.width).value = some c := by
  have hlt : c.toNat < 2 ^ c.width := c.toNat_lt
  rw [value, if_pos ⟨h, hlt⟩, Option.some.injEq]
  refine APInt.ext_toNat rfl ?_
  rw [APInt.ofNat, APInt.toNat_mk, BitVec.toNat_ofNat, Nat.mod_eq_of_lt hlt]

end Literal

/-! ## Terms -/

inductive Term where
  | bool (b : Bool)
  | literal (c : Literal)
  | symbol (name : String)
  | app₁ (f : Fn₁) (t : Term)
  | app₂ (f : Fn₂) (t t' : Term)
  | app₃ (f : Fn₃) (t t' t'' : Term)
deriving DecidableEq, Repr

/-- What the symbols stand for. -/
abbrev Interp := String → Option Value

namespace Term

def sort (Γ : String → Option Srt) : Term → Option Srt
  | .bool _ => some .bool
  | .literal c => c.value.map fun x => .bitVec x.width
  | .symbol name => Γ name
  | .app₁ f t => (t.sort Γ).bind f.sort
  | .app₂ f t t' => (t.sort Γ).bind fun s => (t'.sort Γ).bind fun s' => f.sort s s'
  | .app₃ f t t' t'' =>
      (t.sort Γ).bind fun s => (t'.sort Γ).bind fun s' => (t''.sort Γ).bind fun s'' =>
        f.sort s s' s''

def eval (I : Interp) : Term → Option Value
  | .bool b => some (.bool b)
  | .literal c => c.value.map .bitVec
  | .symbol name => I name
  | .app₁ f t => (t.eval I).bind f.apply
  | .app₂ f t t' => (t.eval I).bind fun v => (t'.eval I).bind fun v' => f.apply v v'
  | .app₃ f t t' t'' =>
      (t.eval I).bind fun v => (t'.eval I).bind fun v' => (t''.eval I).bind fun v'' =>
        f.apply v v' v''

/-- The symbols of a term. -/
def symbols : Term → List String
  | .bool _ | .literal _ => []
  | .symbol name => [name]
  | .app₁ _ t => t.symbols
  | .app₂ _ t t' => t.symbols ++ t'.symbols
  | .app₃ _ t t' t'' => t.symbols ++ t'.symbols ++ t''.symbols

/-- A term has a value exactly when it has a sort, and the value is of that sort. -/
theorem sort_eval (I : Interp) (t : Term) :
    (t.eval I).map Value.sort = t.sort (fun name => (I name).map Value.sort) := by
  induction t with
  | bool b => rfl
  | literal c =>
    rw [eval, sort, Option.map_map]
    rfl
  | symbol name => rfl
  | app₁ f t ih =>
    rw [eval, sort, ← ih]
    cases t.eval I with
    | none => rfl
    | some v => exact f.sort_apply v
  | app₂ f t t' ih ih' =>
    rw [eval, sort, ← ih, ← ih']
    cases t.eval I with
    | none => rfl
    | some v =>
      cases t'.eval I with
      | none => rfl
      | some v' => exact f.sort_apply v v'
  | app₃ f t t' t'' ih ih' ih'' =>
    rw [eval, sort, ← ih, ← ih', ← ih'']
    cases t.eval I with
    | none => rfl
    | some v =>
      cases t'.eval I with
      | none => rfl
      | some v' =>
        cases t''.eval I with
        | none => rfl
        | some v'' => exact f.sort_apply v v' v''

/-- Every symbol of a term that has a sort is in the context. -/
theorem mem_symbols_of_sort {Γ : String → Option Srt} {t : Term} {s : Srt}
    (h : t.sort Γ = some s) : ∀ name ∈ t.symbols, (Γ name).isSome := by
  induction t generalizing s with
  | bool b => simp [symbols]
  | literal c => simp [symbols]
  | symbol name =>
    intro name' hname
    rw [List.mem_singleton.mp hname]
    exact Option.isSome_of_eq_some h
  | app₁ f t ih =>
    obtain ⟨st, ht, -⟩ := Option.bind_eq_some_iff.mp h
    exact ih ht
  | app₂ f t t' ih ih' =>
    obtain ⟨st, ht, hrest⟩ := Option.bind_eq_some_iff.mp h
    obtain ⟨st', ht', -⟩ := Option.bind_eq_some_iff.mp hrest
    exact List.forall_mem_append.mpr ⟨ih ht, ih' ht'⟩
  | app₃ f t t' t'' ih ih' ih'' =>
    obtain ⟨st, ht, hrest⟩ := Option.bind_eq_some_iff.mp h
    obtain ⟨st', ht', hrest'⟩ := Option.bind_eq_some_iff.mp hrest
    obtain ⟨st'', ht'', -⟩ := Option.bind_eq_some_iff.mp hrest'
    exact List.forall_mem_append.mpr ⟨List.forall_mem_append.mpr ⟨ih ht, ih' ht'⟩, ih'' ht''⟩

end Term

/-! ## Assertions -/

/-- `(let (bindings) body)`, or the body alone where there are no bindings. -/
structure LetTerm where
  bindings : List (String × Term)
  body : Term
deriving DecidableEq, Repr

namespace LetTerm

/-- A context with the bindings on top of it. -/
def extend {α : Type} (f : String → Option α) (g : Term → Option α)
    (bindings : List (String × Term)) (name : String) : Option α :=
  match bindings.lookup name with
  | some t => g t
  | none => f name

def sort (Γ : String → Option Srt) (t : LetTerm) : Option Srt :=
  if (t.bindings.map Prod.fst).Nodup ∧ ∀ b ∈ t.bindings, (b.2.sort Γ).isSome then
    t.body.sort (extend Γ (Term.sort Γ) t.bindings)
  else none

def eval (I : Interp) (t : LetTerm) : Option Value :=
  if (t.bindings.map Prod.fst).Nodup ∧ ∀ b ∈ t.bindings, (b.2.eval I).isSome then
    t.body.eval (extend I (Term.eval I) t.bindings)
  else none

/-- The free symbols. -/
def symbols (t : LetTerm) : List String :=
  t.bindings.flatMap (fun b => b.2.symbols)
    ++ t.body.symbols.filter (fun name => (t.bindings.lookup name).isNone)

/-- Sorts and values of `let` terms are defined together as well. -/
theorem sort_eval (I : Interp) (t : LetTerm) :
    (t.eval I).map Value.sort = t.sort (fun name => (I name).map Value.sort) := by
  have hsome : ∀ u : Term, (u.sort (fun name => (I name).map Value.sort)).isSome
      = (u.eval I).isSome := by
    intro u
    rw [← Term.sort_eval, Option.isSome_map]
  have hextend : (fun name => (extend I (Term.eval I) t.bindings name).map Value.sort)
      = extend (fun name => (I name).map Value.sort)
        (Term.sort fun name => (I name).map Value.sort) t.bindings := by
    funext name
    rw [extend, extend]
    cases t.bindings.lookup name with
    | none => rfl
    | some u => exact Term.sort_eval I u
  rw [eval, sort]
  simp only [hsome]
  split
  · rw [Term.sort_eval, hextend]
  · rfl

/-- Every free symbol of a term that has a sort is in the context. -/
theorem mem_symbols_of_sort {Γ : String → Option Srt} {t : LetTerm} {s : Srt}
    (h : t.sort Γ = some s) : ∀ name ∈ t.symbols, (Γ name).isSome := by
  unfold sort at h
  split at h
  next hbindings =>
    intro name hname
    rcases List.mem_append.mp hname with hname | hname
    · obtain ⟨b, hb, hname⟩ := List.mem_flatMap.mp hname
      obtain ⟨s', hs'⟩ := Option.isSome_iff_exists.mp (hbindings.2 b hb)
      exact Term.mem_symbols_of_sort hs' name hname
    · obtain ⟨hname, hfree⟩ := List.mem_filter.mp hname
      have hsome := Term.mem_symbols_of_sort h name hname
      rw [extend, Option.isNone_iff_eq_none.mp hfree] at hsome
      exact hsome
  next => exact absurd h (by simp)

/-- Without bindings there is the body. -/
theorem eval_nil (I : Interp) (body : Term) : eval I ⟨[], body⟩ = body.eval I := by
  have hextend : extend I (Term.eval I) [] = I := rfl
  rw [eval, hextend, if_pos ⟨List.nodup_nil, by simp⟩]

end LetTerm

/-! ## Scripts -/

inductive Logic where
  | QF_ABV | QF_AUFBV
deriving DecidableEq, Repr

inductive Command where
  | setLogic (logic : Logic)
  | declareFun (name : String) (sort : Srt)
  | assert (t : LetTerm)
  | checkSat
  | getValue (t : Term)
  | exit
deriving DecidableEq, Repr

namespace Command

/-- What a command declares. -/
def declares : Command → List (String × Srt)
  | .declareFun name sort => [(name, sort)]
  | _ => []

/-- What a command asserts. -/
def asserts : Command → List LetTerm
  | .assert t => [t]
  | _ => []

/-- The symbols that a command uses. -/
def symbols : Command → List String
  | .assert t => t.symbols
  | .getValue t => t.symbols
  | _ => []

/-- A command is in order after the given declarations. -/
def Ok (declared : List (String × Srt)) : Command → Prop
  | .declareFun name _ => name ∉ declared.map Prod.fst
  | .assert t => t.sort (fun name => declared.lookup name) = some .bool
  | .getValue t => (t.sort fun name => declared.lookup name).isSome
  | _ => True

end Command

abbrev Script := List Command

namespace Script

def declared (script : Script) : List (String × Srt) := script.flatMap Command.declares

def assertions (script : Script) : List LetTerm := script.flatMap Command.asserts

/-- Every command is in order after the declarations before it. -/
def WellFormedAfter (declared : List (String × Srt)) : Script → Prop
  | [] => True
  | c :: script => c.Ok declared ∧ WellFormedAfter (declared ++ c.declares) script

def WellFormed (script : Script) : Prop := WellFormedAfter [] script

/-- An interpretation gives the declared symbols values of their sorts, and no
others a value. -/
def Interprets (script : Script) (I : Interp) : Prop :=
  ∀ name, (I name).map Value.sort = (declared script).lookup name

/-- Some interpretation of the declared symbols makes every assertion true. -/
def Satisfiable (script : Script) : Prop :=
  ∃ I, script.Interprets I ∧ ∀ t ∈ script.assertions, t.eval I = some (.bool true)

section WellFormed

variable {before : List (String × Srt)}

theorem wellFormedAfter_append {script script' : Script} :
    WellFormedAfter before (script ++ script')
      ↔ WellFormedAfter before script ∧ WellFormedAfter (before ++ declared script) script' := by
  induction script generalizing before with
  | nil => simp [WellFormedAfter, declared]
  | cons c script ih =>
    have hdeclared : declared (c :: script) = c.declares ++ declared script := List.flatMap_cons
    rw [List.cons_append, WellFormedAfter, ih, WellFormedAfter, and_assoc, hdeclared,
      List.append_assoc]

/-- Commands that declare nothing. -/
theorem wellFormedAfter_of_declares_eq_nil {script : Script} (h : ∀ c ∈ script, c.declares = []) :
    WellFormedAfter before script ↔ ∀ c ∈ script, c.Ok before := by
  induction script with
  | nil => simp [WellFormedAfter]
  | cons c script ih =>
    obtain ⟨hc, hscript⟩ := List.forall_mem_cons.mp h
    rw [WellFormedAfter, hc, List.append_nil, ih hscript, List.forall_mem_cons]

/-- Declarations of new symbols. -/
theorem wellFormedAfter_declareFun {decls : List (String × Srt)} :
    WellFormedAfter before (decls.map fun d => .declareFun d.1 d.2)
      ↔ (decls.map Prod.fst).Nodup ∧ ∀ d ∈ decls, d.1 ∉ before.map Prod.fst := by
  induction decls generalizing before with
  | nil => simp [WellFormedAfter]
  | cons d decls ih =>
    have hok : (Command.declareFun d.1 d.2).Ok before ↔ d.1 ∉ before.map Prod.fst := Iff.rfl
    have hdeclares : (Command.declareFun d.1 d.2).declares = [d] := rfl
    rw [List.map_cons, WellFormedAfter, hok, hdeclares, ih, List.map_cons, List.nodup_cons,
      List.forall_mem_cons]
    simp only [List.map_append, List.map_cons, List.map_nil, List.mem_append, List.mem_singleton,
      not_or]
    constructor
    · rintro ⟨hd, hnodup, hrest⟩
      refine ⟨⟨fun hmem => ?_, hnodup⟩, hd, fun d' hd' => (hrest d' hd').1⟩
      obtain ⟨d', hd', heq⟩ := List.mem_map.mp hmem
      exact (hrest d' hd').2 heq
    · rintro ⟨⟨hnot, hnodup⟩, hd, hrest⟩
      refine ⟨hd, hnodup, fun d' hd' => ⟨hrest d' hd', fun heq => hnot ?_⟩⟩
      rw [← heq]
      exact List.mem_map_of_mem hd'

theorem mem_assertions_iff {script : Script} {t : LetTerm} :
    t ∈ script.assertions ↔ Command.assert t ∈ script := by
  rw [assertions, List.mem_flatMap]
  constructor
  · rintro ⟨c, hc, ht⟩
    cases c with
    | assert t' =>
      rw [List.mem_singleton.mp ht]
      exact hc
    | _ => exact absurd ht List.not_mem_nil
  · intro h
    exact ⟨_, h, List.mem_singleton_self t⟩

end WellFormed

end Script

end SMTLIB
