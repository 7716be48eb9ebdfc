/-
Integers of a run-time width: LLVM's `APInt`.

An `APInt` is a width and that many bits, so two values are equal exactly when
their widths and their bits are. Every operation below takes the width of its
left operand, as `APInt` does, and resizes the right one; on operands of one
width the resizing does nothing (`BitVec.setWidth_eq`), and that is the only
case the callers produce.

The last section relates concatenation and extraction, the two operations whose
widths are sums and differences. They are stated between `APInt`s rather than
between bit vectors so that no cast along an equation of widths is needed.
-/
import Mathlib

set_option autoImplicit false

/-- An integer of `width` bits. -/
structure APInt where
  width : ℕ
  bits : BitVec width
deriving DecidableEq, Repr

namespace APInt

/-! ## Construction and equality -/

/-- The value `v` truncated to `w` bits: the constructor `APInt(w, v)`. -/
def ofNat (w v : ℕ) : APInt := ⟨w, BitVec.ofNat w v⟩

/-- The one-bit integer of a truth value. -/
def ofBool (b : Bool) : APInt := ⟨1, BitVec.ofBool b⟩

/-- The unsigned value. -/
def toNat (a : APInt) : ℕ := a.bits.toNat

variable {w off : ℕ} {b a : APInt}

@[simp] theorem toNat_mk (x : BitVec w) : toNat ⟨w, x⟩ = x.toNat := rfl

theorem toNat_lt (a : APInt) : a.toNat < 2 ^ a.width := a.bits.isLt

@[simp] theorem mk_inj {x y : BitVec w} : (⟨w, x⟩ : APInt) = ⟨w, y⟩ ↔ x = y := by
  constructor
  · intro h
    injection h
  · rintro rfl
    rfl

theorem mk_cast {w' : ℕ} (h : w = w') (x : BitVec w) : (⟨w', x.cast h⟩ : APInt) = ⟨w, x⟩ := by
  subst h
  rfl

theorem eq_mk_of_width (h : a.width = w) : ∃ x : BitVec w, a = ⟨w, x⟩ := by
  subst h
  exact ⟨a.bits, rfl⟩

/-- Two integers of one width with the same bits are equal. -/
theorem ext_getLsbD (hw : a.width = b.width)
    (h : ∀ i, i < a.width → a.bits.getLsbD i = b.bits.getLsbD i) : a = b := by
  obtain ⟨w, x⟩ := a
  obtain ⟨y, rfl⟩ := eq_mk_of_width hw.symm
  simp only [mk_inj]
  exact BitVec.eq_of_getLsbD_eq h

/-- Two integers of one width with the same value are equal. -/
theorem ext_toNat (hw : a.width = b.width) (h : a.toNat = b.toNat) : a = b := by
  obtain ⟨w, x⟩ := a
  obtain ⟨y, rfl⟩ := eq_mk_of_width hw.symm
  simp only [mk_inj]
  exact BitVec.eq_of_toNat_eq h

/-! ## The operations -/

/-- A binary operation at the width of its left operand. -/
def lift₂ (f : ∀ {w : ℕ}, BitVec w → BitVec w → BitVec w) (a b : APInt) : APInt :=
  ⟨a.width, f a.bits (b.bits.setWidth a.width)⟩

/-- A comparison at the width of its left operand. -/
def lift₂b (f : ∀ {w : ℕ}, BitVec w → BitVec w → Bool) (a b : APInt) : APInt :=
  ofBool (f a.bits (b.bits.setWidth a.width))

@[simp] theorem lift₂_mk (f : ∀ {w : ℕ}, BitVec w → BitVec w → BitVec w) (x y : BitVec w) :
    lift₂ f ⟨w, x⟩ ⟨w, y⟩ = ⟨w, f x y⟩ := by
  simp [lift₂]

@[simp] theorem lift₂b_mk (f : ∀ {w : ℕ}, BitVec w → BitVec w → Bool) (x y : BitVec w) :
    lift₂b f ⟨w, x⟩ ⟨w, y⟩ = ofBool (f x y) := by
  simp [lift₂b]

/-- `zextOrTrunc`. -/
def zextOrTrunc (a : APInt) (w : ℕ) : APInt := ⟨w, a.bits.setWidth w⟩

/-- `sextOrTrunc`. -/
def sextOrTrunc (a : APInt) (w : ℕ) : APInt := ⟨w, a.bits.signExtend w⟩

/-- Concatenation, `a` on the more significant side. -/
def concat (a b : APInt) : APInt := ⟨a.width + b.width, a.bits ++ b.bits⟩

/-- The `w` bits of `a` from bit `off` on. -/
def extract (a : APInt) (off w : ℕ) : APInt := ⟨w, a.bits.extractLsb' off w⟩

/-- Bitwise complement. -/
def not (a : APInt) : APInt := ⟨a.width, ~~~a.bits⟩

/-! ## The tests -/

/-- `isMinValue`: all bits clear. -/
def isZero (a : APInt) : Bool := a.bits == 0#a.width

/-- `getLimitedValue() == 1`, the limit being the largest 64-bit value. -/
def isOne (a : APInt) : Bool := min a.toNat (2 ^ 64 - 1) == 1

/-- `isAllOnesValue`: all bits set. -/
def isAllOnes (a : APInt) : Bool := a.bits == BitVec.allOnes a.width

/-- The one-bit value 1. -/
def isTrue (a : APInt) : Bool := a.width == 1 && a.toNat != 0

/-- The one-bit value 0. -/
def isFalse (a : APInt) : Bool := a.width == 1 && a.toNat == 0

@[simp] theorem isZero_mk (x : BitVec w) : isZero ⟨w, x⟩ = true ↔ x = 0#w := by
  simp [isZero]

@[simp] theorem isAllOnes_mk (x : BitVec w) :
    isAllOnes ⟨w, x⟩ = true ↔ x = BitVec.allOnes w := by
  simp [isAllOnes]

@[simp] theorem isOne_mk (x : BitVec w) : isOne ⟨w, x⟩ = true ↔ x.toNat = 1 := by
  simp only [isOne, toNat_mk, beq_iff_eq]
  omega

/-- A one-bit vector is the vector of a truth value. -/
theorem eq_ofBool_of_width_one (x : BitVec 1) : ∃ b, x = BitVec.ofBool b := by
  refine ⟨x.getLsbD 0, ?_⟩
  apply BitVec.eq_of_getLsbD_eq
  intro i hi
  obtain rfl : i = 0 := by omega
  simp

theorem isTrue_iff (a : APInt) : a.isTrue = true ↔ a = ofBool true := by
  obtain ⟨w, x⟩ := a
  simp only [isTrue, Bool.and_eq_true, beq_iff_eq, bne_iff_ne, toNat_mk]
  constructor
  · rintro ⟨rfl, hx⟩
    obtain ⟨b, rfl⟩ := eq_ofBool_of_width_one x
    cases b
    · simp at hx
    · rfl
  · intro h
    obtain rfl : w = 1 := congrArg APInt.width h
    simp only [ofBool, mk_inj] at h
    subst h
    exact ⟨rfl, by decide⟩

theorem isFalse_iff (a : APInt) : a.isFalse = true ↔ a = ofBool false := by
  obtain ⟨w, x⟩ := a
  simp only [isFalse, Bool.and_eq_true, beq_iff_eq, toNat_mk]
  constructor
  · rintro ⟨rfl, hx⟩
    simp only [ofBool, mk_inj]
    exact BitVec.eq_of_toNat_eq (by simpa using hx)
  · intro h
    obtain rfl : w = 1 := congrArg APInt.width h
    simp only [ofBool, mk_inj] at h
    subst h
    exact ⟨rfl, by decide⟩

theorem ofBool_inj {b c : Bool} : ofBool b = ofBool c ↔ b = c := by
  cases b <;> cases c <;> simp [ofBool]

/-! ## Concatenation and extraction -/

/-- Extracting every bit changes nothing. -/
theorem extract_all (a : APInt) : a.extract 0 a.width = a := by
  refine ext_getLsbD (by rfl) (fun i hi => ?_)
  simp only [extract, BitVec.getLsbD_extractLsb', Nat.zero_add] at *
  simp [hi]

/-- Shifting right arithmetically and truncating extracts, as long as the
extracted bits lie inside the operand. -/
theorem setWidth_sshiftRight (x : BitVec w) {n : ℕ} (h : off + n ≤ w) :
    (x.sshiftRight off).setWidth n = x.extractLsb' off n := by
  apply BitVec.eq_of_getLsbD_eq
  intro i hi
  simp only [BitVec.getLsbD_setWidth, BitVec.getLsbD_sshiftRight, BitVec.getLsbD_extractLsb']
  have h1 : off + i < w := by omega
  have h2 : i < w := by omega
  simp [hi, h1, h2]

/-- An extract that lies in the left part of a concatenation. -/
theorem extract_concat_left (a b : APInt) (h : b.width ≤ off) :
    (a.concat b).extract off w = a.extract (off - b.width) w := by
  refine ext_getLsbD (by rfl) (fun i hi => ?_)
  simp only [extract, concat, BitVec.getLsbD_extractLsb', BitVec.getLsbD_append] at *
  have h1 : ¬ off + i < b.width := by omega
  have h2 : off + i - b.width = off - b.width + i := by omega
  simp [h1, h2]

/-- An extract that lies in the right part of a concatenation. -/
theorem extract_concat_right (a b : APInt) (h : off + w ≤ b.width) :
    (a.concat b).extract off w = b.extract off w := by
  refine ext_getLsbD (by rfl) (fun i hi => ?_)
  simp only [extract, concat, BitVec.getLsbD_extractLsb', BitVec.getLsbD_append] at *
  have h1 : off + i < b.width := by omega
  simp [h1]

/-- An extract that straddles a concatenation is the concatenation of the
extracts from its two parts. -/
theorem extract_concat_straddle (a b : APInt) (hl : off < b.width) (hr : b.width < off + w) :
    (a.concat b).extract off w
      = (a.extract 0 (w + off - b.width)).concat (b.extract off (b.width - off)) := by
  refine ext_getLsbD (by simp only [extract, concat]; omega) (fun i hi => ?_)
  simp only [extract, concat, BitVec.getLsbD_extractLsb', BitVec.getLsbD_append] at *
  by_cases hib : off + i < b.width
  · have h1 : i < b.width - off := by omega
    simp [hi, hib, h1]
  · have h1 : ¬ i < b.width - off := by omega
    have h2 : off + i - b.width = i - (b.width - off) := by omega
    have h3 : i - (b.width - off) < w + off - b.width := by omega
    simp [hi, hib, h1, h2, h3]

/-- Adjacent extracts of one value concatenate to one extract. -/
theorem concat_extract_extract (a : APInt) (off w w' : ℕ) :
    (a.extract (off + w') w).concat (a.extract off w') = a.extract off (w + w') := by
  refine ext_getLsbD (by rfl) (fun i hi => ?_)
  simp only [extract, concat, BitVec.getLsbD_extractLsb', BitVec.getLsbD_append] at *
  by_cases h1 : i < w'
  · simp [hi, h1]
  · have h2 : off + w' + (i - w') = off + i := by omega
    have h3 : i - w' < w := by omega
    simp [hi, h1, h2, h3]

/-- `zext`, `shl` and `or` concatenate. -/
theorem shl_or_zext (a b : APInt) :
    (⟨a.width + b.width, (a.bits.setWidth (a.width + b.width) <<< b.width)
      ||| b.bits.setWidth (a.width + b.width)⟩ : APInt) = a.concat b := by
  refine ext_getLsbD (by rfl) (fun i hi => ?_)
  simp only [concat, BitVec.getLsbD_or, BitVec.getLsbD_shiftLeft, BitVec.getLsbD_setWidth,
    BitVec.getLsbD_append] at *
  by_cases h1 : i < b.width
  · simp [hi, h1]
  · have h2 : b.bits.getLsbD i = false := BitVec.getLsbD_of_ge _ _ (by omega)
    have h3 : i - b.width < a.width + b.width := by omega
    simp [hi, h1, h2, h3]

end APInt
