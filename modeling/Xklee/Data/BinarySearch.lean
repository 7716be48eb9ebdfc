/-
Binary search on machine words.

`bisect test lo hi` looks between `lo` and `hi` for the least word at which a test succeeds. The
midpoint is computed as `lo + (hi - lo) / 2`, which does not wrap, so that the search is right up to
the largest word there is. `bisect_isLeast` says what it finds when what is tested is upward closed
and holds at the upper end, where it is never tested. A test may fail, and the search with it.
-/
import Mathlib.Data.BitVec
import Mathlib.Order.Bounds.Defs

set_option autoImplicit false

namespace BinarySearch

variable {w : ℕ}

/-- The word half-way from `lo` to `hi`. -/
def midpoint (lo hi : BitVec w) : BitVec w := lo + (hi - lo) / 2

/-- Half of a word, also of one that has no bits for 2. -/
theorem toNat_div_two (x : BitVec w) : (x / 2).toNat = x.toNat / 2 := by
  have hx := x.isLt
  have htwo : (x / 2).toNat = x.toNat / (2 % 2 ^ w) := BitVec.toNat_udiv
  rw [htwo]
  match w with
  | 0 => omega
  | 1 =>
    change x.toNat / 0 = x.toNat / 2
    omega
  | w + 2 =>
    have hpow : 2 ^ (w + 2) = 2 ^ w * 4 := pow_add 2 w 2
    have hpos : 0 < 2 ^ w := Nat.two_pow_pos w
    rw [Nat.mod_eq_of_lt (by omega : 2 < 2 ^ (w + 2))]

variable {lo hi : BitVec w} {test : BitVec w → Option Bool} {P : BitVec w → Prop}

theorem toNat_midpoint (h : lo < hi) :
    (midpoint lo hi).toNat = lo.toNat + (hi.toNat - lo.toNat) / 2 := by
  have hlt : lo.toNat < hi.toNat := h
  have hhi := hi.isLt
  have hsub : (hi - lo).toNat = hi.toNat - lo.toNat := BitVec.toNat_sub_of_le (Nat.le_of_lt hlt)
  rw [midpoint, BitVec.toNat_add, toNat_div_two, hsub]
  exact Nat.mod_eq_of_lt (by omega)

theorem le_midpoint (h : lo < hi) : lo ≤ midpoint lo hi := by
  rw [BitVec.le_def, toNat_midpoint h]
  omega

theorem midpoint_lt (h : lo < hi) : midpoint lo hi < hi := by
  have hlt : lo.toNat < hi.toNat := h
  rw [BitVec.lt_def, toNat_midpoint h]
  omega

/-- The successor of the midpoint does not wrap either. -/
theorem toNat_midpoint_add_one (h : lo < hi) :
    (midpoint lo hi + 1).toNat = (midpoint lo hi).toNat + 1 := by
  have hlt : (midpoint lo hi).toNat < hi.toNat := midpoint_lt h
  have hhi := hi.isLt
  have hone : (1 : BitVec w).toNat = 1 % 2 ^ w := BitVec.toNat_ofNat 1 w
  have hpow : 1 < 2 ^ w := by omega
  rw [BitVec.toNat_add, hone, Nat.mod_eq_of_lt hpow]
  exact Nat.mod_eq_of_lt (by omega)

/-- The loop of a binary search: `lo` and `hi` close in on the least word at which the test
succeeds. -/
def bisect (test : BitVec w → Option Bool) (lo hi : BitVec w) : Option (BitVec w) :=
  if _ : lo < hi then
    match test (midpoint lo hi) with
    | none => none
    | some true => bisect test lo (midpoint lo hi)
    | some false => bisect test (midpoint lo hi + 1) hi
  else some lo
termination_by hi.toNat - lo.toNat
decreasing_by
  · have hlt : lo < hi := by assumption
    have hlo : lo.toNat < hi.toNat := hlt
    have hmid : (midpoint lo hi).toNat < hi.toNat := midpoint_lt hlt
    omega
  · have hlt : lo < hi := by assumption
    have hle : lo.toNat ≤ (midpoint lo hi).toNat := le_midpoint hlt
    have hmid : (midpoint lo hi).toNat < hi.toNat := midpoint_lt hlt
    rw [toNat_midpoint_add_one hlt]
    omega

/-- What is tested is upward closed between the ends, and the test tells it apart. -/
structure Decides (test : BitVec w → Option Bool) (P : BitVec w → Prop) (lo hi : BitVec w) :
    Prop where
  answers : ∀ x, lo ≤ x → x < hi → ∃ b, test x = some b ∧ (b = true ↔ P x)
  mono : ∀ x y, lo ≤ x → x ≤ y → y ≤ hi → P x → P y
  upper : P hi

theorem Decides.lower {mid : BitVec w} (h : Decides test P lo hi) (hlt : mid < hi) (hmid : P mid) :
    Decides test P lo mid where
  answers x hlo hx := h.answers x hlo (BitVec.lt_trans hx hlt)
  mono x y hlo hxy hy := h.mono x y hlo hxy (BitVec.le_trans hy (BitVec.le_of_lt hlt))
  upper := hmid

theorem Decides.raise {lo' : BitVec w} (h : Decides test P lo hi) (hle : lo ≤ lo') :
    Decides test P lo' hi where
  answers x hlo hx := h.answers x (BitVec.le_trans hle hlo) hx
  mono x y hlo := h.mono x y (BitVec.le_trans hle hlo)
  upper := h.upper

/-- The search finds the least word between the ends at which the property holds. -/
theorem bisect_isLeast (hle : lo ≤ hi) (h : Decides test P lo hi) :
    ∃ r, bisect test lo hi = some r ∧ r ≤ hi ∧ IsLeast {x | lo ≤ x ∧ P x} r := by
  induction lo, hi using bisect.induct test with
  | case1 lo hi hlt hnone =>
    obtain ⟨b, hb, -⟩ := h.answers _ (le_midpoint hlt) (midpoint_lt hlt)
    rw [hnone] at hb
    exact absurd hb (Option.some_ne_none b).symm
  | case2 lo hi hlt htrue ih =>
    -- it holds at the midpoint, and the search goes on below
    obtain ⟨b, hb, hiff⟩ := h.answers _ (le_midpoint hlt) (midpoint_lt hlt)
    have hb' : b = true := Option.some.inj (hb.symm.trans htrue)
    obtain ⟨r, hr, hrhi, hleast⟩ := ih (le_midpoint hlt) (h.lower (midpoint_lt hlt) (hiff.mp hb'))
    refine ⟨r, ?_, BitVec.le_trans hrhi (BitVec.le_of_lt (midpoint_lt hlt)), hleast⟩
    rw [bisect, dif_pos hlt, htrue]
    exact hr
  | case3 lo hi hlt hfalse ih =>
    -- it holds nowhere up to the midpoint
    obtain ⟨b, hb, hiff⟩ := h.answers _ (le_midpoint hlt) (midpoint_lt hlt)
    have hb' : b = false := Option.some.inj (hb.symm.trans hfalse)
    have hnot : ¬P (midpoint lo hi) := by
      intro hP
      exact absurd (hb'.symm.trans (hiff.mpr hP)) Bool.noConfusion
    have hle' : (midpoint lo hi).toNat + 1 ≤ hi.toNat := midpoint_lt hlt
    have hsucc := toNat_midpoint_add_one hlt
    have hlo : lo.toNat ≤ (midpoint lo hi).toNat := le_midpoint hlt
    have hlo' : lo ≤ midpoint lo hi + 1 := by
      rw [BitVec.le_def, hsucc]
      omega
    obtain ⟨r, hr, hrhi, ⟨hrlo, hPr⟩, hleast⟩ := ih (by rw [BitVec.le_def, hsucc]; exact hle')
      (h.raise hlo')
    refine ⟨r, ?_, hrhi, ⟨BitVec.le_trans hlo' hrlo, hPr⟩, ?_⟩
    · rw [bisect, dif_pos hlt, hfalse]
      exact hr
    · rintro x ⟨hx, hPx⟩
      apply hleast
      refine ⟨?_, hPx⟩
      by_contra hlow
      rw [BitVec.not_le, BitVec.lt_def, hsucc] at hlow
      exact hnot (h.mono x _ hx (Nat.le_of_lt_succ hlow) (BitVec.le_of_lt (midpoint_lt hlt)) hPx)
  | case4 lo hi hge =>
    have heq : lo = hi := BitVec.le_antisymm hle (BitVec.not_lt.mp hge)
    refine ⟨lo, ?_, hle, ⟨BitVec.le_refl lo, heq ▸ h.upper⟩, fun x hx => hx.1⟩
    rw [bisect, dif_neg hge]

end BinarySearch
